import QvCache.Lib.Double
import QvCache.Lib.Table
import QvCache.Lib.Traces
import QvCache.Theta.RegionSpec
import QvCache.Theta.Thresholds
import QvCache.Theta.Accounting
import QvCache.Theta.Evidence
import QvCache.Theta.Learning
import QvCache.Theta.Padding
import QvCache.Theta.Turnover
import QvCache.Theta.WriteRadius
import QvCache.Theta.Loosening
import QvCache.Theta.RegionKeys
import QvCache.Theta.PcaFile
import QvCache.Data.TableLoad
import QvCache.Backend.ArrayCopy
import QvCache.Cache.HitSpec
import QvCache.Cache.MergeSpec
import QvCache.Cache.Orientation
import QvCache.Cache.Shape
import QvCache.Cache.Agreement
import QvCache.Cache.AdmitOrder
import QvCache.Cache.HitOrder
import QvCache.System.Moves
import QvCache.System.Shelf
import QvCache.System.Removal
import QvCache.System.Resurrection
import QvCache.System.Freshness
import QvCache.System.Thetas
import QvCache.System.Penalty
import QvCache.System.Strategies
import QvCache.System.Bookkeeping
import QvCache.System.Admission
import QvCache.System.Record
import QvCache.System.FailedWrite
import QvCache.System.Provenance
import QvCache.Backend.LocalView
import QvCache.Backend.RowOrder
import QvCache.Backend.AdmitReply
import QvCache.Backend.GilBalance
import QvCache.Backend.PythonWrapper
import QvCache.Cache.LruNodes
import QvCache.Cache.OneRegion
import QvCache.Backend.TextFormat
import QvCache.Bench.LiveTruth
import QvCache.Bench.Truthset
import QvCache.Bench.Windows
import QvCache.Data.Sampling
import QvCache.Pool.Wakeup
import QvCache.Pool.Ledger
import QvCache.Pool.Failure
import QvCache.Pool.Shutdown
import QvCache.Pool.ParallelFor
import QvCache.Vamana.Search
import QvCache.Vamana.Prune
import QvCache.Vamana.Graph
import QvCache.Vamana.Refines
import QvCache.Vamana.Queries
import QvCache.Vamana.Runs
import QvCache.Vamana.Connected
import QvCache.Vamana.Threads
import QvCache.Vamana.Interleavings
import QvCache.Vamana.Shared
import QvCache.Vamana.Progress
import QvCache.Vamana.Solo
import QvCache.Lib.Locks
import QvCache.Vamana.Locks
import QvCache.Cache.MetricHits
