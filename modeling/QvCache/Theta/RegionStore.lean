/-
  QvCache.Theta.RegionStore

  The regional threshold store `PCAUtils` (include/qvcache/pca_utils.h): one
  table of thresholds theta(K) for each PCA region, the write discount of each
  region, and the order in which the regions were created.

  Every function runs under `region_theta_map_mutex` in the source; the two
  lock sections of `isHit` and `update_theta` are serialised by QVCache's
  `theta_map_mutex`, so each of the two is one step here.
-/

import QvCache.Lib.Double
import QvCache.Lib.Table

namespace QvCache

/-- `diskann::Metric`. -/
inductive Metric where
  | L2
  | innerProduct
  | cosine
  | fastL2
deriving DecidableEq

/-- `PCAUtils::RegionKey`: one bucket code for each PCA dimension. -/
abbrev RegionKey := List UInt8

/-- The thresholds of one region, by K. -/
abbrev ThetaEntry := Table Nat Double

/-- The members of `PCAUtils` that the constructor fixes.  `computeRegionKey`
    is the PCA projection followed by the bucketing. -/
structure PcaConfig (V : Type) where
  metric : Metric
  bucketsPerDim : Nat
  maxRegions : Nat
  computeRegionKey : V → RegionKey

/-- The members of `PCAUtils` that change. -/
structure PcaUtils where
  regionThetaMap : Table RegionKey ThetaEntry
  regionDiscountMap : Table RegionKey ℚ
  regionInsertionOrder : List RegionKey
  writeL1Radius : Nat

/-! ## Sentinels -/

/-- The threshold that stands for "not learned yet". -/
def uninitializedTheta (metric : Metric) : Double :=
  if metric = .cosine then .negInf else .fin Double.dblMax

/-- The test the hit check and the update make for it. -/
def isUninitializedTheta (metric : Metric) (threshold : Double) : Bool :=
  if metric = .cosine then decide (threshold = .negInf)
  else decide (.fin (Double.dblMax * (1 / 2)) ≤ threshold)

/-- The values of K that a new table of thresholds starts with. -/
def initialKs : List Nat := [1, 5, 10, 100]

/-- A new table: the sentinel for each of `initialKs`. -/
def freshEntry (metric : Metric) : ThetaEntry :=
  initialKs.foldl (fun entry K => entry.insert K (uninitializedTheta metric)) ∅

/-- The sentinel again for each of `initialKs`; any other K keeps its threshold. -/
def resetThetaEntry (metric : Metric) (entry : ThetaEntry) : ThetaEntry :=
  initialKs.foldl (fun entry K => entry.insert K (uninitializedTheta metric)) entry

def entryHasLiveTheta (metric : Metric) (entry : ThetaEntry) : Bool :=
  entry.entries.any fun kv => !isUninitializedTheta metric kv.2

namespace PcaUtils

variable {V : Type} (c : PcaConfig V)

def empty (radius : Nat) : PcaUtils := ⟨∅, ∅, [], radius⟩

/-- The region that `lazy_init_region` drops when it creates a new one. -/
def evictee (s : PcaUtils) (key : RegionKey) : Option RegionKey :=
  if (s.regionThetaMap.lookup key).isSome then none
  else if c.maxRegions ≤ s.regionThetaMap.size then s.regionInsertionOrder.head?
  else none

def lazyInitRegion (s : PcaUtils) (key : RegionKey) : PcaUtils :=
  if (s.regionThetaMap.lookup key).isSome then s
  else
    let room : PcaUtils :=
      match s.regionInsertionOrder with
      | [] => s
      | oldestKey :: rest =>
        -- the oldest region makes room, and its discount goes with it
        if c.maxRegions ≤ s.regionThetaMap.size then
          { s with
            regionInsertionOrder := rest
            regionThetaMap := s.regionThetaMap.erase oldestKey
            regionDiscountMap := s.regionDiscountMap.erase oldestKey }
        else s
    { room with
      regionThetaMap := room.regionThetaMap.insert key (freshEntry c.metric)
      regionInsertionOrder := room.regionInsertionOrder ++ [key] }

/-- Reading `region_theta_map[region][K]`: `operator[]` creates whatever is
    missing, and a created threshold is `0.0`. -/
def subscript (s : PcaUtils) (region : RegionKey) (K : Nat) : PcaUtils × Double :=
  let entry := (s.regionThetaMap.lookup region).getD ∅
  match entry.lookup K with
  | some theta => (s, theta)
  | none => ({ s with regionThetaMap := s.regionThetaMap.insert region (entry.insert K 0) }, 0)

/-- Writing `region_theta_map[region][K] = theta`. -/
def storeTheta (s : PcaUtils) (region : RegionKey) (K : Nat) (theta : Double) : PcaUtils :=
  let entry := (s.regionThetaMap.lookup region).getD ∅
  { s with regionThetaMap := s.regionThetaMap.insert region (entry.insert K theta) }

/-- `distances[K - 1]`; an array that is too short is never read. -/
def kthDistance (distances : List Double) (K : Nat) : Double :=
  distances.getD (K - 1) .nan

/-- `PCAUtils::isHit`; `distances` is `none` for a null pointer. -/
def isHit (s : PcaUtils) (query : V) (K : Nat) (distances : Option (List Double))
    (numVectorsInMemory : Nat) (deviationFactor : ℚ) : PcaUtils × Bool :=
  match distances with
  | none => (s, false)
  | some ds =>
    if numVectorsInMemory < K ∨ K = 0 then (s, false)
    else
      -- the region and the threshold are created even if the test then fails
      let region := c.computeRegionKey query
      let r := (lazyInitRegion c s region).subscript region K
      if isUninitializedTheta c.metric r.2 then (r.1, false)
      else (r.1, decide (kthDistance ds K ≤ (1 + deviationFactor) * r.2))

/-- The value `update_theta` stores over `current`. -/
def movedTheta (metric : Metric) (current queryDistance : Double) (p : ℚ) : Double :=
  if isUninitializedTheta metric current then queryDistance
  else p * queryDistance + (1 - p) * current

/-- `PCAUtils::update_theta`. -/
def updateTheta (s : PcaUtils) (query : V) (K : Nat) (queryDistance : Double) (p : ℚ) :
    PcaUtils :=
  let region := c.computeRegionKey query
  let r := (lazyInitRegion c s region).subscript region K
  let s' := r.1.storeTheta region K (movedTheta c.metric r.2 queryDistance p)
  -- the discount is the region's, whatever K the distance was for
  { s' with regionDiscountMap := s'.regionDiscountMap.insert region 1 }

/-- `PCAUtils::invalidate_theta`; a region that does not exist is not created. -/
def invalidateTheta (s : PcaUtils) (vec : V) : PcaUtils :=
  let key := c.computeRegionKey vec
  match s.regionThetaMap.lookup key with
  | none => s
  | some entry =>
    { s with
      regionThetaMap := s.regionThetaMap.insert key (resetThetaEntry c.metric entry)
      regionDiscountMap := s.regionDiscountMap.insert key 1 }

/-! ## Write penalty -/

/-- The discount in force for a region: 1 where none is stored. -/
def discount (s : PcaUtils) (region : RegionKey) : ℚ :=
  (s.regionDiscountMap.lookup region).getD 1

def tightenOneRegionLocked (s : PcaUtils) (fine : RegionKey) (alpha : ℚ) : PcaUtils × Nat :=
  match s.regionThetaMap.lookup fine with
  | none => (s, 0)
  | some entry =>
    if !entryHasLiveTheta c.metric entry then (s, 0)
    -- saturated: a second write does not lower the region again
    else if s.discount fine ≤ alpha then (s, 0)
    else
      let scaled := entry.mapVals fun theta =>
        if isUninitializedTheta c.metric theta then theta else alpha * theta
      ({ s with
          regionThetaMap := s.regionThetaMap.insert fine scaled
          regionDiscountMap := s.regionDiscountMap.insert fine alpha }, 1)

/-- `static_cast<int>` of a `size_t`. -/
def toInt (n : Nat) : Int :=
  if n % 2 ^ 32 < 2 ^ 31 then (n % 2 ^ 32 : Nat) else ((n % 2 ^ 32 : Nat) : Int) - 2 ^ 32

/-- The values of `for (int delta = -maxd; delta <= maxd; ++delta)`. -/
def deltas (maxd : Int) : List Int :=
  (List.range (2 * maxd + 1).toNat).map fun i => (i : Int) - maxd

/-- The code `delta` leads to in dimension `dim_i`, unless it is outside the
    buckets and the loop continues. -/
def shifted (center : RegionKey) (dimI : Nat) (delta : Int) : Option UInt8 :=
  let b := ((center.getD dimI 0).toNat : Int) + delta
  if b < 0 ∨ toInt c.bucketsPerDim ≤ b then none else some (UInt8.ofNat b.toNat)

/-- The loop over delta in dimension `dim_i`; `visit` is its body, given the
    code and the radius that is left for the later dimensions. -/
def overDeltas {α : Type} (center : RegionKey) (dimI left : Nat) (visit : UInt8 → Nat → α → α)
    (w : α) : α :=
  (deltas (toInt left)).foldl (fun w delta =>
    match shifted c center dimI delta with
    | none => w
    | some b => visit b (left - delta.natAbs) w) w

/-- What `tighten_l1_ball_locked` updates through its reference parameters. -/
structure BallWalk where
  store : PcaUtils
  cur : RegionKey
  n : Nat

/-- `cur[dim_i] = center[dim_i]`, after the loop. -/
def BallWalk.restore (w : BallWalk) (center : RegionKey) (dimI : Nat) : BallWalk :=
  { w with cur := w.cur.set dimI (center.getD dimI 0) }

/-- `tighten_l1_ball_locked`; `rest` counts the dimensions from `dim_i` on. -/
def tightenL1BallLocked (center : RegionKey) (alpha : ℚ) : Nat → Nat → BallWalk → BallWalk
  -- every dimension is fixed: `cur` is a cell of the ball
  | 0, _, w =>
    let r := tightenOneRegionLocked c w.store w.cur alpha
    { w with store := r.1, n := w.n + r.2 }
  | rest + 1, left, w =>
    (overDeltas c center (center.length - (rest + 1)) left (fun b left' w =>
      tightenL1BallLocked center alpha rest left'
        { w with cur := w.cur.set (center.length - (rest + 1)) b }) w).restore
      center (center.length - (rest + 1))

/-- `PCAUtils::tighten_theta_for_vector`. -/
def tightenThetaForVector (s : PcaUtils) (vec : V) (alpha : ℚ) : PcaUtils × Nat :=
  if 1 ≤ alpha ∨ alpha ≤ 0 then (s, 0)
  else
    let key := c.computeRegionKey vec
    let w := tightenL1BallLocked c key alpha key.length s.writeL1Radius ⟨s, key, 0⟩
    (w.store, w.n)

end PcaUtils

end QvCache
