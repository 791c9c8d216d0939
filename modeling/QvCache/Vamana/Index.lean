/-
  QvCache.Vamana.Index

  The dynamic in-memory index of a shard (external/DiskANN/src/index.cpp) as
  QVCache builds it: tags, deletes and concurrent consolidation on, no labels,
  one frozen starting point in the slot behind the others.

  Each operation is one step here, as its locks make it for the counters and the
  tag maps.  What the library leaves open about the iteration order of a hash set
  is a choice (`SetOrder`) that every iteration makes for itself.
-/

import QvCache.Vamana.Search
import QvCache.Vamana.Prune
import QvCache.Vamana.NaturalNumbers
import QvCache.Cache.Orientation
import Mathlib.Data.Finset.Lattice.Fold
import Mathlib.Order.Lattice.Nat

namespace QvCache.Vamana

/-- An order in which `tsl::robin_set` may be gone through. -/
structure SetOrder where
  toList : Finset Nat → List Nat
  nodup : ∀ s, (toList s).Nodup
  mem_toList : ∀ s i, i ∈ toList s ↔ i ∈ s

/-- Upwards is one such order. -/
def SetOrder.ascending : SetOrder where
  toList s := (List.range (s.sup id + 1)).filter fun i => decide (i ∈ s)
  nodup _ := List.nodup_range.filter _
  mem_toList s i := by
    rw [List.mem_filter, List.mem_range, decide_eq_true_iff]
    exact and_iff_right_of_imp fun hi => Nat.lt_succ_of_le (Finset.le_sup (f := id) hi)

/-- The members that the constructor fixes.  `queueSize` is `_indexingQueueSize`;
    the parameters of `IndexWriteParametersBuilder` are positive. -/
structure IndexParams (V : Type) where
  distance : V → V → ℚ
  startPoint : V
  maxPoints : Nat
  someMaxPoints : 0 < maxPoints
  queueSize : Nat
  someQueueSize : 0 < queueSize
  prune : PruneParams
  someRange : 0 < prune.range
  someCandidate : 0 < prune.maxc
  one_le_alpha : 1 ≤ prune.alpha

/-- The members that change.  `vectors` and `graph` are the stores, by slot. -/
structure Index (V : Type) where
  vectors : Nat → V
  graph : Nat → List Nat
  tagToLocation : Table Tag Nat
  locationToTag : NaturalNumberMap Tag
  deleteSet : Finset Nat
  emptySlots : NaturalNumberSet
  nd : Nat
  dataCompacted : Bool

/-- `consolidation_report::status_code`; `LOCK_FAIL` is for two consolidations at
    once. -/
inductive StatusCode where
  | success
  | lockFail
  | inconsistentCountError
deriving DecidableEq

/-- `consolidation_report` without the time. -/
structure ConsolidationReport where
  status : StatusCode
  activePoints : Nat
  maxPoints : Nat
  emptySlots : Nat
  slotsReleased : Nat
  deleteSetSize : Nat
  numCallsToProcessDelete : Nat
deriving DecidableEq

namespace Index

variable {V : Type} (p : IndexParams V)

/-- `_start`: the frozen slot. -/
def start : Nat := p.maxPoints

/-- A new index: `enable_delete` has filled the empty slots, and the starting
    point is set. -/
def create : Index V where
  vectors _ := p.startPoint
  graph _ := []
  tagToLocation := ∅
  locationToTag := .empty
  deleteSet := ∅
  emptySlots := .below p.maxPoints
  nd := 0
  dataCompacted := true

/-- `get_number_of_active_vectors`. -/
def getNumberOfActiveVectors (idx : Index V) : Nat := idx.tagToLocation.size

/-- `get_number_of_lazy_deleted_points`. -/
def getNumberOfLazyDeletedPoints (idx : Index V) : Nat := idx.deleteSet.card

/-- `_data_store->get_distance` of two slots. -/
def slotDistance (idx : Index V) (a b : Nat) : ℚ := p.distance (idx.vectors a) (idx.vectors b)

/-- What a search for `query` reads. -/
def searchGraph (idx : Index V) (query : V) : SearchGraph ℚ where
  neighbours := idx.graph
  slots := p.maxPoints + 1
  dist id := p.distance query (idx.vectors id)

/-- `_graph_store->set_neighbours`. -/
def setNeighbours (idx : Index V) (loc : Nat) (l : List Nat) : Index V :=
  { idx with graph := Function.update idx.graph loc l }

/-! ## Slots -/

/-- `reserve_location`: a slot, or `-1` from a full index; `none` for the
    exception of `pop_any`. -/
def reserveLocation (idx : Index V) : Option (Index V × Option Nat) :=
  if p.maxPoints ≤ idx.nd then some (idx, none)
  else if idx.dataCompacted && idx.emptySlots.isEmpty then
    some ({ idx with nd := idx.nd + 1 }, some idx.nd)
  else
    idx.emptySlots.popAny.map fun r =>
      ({ idx with
        emptySlots := r.2
        deleteSet := idx.deleteSet.erase r.1
        nd := idx.nd + 1 }, some r.1)

/-- `release_location`; `none` for the exception on a slot that is empty already. -/
def releaseLocation (idx : Index V) (location : Nat) : Option (Index V) :=
  if idx.emptySlots.isInSet location then none
  else some { idx with emptySlots := idx.emptySlots.insert location, nd := idx.nd - 1 }

/-! ## Insertion -/

/-- `search_for_point_and_prune` on the lists and the distances that it reads. -/
def searchAndPrune (g : SearchGraph ℚ) (dist : Nat → Nat → ℚ) (location : Nat) :
    Option (List Nat) :=
  (iterateToFixedPoint g p.queueSize [start p] false).map fun scratch =>
    pruneNeighbors p.prune dist location
      (scratch.expandedNodes.filter fun n => decide (n.id ≠ location))

/-- `search_for_point_and_prune`: the new links of a slot whose vector is stored. -/
def searchForPointAndPrune (idx : Index V) (location : Nat) : Option (List Nat) :=
  searchAndPrune p (idx.searchGraph p (idx.vectors location)) (idx.slotDistance p) location

/-- The nearest number with the 24 bits of a `float`, of two the even one. -/
def roundToFloat (m : Nat) : Nat :=
  let ulp := 2 ^ (m.log2 - 23)
  (if ulp < 2 * (m % ulp) ∨ 2 * (m % ulp) = ulp ∧ m / ulp % 2 = 1 then m / ulp + 1
    else m / ulp) * ulp

/-- `defaults::GRAPH_SLACK_FACTOR`, which is `1.3f`, in units of `2 ^ -23`. -/
def graphSlackFactor : Nat := 10905190

/-- `(uint64_t)(defaults::GRAPH_SLACK_FACTOR * range)`, a product of two `float`s. -/
def slackRange : Nat :=
  roundToFloat (graphSlackFactor * roundToFloat p.prune.range) / 2 ^ 23

/-- The first occurrences in `l`, without `des`: what the loop with
    `dummy_visited` keeps. -/
def dummyVisited (des : Nat) (l : List Nat) : List Nat :=
  l.foldl (fun kept id => if id ∉ kept ∧ id ≠ des then kept ++ [id] else kept) []

/-- The list `inter_insert` prunes `des` to. -/
def newOutNeighbors (dist : Nat → Nat → ℚ) (des : Nat) (copyOfNeighbors : List Nat) : List Nat :=
  pruneNeighbors p.prune dist des ((dummyVisited des copyOfNeighbors).map fun id =>
    (⟨id, dist des id, false⟩ : Neighbor ℚ))

/-- One round of `inter_insert`: the link from `des` back to `n`. -/
def interInsertAt (n : Nat) (idx : Index V) (des : Nat) : Index V :=
  if n ∈ idx.graph des then idx
  else if (idx.graph des).length < slackRange p then
    idx.setNeighbours des (idx.graph des ++ [n])
  else
    idx.setNeighbours des (newOutNeighbors p (idx.slotDistance p) des (idx.graph des ++ [n]))

/-- `inter_insert`. -/
def interInsert (idx : Index V) (n : Nat) (prunedList : List Nat) : Index V :=
  prunedList.foldl (interInsertAt p n) idx

/-- The tag of a slot, in both maps. -/
def register (idx : Index V) (tag : Tag) (location : Nat) : Index V :=
  { idx with
    tagToLocation := idx.tagToLocation.insert tag location
    locationToTag := idx.locationToTag.set location tag }

/-- `_data_store->set_vector`. -/
def setVector (idx : Index V) (location : Nat) (point : V) : Index V :=
  { idx with vectors := Function.update idx.vectors location point }

/-- The tag and the vector of a point in its slot. -/
def place (idx : Index V) (point : V) (tag : Tag) (location : Nat) : Index V :=
  (idx.register tag location).setVector location point

/-- The links of a new point: under concurrent consolidation only those to points
    that still have a tag are kept, but all of them get a link back. -/
def link (idx : Index V) (location : Nat) (prunedList : List Nat) : Index V :=
  let neighborLinks := prunedList.filter fun l => idx.locationToTag.contains l
  (idx.setNeighbours location neighborLinks).interInsert p location prunedList

/-- `insert_point`; `none` for its exceptions. -/
def insertPoint (idx : Index V) (point : V) (tag : Tag) : Option (Index V × Int) :=
  if tag = 0 then none
  else
    (idx.reserveLocation p).bind fun r =>
      match r.2 with
      | none => some (r.1, -1)
      | some location =>
        if (r.1.tagToLocation.lookup tag).isSome then
          (r.1.releaseLocation location).map fun idx' => (idx', -1)
        else
          ((r.1.place point tag location).searchForPointAndPrune p location).map fun prunedList =>
            ((r.1.place point tag location).link p location prunedList, 0)

/-! ## Deletion -/

/-- `lazy_delete`. -/
def lazyDelete (idx : Index V) (tag : Tag) : Index V × Int :=
  match idx.tagToLocation.lookup tag with
  | none => ({ idx with dataCompacted := false }, -1)
  | some location =>
    ({ idx with
      dataCompacted := false
      deleteSet := insert location idx.deleteSet
      locationToTag := idx.locationToTag.erase location
      tagToLocation := idx.tagToLocation.erase tag }, 0)

/-- `lazy_delete` of a list of tags, with `failed_tags`. -/
def lazyDeleteAll (idx : Index V) (tags : List Tag) : Index V × List Tag :=
  tags.foldl (fun r tag =>
    let d := r.1.lazyDelete tag
    (d.1, if d.2 = 0 then r.2 else r.2 ++ [tag])) ({ idx with dataCompacted := false }, [])

/-- `expanded_nodes_set` of `process_delete`: the neighbours that stay, and what
    the deleted ones link to. -/
def expandedNodesSet (graph : Nat → List Nat) (oldDeleteSet : Finset Nat) (loc : Nat) :
    Finset Nat :=
  (graph loc).foldl (fun expanded ngh =>
    if ngh ∈ oldDeleteSet then
      expanded ∪ ((graph ngh).filter fun j => decide (j ≠ loc ∧ j ∉ oldDeleteSet)).toFinset
    else insert ngh expanded) ∅

/-- The list that `process_delete` finds for a node with deleted neighbours, from
    the lists and the distances that it reads. -/
def repairedLinks (oldDeleteSet : Finset Nat) (order : SetOrder) (graph : Nat → List Nat)
    (dist : Nat → Nat → ℚ) (loc : Nat) : List Nat :=
  let expanded := expandedNodesSet graph oldDeleteSet loc
  if expanded.card ≤ p.prune.range then order.toList expanded
  else
    let expandedNghrsVec := (order.toList expanded).map fun ngh =>
      (⟨ngh, dist loc ngh, false⟩ : Neighbor ℚ)
    occludeList p.prune dist loc oldDeleteSet (sortPool expandedNghrsVec)

/-- The node has a deleted neighbour. -/
def needsRepair (graph : Nat → List Nat) (oldDeleteSet : Finset Nat) (loc : Nat) : Bool :=
  (graph loc).any fun ngh => decide (ngh ∈ oldDeleteSet)

/-- `process_delete`. -/
def processDelete (oldDeleteSet : Finset Nat) (order : SetOrder) (idx : Index V) (loc : Nat) :
    Index V :=
  if needsRepair idx.graph oldDeleteSet loc then
    idx.setNeighbours loc (repairedLinks p oldDeleteSet order idx.graph (idx.slotDistance p) loc)
  else idx

/-- The slots the consolidation goes over: those in use and not deleted, and the
    frozen one. -/
def locationsToProcess (idx : Index V) (oldDeleteSet : Finset Nat) : List Nat :=
  ((List.range p.maxPoints).filter fun loc =>
    decide (loc ∉ oldDeleteSet) && !idx.emptySlots.isInSet loc) ++ [start p]

/-- The parallel loop of `consolidate_deletes`, in the order `locations`. -/
def processDeletes (oldDeleteSet : Finset Nat) (orders : Nat → SetOrder) (idx : Index V)
    (locations : List Nat) : Index V :=
  locations.foldl (fun idx loc => idx.processDelete p oldDeleteSet (orders loc) loc) idx

/-- `release_locations`; `none` for its exceptions. -/
def releaseLocations (idx : Index V) (locations : List Nat) : Option (Index V) :=
  (locations.foldlM releaseLocation idx).bind fun idx' =>
    if idx'.emptySlots.size + idx'.nd = p.maxPoints then some idx' else none

/-- `consolidate_deletes`; `none` for its exceptions. -/
def consolidateDeletes (orders : Nat → SetOrder) (releaseOrder : SetOrder) (idx : Index V) :
    Option (Index V × ConsolidationReport) :=
  if idx.emptySlots.size + idx.nd ≠ p.maxPoints then none
  else if idx.locationToTag.size + idx.deleteSet.card ≠ idx.nd then
    some (idx, ⟨.inconsistentCountError, 0, 0, 0, 0, 0, 0⟩)
  else if idx.locationToTag.size ≠ idx.tagToLocation.size then none
  else
    let oldDeleteSet := idx.deleteSet
    if start p ∈ oldDeleteSet then none
    else
      let swapped : Index V := { idx with deleteSet := ∅ }
      let locations := swapped.locationsToProcess p oldDeleteSet
      ((swapped.processDeletes p oldDeleteSet orders locations).releaseLocations p
        (releaseOrder.toList oldDeleteSet)).map fun idx' =>
          (idx', ⟨.success, idx'.nd, p.maxPoints, idx'.emptySlots.size, oldDeleteSet.card,
            idx'.deleteSet.card, locations.length⟩)

/-! ## Queries -/

/-- `best_L_nodes` of a query, with their tags. -/
def bestLNodes (idx : Index V) (query : V) (L : Nat) : Option (List (Option Tag × ℚ)) :=
  (iterateToFixedPoint (idx.searchGraph p query) L [start p] true).map fun scratch =>
    scratch.bestLNodes.data.map fun n => (idx.locationToTag.tryGet n.id, n.distance)

/-- `search_with_tags`; `none` for its exceptions. -/
def searchWithTags (idx : Index V) (query : V) (K L resSize : Nat) : Option Report :=
  if L < K then none
  else (idx.bestLNodes p query L).map (QvCache.searchWithTags p.prune.metric K resSize 0)

/-! ## Runs -/

/-- One call. -/
inductive Call (V : Type) where
  | insertPoint (point : V) (tag : Tag)
  | lazyDelete (tag : Tag)
  | lazyDeleteAll (tags : List Tag)
  | consolidateDeletes (orders : Nat → SetOrder) (releaseOrder : SetOrder)

/-- The index after a call; `none` where it throws. -/
def step (idx : Index V) : Call V → Option (Index V)
  | .insertPoint point tag => (idx.insertPoint p point tag).map Prod.fst
  | .lazyDelete tag => some (idx.lazyDelete tag).1
  | .lazyDeleteAll tags => some (idx.lazyDeleteAll tags).1
  | .consolidateDeletes orders releaseOrder =>
    (idx.consolidateDeletes p orders releaseOrder).map Prod.fst

end Index

end QvCache.Vamana
