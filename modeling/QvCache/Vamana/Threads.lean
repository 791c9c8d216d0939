/-
  QvCache.Vamana.Threads

  The index under concurrent calls (external/DiskANN/src/index.cpp).  A call is
  cut at its critical sections: `insert_point` registers its tag under
  `_tag_lock` and then stores the vector, searches, writes its links and those
  back, a slot at a time under `_locks`; `consolidate_deletes` checks the counts,
  takes `_consolidate_lock` and the delete set, repairs the lists in a parallel
  loop, releases the slots under `_tag_lock`, and gives up `_consolidate_lock`
  after that.  Any number of calls may be under way.

  Searches and repairs read one list at a time while others write.  A node is
  read once by each, so what is read is, for every slot, the list it had at some
  time (`Threads.reads`).  Distances are read from vectors that others write, and
  the loop of a consolidation reads `_empty_slots` without a lock; both are left
  open.
-/

import QvCache.Vamana.Refines

namespace QvCache.Vamana

/-- Where an insertion is, between two of its critical sections. -/
inductive Phase (V : Type) where
  | storeVector (point : V)
  | search
  | link (prunedList : List Nat)
  | interInsert (srcPool : List Nat)
  | setPruned (des : Nat) (copyOfNeighbors srcPool : List Nat)

/-- An insertion whose tag is registered. -/
structure Insertion (V : Type) where
  location : Nat
  phase : Phase V

/-- A consolidation that has the delete set: the slots its loop has not come to, and
    the lists that it has found but not written. -/
structure Consolidation where
  oldDeleteSet : Finset Nat
  todo : List Nat
  writes : List (Nat × List Nat)
  numCallsToProcessDelete : Nat

/-- The index with the calls under way.  `checked` consolidations are past their
    checks; `locked` is `_consolidate_lock`, which one still has when it has
    `released` its slots.  `past` are the graphs so far, the latest first; `threw`
    records an exception or a failed assertion. -/
structure Threads (V : Type) where
  idx : Index V
  insertions : List (Insertion V)
  checked : Nat
  locked : Bool
  released : Bool
  consolidation : Option Consolidation
  past : List (Nat → List Nat)
  threw : Bool

/-- One critical section of one call.  `times` says how long ago each list was
    read that the section works on; `inUse` is what the loop of a consolidation
    read of `_empty_slots`. -/
inductive Action (V : Type) where
  | insertPoint (point : V) (tag : Tag)
  | advance (k : Nat) (times : Nat → Nat) (queryDist : Nat → ℚ) (dist : Nat → Nat → ℚ)
  | lazyDelete (tag : Tag)
  | lazyDeleteAll (tags : List Tag)
  | check
  | lock
  | swap
  | processDelete (loc : Nat) (inUse : Bool) (times : Nat → Nat) (dist : Nat → Nat → ℚ)
      (order : SetOrder)
  | write (k : Nat)
  | release (order : SetOrder)
  | unlock

namespace Threads

open Index

variable {V : Type} (p : IndexParams V)

/-- A new index without calls. -/
def start : Threads V := ⟨.create p, [], 0, false, false, none, [], false⟩

/-- An exception, or an assertion that fails. -/
def fail (s : Threads V) : Threads V := { s with threw := true }

/-- A new index; the graph before is remembered. -/
def moveTo (s : Threads V) (idx : Index V) : Threads V :=
  { s with idx := idx, past := s.idx.graph :: s.past }

/-- The list that each slot had some time ago. -/
def reads (s : Threads V) (times : Nat → Nat) (i : Nat) : List Nat :=
  ((s.idx.graph :: s.past)[times i]?).getD s.idx.graph i

/-! ## Insertion -/

def setPhase (s : Threads V) (k location : Nat) (phase : Phase V) : Threads V :=
  { s with insertions := s.insertions.set k ⟨location, phase⟩ }

/-- The assertions of `reserve_location` on its way to `_empty_slots`. -/
def reserveAsserts (idx : Index V) : Bool :=
  decide (p.maxPoints ≤ idx.nd) || (idx.dataCompacted && idx.emptySlots.isEmpty) ||
    decide (idx.emptySlots.size ≠ 0 ∧ idx.emptySlots.size + idx.nd = p.maxPoints)

/-- `insert_point` up to where it unlocks `_tag_lock`. -/
def insertPoint (s : Threads V) (point : V) (tag : Tag) : Threads V :=
  if reserveAsserts p s.idx then
    match s.idx.reserveLocation p with
    | none => s.fail
    | some (idx, none) => s.moveTo idx
    | some (idx, some location) =>
      if (idx.tagToLocation.lookup tag).isSome then
        match idx.releaseLocation location with
        | none => s.fail
        | some idx => s.moveTo idx
      else
        { s.moveTo (idx.register tag location) with
          insertions := s.insertions ++ [⟨location, .storeVector point⟩] }
  else s.fail

/-- The next critical section of an insertion. -/
def advance (s : Threads V) (k : Nat) (ins : Insertion V) (times : Nat → Nat)
    (queryDist : Nat → ℚ) (dist : Nat → Nat → ℚ) : Threads V :=
  match ins.phase with
  | .storeVector point =>
    (s.setPhase k ins.location .search).moveTo (s.idx.setVector ins.location point)
  | .search =>
    match searchAndPrune p ⟨s.reads times, p.maxPoints + 1, queryDist⟩ dist ins.location with
    | none => s.fail
    | some [] => s.fail
    | some prunedList => s.setPhase k ins.location (.link prunedList)
  | .link prunedList =>
    let neighborLinks := prunedList.filter fun l => s.idx.locationToTag.contains l
    if neighborLinks.length ≤ p.prune.range then
      (s.setPhase k ins.location (.interInsert prunedList)).moveTo
        (s.idx.setNeighbours ins.location neighborLinks)
    else s.fail
  | .interInsert [] => { s with insertions := s.insertions.eraseIdx k }
  | .interInsert (des :: rest) =>
    if p.maxPoints < des then s.fail
    else if ins.location ∈ s.idx.graph des then s.setPhase k ins.location (.interInsert rest)
    else if (s.idx.graph des).length < slackRange p then
      (s.setPhase k ins.location (.interInsert rest)).moveTo
        (s.idx.setNeighbours des (s.idx.graph des ++ [ins.location]))
    else
      s.setPhase k ins.location (.setPruned des (s.idx.graph des ++ [ins.location]) rest)
  | .setPruned des copyOfNeighbors rest =>
    (s.setPhase k ins.location (.interInsert rest)).moveTo
      (s.idx.setNeighbours des (newOutNeighbors p dist des copyOfNeighbors))

/-! ## Deletion -/

/-- `lazy_delete`, with its assertion on the slot. -/
def lazyDelete (s : Threads V) (tag : Tag) : Threads V :=
  if (s.idx.tagToLocation.lookup tag).all fun location => decide (location < p.maxPoints) then
    s.moveTo (s.idx.lazyDelete tag).1
  else s.fail

/-- What the checks in front of a consolidation find; `none` for its exceptions. -/
def checkStatus (idx : Index V) : Option StatusCode :=
  if idx.emptySlots.size + idx.nd ≠ p.maxPoints then none
  else if idx.locationToTag.size + idx.deleteSet.card ≠ idx.nd then some .inconsistentCountError
  else if idx.locationToTag.size ≠ idx.tagToLocation.size then none
  else some .success

/-- The checks; with `INCONSISTENT_COUNT_ERROR` the call returns. -/
def check (s : Threads V) : Threads V :=
  match checkStatus p s.idx with
  | none => s.fail
  | some .success => { s with checked := s.checked + 1 }
  | some _ => s

/-- `try_lock` of `_consolidate_lock`; with `LOCK_FAIL` the call returns. -/
def lock (s : Threads V) : Threads V := { s with checked := s.checked - 1, locked := true }

/-- The swap of the delete set. -/
def swap (s : Threads V) : Threads V :=
  if Index.start p ∈ s.idx.deleteSet then s.fail
  else
    { s with
      idx := { s.idx with deleteSet := ∅ }
      consolidation := some ⟨s.idx.deleteSet, List.range (p.maxPoints + 1), [], 0⟩ }

/-- One slot of the loop, up to the write of its list. -/
def processDelete (s : Threads V) (c : Consolidation) (loc : Nat) (inUse : Bool)
    (times : Nat → Nat) (dist : Nat → Nat → ℚ) (order : SetOrder) : Threads V :=
  if loc ≠ Index.start p ∧ (loc ∈ c.oldDeleteSet ∨ inUse = false) then
    { s with consolidation := some { c with todo := c.todo.erase loc } }
  else if loc ∈ c.oldDeleteSet then s.fail
  else
    { s with
      consolidation := some
        { c with
          todo := c.todo.erase loc
          writes :=
            if needsRepair (s.reads times) c.oldDeleteSet loc then
              (loc, repairedLinks p c.oldDeleteSet order (s.reads times) dist loc) :: c.writes
            else c.writes
          numCallsToProcessDelete := c.numCallsToProcessDelete + 1 } }

/-- The write of a list that was found. -/
def write (s : Threads V) (c : Consolidation) (k : Nat) (w : Nat × List Nat) : Threads V :=
  { s.moveTo (s.idx.setNeighbours w.1 w.2) with
    consolidation := some { c with writes := c.writes.eraseIdx k } }

/-- The release of the slots, after which the call only has the lock. -/
def release (s : Threads V) (c : Consolidation) (order : SetOrder) : Threads V :=
  match s.idx.releaseLocations p (order.toList c.oldDeleteSet) with
  | none => s.fail
  | some idx => { s.moveTo idx with consolidation := none, released := true }

/-- The end of the call, behind the critical section of the release. -/
def unlock (s : Threads V) : Threads V := { s with locked := false, released := false }

/-! ## Runs -/

/-- One critical section; `none` where there is no such call, or not at this point.
    A tag 0 is refused before any lock is taken, and the loop over the frozen slot
    comes after the parallel one. -/
def step (s : Threads V) : Action V → Option (Threads V)
  | .insertPoint point tag => if tag = 0 then none else some (s.insertPoint p point tag)
  | .advance k times queryDist dist =>
    s.insertions[k]?.map fun ins => s.advance p k ins times queryDist dist
  | .lazyDelete tag => some (s.lazyDelete p tag)
  | .lazyDeleteAll tags => some (s.moveTo (s.idx.lazyDeleteAll tags).1)
  | .check => some (s.check p)
  | .lock =>
    if s.checked = 0 then none
    else if s.locked then some { s with checked := s.checked - 1 }
    else some s.lock
  | .swap =>
    if s.locked ∧ s.released = false ∧ s.consolidation.isNone then some (s.swap p) else none
  | .processDelete loc inUse times dist order =>
    s.consolidation.bind fun c =>
      if loc ∈ c.todo ∧ (loc = Index.start p → c.todo = [loc] ∧ c.writes = []) then
        some (s.processDelete p c loc inUse times dist order)
      else none
  | .write k => s.consolidation.bind fun c => c.writes[k]?.map fun w => s.write c k w
  | .release order =>
    s.consolidation.bind fun c =>
      if c.todo = [] ∧ c.writes = [] then some (s.release p c order) else none
  | .unlock => if s.released then some s.unlock else none

/-- A report of a consolidation that was given up. -/
def gaveUp (status : StatusCode) : Answer := .report ⟨status, 0, 0, 0, 0, 0, 0⟩

/-- What a call returns, in the critical section that decides on it: for an
    insertion the first one. -/
def answer (s : Threads V) : Action V → List Answer
  | .insertPoint _ tag =>
    match s.idx.reserveLocation p with
    | none => []
    | some (_, none) => [.code (-1)]
    | some (idx, some _) => [.code (if (idx.tagToLocation.lookup tag).isSome then -1 else 0)]
  | .lazyDelete tag => [.code (s.idx.lazyDelete tag).2]
  | .lazyDeleteAll tags => [.failedTags (s.idx.lazyDeleteAll tags).2]
  | .check =>
    match checkStatus p s.idx with
    | some .inconsistentCountError => [gaveUp .inconsistentCountError]
    | _ => []
  | .lock => if s.locked then [gaveUp .lockFail] else []
  | .release order =>
    (s.consolidation.bind fun c =>
      (s.idx.releaseLocations p (order.toList c.oldDeleteSet)).map fun idx =>
        .report ⟨.success, idx.nd, p.maxPoints, idx.emptySlots.size, c.oldDeleteSet.card,
          idx.deleteSet.card, c.numCallsToProcessDelete⟩).toList
  | _ => []

/-- `search_with_tags` on the lists and distances that it reads; the tags are read
    at once, under `_tag_lock`. -/
def searchWithTags (s : Threads V) (times : Nat → Nat) (queryDist : Nat → ℚ) (K L resSize : Nat) :
    Option Report :=
  if L < K then none
  else
    (iterateToFixedPoint ⟨s.reads times, p.maxPoints + 1, queryDist⟩ L [Index.start p] true).map
      fun scratch => QvCache.searchWithTags p.prune.metric K resSize 0
        (scratch.bestLNodes.data.map fun n => (s.idx.locationToTag.tryGet n.id, n.distance))

end Threads

end QvCache.Vamana
