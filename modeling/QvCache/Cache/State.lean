/-
  QvCache.Cache.State

  The state of `QVCache` (include/qvcache/qvcache.h) without its threads: the
  mini-indexes and their recency order, the thresholds, the tombstones and the
  record of admitted tags; and the functions on it that choose, clean, replace
  and fill a shard.

  Waiting for the admit queue (`wait_idle`) is not part of these functions: the
  machine that runs them enables a step only where the wait is over.
-/

import QvCache.Cache.MiniIndex
import QvCache.Theta.Thresholds
import Mathlib.Data.Finset.Basic

namespace QvCache

/-! ## The recency order -/

/-- `LRUCache<size_t>`: the order list, most recently used in front. -/
structure LruCache where
  orderList : List Nat
  maxCapacity : Nat

namespace LruCache

/-- `access`: move to the front, or insert there and drop the last element of a
    full list. -/
def access (l : LruCache) (tag : Nat) : LruCache :=
  if tag ∈ l.orderList then { l with orderList := tag :: l.orderList.erase tag }
  else if l.maxCapacity ≤ l.orderList.length then
    { l with orderList := tag :: l.orderList.dropLast }
  else { l with orderList := tag :: l.orderList }

def contains (l : LruCache) (tag : Nat) : Bool := decide (tag ∈ l.orderList)

def getAllTags (l : LruCache) : List Nat := l.orderList

def getLruTags (l : LruCache) (n : Nat) : List Nat := l.orderList.reverse.take n

/-- The list is a rearrangement of the shards `0 .. n-1`. -/
def Complete (l : LruCache) (n : Nat) : Prop := l.orderList.Perm (List.range n)

theorem Complete.access {l : LruCache} {n tag : Nat} (h : l.Complete n) (htag : tag < n) :
    (l.access tag).Complete n := by
  have hmem : tag ∈ l.orderList := h.mem_iff.mpr (List.mem_range.mpr htag)
  rw [LruCache.access, if_pos hmem]
  exact (List.perm_cons_erase hmem).symm.trans h

end LruCache

/-! ## The cache -/

/-- `SearchStrategy`. -/
inductive SearchStrategy where
  | sequential
  | parallel
deriving DecidableEq

/-- The members of `QVCache` that the constructor fixes.  It divides by the
    number of mini-indexes, so there is at least one. -/
structure CacheConfig (V : Type) where
  theta : ThetaConfig V
  search : SearchWithTags V
  numberOfMiniIndexes : Nat
  someMiniIndex : 0 < numberOfMiniIndexes
  memoryIndexMaxPointsPerIndex : Nat
  maxSearchThreads : Nat
  lazyThetaUpdates : Bool

/-- `search_pool` exists. -/
def CacheConfig.searchPool {V : Type} (cfg : CacheConfig V) : Bool :=
  decide (1 < cfg.numberOfMiniIndexes) &&
    decide (1 < min cfg.maxSearchThreads cfg.numberOfMiniIndexes)

/-- The members of `QVCache` that change. -/
structure Cache (V : Type) where
  memoryIndices : List (MiniIndex V)
  activeInsertIndexId : Nat
  lruCache : LruCache
  evictionInProgress : Bool
  thresholds : Thresholds
  writeThetaDiscount : ℚ
  deletedIds : Finset UInt32
  admitFifo : List Tag
  admitSet : Finset Tag
  searchStrategy : SearchStrategy

namespace Cache

variable {V : Type} (cfg : CacheConfig V)

/-- The state the constructor leaves. -/
def init (writeL1Radius : Nat) (writeThetaDiscount : ℚ) : Cache V where
  memoryIndices :=
    List.replicate cfg.numberOfMiniIndexes (MiniIndex.create cfg.memoryIndexMaxPointsPerIndex)
  activeInsertIndexId := 0
  lruCache := (List.range cfg.numberOfMiniIndexes).foldl LruCache.access
    ⟨[], cfg.numberOfMiniIndexes⟩
  evictionInProgress := false
  thresholds := Thresholds.init cfg.theta writeL1Radius
  writeThetaDiscount := writeThetaDiscount
  deletedIds := ∅
  admitFifo := []
  admitSet := ∅
  searchStrategy := .sequential

def getNumberOfVectorsInMemoryIndex (c : Cache V) : Nat :=
  (c.memoryIndices.map MiniIndex.getNumberOfActiveVectors).sum

/-- `get_number_of_active_vectors()` of shard `i`. -/
def activeVectors (c : Cache V) (i : Nat) : Nat :=
  (c.memoryIndices[i]?.map MiniIndex.getNumberOfActiveVectors).getD 0

def isDeletedId (c : Cache V) (id : UInt32) : Bool := decide (id ∈ c.deletedIds)

/-! ## Shards -/

def shardHasCapacity (c : Cache V) (i : Nat) : Bool :=
  match c.memoryIndices[i]? with
  | none => false
  | some idx => decide (idx.getNumberOfActiveVectors < cfg.memoryIndexMaxPointsPerIndex)

def shardHasInsertSlots (c : Cache V) (i : Nat) : Bool :=
  match c.memoryIndices[i]? with
  | none => false
  | some idx =>
    decide (idx.getNumberOfActiveVectors + idx.getNumberOfLazyDeletedPoints <
      cfg.memoryIndexMaxPointsPerIndex)

/-- Replace the mini-index of shard `i`. -/
def setIndex (c : Cache V) (i : Nat) (idx : MiniIndex V) : Cache V :=
  { c with memoryIndices := c.memoryIndices.set i idx }

def consolidateShard (c : Cache V) (i : Nat) : Cache V :=
  match c.memoryIndices[i]? with
  | none => c
  | some idx =>
    if idx.getNumberOfLazyDeletedPoints = 0 then c else c.setIndex i idx.consolidateDeletes

/-- `reclaim_insert_slots` needs the admit queue to be idle. -/
def reclaims (c : Cache V) (i : Nat) : Bool :=
  c.shardHasCapacity cfg i && !c.shardHasInsertSlots cfg i

def reclaimInsertSlots (c : Cache V) (i : Nat) : Cache V :=
  if c.reclaims cfg i then c.consolidateShard i else c

/-- `find_shard_with_capacity`: the first shard with the smallest load among
    those with insert slots. -/
def findShardWithCapacity (c : Cache V) : Option Nat :=
  (List.range c.memoryIndices.length).foldl (fun best i =>
    if c.shardHasInsertSlots cfg i then
      match best with
      | none => some i
      -- a later shard replaces the best only if it is strictly emptier
      | some b => if c.activeVectors i < c.activeVectors b then some i else some b
    else best) none

/-- `lru_cache->access(i)`. -/
def touchShard (c : Cache V) (i : Nat) : Cache V := { c with lruCache := c.lruCache.access i }

/-- The shard that `perform_eviction` replaces, and whether it is touched;
    `none` where it skips the rotation. -/
def evictionVictim (c : Cache V) : Option (Nat × Bool) :=
  match c.lruCache.getLruTags 1 with
  -- an empty order: the shard after the insert target, round robin
  | [] => some ((c.activeInsertIndexId + 1) % cfg.numberOfMiniIndexes, false)
  | replaced :: _ => if c.lruCache.getAllTags.length = 1 then none else some (replaced, true)

def performEviction (c : Cache V) : Cache V :=
  match c.evictionVictim cfg with
  | none => { c with evictionInProgress := false }
  | some (replaced, touch) =>
    let fresh : Cache V :=
      { c.setIndex replaced (MiniIndex.create cfg.memoryIndexMaxPointsPerIndex) with
        activeInsertIndexId := replaced }
    let touched := if touch then fresh.touchShard replaced else fresh
    -- the order is completed, in case it lacks a shard
    let complete := (List.range cfg.numberOfMiniIndexes).foldl (fun c i =>
      if c.lruCache.contains i then c else c.touchShard i) touched
    { complete with evictionInProgress := false }

/-- The state after `ensure_admit_shard` has reclaimed the slots of the other
    shards. -/
def reclaimOthers (c : Cache V) (shard : Nat) : Cache V :=
  (List.range c.memoryIndices.length).foldl (fun c i =>
    if i = shard then c else c.reclaimInsertSlots cfg i) c

def ensureAdmitShard (c : Cache V) : Cache V × Nat :=
  let shard := c.activeInsertIndexId
  let reclaimed := c.reclaimInsertSlots cfg shard
  if reclaimed.shardHasInsertSlots cfg shard then (reclaimed, shard)
  else
    let all := reclaimed.reclaimOthers cfg shard
    match all.findShardWithCapacity cfg with
    | some spare =>
      ({ all with activeInsertIndexId := spare, lruCache := all.lruCache.access spare }, spare)
    | none =>
      -- an eviction under way is left to the thread that runs it
      let evicted :=
        if all.evictionInProgress then all
        else { all with evictionInProgress := true }.performEviction cfg
      (evicted, evicted.activeInsertIndexId)

/-- `ensure_admit_shard` waits for the admit queue on its way: for a shard whose
    slots it reclaims, or before it evicts. -/
def ensureAdmitWaits (c : Cache V) : Bool :=
  let shard := c.activeInsertIndexId
  c.reclaims cfg shard ||
    (!c.shardHasInsertSlots cfg shard &&
      ((List.range c.memoryIndices.length).any (fun i => decide (i ≠ shard) && c.reclaims cfg i) ||
        (c.findShardWithCapacity cfg).isNone))

/-! ## Admission -/

def noteAdmittedTag (c : Cache V) (memTag : Tag) : Cache V :=
  if memTag ∈ c.admitSet then c
  else { c with admitSet := insert memTag c.admitSet, admitFifo := c.admitFifo ++ [memTag] }

def forgetAdmittedTag (c : Cache V) (memTag : Tag) : Cache V :=
  { c with admitSet := c.admitSet.erase memTag }

/-- `memory_indices[shard]->insert_point(vec, 1 + id)`: the new state and the
    return code, `none` for the exception. -/
def indexInsertPoint (c : Cache V) (shard : Nat) (id : UInt32) (vec : V) :
    Option (Cache V × Int) :=
  match c.memoryIndices[shard]? with
  | none => none
  | some idx => (idx.insertPoint vec (1 + id)).map fun r => (c.setIndex shard r.1, r.2)

/-- What `insert_point_into_shard` does between its tombstone check and
    `note_admitted_tag`, and whether the point was accepted. -/
def insertPointUnchecked (c : Cache V) (shard : Nat) (id : UInt32) (vec : V) :
    Option (Cache V × Bool) :=
  if c.shardHasInsertSlots cfg shard then
    (c.indexInsertPoint shard id vec).map fun r => (r.1, decide (r.2 = 0))
  else some (c, false)

/-- The tombstone check of `insert_point_into_shard`, with its range check. -/
def passesInsertCheck (c : Cache V) (shard : Nat) (id : UInt32) : Bool :=
  decide (shard < c.memoryIndices.length) && !c.isDeletedId id

def insertPointIntoShard (c : Cache V) (shard : Nat) (id : UInt32) (vec : V) : Option (Cache V) :=
  if c.passesInsertCheck shard id then
    (c.insertPointUnchecked cfg shard id vec).map fun r =>
      -- only an accepted point is noted
      if r.2 then r.1.noteAdmittedTag (1 + id) else r.1
  else some c

/-- The shard `try_admit_data_vector` settles for, `none` where it gives up. -/
def chooseDataShard (c : Cache V) : Cache V × Option Nat :=
  let shard := c.activeInsertIndexId
  let reclaimed := c.reclaimInsertSlots cfg shard
  if reclaimed.shardHasInsertSlots cfg shard then (reclaimed, some shard)
  else (reclaimed, reclaimed.findShardWithCapacity cfg)

/-- `try_admit_data_vector`; `none` if `insert_point` throws. -/
def tryAdmitDataVector (c : Cache V) (id : UInt32) (vec : V) : Option (Cache V × Bool) :=
  match c.chooseDataShard cfg with
  | (chosen, none) => some (chosen, false)
  | (chosen, some shard) =>
    (chosen.insertPointIntoShard cfg shard id vec).map fun c => (c.touchShard shard, true)

/-- `index->lazy_delete(tag)` on shard `i`. -/
def lazyDeleteIn (c : Cache V) (i : Nat) (memTag : Tag) : Cache V :=
  match c.memoryIndices[i]? with
  | none => c
  | some idx => c.setIndex i (idx.lazyDelete memTag).1

/-- `stale_write_regions`. -/
def staleWriteRegions (c : Cache V) (vec : Option V) : Cache V :=
  { c with thresholds := c.thresholds.staleWriteRegions cfg.theta vec c.writeThetaDiscount }

/-- `update_theta`. -/
def updateTheta (c : Cache V) (query : V) (K : Nat) (queryDistance : Double) : Cache V :=
  { c with thresholds := c.thresholds.updateTheta cfg.theta query K queryDistance }

end Cache

end QvCache
