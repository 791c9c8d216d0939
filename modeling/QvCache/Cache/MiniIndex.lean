/-
  QvCache.Cache.MiniIndex

  One mini-index, the in-memory DiskANN index of a shard (external/DiskANN/src/
  index.cpp): a bounded map from tags to vectors.  A lazily deleted point is no
  longer found but keeps its slot until `consolidate_deletes`.

  The graph search is an assumption of the model: `SearchWithTags` is any
  deterministic search that reports live points at their true distance, nearest
  first.  Which points it finds is left open.
-/

import QvCache.Lib.Ranking
import QvCache.Lib.Table
import Mathlib.Algebra.Order.Field.Rat

namespace QvCache

/-- Tags of a mini-index; backend id `i` has the tag `1 + i`. -/
abbrev Tag := UInt32

/-- The largest id is the one whose tag wraps around to 0. -/
theorem tag_eq_zero_iff {id : UInt32} : (1 + id : Tag) = 0 ↔ id = 0xFFFFFFFF := by
  constructor
  · intro hzero
    calc id = (1 + id) - 1 := by rw [UInt32.add_comm, UInt32.add_sub_cancel]
      _ = 0xFFFFFFFF := by rw [hzero]; rfl
  · rintro rfl
    rfl

/-- A mini-index.  Live and lazily deleted points share the slots. -/
structure MiniIndex (V : Type) where
  points : Table Tag V
  lazyDeleted : Nat
  maxPoints : Nat
  fits : points.size + lazyDeleted ≤ maxPoints

namespace MiniIndex

variable {V : Type}

/-- A fresh index, as `create_memory_index` builds it.  The constructor of the
    index does not take 0 points. -/
def create (maxPoints : Nat) : MiniIndex V :=
  ⟨∅, 0, if maxPoints = 0 then 1 else maxPoints, Nat.zero_le _⟩

def getNumberOfActiveVectors (idx : MiniIndex V) : Nat := idx.points.size

def getNumberOfLazyDeletedPoints (idx : MiniIndex V) : Nat := idx.lazyDeleted

/-- `insert_point`: `none` for the exception on tag 0, else the return code. -/
def insertPoint (idx : MiniIndex V) (point : V) (tag : Tag) : Option (MiniIndex V × Int) :=
  if tag = 0 then none
  else if hslot : idx.points.size + idx.lazyDeleted < idx.maxPoints then
    -- a slot is reserved first and given back if the tag is taken
    if htag : (idx.points.lookup tag).isSome then some (idx, -1)
    else some ({ idx with
      points := idx.points.insert tag point
      fits := by
        have hsize := Table.size_insert_of_lookup_none (Option.not_isSome_iff_eq_none.mp htag) point
        omega }, 0)
  else some (idx, -1)

/-- `lazy_delete`. -/
def lazyDelete (idx : MiniIndex V) (tag : Tag) : MiniIndex V × Int :=
  if htag : (idx.points.lookup tag).isSome then
    ({ idx with
      points := idx.points.erase tag
      lazyDeleted := idx.lazyDeleted + 1
      fits := by
        have hsize := Table.size_erase_of_lookup_some htag
        have := idx.fits
        omega }, 0)
  else (idx, -1)

/-- `consolidate_deletes`: the slots of lazily deleted points are free again. -/
def consolidateDeletes (idx : MiniIndex V) : MiniIndex V :=
  { idx with
    lazyDeleted := 0
    fits := by have := idx.fits; omega }

/-- The tag is live with this vector. -/
def Holds (idx : MiniIndex V) (tag : Tag) (point : V) : Prop := idx.points.lookup tag = some point

instance [DecidableEq V] (idx : MiniIndex V) (tag : Tag) (point : V) :
    Decidable (idx.Holds tag point) :=
  inferInstanceAs (Decidable (_ = _))

/-- The tag is live. -/
def Live (idx : MiniIndex V) (tag : Tag) : Prop := (idx.points.lookup tag).isSome

instance (idx : MiniIndex V) (tag : Tag) : Decidable (idx.Live tag) :=
  inferInstanceAs (Decidable (_ = true))

/-! ## What the operations do -/

/-- The effect of `insert_point`: refused with the index unchanged, because the
    tag is live or no slot is free, or landed under a tag that was not live. -/
theorem insertPoint_cases {idx idx' : MiniIndex V} {point : V} {tag : Tag} {ret : Int}
    (h : idx.insertPoint point tag = some (idx', ret)) :
    tag ≠ 0 ∧ (idx' = idx ∧ ret = -1 ∧
        ¬ (¬ idx.Live tag ∧ idx.points.size + idx.lazyDeleted < idx.maxPoints) ∨
      ret = 0 ∧ ¬ idx.Live tag ∧ idx.points.size + idx.lazyDeleted < idx.maxPoints ∧
        idx'.points = idx.points.insert tag point ∧ idx'.lazyDeleted = idx.lazyDeleted ∧
        idx'.maxPoints = idx.maxPoints) := by
  unfold insertPoint at h
  split_ifs at h with htag hslot hlive
  · obtain ⟨rfl, rfl⟩ := Prod.mk.inj (Option.some.inj h)
    exact ⟨htag, Or.inl ⟨rfl, rfl, fun hfree => hfree.1 hlive⟩⟩
  · obtain ⟨rfl, rfl⟩ := Prod.mk.inj (Option.some.inj h)
    exact ⟨htag, Or.inr ⟨rfl, hlive, hslot, rfl, rfl, rfl⟩⟩
  · obtain ⟨rfl, rfl⟩ := Prod.mk.inj (Option.some.inj h)
    exact ⟨htag, Or.inl ⟨rfl, rfl, fun hfree => hslot hfree.2⟩⟩

theorem lookup_lazyDelete (idx : MiniIndex V) (tag t : Tag) :
    (idx.lazyDelete tag).1.points.lookup t = if t = tag then none else idx.points.lookup t := by
  unfold lazyDelete
  split_ifs with hlive ht ht
  · exact ht ▸ AList.lookup_erase _ _
  · exact AList.lookup_erase_ne ht
  · rw [ht]
    exact Option.not_isSome_iff_eq_none.mp hlive
  · rfl

end MiniIndex

/-! ## Searching -/

/-- `search_with_tags` on every index content: at most K live points, no tag
    twice, each with its distance to the query, nearest first. -/
structure SearchWithTags (V : Type) where
  distance : V → V → ℚ
  run : MiniIndex V → V → Nat → List (Tag × ℚ)
  length_le : ∀ idx query K, (run idx query K).length ≤ K
  nodup : ∀ idx query K, ((run idx query K).map Prod.fst).Nodup
  live : ∀ idx query K, ∀ td ∈ run idx query K,
    ∃ point, idx.Holds td.1 point ∧ td.2 = distance query point
  sorted : ∀ idx query K, (run idx query K).Pairwise fun a b => a.2 ≤ b.2

namespace SearchWithTags

variable {V : Type}

/-- The results written for a result vector with `resSize` entries: the loop
    also stops once it has filled them, and never if there are none. -/
def results (s : SearchWithTags V) (idx : MiniIndex V) (query : V) (K resSize : Nat) :
    List (Tag × ℚ) :=
  (s.run idx query K).take (if resSize = 0 then K else resSize)

theorem results_zero (s : SearchWithTags V) (idx : MiniIndex V) (query : V) (K : Nat) :
    s.results idx query K 0 = s.run idx query K := by
  rw [results, if_pos rfl, List.take_of_length_le (s.length_le idx query K)]

/-- The search that looks at every live point. -/
def exact (distance : V → V → ℚ) : SearchWithTags V where
  distance := distance
  run idx query K :=
    ((idx.points.entries.map fun e => (e.1, distance query e.2)).insertionSort
      fun a b => a.2 ≤ b.2).take K
  length_le idx query K := List.length_take_le _ _
  nodup idx query K := by
    have hkeys : (idx.points.entries.map fun e => (e.1, distance query e.2)).map Prod.fst =
        idx.points.keys := by
      simp [AList.keys, List.keys]
    refine List.Nodup.sublist ((List.take_sublist _ _).map _) ?_
    -- sorting permutes the points, whose tags are keys of a map
    exact ((List.perm_insertionSort _ _).map Prod.fst).nodup_iff.mpr
      (hkeys ▸ idx.points.keys_nodup)
  live idx query K td htd := by
    have hmem := (List.mem_insertionSort _).mp (List.mem_of_mem_take htd)
    obtain ⟨⟨tag, point⟩, hentry, rfl⟩ := List.mem_map.mp hmem
    exact ⟨point, (List.mem_dlookup_iff idx.points.nodupKeys).mpr hentry, rfl⟩
  sorted idx query K :=
    (List.pairwise_insertionSort (fun a b : Tag × ℚ => a.2 ≤ b.2) _).sublist
      (List.take_sublist _ _)

end SearchWithTags

end QvCache
