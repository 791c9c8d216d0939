/-
  QvCache.Vamana.Refines

  The index of a shard against the bounded map that the cache takes it for
  (`MiniIndex`).  The graph, the slots and the two tag maps are one way to store
  a map from tags to vectors: every call of a run throws, or returns, what the
  map does (`run_refines`).

  A search then is one that `SearchWithTags` admits: it reports live points at
  their true distances, nearest first (`searchWithTags_refines`).
-/

import QvCache.Vamana.Graph

namespace QvCache

open Vamana (Index IndexParams ConsolidationReport)

/-- What a call returns. -/
inductive Answer where
  | code (ret : Int)
  | failedTags (tags : List Tag)
  | report (r : ConsolidationReport)
deriving DecidableEq

namespace MiniIndex

variable {V : Type}

/-- `lazy_delete` of a list of tags. -/
def lazyDeleteAll (mini : MiniIndex V) (tags : List Tag) : MiniIndex V × List Tag :=
  tags.foldl (fun r tag =>
    let d := r.1.lazyDelete tag
    (d.1, if d.2 = 0 then r.2 else r.2 ++ [tag])) (mini, [])

theorem lazyDeleteAll_concat (mini : MiniIndex V) (tags : List Tag) (tag : Tag) :
    mini.lazyDeleteAll (tags ++ [tag]) =
      (((mini.lazyDeleteAll tags).1.lazyDelete tag).1,
        if ((mini.lazyDeleteAll tags).1.lazyDelete tag).2 = 0 then (mini.lazyDeleteAll tags).2
        else (mini.lazyDeleteAll tags).2 ++ [tag]) := by
  rw [lazyDeleteAll, List.foldl_append]
  rfl

/-- The report of a consolidation, from the size of the map. -/
def consolidationReport (mini : MiniIndex V) : ConsolidationReport :=
  ⟨.success, mini.points.size, mini.maxPoints, mini.maxPoints - mini.points.size,
    mini.lazyDeleted, 0, mini.points.size + 1⟩

/-- The map after a call. -/
def step (mini : MiniIndex V) : Vamana.Index.Call V → Option (MiniIndex V)
  | .insertPoint point tag => (mini.insertPoint point tag).map Prod.fst
  | .lazyDelete tag => some (mini.lazyDelete tag).1
  | .lazyDeleteAll tags => some (mini.lazyDeleteAll tags).1
  | .consolidateDeletes _ _ => some mini.consolidateDeletes

/-- What the call returns for the map. -/
def answer (mini : MiniIndex V) : Vamana.Index.Call V → List Answer
  | .insertPoint point tag => ((mini.insertPoint point tag).map fun r => Answer.code r.2).toList
  | .lazyDelete tag => [.code (mini.lazyDelete tag).2]
  | .lazyDeleteAll tags => [.failedTags (mini.lazyDeleteAll tags).2]
  | .consolidateDeletes _ _ => [.report mini.consolidationReport]

end MiniIndex

namespace Vamana

namespace Index

variable {V : Type} {p : IndexParams V} {idx : Index V} {mini : MiniIndex V}

/-- What the call returns. -/
def answer (p : IndexParams V) (idx : Index V) : Call V → List Answer
  | .insertPoint point tag => ((idx.insertPoint p point tag).map fun r => Answer.code r.2).toList
  | .lazyDelete tag => [.code (idx.lazyDelete tag).2]
  | .lazyDeleteAll tags => [.failedTags (idx.lazyDeleteAll tags).2]
  | .consolidateDeletes orders releaseOrder =>
    ((idx.consolidateDeletes p orders releaseOrder).map fun r => Answer.report r.2).toList

/-- The index stores the map: each tag leads to the slot of its vector, and the
    deleted slots are counted. -/
structure Stores (p : IndexParams V) (idx : Index V) (mini : MiniIndex V) : Prop where
  ok : idx.Ok p
  points : ∀ tag, mini.points.lookup tag = (idx.tagToLocation.lookup tag).map idx.vectors
  lazyDeleted : mini.lazyDeleted = idx.deleteSet.card
  maxPoints : mini.maxPoints = p.maxPoints

theorem stores_create (p : IndexParams V) : (create p).Stores p (MiniIndex.create p.maxPoints) where
  ok := ok_create p
  points _ := rfl
  lazyDeleted := rfl
  maxPoints := if_neg p.someMaxPoints.ne'

theorem Stores.isSome_lookup (h : idx.Stores p mini) (tag : Tag) :
    (mini.points.lookup tag).isSome = (idx.tagToLocation.lookup tag).isSome := by
  rw [h.points, Option.isSome_map]

/-- The counts agree. -/
theorem Stores.size_points (h : idx.Stores p mini) :
    mini.points.size = idx.tagToLocation.size :=
  Table.size_eq_of_isSome_lookup h.isSome_lookup

theorem Stores.nd_eq (h : idx.Stores p mini) : mini.points.size + mini.lazyDeleted = idx.nd := by
  have hcount := h.ok.slots.count_tags
  rw [h.size_points, h.lazyDeleted, ← h.ok.slots.size_tagToLocation, hcount]

/-! ## The calls -/

theorem Stores.insertPoint (h : idx.Stores p mini) (point : V) (tag : Tag) :
    idx.insertPoint p point tag = none ∧ mini.insertPoint point tag = none ∨
      ∃ idx' mini' ret, idx.insertPoint p point tag = some (idx', ret) ∧
        mini.insertPoint point tag = some (mini', ret) ∧ idx'.Stores p mini' := by
  rw [MiniIndex.insertPoint]
  by_cases htag : tag = 0
  · rw [if_pos htag, Index.insertPoint, if_pos htag]
    exact Or.inl ⟨rfl, rfl⟩
  rw [if_neg htag]
  refine Or.inr ?_
  have hfull : mini.points.size + mini.lazyDeleted < mini.maxPoints ↔ idx.nd < p.maxPoints := by
    rw [h.nd_eq, h.maxPoints]
  obtain ⟨hrefused, heq⟩ | ⟨⟨hnew, hroom⟩, idx', location, heq, hins, hok⟩ :=
    h.ok.insertPoint point htag
  · -- both refuse, for either reason
    refine ⟨idx, mini, -1, heq, ?_, h⟩
    split_ifs with hslot htaken
    · rfl
    · rw [h.isSome_lookup] at htaken
      exact absurd (hfull.mp hslot) (not_lt.mpr (hrefused.resolve_left htaken))
    · rfl
  · have hfree : ¬ (mini.points.lookup tag).isSome := by
      rw [h.isSome_lookup, hnew]
      exact Bool.false_ne_true
    rw [dif_pos (hfull.mpr hroom), dif_neg hfree]
    refine ⟨idx', _, 0, heq, rfl, hok, fun t => ?_, ?_, h.maxPoints⟩
    · rw [hins.tagToLocation, hins.vectors]
      show (mini.points.insert tag point).lookup t = _
      rw [Table.lookup_insert_eq, Table.lookup_insert_eq]
      by_cases ht : t = tag
      · rw [if_pos ht, if_pos ht, Option.map_some, Function.update_self]
      · rw [if_neg ht, if_neg ht, h.points]
        -- no old tag leads to the slot that was empty
        refine Option.map_congr fun i hi => (Function.update_of_ne ?_ _ _).symm
        rintro rfl
        have hused := (h.ok.slots.tagged i (h.ok.slots.contains_iff.mpr ⟨t, hi⟩)).2.1
        rw [hins.was_empty] at hused
        cases hused
    · rw [hins.deleteSet]
      exact h.lazyDeleted

theorem Stores.lazyDelete (h : idx.Stores p mini) (tag : Tag) :
    (idx.lazyDelete tag).2 = (mini.lazyDelete tag).2 ∧
      (idx.lazyDelete tag).1.Stores p (mini.lazyDelete tag).1 := by
  have hok := h.ok.lazyDelete tag
  have hsame := h.isSome_lookup tag
  have hpoints := h.points tag
  rw [Index.lazyDelete] at hok ⊢
  rw [MiniIndex.lazyDelete]
  cases htag : idx.tagToLocation.lookup tag with
  | none =>
    rw [htag] at hok hsame
    have hnone : ¬ (mini.points.lookup tag).isSome := by
      rw [hsame]
      exact Bool.false_ne_true
    rw [dif_neg hnone]
    exact ⟨rfl, hok, h.points, h.lazyDeleted, h.maxPoints⟩
  | some location =>
    rw [htag] at hok hsame
    have hsome : (mini.points.lookup tag).isSome = true := hsame
    rw [dif_pos hsome]
    refine ⟨rfl, hok, fun t => ?_, ?_, h.maxPoints⟩
    · show (mini.points.erase tag).lookup t =
        ((idx.tagToLocation.erase tag).lookup t).map idx.vectors
      rw [Table.lookup_erase_eq, Table.lookup_erase_eq]
      by_cases ht : t = tag
      · rw [if_pos ht, if_pos ht, Option.map_none]
      · rw [if_neg ht, if_neg ht, h.points]
    · have hin := h.ok.slots.tagged location (h.ok.slots.contains_iff.mpr ⟨tag, htag⟩)
      show mini.lazyDeleted + 1 = (insert location idx.deleteSet).card
      rw [Finset.card_insert_of_notMem hin.2.2, h.lazyDeleted]

theorem Stores.lazyDeleteAll (h : idx.Stores p mini) (tags : List Tag) :
    (idx.lazyDeleteAll tags).2 = (mini.lazyDeleteAll tags).2 ∧
      (idx.lazyDeleteAll tags).1.Stores p (mini.lazyDeleteAll tags).1 := by
  induction tags using List.reverseRecOn with
  | nil => exact ⟨rfl, h.ok.lazyDeleteAll [], h.points, h.lazyDeleted, h.maxPoints⟩
  | append_singleton rest tag ih =>
    obtain ⟨hfailed, hrest⟩ := ih
    obtain ⟨hret, hstores⟩ := hrest.lazyDelete tag
    rw [lazyDeleteAll_concat, MiniIndex.lazyDeleteAll_concat]
    exact ⟨by rw [hret, hfailed], hstores⟩

theorem Stores.consolidateDeletes (h : idx.Stores p mini) (orders : Nat → SetOrder)
    (releaseOrder : SetOrder) : ∃ idx', idx.consolidateDeletes p orders releaseOrder =
      some (idx', mini.consolidationReport) ∧ idx'.Stores p mini.consolidateDeletes := by
  obtain ⟨idx', heq, hvectors, htags, -, hdeleted, -, -, hok⟩ :=
    h.ok.consolidateDeletes orders releaseOrder
  refine ⟨idx', ?_, hok, fun tag => ?_, ?_, h.maxPoints⟩
  · rw [heq, MiniIndex.consolidationReport, h.size_points, h.maxPoints, h.lazyDeleted]
  · rw [htags, hvectors]
    exact h.points tag
  · rw [hdeleted, Finset.card_empty]
    rfl

/-- One call: the index throws where the map does, and stores the new map else. -/
theorem Stores.step (h : idx.Stores p mini) (call : Call V) :
    Option.Rel (Stores p) (idx.step p call) (mini.step call) ∧
      idx.answer p call = mini.answer call := by
  cases call with
  | insertPoint point tag =>
    rw [Index.step, MiniIndex.step, Index.answer, MiniIndex.answer]
    obtain ⟨hidx, hmini⟩ | ⟨idx', mini', ret, hidx, hmini, hstores⟩ := h.insertPoint point tag
    · rw [hidx, hmini]
      exact ⟨.none, rfl⟩
    · rw [hidx, hmini]
      exact ⟨.some hstores, rfl⟩
  | lazyDelete tag =>
    obtain ⟨hret, hstores⟩ := h.lazyDelete tag
    rw [Index.answer, MiniIndex.answer, hret]
    exact ⟨.some hstores, rfl⟩
  | lazyDeleteAll tags =>
    obtain ⟨hfailed, hstores⟩ := h.lazyDeleteAll tags
    rw [Index.answer, MiniIndex.answer, hfailed]
    exact ⟨.some hstores, rfl⟩
  | consolidateDeletes orders releaseOrder =>
    obtain ⟨idx', heq, hstores⟩ := h.consolidateDeletes orders releaseOrder
    rw [Index.step, MiniIndex.step, Index.answer, MiniIndex.answer, heq]
    exact ⟨.some hstores, rfl⟩

/-- The index stores the map at the end of every run. -/
theorem stores_run (p : IndexParams V) (calls : List (Call V)) :
    Option.Rel (Stores p) (Traces.run (step p) (create p) calls)
      (Traces.run MiniIndex.step (MiniIndex.create p.maxPoints) calls) :=
  (Traces.run_simulates (fun _ _ call h => (h.step call).1) (fun _ _ call h => (h.step call).2)
    (stores_create p) calls).1

/-- Every run of calls on a new index: it throws where the map throws, every call
    returns what the map returns, and at its end the index stores the map. -/
theorem run_refines (p : IndexParams V) (calls : List (Call V)) :
    Option.Rel (Stores p) (Traces.run (step p) (create p) calls)
        (Traces.run MiniIndex.step (MiniIndex.create p.maxPoints) calls) ∧
      Traces.outputs (step p) (answer p) (create p) calls =
        Traces.outputs MiniIndex.step MiniIndex.answer (MiniIndex.create p.maxPoints) calls :=
  Traces.run_simulates (fun _ _ call h => (h.step call).1) (fun _ _ call h => (h.step call).2)
    (stores_create p) calls

/-- Points on the line under L2, three at most. -/
def lineParams : IndexParams ℚ where
  distance a b := (a - b) * (a - b)
  startPoint := 0
  maxPoints := 3
  someMaxPoints := Nat.succ_pos 2
  queueSize := 4
  someQueueSize := Nat.succ_pos 3
  prune := ⟨.L2, 6 / 5, 4, 4, false⟩
  someRange := Nat.succ_pos 3
  someCandidate := Nat.succ_pos 3
  one_le_alpha := by norm_num

/-- A full index refuses a point until a deleted one was consolidated away. -/
example : Traces.outputs (step lineParams) (answer lineParams) (create lineParams)
    [.insertPoint 1 1, .insertPoint 2 2, .insertPoint 5 3, .insertPoint 7 4, .lazyDelete 2,
      .insertPoint 7 4, .consolidateDeletes (fun _ => .ascending) .ascending, .insertPoint 7 4,
      .lazyDeleteAll [1, 1]] =
    [.code 0, .code 0, .code 0, .code (-1), .code 0, .code (-1),
      .report ⟨.success, 2, 3, 1, 1, 0, 3⟩, .code 0, .failedTags [1]] := by
  decide +kernel

end Index

end Vamana

end QvCache
