/-
  QvCache.Vamana.Connected

  When a search misses nothing.  Searches with room in their queues are exact just
  where the starting point leads to every live point (`Stores.exact_iff`).  It leads
  to every slot in use as long as no list had to be pruned: an insertion into an
  index with fewer points than the slack allows links adds links only, and a
  consolidation without deletes changes none (`KeepsLinks`).
-/

import QvCache.Vamana.Queries

namespace QvCache.Vamana

namespace Index

variable {V : Type} {p : IndexParams V} {idx : Index V}

/-- The starting point leads to every slot in use. -/
def Connected (p : IndexParams V) (idx : Index V) : Prop :=
  ∀ i, idx.Used p i → Relation.ReflTransGen (fun a b => b ∈ idx.graph a) (start p) i

/-- The starting point leads to every live point. -/
def ReachesLive (p : IndexParams V) (idx : Index V) : Prop :=
  ∀ tag i, idx.tagToLocation.lookup tag = some i →
    Relation.ReflTransGen (fun a b => b ∈ idx.graph a) (start p) i

/-- Every search whose queue has room for the slots in use writes the distances that
    a search writes which looks at every live point. -/
def ExactSearches (p : IndexParams V) (idx : Index V) (mini : MiniIndex V) : Prop :=
  ∀ query K L, 0 < K → K ≤ L → idx.nd < L →
    ∃ report, idx.searchWithTags p query K L 0 = some report ∧
      report.map Prod.snd = ((SearchWithTags.exact p.distance).run mini query K).map fun td =>
        writtenDistance p.prune.metric td.2

/-- A call that takes no link away from a slot in use. -/
def KeepsLinks (p : IndexParams V) (idx : Index V) : Call V → Prop
  | .insertPoint _ _ => idx.nd < slackRange p
  | .consolidateDeletes _ _ => idx.deleteSet = ∅
  | .lazyDelete _ => True
  | .lazyDeleteAll _ => True

instance (p : IndexParams V) (idx : Index V) (call : Call V) :
    Decidable (idx.KeepsLinks p call) := by
  cases call <;> rw [KeepsLinks] <;> infer_instance

theorem connected_create (p : IndexParams V) : (create p).Connected p := by
  rintro i ⟨hlt, hout⟩
  have hfull : (create p).emptySlots.isInSet i = true :=
    ((NaturalNumberSet.below_spec p.maxPoints).2.2 i).mpr hlt
  rw [hout] at hfull
  cases hfull

theorem Connected.reachesLive (hc : idx.Connected p) (h : idx.SlotsOk p) : idx.ReachesLive p :=
  fun tag i hi => hc i (h.used_iff.mpr (Or.inr (h.contains_iff.mpr ⟨tag, hi⟩)))

/-- The searches are exact where the starting point leads to every live point, and
    only there. -/
theorem Stores.exact_iff {mini : MiniIndex V} (h : idx.Stores p mini) :
    idx.ExactSearches p mini ↔ idx.ReachesLive p := by
  constructor
  · intro hexact tag i hi
    -- one that asks for every point there is
    obtain ⟨report, hreport, hsame⟩ := hexact p.startPoint (idx.nd + 1) (idx.nd + 1)
      (Nat.succ_pos _) le_rfl (Nat.lt_succ_self _)
    have hall : mini.points.size ≤ idx.nd + 1 := by
      have hnd := h.nd_eq
      omega
    have hlength := congrArg List.length hsame
    rw [List.length_map, List.length_map] at hlength
    exact h.leads_of_exact (Nat.succ_pos _) le_rfl hall hreport hlength hi
  · intro hleads query K L hK hKL hroom
    exact h.searchWithTags_exact hroom hleads hK hKL

/-! ## Insertion -/

/-- Links back where there is room: nothing else changes. -/
theorem mem_graph_interInsert {n : Nat} {prunedList : List Nat} (hnodup : prunedList.Nodup)
    (hroom : ∀ des ∈ prunedList, (idx.graph des).length < slackRange p) (i m : Nat) :
    m ∈ (idx.interInsert p n prunedList).graph i ↔
      m ∈ idx.graph i ∨ i ∈ prunedList ∧ m = n := by
  induction prunedList generalizing idx with
  | nil => simp [interInsert]
  | cons des rest ih =>
    obtain ⟨hnew, hrest⟩ := List.nodup_cons.mp hnodup
    have hstep : ∀ j, j ≠ des → (idx.interInsertAt p n des).graph j = idx.graph j := by
      intro j hj
      rw [interInsertAt]
      split_ifs
      · rfl
      · exact Function.update_of_ne hj _ _
      · exact Function.update_of_ne hj _ _
    have hdes : m ∈ (idx.interInsertAt p n des).graph des ↔ m ∈ idx.graph des ∨ m = n := by
      rw [interInsertAt, if_pos (hroom des List.mem_cons_self)]
      split_ifs with hthere
      · rw [or_iff_left_of_imp]
        rintro rfl
        exact hthere
      · show m ∈ Function.update idx.graph des (idx.graph des ++ [n]) des ↔ _
        rw [Function.update_self, List.mem_append, List.mem_singleton]
    have hlater : ∀ j ∈ rest, ((idx.interInsertAt p n des).graph j).length < slackRange p := by
      intro j hj
      rw [hstep j fun heq => hnew (heq ▸ hj)]
      exact hroom j (List.mem_cons_of_mem des hj)
    have hfold : idx.interInsert p n (des :: rest) =
        (idx.interInsertAt p n des).interInsert p n rest := rfl
    rw [hfold, ih hrest hlater, List.mem_cons]
    by_cases hi : i = des
    · subst hi
      rw [hdes]
      simp [hnew]
    · rw [hstep i hi]
      simp [hi]

/-- A list of links is no longer than there are points. -/
theorem Ok.length_graph_le (h : idx.Ok p) {i : Nat} (hi : idx.Used p i ∨ i = start p) :
    (idx.graph i).length ≤ idx.nd := by
  have hlinks := h.graph.links i hi
  rw [← List.toFinset_card_of_nodup hlinks.nodup, ← h.slots.card_used]
  refine Finset.card_le_card fun m hm => ?_
  obtain ⟨hlt, hout⟩ := hlinks.used m (List.mem_toFinset.mp hm)
  exact Finset.mem_filter.mpr ⟨Finset.mem_range.mpr hlt, hout⟩

/-- With fewer points than a list may hold, an insertion keeps the index connected. -/
theorem Connected.insertPoint (h : idx.Ok p) (hc : idx.Connected p) (hroom : idx.nd < slackRange p)
    (point : V) {tag : Tag} (htag : tag ≠ 0) {idx' : Index V} {ret : Int}
    (hrun : idx.insertPoint p point tag = some (idx', ret)) : idx'.Connected p := by
  obtain ⟨-, heq⟩ | ⟨⟨hnew, -⟩, location, rest, prunedList, hpop, hlist, heq⟩ :=
    h.insertPoint_cases point htag
  · rw [heq] at hrun
    obtain ⟨rfl, -⟩ := Prod.mk.inj (Option.some.inj hrun)
    exact hc
  rw [heq] at hrun
  obtain ⟨rfl, -⟩ := Prod.mk.inj (Option.some.inj hrun)
  obtain ⟨hins, -⟩ := h.inserted point hnew hpop hlist
  have hlocation : ∀ i, idx.Used p i ∨ i = start p → i ≠ location := by
    rintro i (⟨-, hout⟩ | rfl) heq
    · rw [heq, hins.was_empty] at hout
      cases hout
    · have hlt : start p < p.maxPoints := heq ▸ h.slots.empty_lt location hins.was_empty
      exact Nat.lt_irrefl _ hlt
  -- the links before, and those back to the new slot
  have hgraph : ∀ i m, i ≠ location → (m ∈ (Index.link p (Index.place { idx with
      emptySlots := rest, nd := idx.nd + 1 } point tag location) location prunedList).graph i ↔
        m ∈ idx.graph i ∨ i ∈ prunedList ∧ m = location) := by
    intro i m hi
    have hsame : ∀ j, j ≠ location → ∀ l, (Index.setNeighbours (Index.place { idx with
        emptySlots := rest, nd := idx.nd + 1 } point tag location) location l).graph j =
          idx.graph j := fun j hj l => Function.update_of_ne hj _ _
    rw [link, mem_graph_interInsert hlist.nodup (fun des hdes => ?_), hsame i hi]
    have hdes' := hlist.used des hdes
    rw [hsame des (hlocation des hdes')]
    exact (h.length_graph_le hdes').trans_lt hroom
  have hold : ∀ i, idx.Used p i ∨ i = start p → Relation.ReflTransGen (fun a b => b ∈
      (Index.link p (Index.place { idx with
        emptySlots := rest, nd := idx.nd + 1 } point tag location) location prunedList).graph a)
      (start p) i := by
    intro i hi
    have hpath : Relation.ReflTransGen (fun a b => b ∈ idx.graph a) (start p) i := by
      rcases hi with hi | rfl
      · exact hc i hi
      · exact .refl
    clear hi
    induction hpath with
    | refl => exact .refl
    | @tail b c hb hstep ih =>
      have hfrom := h.graph.leads (g := idx.searchGraph p point) rfl hb
      exact ih.tail ((hgraph b c (hlocation b hfrom)).mpr (Or.inl hstep))
  intro i hi
  rw [hins.used] at hi
  rcases hi with hi | rfl
  · exact hold i (Or.inl hi)
  · obtain ⟨des, hdes⟩ := List.exists_mem_of_ne_nil _ hlist.ne_nil
    have hdes' := hlist.used des hdes
    exact (hold des hdes').tail ((hgraph des i (hlocation des hdes')).mpr (Or.inr ⟨hdes, rfl⟩))

/-! ## Deletion -/

/-- A lazy delete changes no link and takes no slot out of use. -/
theorem Connected.lazyDelete (hc : idx.Connected p) (tag : Tag) :
    (idx.lazyDelete tag).1.Connected p := by
  rw [Index.lazyDelete]
  cases idx.tagToLocation.lookup tag <;> exact hc

theorem Connected.lazyDeleteAll (hc : idx.Connected p) (tags : List Tag) :
    (idx.lazyDeleteAll tags).1.Connected p := by
  induction tags using List.reverseRecOn with
  | nil => exact hc
  | append_singleton rest tag ih =>
    rw [lazyDeleteAll_concat]
    exact ih.lazyDelete tag

/-- Without deletes there is no list to repair. -/
theorem newLinks_empty (order : SetOrder) (loc : Nat) :
    newLinks p ∅ order idx loc = idx.graph loc := by
  rw [newLinks, if_neg]
  simp [needsRepair]

/-- A consolidation without deletes changes no link. -/
theorem Connected.consolidateDeletes (h : idx.Ok p) (hc : idx.Connected p)
    (hnone : idx.deleteSet = ∅) {orders : Nat → SetOrder} {releaseOrder : SetOrder}
    {idx' : Index V} {report : ConsolidationReport}
    (hrun : idx.consolidateDeletes p orders releaseOrder = some (idx', report)) :
    idx'.Connected p := by
  obtain ⟨es, -, -, hmem, heq⟩ := h.slots.consolidateDeletes orders releaseOrder
  rw [hrun] at heq
  obtain ⟨rfl, -⟩ := Prod.mk.inj (Option.some.inj heq)
  have hgraph : ∀ i, (Index.processDeletes p idx.deleteSet orders { idx with deleteSet := ∅ }
      (idx.locationsToProcess p idx.deleteSet)).graph i = idx.graph i := by
    intro i
    rw [Index.graph_processDeletes orders (nodup_locationsToProcess p idx idx.deleteSet)
      fun loc _ => hnone ▸ Finset.notMem_empty loc, hnone, newLinks_empty]
    split_ifs <;> rfl
  rintro i ⟨hlt, hout⟩
  have hsame : idx.emptySlots.isInSet i = false := by
    rw [← Bool.not_eq_true] at hout ⊢
    exact fun hin => hout ((hmem i).mpr (Or.inr hin))
  simp only [hgraph]
  exact hc i ⟨hlt, hsame⟩

/-! ## Runs -/

/-- One call that keeps the links keeps an index connected. -/
theorem Connected.step (h : idx.Ok p) (hc : idx.Connected p) {call : Call V}
    (hkeep : idx.KeepsLinks p call) {idx' : Index V} (hstep : idx.step p call = some idx') :
    idx'.Connected p := by
  cases call with
  | insertPoint point tag =>
    obtain ⟨⟨next, ret⟩, heq, rfl⟩ := Option.map_eq_some_iff.mp hstep
    by_cases htag : tag = 0
    · rw [Index.insertPoint, if_pos htag] at heq
      cases heq
    · exact hc.insertPoint h hkeep point htag heq
  | lazyDelete tag =>
    obtain rfl := Option.some.inj hstep
    exact hc.lazyDelete tag
  | lazyDeleteAll tags =>
    obtain rfl := Option.some.inj hstep
    exact hc.lazyDeleteAll tags
  | consolidateDeletes orders releaseOrder =>
    obtain ⟨⟨next, report⟩, heq, rfl⟩ := Option.map_eq_some_iff.mp hstep
    exact hc.consolidateDeletes h hkeep heq

theorem connected_run {calls : List (Call V)}
    (hkeep : Traces.Along (step p) (KeepsLinks p) (create p) calls)
    (hrun : Traces.run (step p) (create p) calls = some idx) : idx.Connected p := by
  have hboth : idx.Ok p ∧ idx.Connected p := by
    refine Traces.run_invariant_along (I := fun idx => idx.Ok p ∧ idx.Connected p)
      (fun s call s' hs hcall hstep => ?_) ⟨ok_create p, connected_create p⟩ hkeep hrun
    exact ⟨hs.1.of_step hstep, hs.2.step hs.1 hcall hstep⟩
  exact hboth.2

/-- At the end of every run the searches with room in their queues are exact just if
    the starting point leads to every live point, which it does if every call has
    kept the links. -/
theorem exact_searches (p : IndexParams V) (calls : List (Call V)) :
    Option.Rel (fun idx mini => (idx.ExactSearches p mini ↔ idx.ReachesLive p) ∧
        (Traces.Along (step p) (KeepsLinks p) (create p) calls → idx.ReachesLive p))
      (Traces.run (step p) (create p) calls)
      (Traces.run MiniIndex.step (MiniIndex.create p.maxPoints) calls) := by
  have hstores := stores_run p calls
  have hconnected : ∀ idx, Traces.run (step p) (create p) calls = some idx →
      Traces.Along (step p) (KeepsLinks p) (create p) calls → idx.Connected p :=
    fun idx hrun hkeep => connected_run hkeep hrun
  generalize Traces.run (step p) (create p) calls = end₁ at hstores hconnected ⊢
  generalize Traces.run MiniIndex.step (MiniIndex.create p.maxPoints) calls = end₂ at hstores ⊢
  cases hstores with
  | none => exact .none
  | @some idx mini h =>
    exact .some ⟨h.exact_iff, fun hkeep => (hconnected idx rfl hkeep).reachesLive h.ok.slots⟩

/-- Three points, one of them deleted again: a query finds the other two. -/
theorem exact_searches_line :
    Traces.Along (step lineParams) (KeepsLinks lineParams) (create lineParams)
        [.insertPoint 1 1, .insertPoint 5 2, .insertPoint 2 3, .lazyDelete 1] ∧
      Option.Rel (fun idx mini => idx.ExactSearches lineParams mini)
        (Traces.run (step lineParams) (create lineParams)
          [.insertPoint 1 1, .insertPoint 5 2, .insertPoint 2 3, .lazyDelete 1])
        (Traces.run MiniIndex.step (MiniIndex.create lineParams.maxPoints)
          [.insertPoint 1 1, .insertPoint 5 2, .insertPoint 2 3, .lazyDelete 1]) ∧
      ((Traces.run (step lineParams) (create lineParams)
        [.insertPoint 1 1, .insertPoint 5 2, .insertPoint 2 3, .lazyDelete 1]).bind fun idx =>
          idx.searchWithTags lineParams 3 2 4 0) = some [(3, 1), (2, 4)] := by
  have hkeep : Traces.Along (step lineParams) (KeepsLinks lineParams) (create lineParams)
      [.insertPoint 1 1, .insertPoint 5 2, .insertPoint 2 3, .lazyDelete 1] := by decide +kernel
  refine ⟨hkeep, ?_, by decide +kernel⟩
  exact Traces.rel_mono (fun _ _ h => h.1.mpr (h.2 hkeep)) (exact_searches lineParams _)

end Index

end QvCache.Vamana
