/-
  QvCache.Vamana.Graph

  The graph of an index.  The adjacency list of every slot in use, and of the
  frozen one, holds different slots in use, not the slot itself, not the frozen
  one, and at most `GRAPH_SLACK_FACTOR` times the range of them (`GraphOk`).

  A list is only ever replaced as a whole, so each operation is a matter of the
  lists it writes: `GraphOk.set`.  The parallel loop of a consolidation writes
  each list from what was there before the loop (`graph_processDeletes`), so the
  order it goes in does not matter.
-/

import QvCache.Vamana.Slots
import QvCache.Lib.Traces

namespace QvCache.Vamana

namespace Index

variable {V : Type} {p : IndexParams V} {idx : Index V}

/-- A list of links of the slot `i`, where `used` are the slots in use. -/
structure LinksOk (p : IndexParams V) (used : Nat → Prop) (i : Nat) (l : List Nat) : Prop where
  used : ∀ m ∈ l, used m
  nodup : l.Nodup
  not_self : i ∉ l
  length_le : l.length ≤ slackRange p

/-- The lists of the slots in use and of the frozen slot; a list that an empty
    slot still has is only known to hold slots that exist. -/
structure GraphOk (p : IndexParams V) (used : Nat → Prop) (graph : Nat → List Nat) : Prop where
  used_lt : ∀ i, used i → i < p.maxPoints
  in_range : ∀ i, ∀ m ∈ graph i, m < p.maxPoints
  links : ∀ i, used i ∨ i = start p → LinksOk p used i (graph i)

theorem le_roundToFloat (m : Nat) : 15 * m ≤ 16 * roundToFloat m := by
  have hdigits : m / 2 ^ (m.log2 - 23) * 2 ^ (m.log2 - 23) ≤ roundToFloat m := by
    rw [roundToFloat]
    refine Nat.mul_le_mul_right _ ?_
    split_ifs
    · exact Nat.le_succ _
    · exact le_rfl
  rcases Nat.lt_or_ge 23 m.log2 with hlarge | hsmall
  · -- what is cut off has at least 23 bits in front of it
    have hne : m ≠ 0 := by
      rintro rfl
      exact absurd hlarge (by decide)
    have hbits : 2 ^ 23 * 2 ^ (m.log2 - 23) ≤ m := by
      rw [← Nat.pow_add, Nat.add_sub_of_le hlarge.le]
      exact Nat.log2_self_le hne
    have hcut : m % 2 ^ (m.log2 - 23) < 2 ^ (m.log2 - 23) := Nat.mod_lt _ (Nat.two_pow_pos _)
    have hsplit := Nat.div_add_mod' m (2 ^ (m.log2 - 23))
    omega
  · rw [Nat.sub_eq_zero_of_le hsmall, Nat.pow_zero, Nat.div_one] at hdigits
    omega

theorem range_le_slackRange (p : IndexParams V) : p.prune.range ≤ slackRange p := by
  have hrange := le_roundToFloat p.prune.range
  have hproduct := le_roundToFloat (graphSlackFactor * roundToFloat p.prune.range)
  rw [slackRange, Nat.le_div_iff_mul_le (by decide)]
  rw [graphSlackFactor] at hproduct ⊢
  omega

/-- The product of `float`s falls short of 117, and makes it to 13. -/
example : [90, 360, 10].map (fun range =>
    roundToFloat (graphSlackFactor * roundToFloat range) / 2 ^ 23) = [116, 467, 13] := by
  decide +kernel

theorem graphOk_create (p : IndexParams V) (used : Nat → Prop)
    (hused : ∀ i, used i → i < p.maxPoints) : GraphOk p used fun _ => [] where
  used_lt := hused
  in_range _ _ hm := absurd hm List.not_mem_nil
  links _ _ := ⟨fun _ hm => absurd hm List.not_mem_nil, List.nodup_nil, List.not_mem_nil,
    Nat.zero_le _⟩

section GraphOk

variable {used : Nat → Prop} {graph : Nat → List Nat}

/-- Writing a good list. -/
theorem GraphOk.set (h : GraphOk p used graph) {i : Nat} {l : List Nat} (hl : LinksOk p used i l) :
    GraphOk p used (Function.update graph i l) where
  used_lt := h.used_lt
  in_range j m hm := by
    by_cases hj : j = i
    · subst hj
      rw [Function.update_self] at hm
      exact h.used_lt m (hl.used m hm)
    · rw [Function.update_of_ne hj] at hm
      exact h.in_range j m hm
  links j hj := by
    by_cases hji : j = i
    · subst hji
      rwa [Function.update_self]
    · rw [Function.update_of_ne hji]
      exact h.links j hj

/-- A slot taken into use, with a good list. -/
theorem GraphOk.take (h : GraphOk p used graph) {i : Nat} {l : List Nat}
    (hi : i < p.maxPoints) (hl : LinksOk p used i l) :
    GraphOk p (fun m => used m ∨ m = i) (Function.update graph i l) where
  used_lt j hj := by
    rcases hj with hj | rfl
    · exact h.used_lt j hj
    · exact hi
  in_range j m hm := by
    by_cases hj : j = i
    · subst hj
      rw [Function.update_self] at hm
      exact h.used_lt m (hl.used m hm)
    · rw [Function.update_of_ne hj] at hm
      exact h.in_range j m hm
  links j hj := by
    have hmore : ∀ {k l}, LinksOk p used k l → LinksOk p (fun m => used m ∨ m = i) k l :=
      fun hl => ⟨fun m hm => Or.inl (hl.used m hm), hl.nodup, hl.not_self, hl.length_le⟩
    by_cases hji : j = i
    · subst hji
      rw [Function.update_self]
      exact hmore hl
    · rw [Function.update_of_ne hji]
      refine hmore (h.links j ?_)
      rcases hj with (hj | hj) | hj
      · exact Or.inl hj
      · exact absurd hj hji
      · exact Or.inr hj

theorem GraphOk.closed (h : GraphOk p (idx.Used p) idx.graph) (query : V) :
    (idx.searchGraph p query).Closed :=
  fun id _ m hm => Nat.lt_succ_of_lt (h.in_range id m hm)

/-- A search reaches the frozen slot and slots in use. -/
theorem GraphOk.leads (h : GraphOk p used graph) {g : SearchGraph ℚ} (hg : g.neighbours = graph)
    {i : Nat} (hi : g.Leads (start p) i) : used i ∨ i = start p := by
  induction hi with
  | refl => exact Or.inr rfl
  | tail _ hstep ih =>
    rw [hg] at hstep
    exact Or.inl ((h.links _ ih).used _ hstep)

end GraphOk

/-! ## Links back -/

theorem dummyVisited_spec (des : Nat) (l : List Nat) :
    (dummyVisited des l).Nodup ∧ ∀ id, id ∈ dummyVisited des l ↔ id ∈ l ∧ id ≠ des := by
  induction l using List.reverseRecOn with
  | nil => exact ⟨List.nodup_nil, fun id => by simp [dummyVisited]⟩
  | append_singleton rest a ih =>
    obtain ⟨hnodup, hmem⟩ := ih
    have hstep : dummyVisited des (rest ++ [a]) =
        if a ∉ dummyVisited des rest ∧ a ≠ des then dummyVisited des rest ++ [a]
        else dummyVisited des rest := by
      rw [dummyVisited, List.foldl_append]
      rfl
    rw [hstep]
    by_cases hnew : a ∉ dummyVisited des rest ∧ a ≠ des
    · rw [if_pos hnew, ← List.concat_eq_append]
      refine ⟨hnodup.concat hnew.1, fun id => ?_⟩
      rw [List.concat_eq_append, List.mem_append, List.mem_singleton, hmem, List.mem_append,
        List.mem_singleton, or_and_right]
      refine or_congr_right ⟨fun heq => ⟨heq, heq ▸ hnew.2⟩, fun heq => heq.1⟩
    · rw [if_neg hnew]
      refine ⟨hnodup, fun id => ?_⟩
      rw [hmem, List.mem_append, List.mem_singleton, or_and_right, iff_self_or]
      rintro ⟨rfl, hne⟩
      by_contra hout
      exact hnew ⟨fun hin => hout ((hmem id).mp hin), hne⟩

theorem LinksOk.of_linksFrom {used : Nat → Prop} {i : Nat} {ids l : List Nat}
    (h : LinksFrom p.prune i ids l) (hids : ∀ m ∈ ids, used m) : LinksOk p used i l where
  used m hm := hids m (h.subset m hm)
  nodup := h.nodup
  not_self := h.not_self
  length_le := h.length_le.trans (range_le_slackRange p)

theorem map_id_neighbours (dist : Nat → ℚ) (l : List Nat) :
    (l.map fun id => (⟨id, dist id, false⟩ : Neighbor ℚ)).map Neighbor.id = l := by
  rw [List.map_map]
  exact List.map_id l

/-- The list that `inter_insert` prunes a slot to. -/
theorem linksOk_newOutNeighbors {used : Nat → Prop} (dist : Nat → Nat → ℚ) (des : Nat)
    {copyOfNeighbors : List Nat} (hcopy : ∀ m ∈ copyOfNeighbors, used m) :
    LinksOk p used des (newOutNeighbors p dist des copyOfNeighbors) := by
  obtain ⟨hnodup, hmem⟩ := dummyVisited_spec des copyOfNeighbors
  rw [newOutNeighbors]
  refine LinksOk.of_linksFrom (pruneNeighbors_spec _ _ _ ?_).1 ?_
  · rw [map_id_neighbours]
    exact hnodup
  · rw [map_id_neighbours]
    exact fun m hm => hcopy m ((hmem m).mp hm).1

/-- One round of `inter_insert`. -/
theorem GraphOk.interInsertAt {used : Nat → Prop} (h : GraphOk p used idx.graph) {n des : Nat}
    (hn : used n) (hdes : used des ∨ des = start p) (hne : des ≠ n) :
    GraphOk p used (idx.interInsertAt p n des).graph := by
  have hlinks := h.links des hdes
  have hcopy : ∀ m ∈ idx.graph des ++ [n], used m := by
    intro m hm
    rcases List.mem_append.mp hm with hm | hm
    · exact hlinks.used m hm
    · exact List.mem_singleton.mp hm ▸ hn
  rw [Index.interInsertAt]
  split_ifs with hthere hroom
  · exact h
  · refine h.set ⟨hcopy, ?_, ?_, ?_⟩
    · rw [← List.concat_eq_append]
      exact hlinks.nodup.concat hthere
    · rw [List.mem_append, List.mem_singleton, not_or]
      exact ⟨hlinks.not_self, hne⟩
    · rw [List.length_append, List.length_singleton]
      exact hroom
  · exact h.set (linksOk_newOutNeighbors _ des hcopy)

theorem GraphOk.interInsert {used : Nat → Prop} (h : GraphOk p used idx.graph) {n : Nat}
    {prunedList : List Nat} (hn : used n) (hpruned : ∀ des ∈ prunedList, used des ∨ des = start p)
    (hself : n ∉ prunedList) : GraphOk p used (idx.interInsert p n prunedList).graph := by
  induction prunedList generalizing idx with
  | nil => exact h
  | cons des rest ih =>
    refine ih (h.interInsertAt hn (hpruned des List.mem_cons_self) ?_)
      (fun m hm => hpruned m (List.mem_cons_of_mem des hm))
      fun hin => hself (List.mem_cons_of_mem des hin)
    exact fun heq => hself (heq ▸ List.mem_cons_self)

/-! ## Insertion -/

/-- What `prune_neighbors` finds for a new slot: slots in use or the frozen one. -/
structure PrunedList (p : IndexParams V) (used : Nat → Prop) (location : Nat) (l : List Nat) :
    Prop where
  ne_nil : l ≠ []
  nodup : l.Nodup
  not_self : location ∉ l
  length_le : l.length ≤ p.prune.range
  used : ∀ m ∈ l, used m ∨ m = start p

/-- The links found for a slot in lists of slots in use: there always is one. -/
theorem searchAndPrune_spec {used : Nat → Prop} {g : SearchGraph ℚ}
    (hslots : g.slots = p.maxPoints + 1)
    (hused : ∀ i, used i ∨ i = start p → ∀ m ∈ g.neighbours i, used m)
    (hrange : ∀ i, ∀ m ∈ g.neighbours i, m < p.maxPoints) (dist : Nat → Nat → ℚ) {location : Nat}
    (hlocation : location < p.maxPoints) :
    ∃ prunedList, searchAndPrune p g dist location = some prunedList ∧
      PrunedList p used location prunedList := by
  have hclosed : g.Closed := by
    intro i _ m hm
    rw [hslots]
    exact Nat.lt_succ_of_lt (hrange i m hm)
  have hin : start p < g.slots := by
    rw [hslots]
    exact Nat.lt_succ_self _
  obtain ⟨scratch, hscratch, -, hpool⟩ := iterateToFixedPoint_pool p.someQueueSize hclosed hin
  have hleads : ∀ i, g.Leads (start p) i → used i ∨ i = start p := by
    intro i hi
    induction hi with
    | refl => exact Or.inr rfl
    | @tail b c _ hstep ih => exact Or.inl (hused b ih c hstep)
  have hstart : start p ≠ location := Nat.ne_of_gt hlocation
  have hnodup : ((scratch.expandedNodes.filter fun n => decide (n.id ≠ location)).map
      Neighbor.id).Nodup := hpool.nodup.sublist (List.filter_sublist.map _)
  have hmem : ∀ m, m ∈ (scratch.expandedNodes.filter fun n => decide (n.id ≠ location)).map
      Neighbor.id ↔ m ∈ scratch.expandedNodes.map Neighbor.id ∧ m ≠ location := by
    intro m
    simp only [List.mem_map, List.mem_filter, decide_eq_true_iff]
    constructor
    · rintro ⟨n, ⟨hn, hne⟩, rfl⟩
      exact ⟨⟨n, hn, rfl⟩, hne⟩
    · rintro ⟨⟨n, hn, rfl⟩, hne⟩
      exact ⟨n, ⟨hn, hne⟩, rfl⟩
  have hself : location ∉ (scratch.expandedNodes.filter fun n => decide (n.id ≠ location)).map
      Neighbor.id := fun hin => ((hmem location).mp hin).2 rfl
  have hsome : (scratch.expandedNodes.filter fun n => decide (n.id ≠ location)) ≠ [] := by
    intro hnil
    have hin := (hmem (start p)).mpr ⟨hpool.start_mem, hstart⟩
    rw [hnil] at hin
    exact absurd hin List.not_mem_nil
  obtain ⟨hlinks, -⟩ := pruneNeighbors_spec p.prune dist location hnodup
  refine ⟨_, ?_,
    pruneNeighbors_ne_nil hnodup p.one_le_alpha p.someRange p.someCandidate hself hsome,
    hlinks.nodup, hlinks.not_self, hlinks.length_le, ?_⟩
  · rw [searchAndPrune, hscratch]
    rfl
  · intro m hm
    obtain ⟨n, hn, rfl⟩ := List.mem_map.mp ((hmem m).mp (hlinks.subset m hm)).1
    exact hleads n.id (hpool.reached n hn)

theorem GraphOk.searchForPointAndPrune {used : Nat → Prop} (h : GraphOk p used idx.graph)
    {location : Nat} (hlocation : location < p.maxPoints) :
    ∃ prunedList, idx.searchForPointAndPrune p location = some prunedList ∧
      PrunedList p used location prunedList :=
  searchAndPrune_spec rfl (fun i hi => (h.links i hi).used) h.in_range _ hlocation

/-- An index whose slots and whose graph are in order. -/
structure Ok (p : IndexParams V) (idx : Index V) : Prop where
  slots : idx.SlotsOk p
  graph : GraphOk p (idx.Used p) idx.graph

theorem ok_create (p : IndexParams V) : (create p).Ok p where
  slots := slotsOk_create p
  graph := graphOk_create p _ fun _ hi => hi.1

/-- The slots in use after `place`: the old ones and the new one. -/
theorem SlotsOk.used_place (h : idx.SlotsOk p) {location : Nat} {rest : NaturalNumberSet}
    (hpop : idx.emptySlots.popAny = some (location, rest)) (point : V) (tag : Tag) :
    (Index.place { idx with emptySlots := rest, nd := idx.nd + 1 } point tag location).Used p =
      fun m => idx.Used p m ∨ m = location := by
  obtain ⟨hempty, -, -, hin⟩ := h.empty_valid.popAny hpop
  funext m
  refine propext ?_
  show m < p.maxPoints ∧ rest.isInSet m = false ↔ _
  rw [← Bool.not_eq_true, hin, not_and_or, not_ne_iff, Bool.not_eq_true, and_or_left]
  refine or_congr_right ⟨And.right, ?_⟩
  rintro rfl
  exact ⟨h.empty_lt m hempty, rfl⟩

/-- What `insert_point` does: it refuses a tag that is there and a full index, and
    changes nothing then; else it takes an empty slot and links it. -/
theorem Ok.insertPoint_cases (h : idx.Ok p) (point : V) {tag : Tag} (htag : tag ≠ 0) :
    ((idx.tagToLocation.lookup tag).isSome ∨ p.maxPoints ≤ idx.nd) ∧
        idx.insertPoint p point tag = some (idx, -1) ∨
      (idx.tagToLocation.lookup tag = none ∧ idx.nd < p.maxPoints) ∧
        ∃ location rest prunedList, idx.emptySlots.popAny = some (location, rest) ∧
          PrunedList p (idx.Used p) location prunedList ∧
          idx.insertPoint p point tag = some ((Index.place { idx with
            emptySlots := rest, nd := idx.nd + 1 } point tag location).link p location
              prunedList, 0) := by
  rw [Index.insertPoint, if_neg htag]
  obtain ⟨hfull, hreserve⟩ | ⟨hroom, location, rest, hpop, -, hreserve⟩ :=
    h.slots.reserveLocation (Finset.Subset.refl _)
  · refine Or.inl ⟨Or.inr hfull, ?_⟩
    rw [hreserve]
    rfl
  · rw [hreserve, Option.bind_some]
    dsimp only
    cases hthere : idx.tagToLocation.lookup tag with
    | some i =>
      rw [Option.isSome_some, if_pos rfl, releaseLocation_reserved h.slots.empty_valid hpop]
      exact Or.inl ⟨Or.inl rfl, rfl⟩
    | none =>
      have hlt := h.slots.empty_lt location (h.slots.empty_valid.popAny hpop).1
      have hplaced : GraphOk p (idx.Used p) (Index.place { idx with
          emptySlots := rest, nd := idx.nd + 1 } point tag location).graph := h.graph
      obtain ⟨prunedList, hpruned, hlist⟩ := hplaced.searchForPointAndPrune hlt
      rw [Option.isSome_none, if_neg Bool.false_ne_true, hpruned]
      exact Or.inr ⟨⟨rfl, hroom⟩, location, rest, prunedList, hpop, hlist, rfl⟩

/-- The index after a point went to the slot `location`. -/
structure Inserted (p : IndexParams V) (idx : Index V) (point : V) (tag : Tag) (location : Nat)
    (idx' : Index V) : Prop where
  was_empty : idx.emptySlots.isInSet location = true
  tagToLocation : idx'.tagToLocation = idx.tagToLocation.insert tag location
  locationToTag : idx'.locationToTag = idx.locationToTag.set location tag
  vectors : idx'.vectors = Function.update idx.vectors location point
  used : idx'.Used p = fun m => idx.Used p m ∨ m = location
  deleteSet : idx'.deleteSet = idx.deleteSet
  nd : idx'.nd = idx.nd + 1

theorem Ok.inserted (h : idx.Ok p) (point : V) {tag : Tag}
    (htag : idx.tagToLocation.lookup tag = none) {location : Nat} {rest : NaturalNumberSet}
    (hpop : idx.emptySlots.popAny = some (location, rest)) {prunedList : List Nat}
    (hlist : PrunedList p (idx.Used p) location prunedList) :
    idx.Inserted p point tag location ((Index.place { idx with
        emptySlots := rest, nd := idx.nd + 1 } point tag location).link p location prunedList) ∧
      ((Index.place { idx with
        emptySlots := rest, nd := idx.nd + 1 } point tag location).link p location
          prunedList).Ok p := by
  have hempty := (h.slots.empty_valid.popAny hpop).1
  have hlink := onlyGraph_link p (Index.place { idx with
    emptySlots := rest, nd := idx.nd + 1 } point tag location) location prunedList
  have hnow : (Index.link p (Index.place { idx with
      emptySlots := rest, nd := idx.nd + 1 } point tag location) location prunedList).Used p =
      fun m => idx.Used p m ∨ m = location :=
    (hlink.used_eq p).trans (h.slots.used_place hpop point tag)
  refine ⟨⟨hempty, ?_, ?_, ?_, hnow, ?_, ?_⟩,
    ((h.slots.register hpop htag).of_stores _ _).of_onlyGraph hlink, ?_⟩
  · rw [hlink.eq]
    rfl
  · rw [hlink.eq]
    rfl
  · rw [hlink.eq]
    rfl
  · rw [hlink.eq]
    rfl
  · rw [hlink.eq]
    rfl
  · have hlinks : LinksOk p (idx.Used p) location
        (prunedList.filter fun l => (idx.locationToTag.set location tag).contains l) := by
      refine ⟨fun m hm => ?_, hlist.nodup.filter _,
        fun hm => hlist.not_self (List.mem_filter.mp hm).1,
        (List.length_filter_le _ _).trans (hlist.length_le.trans (range_le_slackRange p))⟩
      obtain ⟨hpick, hcontains⟩ := List.mem_filter.mp hm
      rcases (NaturalNumberMap.contains_set _ _ _ _).mp hcontains with rfl | hold
      · exact absurd hpick hlist.not_self
      · exact h.slots.used_iff.mpr (Or.inr hold)
    rw [hnow]
    refine GraphOk.interInsert (h.graph.take (h.slots.empty_lt location hempty) hlinks)
      (Or.inr rfl) (fun des hdes => ?_) hlist.not_self
    exact (hlist.used des hdes).imp_left Or.inl

/-- A point that is not refused is in the index afterwards. -/
theorem Ok.insertPoint (h : idx.Ok p) (point : V) {tag : Tag} (htag : tag ≠ 0) :
    ((idx.tagToLocation.lookup tag).isSome ∨ p.maxPoints ≤ idx.nd) ∧
        idx.insertPoint p point tag = some (idx, -1) ∨
      (idx.tagToLocation.lookup tag = none ∧ idx.nd < p.maxPoints) ∧
        ∃ idx' location, idx.insertPoint p point tag = some (idx', 0) ∧
          idx.Inserted p point tag location idx' ∧ idx'.Ok p := by
  obtain hrefused | ⟨⟨hnew, hroom⟩, location, rest, prunedList, hpop, hlist, heq⟩ :=
    h.insertPoint_cases point htag
  · exact Or.inl hrefused
  · obtain ⟨hins, hok⟩ := h.inserted point hnew hpop hlist
    exact Or.inr ⟨⟨hnew, hroom⟩, _, location, heq, hins, hok⟩

/-! ## Deletion -/

theorem Ok.lazyDelete (h : idx.Ok p) (tag : Tag) : (idx.lazyDelete tag).1.Ok p where
  slots := h.slots.lazyDelete tag
  graph := by
    rw [Index.lazyDelete]
    cases idx.tagToLocation.lookup tag <;> exact h.graph

/-- A list of tags is deleted one after the other. -/
theorem lazyDeleteAll_concat (idx : Index V) (tags : List Tag) (tag : Tag) :
    idx.lazyDeleteAll (tags ++ [tag]) =
      (((idx.lazyDeleteAll tags).1.lazyDelete tag).1,
        if ((idx.lazyDeleteAll tags).1.lazyDelete tag).2 = 0 then (idx.lazyDeleteAll tags).2
        else (idx.lazyDeleteAll tags).2 ++ [tag]) := by
  rw [lazyDeleteAll, List.foldl_append]
  rfl

theorem Ok.lazyDeleteAll (h : idx.Ok p) (tags : List Tag) : (idx.lazyDeleteAll tags).1.Ok p := by
  induction tags using List.reverseRecOn with
  | nil =>
    have hs := h.slots
    exact ⟨⟨hs.empty_valid, hs.tags_valid, hs.empty_lt, hs.deleted, hs.tagged, hs.covers,
      hs.inverse, hs.count⟩, h.graph⟩
  | append_singleton rest tag ih =>
    rw [lazyDeleteAll_concat]
    exact ih.lazyDelete tag

theorem mem_expandedNodesSet {graph : Nat → List Nat} {oldDeleteSet : Finset Nat} {loc m : Nat} :
    m ∈ expandedNodesSet graph oldDeleteSet loc ↔
      m ∈ graph loc ∧ m ∉ oldDeleteSet ∨
      ∃ ngh ∈ graph loc, ngh ∈ oldDeleteSet ∧ m ∈ graph ngh ∧ m ≠ loc ∧ m ∉ oldDeleteSet := by
  rw [expandedNodesSet]
  induction graph loc using List.reverseRecOn with
  | nil => simp
  | append_singleton rest a ih =>
    rw [List.foldl_append, List.foldl_cons, List.foldl_nil]
    by_cases ha : a ∈ oldDeleteSet
    · rw [if_pos ha, Finset.mem_union, ih]
      simp only [List.mem_append, List.mem_singleton, List.mem_toFinset, List.mem_filter,
        decide_eq_true_iff]
      constructor
      · rintro ((⟨hm, hout⟩ | ⟨ngh, hngh, hrest⟩) | ⟨hm, hne, hout⟩)
        · exact Or.inl ⟨Or.inl hm, hout⟩
        · exact Or.inr ⟨ngh, Or.inl hngh, hrest⟩
        · exact Or.inr ⟨a, Or.inr rfl, ha, hm, hne, hout⟩
      · rintro (⟨hm | rfl, hout⟩ | ⟨ngh, hngh | rfl, hdel, hm, hne, hout⟩)
        · exact Or.inl (Or.inl ⟨hm, hout⟩)
        · exact absurd ha hout
        · exact Or.inl (Or.inr ⟨ngh, hngh, hdel, hm, hne, hout⟩)
        · exact Or.inr ⟨hm, hne, hout⟩
    · rw [if_neg ha, Finset.mem_insert, ih]
      simp only [List.mem_append, List.mem_singleton]
      constructor
      · rintro (rfl | ⟨hm, hout⟩ | ⟨ngh, hngh, hrest⟩)
        · exact Or.inl ⟨Or.inr rfl, ha⟩
        · exact Or.inl ⟨Or.inl hm, hout⟩
        · exact Or.inr ⟨ngh, Or.inl hngh, hrest⟩
      · rintro (⟨hm | rfl, hout⟩ | ⟨ngh, hngh | rfl, hdel, hm, hne, hout⟩)
        · exact Or.inr (Or.inl ⟨hm, hout⟩)
        · exact Or.inl rfl
        · exact Or.inr (Or.inr ⟨ngh, hngh, hdel, hm, hne, hout⟩)
        · exact absurd hdel ha

/-- The list that `process_delete` leaves a slot with. -/
def newLinks (p : IndexParams V) (oldDeleteSet : Finset Nat) (order : SetOrder) (idx : Index V)
    (loc : Nat) : List Nat :=
  if needsRepair idx.graph oldDeleteSet loc then
    repairedLinks p oldDeleteSet order idx.graph (idx.slotDistance p) loc
  else idx.graph loc

theorem processDelete_eq (p : IndexParams V) (oldDeleteSet : Finset Nat) (order : SetOrder)
    (idx : Index V) (loc : Nat) : idx.processDelete p oldDeleteSet order loc =
      idx.setNeighbours loc (newLinks p oldDeleteSet order idx loc) := by
  rw [processDelete, newLinks]
  by_cases hmodify : needsRepair idx.graph oldDeleteSet loc = true
  · rw [if_pos hmodify, if_pos hmodify]
  · rw [if_neg hmodify, if_neg hmodify, setNeighbours, Function.update_eq_self]

/-- It is a matter of the slot's own list, those of the deleted slots, and the
    vectors. -/
theorem newLinks_congr {oldDeleteSet : Finset Nat} {order : SetOrder} {idx' : Index V} {loc : Nat}
    (hvectors : idx'.vectors = idx.vectors) (hloc : idx'.graph loc = idx.graph loc)
    (hdeleted : ∀ i ∈ oldDeleteSet, idx'.graph i = idx.graph i) :
    newLinks p oldDeleteSet order idx' loc = newLinks p oldDeleteSet order idx loc := by
  have hexpanded : expandedNodesSet idx'.graph oldDeleteSet loc =
      expandedNodesSet idx.graph oldDeleteSet loc := by
    ext m
    rw [mem_expandedNodesSet, mem_expandedNodesSet, hloc]
    refine or_congr_right (exists_congr fun ngh => and_congr_right fun _ => ?_)
    refine and_congr_right fun hdel => ?_
    rw [hdeleted ngh hdel]
  have hdist : idx'.slotDistance p = idx.slotDistance p := by
    funext a b
    rw [slotDistance, slotDistance, hvectors]
  rw [newLinks, newLinks, needsRepair, needsRepair, repairedLinks, repairedLinks, hloc, hexpanded,
    hdist]

/-- The loop of a consolidation replaces each list it goes over by one that is
    read off the index before the loop, in whatever order it goes. -/
theorem graph_processDeletes {oldDeleteSet : Finset Nat} (orders : Nat → SetOrder)
    {locations : List Nat} (hnodup : locations.Nodup)
    (hout : ∀ loc ∈ locations, loc ∉ oldDeleteSet) (i : Nat) :
    (idx.processDeletes p oldDeleteSet orders locations).graph i =
      if i ∈ locations then newLinks p oldDeleteSet (orders i) idx i else idx.graph i := by
  induction locations generalizing idx with
  | nil => rfl
  | cons loc rest ih =>
    obtain ⟨hnew, hrest⟩ := List.nodup_cons.mp hnodup
    have hloc := hout loc List.mem_cons_self
    have hstep : idx.processDeletes p oldDeleteSet orders (loc :: rest) =
        Index.processDeletes p oldDeleteSet orders
          (idx.setNeighbours loc (newLinks p oldDeleteSet (orders loc) idx loc)) rest := by
      rw [← processDelete_eq]
      rfl
    rw [hstep, ih hrest fun l hl => hout l (List.mem_cons_of_mem loc hl)]
    by_cases hi : i = loc
    · subst hi
      rw [if_neg hnew, if_pos List.mem_cons_self]
      exact Function.update_self i _ _
    · have hsame : ∀ j ≠ loc, (idx.setNeighbours loc
          (newLinks p oldDeleteSet (orders loc) idx loc)).graph j = idx.graph j :=
        fun j hj => Function.update_of_ne hj _ _
      have hcons : i ∈ loc :: rest ↔ i ∈ rest := by
        rw [List.mem_cons, or_iff_right hi]
      have hread : newLinks p oldDeleteSet (orders i) (idx.setNeighbours loc
          (newLinks p oldDeleteSet (orders loc) idx loc)) i =
            newLinks p oldDeleteSet (orders i) idx i :=
        newLinks_congr rfl (hsame i hi) fun j hj => hsame j fun heq => hloc (heq ▸ hj)
      rw [hsame i hi, hread]
      by_cases hin : i ∈ rest
      · rw [if_pos hin, if_pos (hcons.mpr hin)]
      · rw [if_neg hin, if_neg fun h => hin (hcons.mp h)]

/-- The list that `process_delete` finds, from lists of slots in use. -/
theorem linksOk_repairedLinks {used : Nat → Prop} {oldDeleteSet : Finset Nat} (order : SetOrder)
    {graph : Nat → List Nat} (dist : Nat → Nat → ℚ) {loc : Nat}
    (hown : ∀ m ∈ graph loc, used m ∧ m ≠ loc)
    (hdeleted : ∀ i ∈ oldDeleteSet, ∀ m ∈ graph i, used m) :
    LinksOk p (fun m => used m ∧ m ∉ oldDeleteSet) loc
      (repairedLinks p oldDeleteSet order graph dist loc) := by
  have hexpanded : ∀ m ∈ expandedNodesSet graph oldDeleteSet loc,
      (used m ∧ m ∉ oldDeleteSet) ∧ m ≠ loc := by
    intro m hm
    rcases mem_expandedNodesSet.mp hm with ⟨hin, hout⟩ | ⟨ngh, -, hdel, hin, hne, hout⟩
    · exact ⟨⟨(hown m hin).1, hout⟩, (hown m hin).2⟩
    · exact ⟨⟨hdeleted ngh hdel m hin, hout⟩, hne⟩
  have hmem := order.mem_toList (expandedNodesSet graph oldDeleteSet loc)
  rw [repairedLinks]
  dsimp only
  split_ifs with hcard
  · have hset : (order.toList (expandedNodesSet graph oldDeleteSet loc)).toFinset =
        expandedNodesSet graph oldDeleteSet loc := by
      ext m
      rw [List.mem_toFinset, hmem]
    refine ⟨fun m hm => (hexpanded m ((hmem m).mp hm)).1, order.nodup _,
      fun hin => (hexpanded loc ((hmem loc).mp hin)).2 rfl, ?_⟩
    rw [← List.toFinset_card_of_nodup (order.nodup _), hset]
    exact hcard.trans (range_le_slackRange p)
  · have hnodup : (((order.toList (expandedNodesSet graph oldDeleteSet loc)).map fun ngh =>
        (⟨ngh, dist loc ngh, false⟩ : Neighbor ℚ)).map Neighbor.id).Nodup := by
      rw [map_id_neighbours]
      exact order.nodup _
    have hnew := occludeList_linksFrom p.prune dist loc oldDeleteSet (nodup_sortPool hnodup)
    refine ⟨fun m hm => (hexpanded m ?_).1, hnew.nodup, hnew.not_self,
      hnew.length_le.trans (range_le_slackRange p)⟩
    have hin := ((perm_sortPool _).map Neighbor.id).mem_iff.mp (hnew.subset m hm)
    rw [map_id_neighbours] at hin
    exact (hmem m).mp hin

/-- The new list holds slots that stay in use. -/
theorem GraphOk.newLinks {used : Nat → Prop} (h : GraphOk p used idx.graph)
    {oldDeleteSet : Finset Nat} (order : SetOrder) {loc : Nat}
    (hdeleted : ∀ i ∈ oldDeleteSet, used i) (hloc : used loc ∨ loc = start p) :
    LinksOk p (fun m => used m ∧ m ∉ oldDeleteSet) loc
      (newLinks p oldDeleteSet order idx loc) := by
  have hlinks := h.links loc hloc
  rw [Index.newLinks]
  split_ifs with hmodify
  · refine linksOk_repairedLinks order _ (fun m hm => ?_) fun i hi =>
      (h.links i (Or.inl (hdeleted i hi))).used
    exact ⟨hlinks.used m hm, fun heq => hlinks.not_self (heq ▸ hm)⟩
  · refine ⟨fun m hm => ⟨hlinks.used m hm, fun hdel => hmodify ?_⟩, hlinks.nodup, hlinks.not_self,
      hlinks.length_le⟩
    exact List.any_eq_true.mpr ⟨m, hm, decide_eq_true hdel⟩

theorem mem_locationsToProcess {oldDeleteSet : Finset Nat} {i : Nat} :
    i ∈ idx.locationsToProcess p oldDeleteSet ↔
      idx.Used p i ∧ i ∉ oldDeleteSet ∨ i = start p := by
  rw [locationsToProcess, List.mem_append, List.mem_filter, List.mem_range, List.mem_singleton,
    Bool.and_eq_true, decide_eq_true_iff, Bool.not_eq_true', Used]
  refine or_congr_left ⟨?_, ?_⟩
  · rintro ⟨hlt, hdel, hout⟩
    exact ⟨⟨hlt, hout⟩, hdel⟩
  · rintro ⟨⟨hlt, hout⟩, hdel⟩
    exact ⟨hlt, hdel, hout⟩

theorem nodup_locationsToProcess (p : IndexParams V) (idx : Index V) (oldDeleteSet : Finset Nat) :
    (idx.locationsToProcess p oldDeleteSet).Nodup := by
  rw [locationsToProcess, ← List.concat_eq_append]
  refine List.Nodup.concat (fun hin => ?_) (List.nodup_range.filter _)
  exact Nat.lt_irrefl _ (List.mem_range.mp (List.mem_filter.mp hin).1)

/-- The graph after the loop of a consolidation: no list of a slot that stays in
    use, or of the frozen one, still holds a slot that was deleted. -/
theorem Ok.graph_processDeletes (h : idx.Ok p) (orders : Nat → SetOrder) {locations : List Nat}
    (hlocations : locations.Perm (idx.locationsToProcess p idx.deleteSet)) :
    GraphOk p (fun m => idx.Used p m ∧ m ∉ idx.deleteSet)
      (Index.processDeletes p idx.deleteSet orders { idx with deleteSet := ∅ } locations).graph := by
  have hmem : ∀ i, i ∈ locations ↔ idx.Used p i ∧ i ∉ idx.deleteSet ∨ i = start p :=
    fun i => hlocations.mem_iff.trans mem_locationsToProcess
  have hout : ∀ loc ∈ locations, loc ∉ idx.deleteSet := by
    intro loc hloc
    rcases (hmem loc).mp hloc with ⟨-, hdel⟩ | rfl
    · exact hdel
    · exact h.slots.start_not_deleted
  have hdeleted : ∀ i ∈ idx.deleteSet, idx.Used p i := fun i hi => h.slots.used_iff.mpr (Or.inl hi)
  have hgraph : ∀ i, (Index.processDeletes p idx.deleteSet orders { idx with deleteSet := ∅ }
      locations).graph i = if i ∈ locations then newLinks p idx.deleteSet (orders i) idx i
        else idx.graph i :=
    Index.graph_processDeletes orders
      (hlocations.nodup_iff.mpr (nodup_locationsToProcess p idx idx.deleteSet)) hout
  have hnew : ∀ i ∈ locations, LinksOk p (fun m => idx.Used p m ∧ m ∉ idx.deleteSet) i
      (newLinks p idx.deleteSet (orders i) idx i) :=
    fun i hi => h.graph.newLinks (orders i) hdeleted (((hmem i).mp hi).imp_left And.left)
  refine ⟨fun i hi => hi.1.1, fun i m hm => ?_, fun i hi => ?_⟩
  · rw [hgraph] at hm
    by_cases hi : i ∈ locations
    · rw [if_pos hi] at hm
      exact ((hnew i hi).used m hm).1.1
    · rw [if_neg hi] at hm
      exact h.graph.in_range i m hm
  · rw [hgraph, if_pos ((hmem i).mpr hi)]
    exact hnew i ((hmem i).mpr hi)

/-- The order in which the loop goes over the slots does not matter. -/
theorem Ok.processDeletes_perm (h : idx.Ok p) (orders : Nat → SetOrder) {locations : List Nat}
    (hlocations : locations.Perm (idx.locationsToProcess p idx.deleteSet)) :
    Index.processDeletes p idx.deleteSet orders { idx with deleteSet := ∅ } locations =
      Index.processDeletes p idx.deleteSet orders { idx with deleteSet := ∅ }
        (idx.locationsToProcess p idx.deleteSet) := by
  have hnodup := nodup_locationsToProcess p idx idx.deleteSet
  have hout : ∀ loc ∈ idx.locationsToProcess p idx.deleteSet, loc ∉ idx.deleteSet := by
    intro loc hloc
    rcases mem_locationsToProcess.mp hloc with ⟨-, hdel⟩ | rfl
    · exact hdel
    · exact h.slots.start_not_deleted
  have hsame : (Index.processDeletes p idx.deleteSet orders { idx with deleteSet := ∅ }
        locations).graph =
      (Index.processDeletes p idx.deleteSet orders { idx with deleteSet := ∅ }
        (idx.locationsToProcess p idx.deleteSet)).graph := by
    funext i
    rw [Index.graph_processDeletes orders (hlocations.nodup_iff.mpr hnodup)
        fun loc hloc => hout loc (hlocations.mem_iff.mp hloc),
      Index.graph_processDeletes orders hnodup hout]
    simp only [hlocations.mem_iff]
  have hleft := onlyGraph_processDeletes p idx.deleteSet orders { idx with deleteSet := ∅ } locations
  have hright := onlyGraph_processDeletes p idx.deleteSet orders { idx with deleteSet := ∅ }
    (idx.locationsToProcess p idx.deleteSet)
  rw [OnlyGraph] at hleft hright
  rw [hleft, hright, hsame]

/-- What `consolidate_deletes` does: it succeeds, the deleted slots are empty
    afterwards, and nothing links to them. -/
theorem Ok.consolidateDeletes (h : idx.Ok p) (orders : Nat → SetOrder) (releaseOrder : SetOrder) :
    ∃ idx', idx.consolidateDeletes p orders releaseOrder = some
        (idx', ⟨.success, idx.tagToLocation.size, p.maxPoints,
          p.maxPoints - idx.tagToLocation.size, idx.deleteSet.card, 0,
          idx.tagToLocation.size + 1⟩) ∧
      idx'.vectors = idx.vectors ∧ idx'.tagToLocation = idx.tagToLocation ∧
      idx'.locationToTag = idx.locationToTag ∧ idx'.deleteSet = ∅ ∧
      idx'.dataCompacted = idx.dataCompacted ∧ idx'.nd = idx.tagToLocation.size ∧ idx'.Ok p := by
  obtain ⟨es, hes, hsize, hmem, heq⟩ := h.slots.consolidateDeletes orders releaseOrder
  refine ⟨_, heq, rfl, rfl, rfl, rfl, rfl, h.slots.size_tagToLocation,
    h.slots.of_consolidateDeletes heq, ?_⟩
  have hused : Used p { idx with
      deleteSet := ∅
      graph := (Index.processDeletes p idx.deleteSet orders { idx with deleteSet := ∅ }
        (idx.locationsToProcess p idx.deleteSet)).graph
      emptySlots := es
      nd := idx.locationToTag.size } = fun m => idx.Used p m ∧ m ∉ idx.deleteSet := by
    funext m
    refine propext ?_
    show m < p.maxPoints ∧ es.isInSet m = false ↔ _
    rw [← Bool.not_eq_true, hmem, not_or, Bool.not_eq_true, Used, and_assoc]
    exact and_congr_right fun _ => and_comm
  rw [hused]
  exact h.graph_processDeletes orders (List.Perm.refl _)

/-! ## Runs -/

/-- A call throws only for the tag 0, and else leaves an index that is in order. -/
theorem Ok.step (h : idx.Ok p) (call : Call V) :
    (∃ point, call = .insertPoint point 0) ∧ idx.step p call = none ∨
      ∃ idx', idx.step p call = some idx' ∧ idx'.Ok p := by
  cases call with
  | insertPoint point tag =>
    by_cases htag : tag = 0
    · subst htag
      exact Or.inl ⟨⟨point, rfl⟩, rfl⟩
    · rw [Index.step]
      obtain ⟨-, heq⟩ | ⟨-, idx', location, heq, -, hok⟩ := h.insertPoint point htag
      · exact Or.inr ⟨idx, by rw [heq]; rfl, h⟩
      · exact Or.inr ⟨_, by rw [heq]; rfl, hok⟩
  | lazyDelete tag => exact Or.inr ⟨_, rfl, h.lazyDelete tag⟩
  | lazyDeleteAll tags => exact Or.inr ⟨_, rfl, h.lazyDeleteAll tags⟩
  | consolidateDeletes orders releaseOrder =>
    obtain ⟨idx', heq, -, -, -, -, -, -, hok⟩ := h.consolidateDeletes orders releaseOrder
    exact Or.inr ⟨idx', by rw [Index.step, heq]; rfl, hok⟩

theorem Ok.of_step (h : idx.Ok p) {call : Call V} {idx' : Index V}
    (hstep : idx.step p call = some idx') : idx'.Ok p := by
  obtain ⟨-, hnone⟩ | ⟨t, ht, hok⟩ := h.step call
  · rw [hnone] at hstep
    cases hstep
  · rw [ht] at hstep
    exact Option.some.inj hstep ▸ hok

/-- Every index that a run of calls passes through is in order. -/
theorem ok_always (p : IndexParams V) (calls : List (Call V)) :
    Traces.Always (step p) (Ok p) (create p) calls :=
  Traces.always_of_along (P := fun _ _ => True) (fun _ _ _ h _ hstep => h.of_step hstep)
    (ok_create p) (Traces.along_true _ calls)

end Index

end QvCache.Vamana
