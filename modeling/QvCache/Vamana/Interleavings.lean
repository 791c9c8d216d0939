/-
  QvCache.Vamana.Interleavings

  What concurrent calls cannot do to an index, whatever the order of their
  critical sections (`threads_always`): no call throws and no assertion fails,
  every slot is empty, under one tag, lazily deleted, or with the consolidation
  under way, and all lists that anyone can read hold different slots that exist.

  A consolidation has its deleted slots from the swap of the delete set to their
  release; the counts that another one checks meanwhile do not add up
  (`checks_always`).
-/

import QvCache.Vamana.Threads
import QvCache.Vamana.Queries

namespace QvCache.Vamana

namespace Index

variable {V : Type} {p : IndexParams V} {idx : Index V} {H : Finset Nat}

/-! ## Slots -/

/-- The slots are in order when the deleted slots `H` are counted in, which a
    consolidation has. -/
structure HeldOk (p : IndexParams V) (H : Finset Nat) (idx : Index V) : Prop where
  slots : SlotsOk p { idx with deleteSet := idx.deleteSet ∪ H }
  apart : Disjoint idx.deleteSet H

theorem heldOk_empty : idx.HeldOk p ∅ ↔ idx.SlotsOk p := by
  have hsame : ({ idx with deleteSet := idx.deleteSet ∪ ∅ } : Index V) = idx := by
    rw [Finset.union_empty]
  refine ⟨fun h => hsame ▸ h.slots, fun h => ⟨?_, Finset.disjoint_empty_right _⟩⟩
  rw [hsame]
  exact h

theorem HeldOk.of_stores (h : idx.HeldOk p H) (vectors : Nat → V) (graph : Nat → List Nat) :
    HeldOk p H { idx with vectors := vectors, graph := graph } :=
  ⟨h.slots.of_stores vectors graph, h.apart⟩

theorem HeldOk.lt_of_lookup (h : idx.HeldOk p H) {tag : Tag} {location : Nat}
    (htag : idx.tagToLocation.lookup tag = some location) :
    location < p.maxPoints ∧ location ∉ idx.deleteSet ∪ H := by
  have hslot := h.slots.tagged location (h.slots.contains_iff.mpr ⟨tag, htag⟩)
  exact ⟨hslot.1, hslot.2.2⟩

/-- The slots in use are those with a tag, the deleted ones, and those that the
    consolidation has. -/
theorem HeldOk.nd_eq (h : idx.HeldOk p H) :
    idx.locationToTag.size + (idx.deleteSet.card + H.card) = idx.nd := by
  have hcount := h.slots.count_tags
  have hcard := Finset.card_union_of_disjoint h.apart
  dsimp only at hcount
  rw [hcard] at hcount
  exact hcount

/-- Every slot is in exactly one of the four sets. -/
theorem HeldOk.count_eq_one (h : idx.HeldOk p H) {i : Nat} (hi : i < p.maxPoints) :
    [idx.emptySlots.isInSet i, idx.locationToTag.contains i, decide (i ∈ idx.deleteSet),
      decide (i ∈ H)].count true = 1 := by
  have hdeleted := h.slots.deleted i
  have htagged := h.slots.tagged i
  have hcovers := h.slots.covers i hi
  have hapart : i ∈ idx.deleteSet → i ∉ H := fun hin => Finset.disjoint_left.mp h.apart hin
  dsimp only at hdeleted htagged hcovers
  rw [Finset.mem_union] at hdeleted htagged hcovers
  generalize idx.emptySlots.isInSet i = isEmpty at *
  generalize idx.locationToTag.contains i = isTagged at *
  by_cases hdel : i ∈ idx.deleteSet <;> by_cases hheld : i ∈ H <;>
    cases isEmpty <;> cases isTagged <;> simp_all

theorem HeldOk.reserveLocation (h : idx.HeldOk p H) :
    p.maxPoints ≤ idx.nd ∧ idx.reserveLocation p = some (idx, none) ∨
      idx.nd < p.maxPoints ∧ ∃ location rest, idx.emptySlots.popAny = some (location, rest) ∧
        idx.reserveLocation p =
          some ({ idx with emptySlots := rest, nd := idx.nd + 1 }, some location) := by
  obtain ⟨hfull, heq⟩ | ⟨hroom, location, rest, hpop, -, heq⟩ :=
    h.slots.reserveLocation (D := idx.deleteSet) Finset.subset_union_left
  · exact Or.inl ⟨hfull, heq⟩
  · exact Or.inr ⟨hroom, location, rest, hpop, heq⟩

theorem HeldOk.register (h : idx.HeldOk p H) {location : Nat} {rest : NaturalNumberSet}
    (hpop : idx.emptySlots.popAny = some (location, rest)) {tag : Tag}
    (htag : idx.tagToLocation.lookup tag = none) :
    HeldOk p H (Index.register { idx with emptySlots := rest, nd := idx.nd + 1 } tag location) :=
  ⟨h.slots.register hpop htag, h.apart⟩

theorem HeldOk.lazyDelete (h : idx.HeldOk p H) (tag : Tag) : (idx.lazyDelete tag).1.HeldOk p H := by
  have hslots := h.slots.lazyDelete tag
  rw [Index.lazyDelete] at hslots ⊢
  dsimp only at hslots
  cases htag : idx.tagToLocation.lookup tag with
  | none =>
    rw [htag] at hslots
    exact ⟨hslots, h.apart⟩
  | some location =>
    rw [htag] at hslots
    have hout := (h.lt_of_lookup htag).2
    refine ⟨?_, ?_⟩
    · show SlotsOk p { idx with
        dataCompacted := false
        deleteSet := insert location idx.deleteSet ∪ H
        locationToTag := idx.locationToTag.erase location
        tagToLocation := idx.tagToLocation.erase tag }
      rw [Finset.insert_union]
      exact hslots
    · refine Finset.disjoint_insert_left.mpr ⟨fun hin => hout ?_, h.apart⟩
      exact Finset.mem_union_right _ hin

theorem HeldOk.lazyDeleteAll (h : idx.HeldOk p H) (tags : List Tag) :
    (idx.lazyDeleteAll tags).1.HeldOk p H := by
  induction tags using List.reverseRecOn with
  | nil =>
    have hs := h.slots
    exact ⟨⟨hs.empty_valid, hs.tags_valid, hs.empty_lt, hs.deleted, hs.tagged, hs.covers,
      hs.inverse, hs.count⟩, h.apart⟩
  | append_singleton rest tag ih =>
    rw [lazyDeleteAll_concat]
    exact ih.lazyDelete tag

theorem graph_lazyDelete (idx : Index V) (tag : Tag) :
    (idx.lazyDelete tag).1.graph = idx.graph := by
  rw [Index.lazyDelete]
  cases idx.tagToLocation.lookup tag <;> rfl

theorem graph_lazyDeleteAll (idx : Index V) (tags : List Tag) :
    (idx.lazyDeleteAll tags).1.graph = idx.graph := by
  induction tags using List.reverseRecOn with
  | nil => rfl
  | append_singleton rest tag ih => rw [lazyDeleteAll_concat, graph_lazyDelete, ih]

/-- The swap hands the deleted slots over. -/
theorem HeldOk.swap (h : idx.HeldOk p ∅) :
    HeldOk p idx.deleteSet { idx with deleteSet := ∅ } := by
  refine ⟨?_, Finset.disjoint_empty_left _⟩
  show SlotsOk p { idx with deleteSet := ∅ ∪ idx.deleteSet }
  rw [Finset.empty_union]
  exact heldOk_empty.mp h

/-- The release of the slots that a consolidation has. -/
theorem HeldOk.release (h : idx.HeldOk p H) (order : SetOrder) :
    ∃ es : NaturalNumberSet, es.size = idx.emptySlots.size + H.card ∧
      (∀ i, es.isInSet i = true ↔ i ∈ H ∨ idx.emptySlots.isInSet i = true) ∧
      idx.releaseLocations p (order.toList H) =
        some { idx with emptySlots := es, nd := idx.nd - H.card } ∧
      HeldOk p ∅ { idx with emptySlots := es, nd := idx.nd - H.card } := by
  have hlength : (order.toList H).length = H.card := by
    have hset : (order.toList H).toFinset = H := by
      ext i
      rw [List.mem_toFinset, order.mem_toList]
    rw [← List.toFinset_card_of_nodup (order.nodup _), hset]
  have hnd := h.nd_eq
  have hcount : idx.emptySlots.size + idx.nd = p.maxPoints := h.slots.count
  have hused : ∀ i ∈ order.toList H, idx.emptySlots.isInSet i = false := fun i hi =>
    (h.slots.deleted i (Finset.mem_union_right _ ((order.mem_toList H i).mp hi))).2
  have hvalid : idx.emptySlots.Valid := h.slots.empty_valid
  obtain ⟨es, hes, hsize, hmem, heq⟩ :=
    foldlM_releaseLocation hvalid (order.nodup H) hused (by omega)
  rw [hlength] at hsize heq
  simp only [order.mem_toList] at hmem
  refine ⟨es, hsize, hmem, ?_, heldOk_empty.mpr ?_⟩
  · rw [releaseLocations, heq, Option.bind_some]
    exact if_pos (by dsimp only; omega)
  · have hslots := h.slots.release Finset.subset_union_right hes hsize hmem idx.graph
    dsimp only at hslots
    rwa [Finset.union_sdiff_cancel_right h.apart] at hslots

/-! ## Lists -/

theorem LinksOk.mono {used used' : Nat → Prop} {i : Nat} {l : List Nat} (h : LinksOk p used i l)
    (hused : ∀ m ∈ l, used m → used' m) : LinksOk p used' i l :=
  ⟨fun m hm => hused m hm (h.used m hm), h.nodup, h.not_self, h.length_le⟩

/-- What every slot links to at any time: different other slots, not the frozen
    one. -/
def ListsOk (p : IndexParams V) (graph : Nat → List Nat) : Prop :=
  ∀ i, LinksOk p (· < p.maxPoints) i (graph i)

theorem ListsOk.update {graph : Nat → List Nat} (h : ListsOk p graph) {i : Nat} {l : List Nat}
    (hl : LinksOk p (· < p.maxPoints) i l) : ListsOk p (Function.update graph i l) := by
  intro j
  by_cases hj : j = i
  · subst hj
    rwa [Function.update_self]
  · rw [Function.update_of_ne hj]
    exact h j

/-- The list of `des` with a link back. -/
theorem linksOk_concat {des n : Nat} {l : List Nat} (hl : LinksOk p (· < p.maxPoints) des l)
    (hn : n < p.maxPoints) (hnew : n ∉ l) (hne : des ≠ n) (hroom : l.length < slackRange p) :
    LinksOk p (· < p.maxPoints) des (l ++ [n]) := by
  refine ⟨fun m hm => ?_, ?_, ?_, ?_⟩
  · rcases List.mem_append.mp hm with hm | hm
    · exact hl.used m hm
    · exact List.mem_singleton.mp hm ▸ hn
  · rw [← List.concat_eq_append]
    exact hl.nodup.concat hnew
  · rw [List.mem_append, List.mem_singleton, not_or]
    exact ⟨hl.not_self, hne⟩
  · rw [List.length_append, List.length_singleton]
    exact hroom

end Index

namespace Threads

open Index

variable {V : Type} {p : IndexParams V} {s s' : Threads V}

/-- The deleted slots that the consolidation under way has. -/
def held (s : Threads V) : Finset Nat :=
  (s.consolidation.map Consolidation.oldDeleteSet).getD ∅

/-- The slots that an insertion still has to link back from. -/
structure SrcPoolOk (p : IndexParams V) (location : Nat) (srcPool : List Nat) : Prop where
  le : ∀ des ∈ srcPool, des ≤ p.maxPoints
  not_self : location ∉ srcPool

/-- What an insertion carries from one critical section to the next. -/
def PhaseOk (p : IndexParams V) (location : Nat) : Phase V → Prop
  | .storeVector _ => True
  | .search => True
  | .link prunedList => PrunedList p (· < p.maxPoints) location prunedList
  | .interInsert srcPool => SrcPoolOk p location srcPool
  | .setPruned _ copyOfNeighbors srcPool =>
    (∀ m ∈ copyOfNeighbors, m < p.maxPoints) ∧ SrcPoolOk p location srcPool

/-- What a consolidation carries. -/
structure ConsolidationOk (p : IndexParams V) (c : Consolidation) : Prop where
  todo : c.todo.Nodup
  writes : ∀ w ∈ c.writes, LinksOk p (· < p.maxPoints) w.1 w.2

/-- The index and the calls under way are in order. -/
structure Safe (p : IndexParams V) (s : Threads V) : Prop where
  unbroken : s.threw = false
  slots : s.idx.HeldOk p s.held
  lists : ∀ graph ∈ s.idx.graph :: s.past, ListsOk p graph
  insertions : ∀ ins ∈ s.insertions, ins.location < p.maxPoints ∧ PhaseOk p ins.location ins.phase
  consolidation : ∀ c, s.consolidation = some c → ConsolidationOk p c

theorem safe_start (p : IndexParams V) : (start p).Safe p where
  unbroken := rfl
  slots := heldOk_empty.mpr (slotsOk_create p)
  lists graph hgraph := by
    rw [List.mem_singleton.mp hgraph]
    exact fun i => ⟨fun m hm => absurd hm List.not_mem_nil, List.nodup_nil, List.not_mem_nil,
      Nat.zero_le _⟩
  insertions _ hins := absurd hins List.not_mem_nil
  consolidation _ hc := absurd hc (Option.some_ne_none _).symm

/-- Whatever is read is in order. -/
theorem Safe.reads (h : s.Safe p) (times : Nat → Nat) : ListsOk p (s.reads times) := by
  intro i
  have hgraph : ListsOk p (((s.idx.graph :: s.past)[times i]?).getD s.idx.graph) := by
    cases hread : (s.idx.graph :: s.past)[times i]? with
    | none => exact h.lists _ List.mem_cons_self
    | some graph => exact h.lists graph (List.mem_of_getElem? hread)
  exact hgraph i

/-- An index that differs in what the calls do not hold on to. -/
theorem Safe.moveTo (h : s.Safe p) {idx : Index V} (hslots : idx.HeldOk p s.held)
    (hgraph : ListsOk p idx.graph) : (s.moveTo idx).Safe p where
  unbroken := h.unbroken
  slots := hslots
  lists graph hin := by
    rcases List.mem_cons.mp hin with rfl | hin
    · exact hgraph
    · exact h.lists graph hin
  insertions := h.insertions
  consolidation := h.consolidation

theorem Safe.setPhase (h : s.Safe p) (phase : Phase V) {location : Nat}
    (hlocation : location < p.maxPoints) (hphase : PhaseOk p location phase) (k : Nat) :
    (s.setPhase k location phase).Safe p where
  unbroken := h.unbroken
  slots := h.slots
  lists := h.lists
  insertions ins hins := by
    rcases List.mem_or_eq_of_mem_set hins with hins | rfl
    · exact h.insertions ins hins
    · exact ⟨hlocation, hphase⟩
  consolidation := h.consolidation

/-- A list that is written. -/
theorem Safe.setNeighbours (h : s.Safe p) {i : Nat} {l : List Nat}
    (hl : LinksOk p (· < p.maxPoints) i l) : (s.moveTo (s.idx.setNeighbours i l)).Safe p :=
  h.moveTo (h.slots.of_stores s.idx.vectors _) ((h.lists _ List.mem_cons_self).update hl)

/-- A consolidation that goes on with the slots that it has. -/
theorem Safe.setConsolidation (h : s.Safe p) {c c' : Consolidation}
    (hc : s.consolidation = some c) (hold : c'.oldDeleteSet = c.oldDeleteSet)
    (hc' : ConsolidationOk p c') :
    Safe p { s with consolidation := some c' } where
  unbroken := h.unbroken
  slots := by
    have hheld : s.held = c'.oldDeleteSet := by
      rw [held, hc, hold]
      rfl
    have hslots := h.slots
    rwa [hheld] at hslots
  lists := h.lists
  insertions := h.insertions
  consolidation c₁ hc₁ := Option.some.inj hc₁ ▸ hc'

/-! ## The critical sections -/

theorem Safe.reserveAsserts (h : s.Safe p) : reserveAsserts p s.idx = true := by
  have hcount : s.idx.emptySlots.size + s.idx.nd = p.maxPoints := h.slots.slots.count
  rw [Threads.reserveAsserts, Bool.or_eq_true, decide_eq_true_iff, Bool.or_eq_true,
    decide_eq_true_iff]
  omega

/-- What `insert_point` does until it unlocks `_tag_lock`: it refuses and changes
    nothing, or takes an empty slot for the new tag. -/
theorem Safe.insertPoint_cases (h : s.Safe p) (point : V) (tag : Tag) :
    ((s.idx.tagToLocation.lookup tag).isSome ∨ p.maxPoints ≤ s.idx.nd) ∧
        s.insertPoint p point tag = s.moveTo s.idx ∧
        s.answer p (.insertPoint point tag) = [.code (-1)] ∨
      (s.idx.tagToLocation.lookup tag = none ∧ s.idx.nd < p.maxPoints) ∧
        ∃ location rest, s.idx.emptySlots.popAny = some (location, rest) ∧
          s.insertPoint p point tag =
            { s.moveTo (Index.register { s.idx with emptySlots := rest, nd := s.idx.nd + 1 } tag
                location) with
              insertions := s.insertions ++ [⟨location, .storeVector point⟩] } ∧
          s.answer p (.insertPoint point tag) = [.code 0] := by
  rw [Threads.insertPoint, if_pos h.reserveAsserts, Threads.answer]
  obtain ⟨hfull, heq⟩ | ⟨hroom, location, rest, hpop, heq⟩ := h.slots.reserveLocation
  · rw [heq]
    exact Or.inl ⟨Or.inr hfull, rfl, rfl⟩
  · rw [heq]
    dsimp only
    cases htag : s.idx.tagToLocation.lookup tag with
    | some i =>
      have hvalid : s.idx.emptySlots.Valid := h.slots.slots.empty_valid
      rw [Option.isSome_some, if_pos rfl, releaseLocation_reserved hvalid hpop]
      exact Or.inl ⟨Or.inl rfl, rfl, rfl⟩
    | none =>
      rw [Option.isSome_none, if_neg Bool.false_ne_true]
      exact Or.inr ⟨⟨rfl, hroom⟩, location, rest, hpop, rfl, rfl⟩

theorem Safe.insertPoint (h : s.Safe p) (point : V) (tag : Tag) :
    (s.insertPoint p point tag).Safe p := by
  have hgraph := h.lists _ List.mem_cons_self
  obtain ⟨-, heq, -⟩ | ⟨⟨hnew, -⟩, location, rest, hpop, heq, -⟩ := h.insertPoint_cases point tag
  · rw [heq]
    exact h.moveTo h.slots hgraph
  · have hlt := h.slots.slots.empty_lt location (h.slots.slots.empty_valid.popAny hpop).1
    have hmoved := h.moveTo (h.slots.register hpop hnew) hgraph
    rw [heq]
    refine ⟨hmoved.unbroken, hmoved.slots, hmoved.lists, fun ins hins => ?_, hmoved.consolidation⟩
    rcases List.mem_append.mp hins with hins | hins
    · exact h.insertions ins hins
    · rw [List.mem_singleton.mp hins]
      exact ⟨hlt, trivial⟩

/-- A search that reads lists written at different times still ends with links for
    the new slot. -/
theorem Safe.searchAndPrune (h : s.Safe p) (times : Nat → Nat) (queryDist : Nat → ℚ)
    (dist : Nat → Nat → ℚ) {location : Nat} (hlocation : location < p.maxPoints) :
    ∃ prunedList, searchAndPrune p ⟨s.reads times, p.maxPoints + 1, queryDist⟩ dist location =
        some prunedList ∧ PrunedList p (· < p.maxPoints) location prunedList :=
  searchAndPrune_spec rfl (fun i _ => (h.reads times i).used) (fun i => (h.reads times i).used)
    dist hlocation

theorem SrcPoolOk.of_prunedList {location : Nat} {l : List Nat}
    (h : PrunedList p (· < p.maxPoints) location l) : SrcPoolOk p location l where
  le des hdes := (h.used des hdes).elim le_of_lt le_of_eq
  not_self := h.not_self

theorem SrcPoolOk.tail {location des : Nat} {rest : List Nat}
    (h : SrcPoolOk p location (des :: rest)) : SrcPoolOk p location rest where
  le m hm := h.le m (List.mem_cons_of_mem des hm)
  not_self hin := h.not_self (List.mem_cons_of_mem des hin)

theorem Safe.advance (h : s.Safe p) {k : Nat} {ins : Insertion V}
    (hins : s.insertions[k]? = some ins) (times : Nat → Nat) (queryDist : Nat → ℚ)
    (dist : Nat → Nat → ℚ) : (s.advance p k ins times queryDist dist).Safe p := by
  obtain ⟨hlocation, hphase⟩ := h.insertions ins (List.mem_of_getElem? hins)
  have hgraph := h.lists _ List.mem_cons_self
  rw [Threads.advance]
  cases hnow : ins.phase with
  | storeVector point =>
    exact (h.setPhase .search hlocation trivial k).moveTo (h.slots.of_stores _ s.idx.graph) hgraph
  | search =>
    obtain ⟨prunedList, heq, hlist⟩ := h.searchAndPrune times queryDist dist hlocation
    dsimp only
    rw [heq]
    cases prunedList with
    | nil => exact absurd rfl hlist.ne_nil
    | cons des rest => exact h.setPhase (.link (des :: rest)) hlocation hlist k
  | link prunedList =>
    rw [hnow] at hphase
    have hlist : PrunedList p (· < p.maxPoints) ins.location prunedList := hphase
    have hlength := (List.length_filter_le (fun l => s.idx.locationToTag.contains l)
      prunedList).trans hlist.length_le
    dsimp only
    rw [if_pos hlength]
    have hpool := SrcPoolOk.of_prunedList hlist
    refine (h.setPhase (.interInsert prunedList) hlocation hpool k).setNeighbours
      ⟨fun m hm => ?_, hlist.nodup.filter _, fun hm => hlist.not_self (List.mem_filter.mp hm).1,
        hlength.trans (range_le_slackRange p)⟩
    exact (h.slots.slots.tagged m (List.mem_filter.mp hm).2).1
  | interInsert srcPool =>
    rw [hnow] at hphase
    cases srcPool with
    | nil =>
      exact ⟨h.unbroken, h.slots, h.lists,
        fun i hi => h.insertions i (List.mem_of_mem_eraseIdx hi), h.consolidation⟩
    | cons des rest =>
      have hpool : SrcPoolOk p ins.location (des :: rest) := hphase
      have hne : des ≠ ins.location := fun heq => hpool.not_self (heq ▸ List.mem_cons_self)
      dsimp only
      rw [if_neg (not_lt.mpr (hpool.le des List.mem_cons_self))]
      split_ifs with hthere hroom
      · exact h.setPhase (.interInsert rest) hlocation hpool.tail k
      · exact (h.setPhase (.interInsert rest) hlocation hpool.tail k).setNeighbours
          (linksOk_concat (hgraph des) hlocation hthere hne hroom)
      · refine h.setPhase (.setPruned des (s.idx.graph des ++ [ins.location]) rest) hlocation
          ⟨fun m hm => ?_, hpool.tail⟩ k
        rcases List.mem_append.mp hm with hm | hm
        · exact (hgraph des).used m hm
        · exact List.mem_singleton.mp hm ▸ hlocation
  | setPruned des copyOfNeighbors rest =>
    rw [hnow] at hphase
    obtain ⟨hcopy, hpool⟩ := hphase
    exact (h.setPhase (.interInsert rest) hlocation hpool k).setNeighbours
      (linksOk_newOutNeighbors dist des hcopy)

theorem Safe.lazyDelete (h : s.Safe p) (tag : Tag) :
    s.lazyDelete p tag = s.moveTo (s.idx.lazyDelete tag).1 ∧ (s.lazyDelete p tag).Safe p := by
  have hassert : ((s.idx.tagToLocation.lookup tag).all
      fun location => decide (location < p.maxPoints)) = true := by
    cases htag : s.idx.tagToLocation.lookup tag with
    | none => rfl
    | some location => exact decide_eq_true (h.slots.lt_of_lookup htag).1
  have heq : s.lazyDelete p tag = s.moveTo (s.idx.lazyDelete tag).1 := by
    rw [Threads.lazyDelete, if_pos hassert]
  refine ⟨heq, heq ▸ h.moveTo (h.slots.lazyDelete tag) ?_⟩
  rw [graph_lazyDelete]
  exact h.lists _ List.mem_cons_self

theorem Safe.lazyDeleteAll (h : s.Safe p) (tags : List Tag) :
    (s.moveTo (s.idx.lazyDeleteAll tags).1).Safe p := by
  refine h.moveTo (h.slots.lazyDeleteAll tags) ?_
  rw [graph_lazyDeleteAll]
  exact h.lists _ List.mem_cons_self

/-- What a search writes whose lists were read at different times. -/
theorem Safe.searchWithTags (h : s.Safe p) (times : Nat → Nat) (queryDist : Nat → ℚ) {K L : Nat}
    (hK : 0 < K) (hKL : K ≤ L) (resSize : Nat) :
    ∃ report, s.searchWithTags p times queryDist K L resSize = some report ∧
      report.length ≤ K ∧ (report.map Prod.fst).Nodup ∧
      (∀ td ∈ report, ∃ i, s.idx.tagToLocation.lookup td.1 = some i ∧
        td.2 = writtenDistance p.prune.metric (queryDist i)) ∧
      report.Pairwise fun a b =>
        orientedKey p.prune.metric a.2 ≤ orientedKey p.prune.metric b.2 := by
  let g : SearchGraph ℚ := ⟨s.reads times, p.maxPoints + 1, queryDist⟩
  have hclosed : g.Closed := fun i _ m hm => Nat.lt_succ_of_lt ((h.reads times i).used m hm)
  have hstart : ∀ id ∈ [Index.start p], id < g.slots := by
    intro id hid
    rw [List.mem_singleton.mp hid]
    exact Nat.lt_succ_self _
  obtain ⟨scratch, hscratch, hfound⟩ :=
    iterateToFixedPoint_found (hK.trans_le hKL) hclosed hstart true
  obtain ⟨hsorted, hnodup⟩ := h.slots.slots.taggedNodes hfound
  dsimp only at hsorted hnodup
  have hlive : ∀ td ∈ (scratch.bestLNodes.data.map fun n =>
      (s.idx.locationToTag.tryGet n.id, n.distance)).filterMap (writtenEntry p.prune.metric),
        ∃ i, s.idx.tagToLocation.lookup td.1 = some i ∧
          td.2 = writtenDistance p.prune.metric (queryDist i) := by
    intro td htd
    obtain ⟨node, hnode, heq⟩ := List.mem_filterMap.mp htd
    obtain ⟨n, hn, rfl⟩ := List.mem_map.mp hnode
    obtain ⟨tag, htag, rfl⟩ := Option.map_eq_some_iff.mp heq
    refine ⟨n.id, (h.slots.slots.inverse tag n.id).mpr htag, ?_⟩
    rw [(hfound.visited hn).2]
  have hsub := List.take_sublist (if resSize = 0 then K else min K resSize)
    ((scratch.bestLNodes.data.map fun n =>
      (s.idx.locationToTag.tryGet n.id, n.distance)).filterMap (writtenEntry p.prune.metric))
  refine ⟨_, ?_, ?_, (nodup_written _ hnodup).sublist (hsub.map Prod.fst),
    fun td htd => hlive td (hsub.subset htd), (sorted_written _ hsorted).sublist hsub⟩
  · rw [Threads.searchWithTags, if_neg (not_lt.mpr hKL), hscratch, Option.map_some,
      searchWithTags_eq_take p.prune.metric hK (Nat.eq_zero_or_pos resSize), Nat.sub_zero]
  · refine (List.length_take_le _ _).trans ?_
    split_ifs
    · exact Nat.le_refl K
    · exact Nat.min_le_left K resSize

/-- The counts add up unless another consolidation has deleted slots. -/
theorem Safe.checkStatus (h : s.Safe p) :
    checkStatus p s.idx = some (if s.held = ∅ then .success else .inconsistentCountError) := by
  have hcount : s.idx.emptySlots.size + s.idx.nd = p.maxPoints := h.slots.slots.count
  have hnd := h.slots.nd_eq
  have hsize : s.idx.locationToTag.size = s.idx.tagToLocation.size :=
    h.slots.slots.size_tagToLocation
  rw [Threads.checkStatus, if_neg (not_not.mpr hcount)]
  by_cases hheld : s.held = ∅
  · rw [hheld, Finset.card_empty, Nat.add_zero] at hnd
    rw [if_neg (not_not.mpr hnd), if_neg (not_not.mpr hsize), if_pos hheld]
  · have hpos : 0 < s.held.card := Finset.card_pos.mpr (Finset.nonempty_iff_ne_empty.mpr hheld)
    rw [if_pos (by omega), if_neg hheld]

theorem Safe.setCounters (h : s.Safe p) (checked : Nat) (locked released : Bool) :
    Safe p { s with checked := checked, locked := locked, released := released } :=
  ⟨h.unbroken, h.slots, h.lists, h.insertions, h.consolidation⟩

theorem Safe.check (h : s.Safe p) : (s.check p).Safe p := by
  rw [Threads.check, h.checkStatus]
  by_cases hheld : s.held = ∅
  · rw [if_pos hheld]
    exact h.setCounters (s.checked + 1) s.locked s.released
  · rw [if_neg hheld]
    exact h

theorem Safe.held_eq {c : Consolidation} (hc : s.consolidation = some c) :
    s.held = c.oldDeleteSet := by
  rw [held, hc]
  rfl

/-- The start is never deleted. -/
theorem Safe.start_not_held (h : s.Safe p) : Index.start p ∉ s.held :=
  fun hin => h.slots.slots.start_not_deleted (Finset.mem_union_right _ hin)

theorem Safe.swap_eq (h : s.Safe p) :
    s.swap p = { s with
      idx := { s.idx with deleteSet := ∅ }
      consolidation := some ⟨s.idx.deleteSet, List.range (p.maxPoints + 1), [], 0⟩ } := by
  have hstart : Index.start p ∉ s.idx.deleteSet := fun hin =>
    h.slots.slots.start_not_deleted (Finset.mem_union_left _ hin)
  rw [Threads.swap, if_neg hstart]

theorem Safe.held_eq_empty (hfree : s.consolidation = none) : s.held = ∅ := by
  rw [held, hfree]
  rfl

theorem Safe.swap (h : s.Safe p) (hfree : s.consolidation = none) : (s.swap p).Safe p := by
  have hslots := h.slots
  rw [Safe.held_eq_empty hfree] at hslots
  rw [h.swap_eq]
  exact ⟨h.unbroken, hslots.swap, h.lists, h.insertions,
    fun c hc => Option.some.inj hc ▸
      ⟨List.nodup_range, fun w hw => absurd hw List.not_mem_nil⟩⟩

theorem Safe.processDelete (h : s.Safe p) {c : Consolidation} (hc : s.consolidation = some c)
    (loc : Nat) (inUse : Bool) (times : Nat → Nat) (dist : Nat → Nat → ℚ) (order : SetOrder) :
    (s.processDelete p c loc inUse times dist order).Safe p := by
  have hstart := h.start_not_held
  rw [Safe.held_eq hc] at hstart
  have hok := h.consolidation c hc
  have htodo := hok.todo.erase loc
  rw [Threads.processDelete]
  split_ifs with hskip hdeleted hrepair
  · exact h.setConsolidation hc rfl ⟨htodo, hok.writes⟩
  · refine absurd hdeleted fun hin => hskip ⟨?_, Or.inl hin⟩
    rintro rfl
    exact hstart hin
  · refine h.setConsolidation hc rfl ⟨htodo, fun w hw => ?_⟩
    rcases List.mem_cons.mp hw with rfl | hw
    · have hread := h.reads times
      have hlinks : LinksOk p (fun m => m < p.maxPoints ∧ m ∉ c.oldDeleteSet) loc
          (repairedLinks p c.oldDeleteSet order (s.reads times) dist loc) :=
        linksOk_repairedLinks order dist
          (fun m hm => ⟨(hread loc).used m hm, fun heq => (hread loc).not_self (heq ▸ hm)⟩)
          fun i _ => (hread i).used
      exact hlinks.mono fun m _ hm => hm.1
    · exact hok.writes w hw
  · exact h.setConsolidation hc rfl ⟨htodo, hok.writes⟩

theorem Safe.write (h : s.Safe p) {c : Consolidation} (hc : s.consolidation = some c) {k : Nat}
    {w : Nat × List Nat} (hw : c.writes[k]? = some w) : (s.write c k w).Safe p := by
  have hok := h.consolidation c hc
  exact (h.setNeighbours (hok.writes w (List.mem_of_getElem? hw))).setConsolidation hc rfl
    ⟨hok.todo, fun w' hw' => hok.writes w' (List.mem_of_mem_eraseIdx hw')⟩

theorem Safe.release (h : s.Safe p) {c : Consolidation} (hc : s.consolidation = some c)
    (order : SetOrder) : (s.release p c order).Safe p := by
  have hslots := h.slots
  rw [Safe.held_eq hc] at hslots
  obtain ⟨es, -, -, heq, hreleased⟩ := hslots.release order
  rw [Threads.release, heq]
  exact ⟨h.unbroken, hreleased, fun graph hgraph => h.lists graph
    ((List.mem_cons.mp hgraph).elim (fun heq => heq ▸ List.mem_cons_self) id), h.insertions,
    fun c' hc' => absurd hc' (Option.some_ne_none c').symm⟩

/-- No critical section does damage. -/
theorem Safe.step (h : s.Safe p) {a : Action V} (hstep : s.step p a = some s') : s'.Safe p := by
  cases a with
  | insertPoint point tag =>
    rw [Threads.step] at hstep
    split_ifs at hstep
    exact Option.some.inj hstep ▸ h.insertPoint point tag
  | advance k times queryDist dist =>
    obtain ⟨ins, hins, rfl⟩ := Option.map_eq_some_iff.mp hstep
    exact h.advance hins times queryDist dist
  | lazyDelete tag => exact Option.some.inj hstep ▸ (h.lazyDelete tag).2
  | lazyDeleteAll tags => exact Option.some.inj hstep ▸ h.lazyDeleteAll tags
  | check => exact Option.some.inj hstep ▸ h.check
  | lock =>
    rw [Threads.step] at hstep
    split_ifs at hstep
    · exact Option.some.inj hstep ▸ h.setCounters _ s.locked s.released
    · exact Option.some.inj hstep ▸ h.setCounters _ true s.released
  | swap =>
    rw [Threads.step] at hstep
    split_ifs at hstep with hfree
    exact Option.some.inj hstep ▸ h.swap (Option.isNone_iff_eq_none.mp hfree.2.2)
  | processDelete loc inUse times dist order =>
    obtain ⟨c, hc, hrest⟩ := Option.bind_eq_some_iff.mp hstep
    split_ifs at hrest
    exact Option.some.inj hrest ▸ h.processDelete hc loc inUse times dist order
  | write k =>
    obtain ⟨c, hc, hrest⟩ := Option.bind_eq_some_iff.mp hstep
    obtain ⟨w, hw, rfl⟩ := Option.map_eq_some_iff.mp hrest
    exact h.write hc hw
  | release order =>
    obtain ⟨c, hc, hrest⟩ := Option.bind_eq_some_iff.mp hstep
    split_ifs at hrest
    exact Option.some.inj hrest ▸ h.release hc order
  | unlock =>
    rw [Threads.step] at hstep
    split_ifs at hstep
    exact Option.some.inj hstep ▸ h.setCounters s.checked false false

theorem safe_always (p : IndexParams V) (actions : List (Action V)) :
    Traces.Always (step p) (Safe p) (start p) actions :=
  Traces.always_of_along (P := fun _ _ => True) (fun _ _ _ h _ hstep => h.step hstep)
    (safe_start p) (Traces.along_true _ actions)

/-! ## At all times -/

/-- The next section of an insertion, which reads what is there now. -/
def goOn (k : Nat) : Action ℚ := .advance k (fun _ => 0) (fun i => i) fun i j => (i : ℚ) + j

/-- A round of the loop of a consolidation, which reads what is there now. -/
def goOver (loc : Nat) (inUse : Bool) : Action ℚ :=
  .processDelete loc inUse (fun _ => 0) (fun i j => (i : ℚ) + j) .ascending

/-- A link back is written although its point was deleted, and its slot released, in
    the meantime: what a list holds need not be in use. -/
example : (Traces.run (step lineParams) (start lineParams)
    [.insertPoint 1 1, goOn 0, goOn 0, goOn 0, .lazyDelete 1, .check, .lock, .swap, goOver 0 false,
      goOver 1 false, goOver 2 true, goOver 3 true, .release .ascending, goOn 0]).any
    (fun s => decide (s.idx.graph 3 = [2] ∧ s.idx.emptySlots.isInSet 2 = true)) = true := by
  decide +kernel

/-- In every interleaving the checks in front of a consolidation throw nothing, and
    find an inconsistent count exactly while another one has deleted slots. -/
theorem checks_always (p : IndexParams V) (actions : List (Action V)) :
    Traces.Always (step p) (fun s => checkStatus p s.idx =
      some (if ∃ c, s.consolidation = some c ∧ c.oldDeleteSet ≠ ∅ then .inconsistentCountError
        else .success)) (start p) actions := by
  refine (safe_always p actions).mono fun s h => ?_
  rw [h.checkStatus, held]
  cases s.consolidation with
  | none => simp
  | some c => by_cases hold : c.oldDeleteSet = ∅ <;> simp [hold]

/-- In every interleaving a search ends with a report, whenever the lists it reads
    were written: at most `K` entries, no tag twice, each tag that of a point in the
    index, with the distance of its slot, the best first. -/
theorem queries_always (p : IndexParams V) (actions : List (Action V)) :
    Traces.Always (step p) (fun s => ∀ times queryDist K L resSize, 0 < K → K ≤ L →
      ∃ report, s.searchWithTags p times queryDist K L resSize = some report ∧
        report.length ≤ K ∧ (report.map Prod.fst).Nodup ∧
        (∀ td ∈ report, ∃ i, s.idx.tagToLocation.lookup td.1 = some i ∧
          td.2 = writtenDistance p.prune.metric (queryDist i)) ∧
        report.Pairwise fun a b =>
          orientedKey p.prune.metric a.2 ≤ orientedKey p.prune.metric b.2) (start p) actions := by
  refine (safe_always p actions).mono fun s h times queryDist K L resSize hK hKL => ?_
  exact h.searchWithTags times queryDist hK hKL resSize

end Threads

end QvCache.Vamana
