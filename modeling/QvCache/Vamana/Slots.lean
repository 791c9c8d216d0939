/-
  QvCache.Vamana.Slots

  The slots of an index.  Every slot is empty, holds a point with a tag, or holds
  a point that was lazily deleted (`SlotsOk`), and the two tag maps are inverse
  to each other.  Reserving and releasing, deleting and consolidating keep this,
  so the counts that `consolidate_deletes` checks before it starts always agree
  (`SlotsOk.count_tags`, `SlotsOk.size_tagToLocation`).
-/

import QvCache.Vamana.Index

namespace QvCache.Vamana

namespace Index

variable {V : Type} {p : IndexParams V} {idx : Index V}

/-- Every slot below `_max_points` is in exactly one of the three sets. -/
structure SlotsOk (p : IndexParams V) (idx : Index V) : Prop where
  empty_valid : idx.emptySlots.Valid
  tags_valid : idx.locationToTag.Valid
  empty_lt : ∀ i, idx.emptySlots.isInSet i = true → i < p.maxPoints
  deleted : ∀ i ∈ idx.deleteSet, i < p.maxPoints ∧ idx.emptySlots.isInSet i = false
  tagged : ∀ i, idx.locationToTag.contains i = true →
    i < p.maxPoints ∧ idx.emptySlots.isInSet i = false ∧ i ∉ idx.deleteSet
  covers : ∀ i < p.maxPoints, idx.emptySlots.isInSet i = false →
    i ∈ idx.deleteSet ∨ idx.locationToTag.contains i = true
  inverse : ∀ tag i, idx.tagToLocation.lookup tag = some i ↔ idx.locationToTag.tryGet i = some tag
  count : idx.emptySlots.size + idx.nd = p.maxPoints

/-- The slot holds a point, with its tag or deleted. -/
def Used (p : IndexParams V) (idx : Index V) (i : Nat) : Prop :=
  i < p.maxPoints ∧ idx.emptySlots.isInSet i = false

instance (p : IndexParams V) (idx : Index V) : DecidablePred (idx.Used p) :=
  fun i => inferInstanceAs (Decidable (i < p.maxPoints ∧ idx.emptySlots.isInSet i = false))

theorem SlotsOk.used_iff (h : idx.SlotsOk p) {i : Nat} :
    idx.Used p i ↔ i ∈ idx.deleteSet ∨ idx.locationToTag.contains i = true := by
  constructor
  · rintro ⟨hlt, hout⟩
    exact h.covers i hlt hout
  · rintro (hdel | htag)
    · exact h.deleted i hdel
    · exact ⟨(h.tagged i htag).1, (h.tagged i htag).2.1⟩

theorem slotsOk_create (p : IndexParams V) : (create p).SlotsOk p := by
  obtain ⟨hvalid, hsize, hin⟩ := NaturalNumberSet.below_spec p.maxPoints
  refine ⟨hvalid, NaturalNumberMap.valid_empty, fun i hi => (hin i).mp hi,
    fun i hi => absurd hi (Finset.notMem_empty i), ?_, ?_, ?_, ?_⟩
  · intro i hi
    cases hi
  · intro i hlt hout
    have hfull : (create p).emptySlots.isInSet i = true := (hin i).mpr hlt
    rw [hout] at hfull
    cases hfull
  · intro tag i
    simp [create, NaturalNumberMap.tryGet, NaturalNumberMap.contains, NaturalNumberMap.empty]
  · show (NaturalNumberSet.below p.maxPoints).size + 0 = p.maxPoints
    rw [hsize, Nat.add_zero]

/-! ## Counting -/

/-- The empty slots as a set. -/
theorem SlotsOk.card_empty (h : idx.SlotsOk p) :
    ((Finset.range p.maxPoints).filter fun i => idx.emptySlots.isInSet i = true).card =
      idx.emptySlots.size := by
  have hset : ((Finset.range p.maxPoints).filter fun i => idx.emptySlots.isInSet i = true) =
      idx.emptySlots.valuesVector.toFinset := by
    ext i
    rw [Finset.mem_filter, Finset.mem_range, List.mem_toFinset, ← h.empty_valid.isInSet_iff]
    exact and_iff_right_of_imp (h.empty_lt i)
  rw [hset, List.toFinset_card_of_nodup h.empty_valid.nodup, NaturalNumberSet.size]

/-- `_location_to_tag.size() + _delete_set->size() == _nd`. -/
theorem SlotsOk.count_tags (h : idx.SlotsOk p) :
    idx.locationToTag.size + idx.deleteSet.card = idx.nd := by
  have hused : ((Finset.range p.maxPoints).filter fun i => ¬ idx.emptySlots.isInSet i = true) =
      idx.locationToTag.keys ∪ idx.deleteSet := by
    ext i
    rw [Finset.mem_filter, Finset.mem_range, Finset.mem_union, NaturalNumberMap.mem_keys, or_comm,
      ← h.used_iff, Used, Bool.not_eq_true]
  have hdisjoint : Disjoint idx.locationToTag.keys idx.deleteSet :=
    Finset.disjoint_left.mpr fun i hi => (h.tagged i (NaturalNumberMap.mem_keys.mp hi)).2.2
  have hsplit := Finset.card_filter_add_card_filter_not (s := Finset.range p.maxPoints)
    fun i => idx.emptySlots.isInSet i = true
  rw [h.card_empty, hused, Finset.card_union_of_disjoint hdisjoint, Finset.card_range,
    ← h.tags_valid.size_eq] at hsplit
  have := h.count
  omega

theorem SlotsOk.contains_iff (h : idx.SlotsOk p) {i : Nat} :
    idx.locationToTag.contains i = true ↔ ∃ tag, idx.tagToLocation.lookup tag = some i := by
  rw [← NaturalNumberMap.tryGet_isSome h.tags_valid, Option.isSome_iff_exists]
  exact exists_congr fun tag => (h.inverse tag i).symm

/-- `_location_to_tag.size() == _tag_to_location.size()`. -/
theorem SlotsOk.size_tagToLocation (h : idx.SlotsOk p) :
    idx.locationToTag.size = idx.tagToLocation.size := by
  have hlookup : ∀ tag ∈ idx.tagToLocation.keys, ∃ i, idx.tagToLocation.lookup tag = some i :=
    fun tag htag => Option.isSome_iff_exists.mp (AList.lookup_isSome.mpr htag)
  have hcard : idx.tagToLocation.keys.toFinset.card = idx.locationToTag.keys.card := by
    refine Finset.card_bij (fun tag _ => (idx.tagToLocation.lookup tag).getD 0) ?_ ?_ ?_
    · intro tag htag
      obtain ⟨i, hi⟩ := hlookup tag (List.mem_toFinset.mp htag)
      rw [hi, NaturalNumberMap.mem_keys, h.contains_iff]
      exact ⟨tag, hi⟩
    · intro tag htag tag' htag' heq
      obtain ⟨i, hi⟩ := hlookup tag (List.mem_toFinset.mp htag)
      obtain ⟨i', hi'⟩ := hlookup tag' (List.mem_toFinset.mp htag')
      rw [hi, hi'] at heq
      obtain rfl : i = i' := heq
      exact Option.some.inj (((h.inverse tag i).mp hi).symm.trans ((h.inverse tag' i).mp hi'))
    · intro i hi
      obtain ⟨tag, htag⟩ := h.contains_iff.mp (NaturalNumberMap.mem_keys.mp hi)
      refine ⟨tag, List.mem_toFinset.mpr (AList.lookup_isSome.mp (by rw [htag]; rfl)), ?_⟩
      rw [htag]
      rfl
  rw [h.tags_valid.size_eq, ← hcard, List.toFinset_card_of_nodup idx.tagToLocation.keys_nodup,
    Table.size_eq_length_keys]

theorem SlotsOk.start_not_deleted (h : idx.SlotsOk p) : start p ∉ idx.deleteSet :=
  fun hin => Nat.lt_irrefl _ (h.deleted _ hin).1

/-- The slots are not a matter of the vectors and the lists in them. -/
theorem SlotsOk.of_stores (h : idx.SlotsOk p) (vectors : Nat → V) (graph : Nat → List Nat) :
    SlotsOk p { idx with vectors := vectors, graph := graph } :=
  ⟨h.empty_valid, h.tags_valid, h.empty_lt, h.deleted, h.tagged, h.covers, h.inverse, h.count⟩

/-! ## The graph is a part of its own -/

/-- Nothing but adjacency lists differs. -/
def OnlyGraph (idx idx' : Index V) : Prop := idx' = { idx with graph := idx'.graph }

theorem OnlyGraph.refl (idx : Index V) : OnlyGraph idx idx := rfl

theorem OnlyGraph.trans {a b c : Index V} (hab : OnlyGraph a b) (hbc : OnlyGraph b c) :
    OnlyGraph a c := by
  rw [OnlyGraph] at hab hbc ⊢
  rw [hab] at hbc
  exact hbc

theorem OnlyGraph.eq {idx' : Index V} (h : OnlyGraph idx idx') :
    idx' = { idx with graph := idx'.graph } := h

theorem onlyGraph_setNeighbours (idx : Index V) (loc : Nat) (l : List Nat) :
    OnlyGraph idx (idx.setNeighbours loc l) := rfl

theorem onlyGraph_foldl {α : Type} {f : Index V → α → Index V}
    (hf : ∀ idx a, OnlyGraph idx (f idx a)) (l : List α) (idx : Index V) :
    OnlyGraph idx (l.foldl f idx) := by
  induction l generalizing idx with
  | nil => exact OnlyGraph.refl idx
  | cons a rest ih => exact (hf idx a).trans (ih (f idx a))

theorem onlyGraph_interInsertAt (p : IndexParams V) (n : Nat) (idx : Index V) (des : Nat) :
    OnlyGraph idx (idx.interInsertAt p n des) := by
  rw [interInsertAt]
  split_ifs
  · exact OnlyGraph.refl idx
  · exact onlyGraph_setNeighbours _ _ _
  · exact onlyGraph_setNeighbours _ _ _

theorem onlyGraph_link (p : IndexParams V) (idx : Index V) (location : Nat)
    (prunedList : List Nat) : OnlyGraph idx (idx.link p location prunedList) :=
  (onlyGraph_setNeighbours _ _ _).trans
    (onlyGraph_foldl (onlyGraph_interInsertAt p location) prunedList _)

theorem onlyGraph_processDelete (p : IndexParams V) (oldDeleteSet : Finset Nat)
    (order : SetOrder) (idx : Index V) (loc : Nat) :
    OnlyGraph idx (idx.processDelete p oldDeleteSet order loc) := by
  rw [processDelete]
  split_ifs
  · exact onlyGraph_setNeighbours _ _ _
  · exact OnlyGraph.refl idx

theorem onlyGraph_processDeletes (p : IndexParams V) (oldDeleteSet : Finset Nat)
    (orders : Nat → SetOrder) (idx : Index V) (locations : List Nat) :
    OnlyGraph idx (idx.processDeletes p oldDeleteSet orders locations) :=
  onlyGraph_foldl (fun idx loc => onlyGraph_processDelete p oldDeleteSet (orders loc) idx loc)
    locations idx

theorem OnlyGraph.used_eq {idx' : Index V} (h : OnlyGraph idx idx') (p : IndexParams V) :
    idx'.Used p = idx.Used p := by
  rw [OnlyGraph] at h
  rw [h]
  rfl

theorem SlotsOk.of_onlyGraph {idx' : Index V} (h : idx.SlotsOk p) (hsame : OnlyGraph idx idx') :
    idx'.SlotsOk p := by
  rw [OnlyGraph] at hsame
  rw [hsame]
  exact h.of_stores idx.vectors idx'.graph

/-! ## Reserving and releasing -/

/-- What `reserve_location` does: it refuses in a full index, or takes an empty
    slot, which was not deleted.  It sees some of the deleted slots (`D`); the
    others are with a consolidation. -/
theorem SlotsOk.reserveLocation (h : idx.SlotsOk p) {D : Finset Nat} (hD : D ⊆ idx.deleteSet) :
    p.maxPoints ≤ idx.nd ∧ Index.reserveLocation p { idx with deleteSet := D } =
        some ({ idx with deleteSet := D }, none) ∨
      idx.nd < p.maxPoints ∧ ∃ location rest,
        idx.emptySlots.popAny = some (location, rest) ∧ location ∉ idx.deleteSet ∧
        Index.reserveLocation p { idx with deleteSet := D } = some
          ({ idx with deleteSet := D, emptySlots := rest, nd := idx.nd + 1 }, some location) := by
  rw [Index.reserveLocation]
  dsimp only
  by_cases hfull : p.maxPoints ≤ idx.nd
  · rw [if_pos hfull]
    exact Or.inl ⟨hfull, rfl⟩
  · have hsize : 0 < idx.emptySlots.size := by have := h.count; omega
    have hsome : (idx.dataCompacted && idx.emptySlots.isEmpty) = false := by
      have hne : idx.emptySlots.isEmpty = false := by
        rw [NaturalNumberSet.isEmpty, List.isEmpty_eq_false_iff]
        exact List.ne_nil_of_length_pos hsize
      rw [hne, Bool.and_false]
    obtain ⟨⟨location, rest⟩, hpop⟩ := NaturalNumberSet.popAny_isSome hsize
    have hempty := (h.empty_valid.popAny hpop).1
    have hout : location ∉ idx.deleteSet := by
      intro hin
      have hused := (h.deleted location hin).2
      rw [hempty] at hused
      cases hused
    refine Or.inr ⟨not_le.mp hfull, location, rest, hpop, hout, ?_⟩
    rw [if_neg hfull, hsome, if_neg Bool.false_ne_true, hpop, Option.map_some,
      Finset.erase_eq_of_notMem fun hin => hout (hD hin)]

/-- Giving back the slot that was just reserved restores the index. -/
theorem releaseLocation_reserved (hvalid : idx.emptySlots.Valid) {location : Nat}
    {rest : NaturalNumberSet} (hpop : idx.emptySlots.popAny = some (location, rest)) :
    releaseLocation { idx with emptySlots := rest, nd := idx.nd + 1 } location = some idx := by
  obtain ⟨-, -, -, hin⟩ := hvalid.popAny hpop
  have hnew : rest.isInSet location = false := by
    rw [← Bool.not_eq_true, hin]
    exact fun hboth => hboth.2 rfl
  rw [releaseLocation, hnew, if_neg Bool.false_ne_true, hvalid.insert_popAny hpop]
  rfl

/-- Taking the slot of a point into use. -/
theorem SlotsOk.register (h : idx.SlotsOk p) {location : Nat} {rest : NaturalNumberSet}
    (hpop : idx.emptySlots.popAny = some (location, rest)) {tag : Tag}
    (htag : idx.tagToLocation.lookup tag = none) :
    (Index.register { idx with emptySlots := rest, nd := idx.nd + 1 } tag location).SlotsOk p := by
  obtain ⟨hempty, hrest, hsize, hin⟩ := h.empty_valid.popAny hpop
  have hfree : ∀ i, idx.emptySlots.isInSet i = false → rest.isInSet i = false := by
    intro i hi
    rw [← Bool.not_eq_true, hin, hi]
    exact fun hboth => Bool.false_ne_true hboth.1
  have hself : rest.isInSet location = false := by
    rw [← Bool.not_eq_true, hin]
    exact fun hboth => hboth.2 rfl
  have hunused : ∀ i, idx.emptySlots.isInSet i = false → i ≠ location := by
    rintro i hi rfl
    rw [hempty] at hi
    cases hi
  refine ⟨hrest, h.tags_valid.set location tag, ?_, ?_, ?_, ?_, ?_, ?_⟩
  · exact fun i hi => h.empty_lt i ((hin i).mp hi).1
  · exact fun i hi => ⟨(h.deleted i hi).1, hfree i (h.deleted i hi).2⟩
  · intro i hi
    rcases (NaturalNumberMap.contains_set _ _ _ _).mp hi with rfl | hi
    · exact ⟨h.empty_lt i hempty, hself, fun hdel => hunused i (h.deleted i hdel).2 rfl⟩
    · obtain ⟨hlt, hout, hdel⟩ := h.tagged i hi
      exact ⟨hlt, hfree i hout, hdel⟩
  · intro i hlt hout
    by_cases hi : i = location
    · exact Or.inr ((NaturalNumberMap.contains_set _ _ _ _).mpr (Or.inl hi))
    · have hold : idx.emptySlots.isInSet i = false := by
        rw [← Bool.not_eq_true]
        intro hthere
        have hstill := (hin i).mpr ⟨hthere, hi⟩
        exact Bool.false_ne_true (hout.symm.trans hstill)
      exact (h.covers i hlt hold).imp_right fun hold' =>
        (NaturalNumberMap.contains_set _ _ _ _).mpr (Or.inr hold')
  · intro tag' i
    show (idx.tagToLocation.insert tag location).lookup tag' = some i ↔
      (idx.locationToTag.set location tag).tryGet i = some tag'
    rw [Table.lookup_insert_eq, h.tags_valid.tryGet_set]
    by_cases ht : tag' = tag <;> by_cases hi : i = location
    · simp [ht, hi]
    · subst ht
      have hne : idx.locationToTag.tryGet i ≠ some tag' := by
        rw [Ne, ← h.inverse, htag]
        exact (Option.some_ne_none i).symm
      rw [if_pos rfl, if_neg hi]
      exact ⟨fun heq => absurd (Option.some.inj heq).symm hi, fun heq => absurd heq hne⟩
    · subst hi
      have hne : idx.tagToLocation.lookup tag' ≠ some i := by
        intro hold
        have hcontains := h.contains_iff.mpr ⟨tag', hold⟩
        exact hunused i (h.tagged i hcontains).2.1 rfl
      rw [if_neg ht, if_pos rfl]
      exact ⟨fun heq => absurd heq hne, fun heq => absurd (Option.some.inj heq).symm ht⟩
    · rw [if_neg ht, if_neg hi]
      exact h.inverse tag' i
  · show rest.size + (idx.nd + 1) = p.maxPoints
    have := h.count
    omega

/-! ## Deleting -/

theorem SlotsOk.lazyDelete (h : idx.SlotsOk p) (tag : Tag) : (idx.lazyDelete tag).1.SlotsOk p := by
  rw [Index.lazyDelete]
  cases htag : idx.tagToLocation.lookup tag with
  | none =>
    exact ⟨h.empty_valid, h.tags_valid, h.empty_lt, h.deleted, h.tagged, h.covers, h.inverse,
      h.count⟩
  | some location =>
    have hcontains := h.contains_iff.mpr ⟨tag, htag⟩
    have hslot := h.tagged location hcontains
    refine ⟨h.empty_valid, h.tags_valid.erase location, h.empty_lt, ?_, ?_, ?_, ?_, h.count⟩
    · intro i hi
      rcases Finset.mem_insert.mp hi with rfl | hi
      · exact ⟨hslot.1, hslot.2.1⟩
      · exact h.deleted i hi
    · intro i hi
      obtain ⟨hne, hold⟩ := (NaturalNumberMap.contains_erase _ _ _).mp hi
      obtain ⟨hlt, hout, hdel⟩ := h.tagged i hold
      exact ⟨hlt, hout, fun hin => (Finset.mem_insert.mp hin).elim hne hdel⟩
    · intro i hlt hout
      by_cases hi : i = location
      · exact Or.inl (Finset.mem_insert.mpr (Or.inl hi))
      · refine (h.covers i hlt hout).imp (fun hdel => Finset.mem_insert_of_mem hdel) fun hold => ?_
        exact (NaturalNumberMap.contains_erase _ _ _).mpr ⟨hi, hold⟩
    · intro tag' i
      show (idx.tagToLocation.erase tag).lookup tag' = some i ↔ _
      rw [Table.lookup_erase_eq, NaturalNumberMap.tryGet_erase]
      have hslotTag := (h.inverse tag location).mp htag
      by_cases ht : tag' = tag <;> by_cases hi : i = location
      · simp [ht, hi]
      · have hne : idx.locationToTag.tryGet i ≠ some tag := by
          rw [Ne, ← h.inverse, htag]
          exact fun heq => hi (Option.some.inj heq).symm
        simp [ht, hi, hne]
      · have hne : idx.tagToLocation.lookup tag' ≠ some location := by
          rw [Ne, h.inverse, hslotTag]
          exact fun heq => ht (Option.some.inj heq).symm
        simp [ht, hi, hne]
      · rw [if_neg ht, if_neg hi]
        exact h.inverse tag' i

/-! ## Consolidating -/

/-- `release_locations` of slots that are in use. -/
theorem foldlM_releaseLocation {l : List Nat} {idx : Index V} (hvalid : idx.emptySlots.Valid)
    (hl : l.Nodup) (hused : ∀ i ∈ l, idx.emptySlots.isInSet i = false) (hnd : l.length ≤ idx.nd) :
    ∃ es : NaturalNumberSet, es.Valid ∧ es.size = idx.emptySlots.size + l.length ∧
      (∀ i, es.isInSet i = true ↔ i ∈ l ∨ idx.emptySlots.isInSet i = true) ∧
      l.foldlM releaseLocation idx =
        some { idx with emptySlots := es, nd := idx.nd - l.length } := by
  induction l generalizing idx with
  | nil => exact ⟨idx.emptySlots, hvalid, rfl, by simp, rfl⟩
  | cons a rest ih =>
    obtain ⟨hnew, hrest⟩ := List.nodup_cons.mp hl
    have ha := hused a List.mem_cons_self
    let next : Index V := { idx with emptySlots := idx.emptySlots.insert a, nd := idx.nd - 1 }
    have hin : ∀ i, next.emptySlots.isInSet i = true ↔ i = a ∨ idx.emptySlots.isInSet i = true :=
      NaturalNumberSet.isInSet_insert idx.emptySlots a
    have hfree : ∀ i ∈ rest, next.emptySlots.isInSet i = false := by
      intro i hi
      rw [← Bool.not_eq_true, hin, hused i (List.mem_cons_of_mem a hi)]
      rintro (rfl | hfalse)
      · exact hnew hi
      · cases hfalse
    have hlen : rest.length ≤ next.nd := by
      rw [List.length_cons] at hnd
      show rest.length ≤ idx.nd - 1
      omega
    obtain ⟨es, hes, hsize, hmem, heq⟩ := ih (hvalid.insert ha) hrest hfree hlen
    refine ⟨es, hes, ?_, fun i => ?_, ?_⟩
    · have hone : next.emptySlots.size = idx.emptySlots.size + 1 :=
        NaturalNumberSet.size_insert idx.emptySlots a
      rw [hsize, hone, List.length_cons]
      omega
    · rw [hmem, hin, List.mem_cons, or_left_comm, or_assoc]
    · have hstep : releaseLocation idx a = some next := by
        rw [releaseLocation, ha, if_neg Bool.false_ne_true]
      rw [List.foldlM_cons, hstep]
      refine heq.trans (congrArg some ?_)
      have hsub : next.nd - rest.length = idx.nd - (a :: rest).length := by
        rw [List.length_cons]
        show idx.nd - 1 - rest.length = _
        omega
      rw [hsub]

/-- The points in use and not deleted: what the consolidation goes over besides
    the frozen one. -/
theorem SlotsOk.length_locationsToProcess (h : idx.SlotsOk p) :
    (idx.locationsToProcess p idx.deleteSet).length = idx.locationToTag.size + 1 := by
  rw [locationsToProcess, List.length_append, List.length_singleton, h.tags_valid.size_eq]
  have hnodup := (List.nodup_range (n := p.maxPoints)).filter fun loc =>
    decide (loc ∉ idx.deleteSet) && !idx.emptySlots.isInSet loc
  rw [← List.toFinset_card_of_nodup hnodup]
  congr 2
  ext i
  rw [List.mem_toFinset, List.mem_filter, List.mem_range, NaturalNumberMap.mem_keys,
    Bool.and_eq_true, decide_eq_true_iff, Bool.not_eq_true']
  constructor
  · rintro ⟨hlt, hdel, hout⟩
    exact (h.covers i hlt hout).resolve_left hdel
  · intro htag
    obtain ⟨hlt, hout, hdel⟩ := h.tagged i htag
    exact ⟨hlt, hdel, hout⟩

/-- `consolidate_deletes` never takes one of its error paths: it succeeds, and the
    deleted slots are empty afterwards. -/
theorem SlotsOk.consolidateDeletes (h : idx.SlotsOk p) (orders : Nat → SetOrder)
    (releaseOrder : SetOrder) :
    ∃ es : NaturalNumberSet, es.Valid ∧
      es.size = idx.emptySlots.size + idx.deleteSet.card ∧
      (∀ i, es.isInSet i = true ↔ i ∈ idx.deleteSet ∨ idx.emptySlots.isInSet i = true) ∧
      idx.consolidateDeletes p orders releaseOrder = some
        ({ idx with
            deleteSet := ∅
            graph := (Index.processDeletes p idx.deleteSet orders { idx with deleteSet := ∅ }
              (idx.locationsToProcess p idx.deleteSet)).graph
            emptySlots := es
            nd := idx.locationToTag.size },
          ⟨.success, idx.tagToLocation.size, p.maxPoints, p.maxPoints - idx.tagToLocation.size,
            idx.deleteSet.card, 0, idx.tagToLocation.size + 1⟩) := by
  have hcount := h.count
  have htags := h.count_tags
  have hsame := h.size_tagToLocation
  let processed : Index V := Index.processDeletes p idx.deleteSet orders { idx with deleteSet := ∅ }
    (idx.locationsToProcess p idx.deleteSet)
  -- the loop changes adjacency lists only
  have hprocessed : processed = { idx with deleteSet := ∅, graph := processed.graph } :=
    onlyGraph_processDeletes p idx.deleteSet orders _ _
  have hlength : (releaseOrder.toList idx.deleteSet).length = idx.deleteSet.card := by
    have hset : (releaseOrder.toList idx.deleteSet).toFinset = idx.deleteSet := by
      ext i
      rw [List.mem_toFinset, releaseOrder.mem_toList]
    rw [← List.toFinset_card_of_nodup (releaseOrder.nodup _), hset]
  have hused : ∀ i ∈ releaseOrder.toList idx.deleteSet,
      processed.emptySlots.isInSet i = false := by
    intro i hi
    rw [hprocessed]
    exact (h.deleted i ((releaseOrder.mem_toList _ i).mp hi)).2
  have hvalid : processed.emptySlots.Valid := by
    rw [hprocessed]
    exact h.empty_valid
  have hnd : (releaseOrder.toList idx.deleteSet).length ≤ processed.nd := by
    rw [hprocessed, hlength]
    show idx.deleteSet.card ≤ idx.nd
    omega
  obtain ⟨es, hes, hsize, hmem, hrelease⟩ :=
    foldlM_releaseLocation hvalid (releaseOrder.nodup _) hused hnd
  have hslots : processed.emptySlots = idx.emptySlots :=
    (congrArg (fun r : Index V => r.emptySlots) hprocessed).trans rfl
  have hrest : processed.nd - (releaseOrder.toList idx.deleteSet).length =
      idx.locationToTag.size := by
    have hndEq : processed.nd = idx.nd :=
      (congrArg (fun r : Index V => r.nd) hprocessed).trans rfl
    rw [hlength, hndEq]
    omega
  have hend : ({ processed with emptySlots := es, nd := idx.locationToTag.size } : Index V) =
      { idx with
        deleteSet := ∅, graph := processed.graph, emptySlots := es, nd := idx.locationToTag.size } :=
    congrArg (fun r : Index V => { r with
      graph := processed.graph, emptySlots := es, nd := idx.locationToTag.size }) hprocessed
  rw [hrest, hend] at hrelease
  rw [hslots, hlength] at hsize
  simp only [releaseOrder.mem_toList, hslots] at hmem
  have hsum : es.size + idx.locationToTag.size = p.maxPoints := by omega
  have hreleased : processed.releaseLocations p (releaseOrder.toList idx.deleteSet) = some
      { idx with
        deleteSet := ∅, graph := processed.graph, emptySlots := es,
        nd := idx.locationToTag.size } := by
    rw [releaseLocations, hrelease, Option.bind_some, if_pos hsum]
  refine ⟨es, hes, hsize, hmem, ?_⟩
  rw [Index.consolidateDeletes, if_neg (not_not.mpr hcount), if_neg (not_not.mpr htags),
    if_neg (not_not.mpr hsame), if_neg h.start_not_deleted]
  dsimp only
  have hlocations : (locationsToProcess p { idx with deleteSet := ∅ } idx.deleteSet).length =
      idx.tagToLocation.size + 1 := h.length_locationsToProcess.trans (by rw [hsame])
  refine (congrArg (Option.map _) hreleased).trans ?_
  rw [Option.map_some, hlocations]
  have hempty : es.size = p.maxPoints - idx.tagToLocation.size := by omega
  simp only [hsame, hempty, Finset.card_empty]
  rfl

/-- Deleted slots that become empty leave the slots in order. -/
theorem SlotsOk.release (h : idx.SlotsOk p) {released : Finset Nat}
    (hreleased : released ⊆ idx.deleteSet) {es : NaturalNumberSet} (hes : es.Valid)
    (hsize : es.size = idx.emptySlots.size + released.card)
    (hmem : ∀ i, es.isInSet i = true ↔ i ∈ released ∨ idx.emptySlots.isInSet i = true)
    (graph : Nat → List Nat) :
    SlotsOk p { idx with
      deleteSet := idx.deleteSet \ released
      graph := graph
      emptySlots := es
      nd := idx.nd - released.card } := by
  have hfree : ∀ i, es.isInSet i = false ↔ i ∉ released ∧ idx.emptySlots.isInSet i = false := by
    intro i
    rw [← Bool.not_eq_true, hmem, not_or, Bool.not_eq_true]
  refine ⟨hes, h.tags_valid, ?_, ?_, ?_, ?_, h.inverse, ?_⟩
  · intro i hi
    rcases (hmem i).mp hi with hrel | hempty
    · exact (h.deleted i (hreleased hrel)).1
    · exact h.empty_lt i hempty
  · intro i hi
    obtain ⟨hdel, hkept⟩ := Finset.mem_sdiff.mp hi
    exact ⟨(h.deleted i hdel).1, (hfree i).mpr ⟨hkept, (h.deleted i hdel).2⟩⟩
  · intro i hi
    obtain ⟨hlt, hout, hdel⟩ := h.tagged i hi
    exact ⟨hlt, (hfree i).mpr ⟨fun hrel => hdel (hreleased hrel), hout⟩,
      fun hin => hdel (Finset.mem_sdiff.mp hin).1⟩
  · intro i hlt hout
    obtain ⟨hkept, hout'⟩ := (hfree i).mp hout
    exact (h.covers i hlt hout').imp_left fun hdel => Finset.mem_sdiff.mpr ⟨hdel, hkept⟩
  · have hcount := h.count
    have htags := h.count_tags
    have hle := Finset.card_le_card hreleased
    show es.size + (idx.nd - released.card) = p.maxPoints
    omega

/-- A consolidation keeps the slots in order. -/
theorem SlotsOk.of_consolidateDeletes (h : idx.SlotsOk p) {orders : Nat → SetOrder}
    {releaseOrder : SetOrder} {idx' : Index V} {report : ConsolidationReport}
    (hrun : idx.consolidateDeletes p orders releaseOrder = some (idx', report)) :
    idx'.SlotsOk p := by
  obtain ⟨es, hes, hsize, hmem, heq⟩ := h.consolidateDeletes orders releaseOrder
  rw [hrun] at heq
  obtain ⟨rfl, -⟩ := Prod.mk.inj (Option.some.inj heq)
  have hnd : idx.nd - idx.deleteSet.card = idx.locationToTag.size := by
    have htags := h.count_tags
    omega
  have hslots := h.release (Finset.Subset.refl _) hes hsize hmem
    (Index.processDeletes p idx.deleteSet orders { idx with deleteSet := ∅ }
      (idx.locationsToProcess p idx.deleteSet)).graph
  rw [Finset.sdiff_self, hnd] at hslots
  exact hslots

end Index

end QvCache.Vamana
