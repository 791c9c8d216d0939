/-
  QvCache.Vamana.Solo

  The calls of `Index` as interleavings: a call whose critical sections follow
  each other, reading what is there, leaves the index that the call makes at one
  stroke and returns the same (`calls_interleave`).
-/

import QvCache.Vamana.Progress

namespace QvCache.Vamana

namespace Threads

open Index

variable {V : Type} {p : IndexParams V} {s s' : Threads V}

/-- Nothing of the other calls differs. -/
structure Beside (s s' : Threads V) : Prop where
  locked : s'.locked = s.locked
  released : s'.released = s.released
  checked : s'.checked = s.checked

theorem Beside.trans {s₁ s₂ s₃ : Threads V} (h : Beside s₁ s₂) (h' : Beside s₂ s₃) :
    Beside s₁ s₃ where
  locked := h'.locked.trans h.locked
  released := h'.released.trans h.released
  checked := h'.checked.trans h.checked

/-- The section of the only insertion that reads what is there. -/
def next (p : IndexParams V) (s : Threads V) (location : Nat) : Action V :=
  .advance 0 (fun _ => 0) (s.idx.slotDistance p location) (s.idx.slotDistance p)

theorem step_next {ins : Insertion V} (hins : s.insertions = [ins]) (location : Nat) :
    s.step p (next p s location) = some (s.advance p 0 ins (fun _ => 0)
      (s.idx.slotDistance p location) (s.idx.slotDistance p)) := by
  rw [next, Threads.step, hins]
  rfl

theorem puts_next {ins : Insertion V} (hins : s.insertions = [ins]) (location : Nat) :
    Traces.Puts (step p) (answer p) s [] (s.advance p 0 ins (fun _ => 0)
      (s.idx.slotDistance p location) (s.idx.slotDistance p)) :=
  Traces.Puts.of_step (step_next hins location) rfl

theorem insertions_setPhase {ins : Insertion V} (hins : s.insertions = [ins]) (location : Nat)
    (phase : Phase V) : (s.setPhase 0 location phase).insertions = [⟨location, phase⟩] := by
  rw [setPhase, hins]
  rfl

/-- The links back. -/
theorem Safe.puts_interInsert (h : s.Safe p) {location : Nat} {l : List Nat}
    (hins : s.insertions = [⟨location, .interInsert l⟩]) :
    ∃ s', Traces.Puts (Threads.step p) (Threads.answer p) s [] s' ∧
      s'.idx = s.idx.interInsert p location l ∧ s'.insertions = [] ∧
      s'.consolidation = s.consolidation ∧ Beside s s' := by
  induction l generalizing s with
  | nil =>
    refine ⟨{ s with insertions := s.insertions.eraseIdx 0 }, ?_, rfl, ?_, rfl, rfl, rfl, rfl⟩
    · exact Traces.Puts.of_step (step_next hins location) rfl
    · rw [hins]
      rfl
  | cons des rest ih =>
    have hstep := step_next (p := p) hins location
    have hpool : SrcPoolOk p location (des :: rest) :=
      (h.insertions ⟨location, .interInsert (des :: rest)⟩ (hins ▸ List.mem_singleton_self _)).2
    have hrest : ∀ s₁ : Threads V, Traces.Puts (Threads.step p) (Threads.answer p) s [] s₁ →
        s₁.idx = s.idx.interInsertAt p location des →
        s₁.insertions = [⟨location, .interInsert rest⟩] → s₁.consolidation = s.consolidation →
        Beside s s₁ →
        ∃ s', Traces.Puts (Threads.step p) (Threads.answer p) s [] s' ∧
          s'.idx = s.idx.interInsert p location (des :: rest) ∧ s'.insertions = [] ∧
          s'.consolidation = s.consolidation ∧ Beside s s' := by
      intro s₁ hputs hidx hins₁ hc hbeside
      have hsafe := hputs.invariant (fun _ _ _ h hstep => h.step hstep) h
      obtain ⟨s', hputs', hidx', hnone, hc', hbeside'⟩ := ih hsafe hins₁
      refine ⟨s', hputs.trans hputs', ?_, hnone, hc'.trans hc,
        hbeside.trans hbeside'⟩
      rw [hidx', hidx]
      rfl
    have hne : ¬ p.maxPoints < des := not_lt.mpr (hpool.le des List.mem_cons_self)
    rw [Threads.advance] at hstep
    dsimp only at hstep
    rw [if_neg hne] at hstep
    by_cases hthere : location ∈ s.idx.graph des
    · rw [if_pos hthere] at hstep
      refine hrest _ (Traces.Puts.of_step hstep rfl) ?_ ?_ rfl ⟨rfl, rfl, rfl⟩
      · rw [interInsertAt, if_pos hthere]
        rfl
      · exact insertions_setPhase hins location _
    · rw [if_neg hthere] at hstep
      by_cases hroom : (s.idx.graph des).length < slackRange p
      · rw [if_pos hroom] at hstep
        refine hrest _ (Traces.Puts.of_step hstep rfl) ?_ ?_ rfl ⟨rfl, rfl, rfl⟩
        · rw [interInsertAt, if_neg hthere, if_pos hroom]
          rfl
        · exact insertions_setPhase hins location _
      · rw [if_neg hroom] at hstep
        -- the list is pruned outside of the lock, and written in a section of its own
        have hins₁ : (s.setPhase 0 location
            (.setPruned des (s.idx.graph des ++ [location]) rest)).insertions =
              [⟨location, .setPruned des (s.idx.graph des ++ [location]) rest⟩] :=
          insertions_setPhase hins location _
        have hfirst : Traces.Puts (Threads.step p) (Threads.answer p) s [] (s.setPhase 0 location
            (.setPruned des (s.idx.graph des ++ [location]) rest)) := Traces.Puts.of_step hstep rfl
        refine hrest _ (hfirst.trans (puts_next hins₁ location)) ?_ ?_ rfl ⟨rfl, rfl, rfl⟩
        · rw [interInsertAt, if_neg hthere, if_neg hroom]
          rfl
        · rw [Threads.advance]
          dsimp only
          exact insertions_setPhase hins₁ location _

/-- A registered insertion, from its vector on. -/
theorem Safe.puts_link (h : s.Safe p) {location : Nat} {point : V}
    (hins : s.insertions = [⟨location, .storeVector point⟩]) {prunedList : List Nat}
    (hpruned : (s.idx.setVector location point).searchForPointAndPrune p location =
      some prunedList) :
    ∃ s', Traces.Puts (Threads.step p) (Threads.answer p) s [] s' ∧
      s'.idx = (s.idx.setVector location point).link p location prunedList ∧
      s'.insertions = [] ∧ s'.consolidation = s.consolidation ∧ Beside s s' := by
  let s₁ := (s.setPhase 0 location .search).moveTo (s.idx.setVector location point)
  let s₂ := s₁.setPhase 0 location (.link prunedList)
  let s₃ := (s₂.setPhase 0 location (.interInsert prunedList)).moveTo
    (s₂.idx.setNeighbours location
      (prunedList.filter fun l => s₂.idx.locationToTag.contains l))
  have hins₁ : s₁.insertions = [⟨location, .search⟩] := insertions_setPhase hins location _
  have hins₂ : s₂.insertions = [⟨location, .link prunedList⟩] :=
    insertions_setPhase hins₁ location _
  have hins₃ : s₃.insertions = [⟨location, .interInsert prunedList⟩] :=
    insertions_setPhase hins₂ location _
  have hputs₁ : Traces.Puts (Threads.step p) (Threads.answer p) s [] s₁ := puts_next hins location
  have hsafe₁ := hputs₁.invariant (fun _ _ _ h hstep => h.step hstep) h
  have hlocation := (hsafe₁.insertions ⟨location, .search⟩ (hins₁ ▸ List.mem_singleton_self _)).1
  have hsearch : Index.searchAndPrune p ⟨s₁.reads fun _ => 0, p.maxPoints + 1,
      s₁.idx.slotDistance p location⟩ (s₁.idx.slotDistance p) location = some prunedList := hpruned
  have hlist : PrunedList p (· < p.maxPoints) location prunedList := by
    obtain ⟨l, heq, hl⟩ := hsafe₁.searchAndPrune (fun _ => 0) (s₁.idx.slotDistance p location)
      (s₁.idx.slotDistance p) hlocation
    rw [hsearch] at heq
    exact Option.some.inj heq ▸ hl
  have hputs₂ : Traces.Puts (Threads.step p) (Threads.answer p) s₁ [] s₂ := by
    have hnext := puts_next (p := p) hins₁ location
    rw [Threads.advance] at hnext
    dsimp only at hnext
    rw [hsearch] at hnext
    cases hnil : prunedList with
    | nil => exact absurd hnil hlist.ne_nil
    | cons des rest =>
      rw [hnil] at hnext
      have hsame : s₂ = s₁.setPhase 0 location (.link (des :: rest)) := by rw [← hnil]
      rw [hsame]
      exact hnext
  have hputs₃ : Traces.Puts (Threads.step p) (Threads.answer p) s₂ [] s₃ := by
    have hnext := puts_next (p := p) hins₂ location
    rw [Threads.advance] at hnext
    dsimp only at hnext
    rwa [if_pos ((List.length_filter_le _ _).trans hlist.length_le)] at hnext
  have hputs := (hputs₁.trans hputs₂).trans hputs₃
  obtain ⟨s', hputs', hidx, hnone, hc, hbeside⟩ :=
    (hputs.invariant (fun _ _ _ h hstep => h.step hstep) h).puts_interInsert hins₃
  exact ⟨s', hputs.trans hputs', hidx, hnone, hc, ⟨hbeside.locked, hbeside.released, hbeside.checked⟩⟩

/-- `insert_point` in one go. -/
theorem Safe.puts_insertPoint (h : s.Safe p) (hins : s.insertions = []) (point : V) {tag : Tag}
    {idx' : Index V} {ret : Int} (hcall : s.idx.insertPoint p point tag = some (idx', ret)) :
    ∃ s', Traces.Puts (Threads.step p) (Threads.answer p) s [.code ret] s' ∧ s'.idx = idx' ∧
      s'.insertions = [] ∧ s'.consolidation = s.consolidation ∧ Beside s s' := by
  rw [Index.insertPoint] at hcall
  split_ifs at hcall with htag
  have hstep : s.step p (.insertPoint point tag) = some (s.insertPoint p point tag) := if_neg htag
  have hputs : Traces.Puts (Threads.step p) (Threads.answer p) s
      (s.answer p (.insertPoint point tag)) (s.insertPoint p point tag) :=
    Traces.Puts.of_step hstep rfl
  have hrefuse : s.insertPoint p point tag = s.moveTo s.idx →
      s.answer p (.insertPoint point tag) = [.code ret] → s.idx = idx' →
      ∃ s', Traces.Puts (Threads.step p) (Threads.answer p) s [.code ret] s' ∧ s'.idx = idx' ∧
        s'.insertions = [] ∧ s'.consolidation = s.consolidation ∧ Beside s s' := by
    intro heq hanswer hidx
    rw [heq, hanswer] at hputs
    exact ⟨_, hputs, hidx, hins, rfl, rfl, rfl, rfl⟩
  obtain ⟨hrefused, heq, hanswer⟩ | ⟨⟨hnew, hroom⟩, location, rest, hpop, heq, hanswer⟩ :=
    h.insertPoint_cases point tag
  · obtain ⟨hfull, hreserve⟩ | ⟨hroom, location, rest, hpop, hreserve⟩ := h.slots.reserveLocation
    · rw [hreserve] at hcall
      obtain ⟨hidx, rfl⟩ := Prod.mk.inj (Option.some.inj hcall)
      exact hrefuse heq hanswer hidx
    · have hthere := hrefused.resolve_right (not_le.mpr hroom)
      have hvalid : s.idx.emptySlots.Valid := h.slots.slots.empty_valid
      rw [hreserve, Option.bind_some] at hcall
      dsimp only at hcall
      rw [if_pos hthere, releaseLocation_reserved hvalid hpop] at hcall
      obtain ⟨hidx, rfl⟩ := Prod.mk.inj (Option.some.inj hcall)
      exact hrefuse heq hanswer hidx
  · obtain ⟨hfull, -⟩ | ⟨-, location', rest', hpop', hreserve⟩ := h.slots.reserveLocation
    · exact absurd hroom (not_lt.mpr hfull)
    rw [hpop] at hpop'
    obtain ⟨rfl, rfl⟩ := Prod.mk.inj (Option.some.inj hpop')
    rw [hreserve, Option.bind_some] at hcall
    dsimp only at hcall
    rw [hnew, Option.isSome_none, if_neg Bool.false_ne_true] at hcall
    obtain ⟨prunedList, hpruned, heq'⟩ := Option.map_eq_some_iff.mp hcall
    obtain ⟨rfl, rfl⟩ := Prod.mk.inj heq'
    rw [hanswer] at hputs
    have hsafe := hputs.invariant (fun _ _ _ h hstep => h.step hstep) h
    rw [heq, hins] at hputs hsafe
    obtain ⟨s', hputs', hidx, hnone, hc, hbeside⟩ := hsafe.puts_link rfl hpruned
    exact ⟨s', hputs.trans hputs', hidx, hnone, hc,
      ⟨hbeside.locked, hbeside.released, hbeside.checked⟩⟩

/-- The consolidation goes over a slot that is in use, or over the frozen one, and
    writes its list at once. -/
theorem puts_processDelete {c : Consolidation} (hc : s.consolidation = some c)
    (hwrites : c.writes = []) {loc : Nat} {rest : List Nat} (htodo : c.todo = loc :: rest)
    (hlast : loc = Index.start p → rest = []) (hkept : loc ∉ c.oldDeleteSet) (order : SetOrder) :
    ∃ s', Traces.Puts (step p) (answer p) s [] s' ∧
      s'.idx = s.idx.processDelete p c.oldDeleteSet order loc ∧
      s'.consolidation = some ⟨c.oldDeleteSet, rest, [], c.numCallsToProcessDelete + 1⟩ ∧
      s'.insertions = s.insertions ∧ Beside s s' := by
  let repaired := repairedLinks p c.oldDeleteSet order s.idx.graph (s.idx.slotDistance p) loc
  let s₁ : Threads V :=
    { s with
      consolidation := some ⟨c.oldDeleteSet, rest,
        if needsRepair s.idx.graph c.oldDeleteSet loc then [(loc, repaired)] else [],
        c.numCallsToProcessDelete + 1⟩ }
  have hstep : s.step p (.processDelete loc true (fun _ => 0) (s.idx.slotDistance p) order) =
      some s₁ := by
    have hguard : loc ∈ c.todo ∧ (loc = Index.start p → c.todo = [loc] ∧ c.writes = []) := by
      rw [htodo]
      exact ⟨List.mem_cons_self, fun heq => ⟨by rw [hlast heq], hwrites⟩⟩
    have hgo : ¬ (loc ≠ Index.start p ∧ (loc ∈ c.oldDeleteSet ∨ true = false)) := by
      rintro ⟨-, hdel | hfalse⟩
      · exact hkept hdel
      · cases hfalse
    rw [Threads.step, hc, Option.bind_some, if_pos hguard, Threads.processDelete, if_neg hgo,
      if_neg hkept, htodo, hwrites, List.erase_cons_head]
    rfl
  have hputs : Traces.Puts (step p) (answer p) s [] s₁ := Traces.Puts.of_step hstep rfl
  rw [Index.processDelete]
  by_cases hrepair : needsRepair s.idx.graph c.oldDeleteSet loc = true
  · have hc₁ : s₁.consolidation = some ⟨c.oldDeleteSet, rest, [(loc, repaired)],
        c.numCallsToProcessDelete + 1⟩ := by
      show some _ = some _
      rw [if_pos hrepair]
    have hwrite : s₁.step p (.write 0) = some (s₁.write ⟨c.oldDeleteSet, rest, [(loc, repaired)],
        c.numCallsToProcessDelete + 1⟩ 0 (loc, repaired)) := by
      rw [Threads.step, hc₁]
      rfl
    have hputs₁ : Traces.Puts (step p) (answer p) s₁ [] _ := Traces.Puts.of_step hwrite rfl
    rw [if_pos hrepair]
    exact ⟨_, hputs.trans hputs₁, rfl, rfl, rfl, rfl, rfl, rfl⟩
  · refine ⟨s₁, hputs, ?_, ?_, rfl, rfl, rfl, rfl⟩
    · rw [if_neg hrepair]
    · show some _ = some _
      rw [if_neg hrepair]

/-- The parallel loop of a consolidation, in the order of the slots. -/
theorem puts_processDeletes {c : Consolidation} (hc : s.consolidation = some c)
    (hwrites : c.writes = []) {locs : List Nat} (htodo : c.todo = locs ++ [Index.start p])
    (hlocs : ∀ loc ∈ locs, loc ≠ Index.start p) (orders : Nat → SetOrder) :
    ∃ s', Traces.Puts (step p) (answer p) s [] s' ∧
      s'.idx = s.idx.processDeletes p c.oldDeleteSet orders (locs.filter fun loc =>
        decide (loc ∉ c.oldDeleteSet) && !s.idx.emptySlots.isInSet loc) ∧
      s'.consolidation = some ⟨c.oldDeleteSet, [Index.start p], [], c.numCallsToProcessDelete +
        (locs.filter fun loc =>
          decide (loc ∉ c.oldDeleteSet) && !s.idx.emptySlots.isInSet loc).length⟩ ∧
      s'.insertions = s.insertions ∧ Beside s s' := by
  induction locs generalizing s c with
  | nil =>
    refine ⟨s, Traces.Puts.refl _ _ s, rfl, ?_, rfl, rfl, rfl, rfl⟩
    rw [hc]
    obtain ⟨oldDeleteSet, todo, writes, numCalls⟩ := c
    obtain rfl := hwrites
    obtain rfl := htodo
    rfl
  | cons loc rest ih =>
    have hne := hlocs loc List.mem_cons_self
    have hrest : ∀ l ∈ rest, l ≠ Index.start p := fun l hl => hlocs l (List.mem_cons_of_mem loc hl)
    rw [List.cons_append] at htodo
    rw [List.filter_cons]
    by_cases hgo : loc ∉ c.oldDeleteSet ∧ s.idx.emptySlots.isInSet loc = false
    · have hkeep : (decide (loc ∉ c.oldDeleteSet) && !s.idx.emptySlots.isInSet loc) = true := by
        rw [hgo.2, decide_eq_true hgo.1]
        rfl
      obtain ⟨s₁, hputs, hidx, hc₁, hins, hbeside⟩ :=
        puts_processDelete hc hwrites htodo (fun heq => absurd heq hne) hgo.1 (orders loc)
      have hempty : s₁.idx.emptySlots = s.idx.emptySlots := by
        rw [hidx, (onlyGraph_processDelete p c.oldDeleteSet (orders loc) s.idx loc).eq]
      obtain ⟨s', hputs', hidx', hc', hins', hbeside'⟩ := ih hc₁ rfl rfl hrest
      rw [hempty] at hidx' hc'
      rw [if_pos hkeep]
      refine ⟨s', hputs.trans hputs', ?_, ?_, hins'.trans hins,
        hbeside.trans hbeside'⟩
      · rw [hidx', hidx]
        rfl
      · rw [hc', List.length_cons]
        dsimp only
        rw [Nat.add_assoc, Nat.add_comm 1]
    · have hskip : ¬ (decide (loc ∉ c.oldDeleteSet) && !s.idx.emptySlots.isInSet loc) = true := by
        rw [Bool.and_eq_true, decide_eq_true_iff, Bool.not_eq_true']
        exact hgo
      let s₁ : Threads V := { s with
        consolidation := some { c with todo := rest ++ [Index.start p] } }
      have hstep : s.step p (.processDelete loc (!s.idx.emptySlots.isInSet loc) (fun _ => 0)
          (s.idx.slotDistance p) (orders loc)) = some s₁ := by
        have hguard : loc ∈ c.todo ∧ (loc = Index.start p → c.todo = [loc] ∧ c.writes = []) := by
          rw [htodo]
          exact ⟨List.mem_cons_self, fun heq => absurd heq hne⟩
        have hpass : loc ≠ Index.start p ∧
            (loc ∈ c.oldDeleteSet ∨ (!s.idx.emptySlots.isInSet loc) = false) := by
          refine ⟨hne, ?_⟩
          rw [Bool.not_eq_false', ← Bool.not_eq_false, or_iff_not_imp_left]
          exact fun hkept hfree => hgo ⟨hkept, hfree⟩
        rw [Threads.step, hc, Option.bind_some, if_pos hguard, Threads.processDelete, if_pos hpass,
          htodo, List.erase_cons_head]
      have hputs : Traces.Puts (step p) (answer p) s [] s₁ := Traces.Puts.of_step hstep rfl
      have hc₁ : s₁.consolidation = some { c with todo := rest ++ [Index.start p] } := rfl
      obtain ⟨s', hputs', hidx', hc', hins', hbeside'⟩ := ih hc₁ hwrites rfl hrest
      rw [if_neg hskip]
      exact ⟨s', hputs.trans hputs', hidx', hc', hins',
        ⟨hbeside'.locked, hbeside'.released, hbeside'.checked⟩⟩

/-- The checks, the lock and the swap of a consolidation that nothing is in the way
    of. -/
theorem Safe.puts_swap (h : s.Safe p) (hidle : s.Idle) :
    Traces.Puts (Threads.step p) (Threads.answer p) s [] { s with
      idx := { s.idx with deleteSet := ∅ }
      locked := true
      consolidation := some ⟨s.idx.deleteSet, List.range (p.maxPoints + 1), [], 0⟩ } := by
  have hstatus : Threads.checkStatus p s.idx = some .success := by
    rw [h.checkStatus, if_pos (Safe.held_eq_empty hidle.consolidation)]
  let s₁ : Threads V := { s with checked := s.checked + 1 }
  have hcheck : s.step p .check = some s₁ := by
    rw [Threads.step, Threads.check, hstatus]
  have hsilent : s.answer p .check = [] := by
    rw [Threads.answer, hstatus]
  have hputs₁ : Traces.Puts (Threads.step p) (Threads.answer p) s [] s₁ :=
    Traces.Puts.of_step hcheck hsilent
  let s₂ : Threads V := { s with locked := true }
  have hlock : s₁.step p .lock = some s₂ := by
    rw [Threads.step, if_neg (Nat.succ_ne_zero _), if_neg]
    · rfl
    · rw [hidle.locked]
      exact Bool.false_ne_true
  have hquiet : s₁.answer p .lock = [] := by
    rw [Threads.answer, if_neg]
    rw [hidle.locked]
    exact Bool.false_ne_true
  have hputs₂ : Traces.Puts (Threads.step p) (Threads.answer p) s₁ [] s₂ :=
    Traces.Puts.of_step hlock hquiet
  have hswap : s₂.step p .swap = some (s₂.swap p) :=
    if_pos ⟨rfl, hidle.released, Option.isNone_iff_eq_none.mpr hidle.consolidation⟩
  rw [(h.setCounters s.checked true s.released).swap_eq] at hswap
  have hputs₃ : Traces.Puts (Threads.step p) (Threads.answer p) s₂ [] _ :=
    Traces.Puts.of_step hswap rfl
  exact (hputs₁.trans hputs₂).trans hputs₃

/-- `consolidate_deletes` in one go. -/
theorem Safe.puts_consolidateDeletes (h : s.Safe p) (hidle : s.Idle) (orders : Nat → SetOrder)
    (releaseOrder : SetOrder) {idx' : Index V} {report : ConsolidationReport}
    (hcall : s.idx.consolidateDeletes p orders releaseOrder = some (idx', report)) :
    ∃ s', Traces.Puts (Threads.step p) (Threads.answer p) s [.report report] s' ∧ s'.idx = idx' ∧
      s'.Idle := by
  have hslots := h.slots
  rw [Safe.held_eq_empty hidle.consolidation] at hslots
  have hok := heldOk_empty.mp hslots
  rw [Index.consolidateDeletes, if_neg (not_not.mpr hok.count), if_neg (not_not.mpr hok.count_tags),
    if_neg (not_not.mpr hok.size_tagToLocation), if_neg hok.start_not_deleted] at hcall
  obtain ⟨idx, hreleased, heq⟩ := Option.map_eq_some_iff.mp hcall
  obtain ⟨rfl, rfl⟩ := Prod.mk.inj heq
  have htodo : List.range (p.maxPoints + 1) = List.range p.maxPoints ++ [Index.start p] :=
    List.range_succ
  let c : Consolidation := ⟨s.idx.deleteSet, List.range (p.maxPoints + 1), [], 0⟩
  let s₁ : Threads V :=
    { s with idx := { s.idx with deleteSet := ∅ }, locked := true, consolidation := some c }
  have hputs₁ : Traces.Puts (Threads.step p) (Threads.answer p) s [] s₁ := h.puts_swap hidle
  have hc₁ : s₁.consolidation = some c := rfl
  obtain ⟨s₂, hputs₂, hidx₂, hc₂, hins₂, hbeside₂⟩ := puts_processDeletes (p := p) hc₁ rfl htodo
    (fun loc hloc => Nat.ne_of_lt (List.mem_range.mp hloc)) orders
  obtain ⟨s₃, hputs₃, hidx₃, hc₃, hins₃, hbeside₃⟩ := puts_processDelete (p := p) hc₂ rfl rfl
    (fun _ => rfl) hok.start_not_deleted (orders (Index.start p))
  have hidx : s₃.idx = Index.processDeletes p s.idx.deleteSet orders
      { s.idx with deleteSet := ∅ }
      (Index.locationsToProcess p { s.idx with deleteSet := ∅ } s.idx.deleteSet) := by
    rw [hidx₃, hidx₂, locationsToProcess, Index.processDeletes, Index.processDeletes,
      List.foldl_append]
    rfl
  rw [← hidx] at hreleased
  have hstep : s₃.step p (.release releaseOrder) =
      some { s₃.moveTo idx with consolidation := none, released := true } := by
    rw [Threads.step, hc₃, Option.bind_some, if_pos ⟨rfl, rfl⟩, Threads.release]
    dsimp only
    rw [hreleased]
  have hanswer : s₃.answer p (.release releaseOrder) = [.report ⟨.success, idx.nd, p.maxPoints,
      idx.emptySlots.size, s.idx.deleteSet.card, idx.deleteSet.card,
      (Index.locationsToProcess p { s.idx with deleteSet := ∅ } s.idx.deleteSet).length⟩] := by
    rw [Threads.answer, hc₃, Option.bind_some]
    dsimp only
    rw [hreleased, locationsToProcess, List.length_append, Nat.zero_add]
    rfl
  let s₄ : Threads V := { s₃.moveTo idx with consolidation := none, released := true }
  have hputs₄ : Traces.Puts (Threads.step p) (Threads.answer p) s₃ _ s₄ :=
    Traces.Puts.of_step hstep hanswer
  have hputs₅ : Traces.Puts (Threads.step p) (Threads.answer p) s₄ [] s₄.unlock :=
    Traces.Puts.of_step (l := .unlock) rfl rfl
  refine ⟨s₄.unlock, (((hputs₁.trans hputs₂).trans hputs₃).trans hputs₄).trans hputs₅, rfl, ?_, rfl,
    rfl, rfl, ?_⟩
  · exact (hins₃.trans hins₂).trans hidle.insertions
  · exact (hbeside₃.checked.trans hbeside₂.checked).trans hidle.checked

/-- A call that no other is beside. -/
theorem Safe.puts_call (h : s.Safe p) (hidle : s.Idle) {call : Vamana.Index.Call V}
    {idx' : Index V} (hcall : s.idx.step p call = some idx') :
    ∃ s', Traces.Puts (Threads.step p) (Threads.answer p) s (s.idx.answer p call) s' ∧
      s'.idx = idx' ∧ s'.Idle := by
  cases call with
  | insertPoint point tag =>
    obtain ⟨⟨idx, ret⟩, hinsert, rfl⟩ := Option.map_eq_some_iff.mp hcall
    obtain ⟨s', hputs, hidx, hins, hc, hbeside⟩ := h.puts_insertPoint hidle.insertions point hinsert
    rw [Index.answer, hinsert]
    exact ⟨s', hputs, hidx, hins, hc.trans hidle.consolidation, hbeside.locked.trans hidle.locked,
      hbeside.released.trans hidle.released, hbeside.checked.trans hidle.checked⟩
  | lazyDelete tag =>
    obtain rfl := Option.some.inj hcall
    have hstep : s.step p (.lazyDelete tag) = some (s.moveTo (s.idx.lazyDelete tag).1) :=
      congrArg some (h.lazyDelete tag).1
    exact ⟨_, Traces.Puts.of_step hstep rfl, rfl, hidle.insertions, hidle.consolidation,
      hidle.locked, hidle.released, hidle.checked⟩
  | lazyDeleteAll tags =>
    obtain rfl := Option.some.inj hcall
    have hstep : s.step p (.lazyDeleteAll tags) =
        some (s.moveTo (s.idx.lazyDeleteAll tags).1) := rfl
    exact ⟨_, Traces.Puts.of_step hstep rfl, rfl, hidle.insertions, hidle.consolidation,
      hidle.locked, hidle.released, hidle.checked⟩
  | consolidateDeletes orders releaseOrder =>
    obtain ⟨⟨idx, report⟩, hreport, rfl⟩ := Option.map_eq_some_iff.mp hcall
    obtain ⟨s', hputs, hidx, hidle'⟩ := h.puts_consolidateDeletes hidle orders releaseOrder hreport
    rw [Index.answer, hreport]
    exact ⟨s', hputs, hidx, hidle'⟩

theorem Safe.puts_calls (h : s.Safe p) (hidle : s.Idle) {calls : List (Vamana.Index.Call V)}
    {idx' : Index V} (hrun : Traces.run (Index.step p) s.idx calls = some idx') :
    ∃ s', Traces.Puts (Threads.step p) (Threads.answer p) s
        (Traces.outputs (Index.step p) (Index.answer p) s.idx calls) s' ∧
      s'.idx = idx' ∧ s'.Idle := by
  induction calls generalizing s with
  | nil => exact ⟨s, Traces.Puts.refl _ _ s, Option.some.inj hrun, hidle⟩
  | cons call rest ih =>
    obtain ⟨idx, hcall, hrest⟩ := Traces.run_cons.mp hrun
    obtain ⟨s₁, hputs, rfl, hidle₁⟩ := h.puts_call hidle hcall
    have hsafe := hputs.invariant (fun _ _ _ h hstep => h.step hstep) h
    obtain ⟨s', hputs', hidx, hidle'⟩ := ih hsafe hidle₁ hrest
    refine ⟨s', ?_, hidx, hidle'⟩
    rw [Traces.outputs, hcall, Option.map_some, Option.getD_some]
    exact hputs.trans hputs'

/-- Every run of calls one after the other is an interleaving of critical sections:
    it ends with the same index, no call under way, and the same answers. -/
theorem calls_interleave (p : IndexParams V) {calls : List (Vamana.Index.Call V)} {idx : Index V}
    (hrun : Traces.run (Index.step p) (create p) calls = some idx) :
    ∃ actions s, Traces.run (step p) (start p) actions = some s ∧ s.idx = idx ∧ s.Idle ∧
      Traces.outputs (step p) (answer p) (start p) actions =
        Traces.outputs (Index.step p) (Index.answer p) (create p) calls := by
  have hidle : (start p).Idle := ⟨rfl, rfl, rfl, rfl, rfl⟩
  obtain ⟨s, ⟨actions, hactions, hsame⟩, hidx, hend⟩ := (safe_start p).puts_calls hidle hrun
  exact ⟨actions, s, hactions, hidx, hend, hsame⟩

def lineCalls : List (Vamana.Index.Call ℚ) :=
  [.insertPoint 1 1, .insertPoint 5 2, .lazyDelete 1,
    .consolidateDeletes (fun _ => .ascending) .ascending, .insertPoint 7 3]

theorem calls_interleave_line :
    ∃ idx actions s, Traces.run (step lineParams) (start lineParams) actions = some s ∧
      s.idx = idx ∧ s.Idle ∧
      Traces.outputs (step lineParams) (answer lineParams) (start lineParams) actions =
        [.code 0, .code 0, .code 0, .report ⟨.success, 1, 3, 2, 1, 0, 2⟩, .code 0] := by
  have hend : (Traces.run (Index.step lineParams) (create lineParams) lineCalls).any
      (fun _ => true) = true := by decide +kernel
  obtain ⟨idx, hrun, -⟩ := Traces.exists_run hend
  obtain ⟨actions, s, hactions, hidx, hidle, hsame⟩ := calls_interleave lineParams hrun
  refine ⟨idx, actions, s, hactions, hidx, hidle, hsame.trans ?_⟩
  decide +kernel

end Threads

end QvCache.Vamana
