/-
  QvCache.Vamana.Progress

  The calls under way come to an end, however their critical sections are ordered:
  as long as there is one, it or another one can go on, and each section leaves
  less to do (`Threads.work`).  When there are none, the slots are in order again
  (`calls_end_always`).
-/

import QvCache.Vamana.Shared

namespace QvCache.Vamana

namespace Action

variable {V : Type}

/-- A section of a call that is under way already. -/
def Internal : Action V → Prop
  | .advance .. | .lock | .swap | .processDelete .. | .write _ | .release _ | .unlock => True
  | .insertPoint .. | .lazyDelete _ | .lazyDeleteAll _ | .check => False

end Action

namespace Threads

open Index

variable {V : Type} {p : IndexParams V} {s s' : Threads V}

/-- The sections that an insertion has before it at most. -/
def phaseWork (p : IndexParams V) : Phase V → Nat
  | .storeVector _ => 2 * p.prune.range + 4
  | .search => 2 * p.prune.range + 3
  | .link prunedList => 2 * prunedList.length + 2
  | .interInsert srcPool => 2 * srcPool.length + 1
  | .setPruned _ _ srcPool => 2 * srcPool.length + 2

/-- Those of all insertions. -/
def insertionWork (p : IndexParams V) (l : List (Insertion V)) : Nat :=
  (l.map fun ins => phaseWork p ins.phase).sum

/-- Those of the consolidation that has the lock, until it has released its slots. -/
def consolidationWork (p : IndexParams V) (locked released : Bool) : Option Consolidation → Nat
  | some c => 2 * c.todo.length + c.writes.length + 2
  | none => if locked && !released then 2 * p.maxPoints + 5 else 0

/-- Those of all calls under way. -/
def work (p : IndexParams V) (s : Threads V) : Nat :=
  insertionWork p s.insertions + consolidationWork p s.locked s.released s.consolidation +
    s.released.toNat + s.checked * (2 * p.maxPoints + 6)

/-- There is no call under way. -/
structure Idle (s : Threads V) : Prop where
  insertions : s.insertions = []
  consolidation : s.consolidation = none
  locked : s.locked = false
  released : s.released = false
  checked : s.checked = 0

theorem insertionWork_append (p : IndexParams V) (l₁ l₂ : List (Insertion V)) :
    insertionWork p (l₁ ++ l₂) = insertionWork p l₁ + insertionWork p l₂ := by
  rw [insertionWork, List.map_append, List.sum_append]
  rfl

theorem insertionWork_cons (p : IndexParams V) (ins : Insertion V) (l : List (Insertion V)) :
    insertionWork p (ins :: l) = phaseWork p ins.phase + insertionWork p l := by
  rw [insertionWork, List.map_cons, List.sum_cons]
  rfl

theorem phaseWork_pos (p : IndexParams V) (phase : Phase V) : 0 < phaseWork p phase := by
  cases phase <;> exact Nat.succ_pos _

theorem insertionWork_set {k : Nat} {ins : Insertion V} (hins : s.insertions[k]? = some ins)
    {phase : Phase V} (hless : phaseWork p phase < phaseWork p ins.phase) :
    insertionWork p (s.setPhase k ins.location phase).insertions <
      insertionWork p s.insertions := by
  obtain ⟨l₁, l₂, hl, hset, -⟩ := Slots.exists_split hins ⟨ins.location, phase⟩
  rw [setPhase]
  dsimp only
  rw [hset, hl, insertionWork_append, insertionWork_append, insertionWork_cons, insertionWork_cons]
  dsimp only
  omega

theorem insertionWork_eraseIdx {k : Nat} {ins : Insertion V}
    (hins : s.insertions[k]? = some ins) :
    insertionWork p (s.insertions.eraseIdx k) < insertionWork p s.insertions := by
  obtain ⟨l₁, l₂, hl, -, herase⟩ := Slots.exists_split hins ins
  have hpos := phaseWork_pos p ins.phase
  rw [herase, hl, insertionWork_append, insertionWork_append, insertionWork_cons]
  omega

/-- An insertion that goes on has less before it. -/
theorem Safe.insertionWork_advance (h : s.Safe p) {k : Nat} {ins : Insertion V}
    (hins : s.insertions[k]? = some ins) (times : Nat → Nat) (queryDist : Nat → ℚ)
    (dist : Nat → Nat → ℚ) :
    insertionWork p (s.advance p k ins times queryDist dist).insertions <
      insertionWork p s.insertions := by
  obtain ⟨hlocation, hphase⟩ := h.insertions ins (List.mem_of_getElem? hins)
  rw [Threads.advance]
  cases hnow : ins.phase with
  | storeVector point =>
    refine insertionWork_set hins ?_
    rw [hnow]
    exact Nat.lt_succ_self _
  | search =>
    obtain ⟨prunedList, heq, hlist⟩ := h.searchAndPrune times queryDist dist hlocation
    dsimp only
    rw [heq]
    cases prunedList with
    | nil => exact absurd rfl hlist.ne_nil
    | cons des rest =>
      have hlength := hlist.length_le
      refine insertionWork_set hins ?_
      rw [hnow, phaseWork, phaseWork]
      omega
  | link prunedList =>
    rw [hnow] at hphase
    have hlist : PrunedList p (· < p.maxPoints) ins.location prunedList := hphase
    have hlength := (List.length_filter_le (fun l => s.idx.locationToTag.contains l)
      prunedList).trans hlist.length_le
    dsimp only
    rw [if_pos hlength]
    refine insertionWork_set hins ?_
    rw [hnow]
    exact Nat.lt_succ_self _
  | interInsert srcPool =>
    rw [hnow] at hphase
    cases srcPool with
    | nil => exact insertionWork_eraseIdx hins
    | cons des rest =>
      have hpool : SrcPoolOk p ins.location (des :: rest) := hphase
      have hless : ∀ phase, phaseWork p phase ≤ 2 * rest.length + 2 →
          phaseWork p phase < phaseWork p ins.phase := by
        intro phase hle
        rw [hnow, phaseWork, List.length_cons]
        omega
      dsimp only
      rw [if_neg (not_lt.mpr (hpool.le des List.mem_cons_self))]
      split_ifs
      · exact insertionWork_set hins (hless _ (Nat.le_succ _))
      · exact insertionWork_set hins (hless _ (Nat.le_succ _))
      · exact insertionWork_set hins (hless _ (Nat.le_refl _))
  | setPruned des copyOfNeighbors rest =>
    refine insertionWork_set hins ?_
    rw [hnow]
    exact Nat.lt_succ_self _

/-- The loop has a slot to go to, the given one last. -/
theorem exists_next {l : List Nat} (hnodup : l.Nodup) (hne : l ≠ []) (last : Nat) :
    ∃ i ∈ l, i = last → l = [i] := by
  by_cases hother : ∃ i ∈ l, i ≠ last
  · obtain ⟨i, hi, hne⟩ := hother
    exact ⟨i, hi, fun heq => absurd heq hne⟩
  · obtain ⟨i, rest, rfl⟩ := List.exists_cons_of_ne_nil hne
    have hall : ∀ j ∈ i :: rest, j = last := fun j hj => by
      by_contra hout
      exact hother ⟨j, hj, hout⟩
    refine ⟨i, List.mem_cons_self, fun _ => ?_⟩
    cases rest with
    | nil => rfl
    | cons j rest =>
      have hsame : i = j := by
        rw [hall i List.mem_cons_self, hall j (List.mem_cons_of_mem i List.mem_cons_self)]
      exact absurd (hsame ▸ List.mem_cons_self) (List.nodup_cons.mp hnodup).1

theorem Safe.work_processDelete (h : s.Safe p) {c : Consolidation}
    (hc : s.consolidation = some c) {loc : Nat} (hloc : loc ∈ c.todo) (inUse : Bool)
    (times : Nat → Nat) (dist : Nat → Nat → ℚ) (order : SetOrder) :
    work p (s.processDelete p c loc inUse times dist order) < work p s := by
  have hstart := h.start_not_held
  rw [Safe.held_eq hc] at hstart
  have hlength := List.length_erase_of_mem hloc
  have hpos := List.length_pos_of_mem hloc
  have hnow : consolidationWork p s.locked s.released s.consolidation =
      2 * c.todo.length + c.writes.length + 2 := by
    rw [hc]
    rfl
  have hless : ∀ c' : Consolidation, c'.todo = c.todo.erase loc →
      c'.writes.length ≤ c.writes.length + 1 →
        work p { s with consolidation := some c' } < work p s := by
    intro c' htodo hwrites
    rw [work, work, hnow, consolidationWork, htodo]
    dsimp only
    omega
  rw [Threads.processDelete]
  split_ifs with hskip hdeleted hrepair
  · exact hless _ rfl (Nat.le_succ _)
  · refine absurd hdeleted fun hin => hskip ⟨?_, Or.inl hin⟩
    rintro rfl
    exact hstart hin
  · exact hless _ rfl (Nat.le_refl _)
  · exact hless _ rfl (Nat.le_succ _)

/-- Each section of a call under way leaves less to do. -/
theorem Safe.work_lt (h : s.Safe p) {a : Action V} (ha : a.Internal)
    (hstep : s.step p a = some s') : work p s' < work p s := by
  cases a with
  | insertPoint point tag => exact ha.elim
  | lazyDelete tag => exact ha.elim
  | lazyDeleteAll tags => exact ha.elim
  | check => exact ha.elim
  | advance k times queryDist dist =>
    obtain ⟨ins, hins, rfl⟩ := Option.map_eq_some_iff.mp hstep
    obtain ⟨hsame, hc⟩ := advance_same p s k ins times queryDist dist
    have hless := h.insertionWork_advance hins times queryDist dist
    rw [work, work, hsame.checked, hsame.locked, hsame.released, hc]
    omega
  | lock =>
    rw [Threads.step] at hstep
    split_ifs at hstep with hnone hbusy
    · obtain rfl := Option.some.inj hstep
      have hmul := Nat.sub_one_mul s.checked (2 * p.maxPoints + 6)
      rw [work, work]
      dsimp only
      have hone : 2 * p.maxPoints + 6 ≤ s.checked * (2 * p.maxPoints + 6) :=
        Nat.le_mul_of_pos_left _ (Nat.pos_of_ne_zero hnone)
      omega
    · obtain rfl := Option.some.inj hstep
      have hmul := Nat.sub_one_mul s.checked (2 * p.maxPoints + 6)
      have hone : 2 * p.maxPoints + 6 ≤ s.checked * (2 * p.maxPoints + 6) :=
        Nat.le_mul_of_pos_left _ (Nat.pos_of_ne_zero hnone)
      have hlocked : consolidationWork p true s.released s.consolidation ≤
          consolidationWork p s.locked s.released s.consolidation + (2 * p.maxPoints + 5) := by
        cases s.consolidation with
        | none =>
          rw [consolidationWork]
          split_ifs
          · exact Nat.le_add_left _ _
          · exact Nat.zero_le _
        | some c => exact Nat.le_add_right _ _
      rw [work, work, Threads.lock]
      dsimp only
      omega
  | swap =>
    rw [Threads.step] at hstep
    split_ifs at hstep with hfree
    obtain rfl := Option.some.inj hstep
    obtain ⟨hlocked, hheld, hnone⟩ := hfree
    have hnow : consolidationWork p s.locked s.released s.consolidation =
        2 * p.maxPoints + 5 := by
      rw [Option.isNone_iff_eq_none.mp hnone, hlocked, hheld]
      rfl
    rw [h.swap_eq, work, work, hnow, consolidationWork]
    dsimp only
    rw [List.length_range, List.length_nil]
    omega
  | processDelete loc inUse times dist order =>
    obtain ⟨c, hc, hrest⟩ := Option.bind_eq_some_iff.mp hstep
    split_ifs at hrest with hloc
    exact Option.some.inj hrest ▸ h.work_processDelete hc hloc.1 inUse times dist order
  | write k =>
    obtain ⟨c, hc, hrest⟩ := Option.bind_eq_some_iff.mp hstep
    obtain ⟨w, hw, rfl⟩ := Option.map_eq_some_iff.mp hrest
    have hlength := List.length_eraseIdx_add_one (List.getElem?_eq_some_iff.mp hw).1
    show insertionWork p s.insertions + (2 * c.todo.length + (c.writes.eraseIdx k).length + 2) +
      s.released.toNat + s.checked * (2 * p.maxPoints + 6) < work p s
    rw [work, hc, consolidationWork]
    omega
  | release order =>
    obtain ⟨c, hc, hrest⟩ := Option.bind_eq_some_iff.mp hstep
    split_ifs at hrest
    obtain rfl := Option.some.inj hrest
    have hslots := h.slots
    rw [Safe.held_eq hc] at hslots
    obtain ⟨es, -, -, heq, -⟩ := hslots.release order
    rw [Threads.release, heq]
    have hfree : consolidationWork p s.locked true none = 0 := by
      rw [consolidationWork, Bool.not_true, Bool.and_false, if_neg Bool.false_ne_true]
    show insertionWork p s.insertions + consolidationWork p s.locked true none + 1 +
      s.checked * (2 * p.maxPoints + 6) < work p s
    rw [work, hc, hfree, consolidationWork]
    omega
  | unlock =>
    rw [Threads.step] at hstep
    split_ifs at hstep with hreleased
    obtain rfl := Option.some.inj hstep
    have hsame : consolidationWork p false false s.consolidation =
        consolidationWork p s.locked s.released s.consolidation := by
      rw [hreleased]
      cases s.consolidation with
      | none => rw [consolidationWork, consolidationWork, Bool.not_true, Bool.and_false,
          Bool.false_and]
      | some c => rfl
    show insertionWork p s.insertions + consolidationWork p false false s.consolidation + 0 +
      s.checked * (2 * p.maxPoints + 6) < work p s
    rw [work, hsame, hreleased, Bool.toNat_true]
    omega

/-- As long as there is a call under way, one can go on. -/
theorem Safe.exists_step (h : s.Safe p) (hbusy : ¬ s.Idle) :
    ∃ a s', a.Internal ∧ s.step p a = some s' := by
  by_cases hins : s.insertions = []
  · cases hc : s.consolidation with
    | some c =>
      by_cases hwrites : c.writes = []
      · by_cases htodo : c.todo = []
        · refine ⟨.release .ascending, s.release p c .ascending, trivial, ?_⟩
          rw [Threads.step, hc, Option.bind_some, if_pos ⟨htodo, hwrites⟩]
        · obtain ⟨loc, hloc, hlast⟩ := exists_next (h.consolidation c hc).todo htodo (Index.start p)
          refine ⟨.processDelete loc true (fun _ => 0) (fun _ _ => 0) .ascending,
            s.processDelete p c loc true (fun _ => 0) (fun _ _ => 0) .ascending, trivial, ?_⟩
          rw [Threads.step, hc, Option.bind_some,
            if_pos ⟨hloc, fun heq => ⟨hlast heq, hwrites⟩⟩]
      · obtain ⟨w, rest, hcons⟩ := List.exists_cons_of_ne_nil hwrites
        refine ⟨.write 0, s.write c 0 w, trivial, ?_⟩
        rw [Threads.step, hc, Option.bind_some, hcons]
        rfl
    | none =>
      by_cases hreleased : s.released = true
      · refine ⟨.unlock, s.unlock, trivial, ?_⟩
        rw [Threads.step, if_pos hreleased]
      · rw [Bool.not_eq_true] at hreleased
        by_cases hlocked : s.locked = true
        · refine ⟨.swap, s.swap p, trivial, ?_⟩
          rw [Threads.step, hc, if_pos ⟨hlocked, hreleased, rfl⟩]
        · have hfree : s.locked = false := Bool.not_eq_true _ ▸ hlocked
          have hsome : s.checked ≠ 0 := fun hzero => hbusy ⟨hins, hc, hfree, hreleased, hzero⟩
          refine ⟨.lock, s.lock, trivial, ?_⟩
          rw [Threads.step, if_neg hsome, if_neg hlocked]
  · obtain ⟨ins, rest, hcons⟩ := List.exists_cons_of_ne_nil hins
    refine ⟨.advance 0 (fun _ => 0) (fun _ => 0) fun _ _ => 0,
      s.advance p 0 ins (fun _ => 0) (fun _ => 0) fun _ _ => 0, trivial, ?_⟩
    rw [Threads.step, hcons]
    rfl

/-- At all times of every interleaving: the sections of the calls under way come to
    an end after at most `work` of them, one can go on as long as there is one, and
    without any the slots are in order. -/
theorem calls_end_always (p : IndexParams V) (actions : List (Action V)) :
    Traces.Always (step p) (fun s =>
      (∀ rest t, (∀ a ∈ rest, a.Internal) → Traces.run (step p) s rest = some t →
        rest.length + work p t ≤ work p s) ∧
      (¬ s.Idle → ∃ a t, a.Internal ∧ s.step p a = some t) ∧
      (s.Idle → s.idx.SlotsOk p)) (start p) actions := by
  refine (safe_always p actions).mono fun s h => ⟨fun rest t hrest hrun => ?_, h.exists_step,
    fun hidle => ?_⟩
  · exact Traces.run_length_le (fun _ _ _ h hstep => h.step hstep)
      (fun _ _ _ h ha hstep => h.work_lt ha hstep) h hrest hrun
  · have hslots := h.slots
    rw [held, hidle.consolidation] at hslots
    exact heldOk_empty.mp hslots

end Threads

end QvCache.Vamana
