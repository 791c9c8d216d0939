/-
  QvCache.System.Resurrection

  Can a removed id become live again?  The tombstones are consulted when a miss
  is filtered and when an insert checks its point, but the point lands in a
  later step, and `memory_index_insert_sync` does not look at them at all.

  `Guarded` says that a live tombstoned tag is one that a remove has yet to
  delete.  A run stays guarded exactly as long as no accepted `insert_point`
  lands a tombstoned id in a shard that no remove is about to visit
  (`guarded_step`).
-/

import QvCache.System.HitSoundness

namespace QvCache

namespace Sys

variable {V β : Type} {cfg : SystemConfig V β}

/-- A remove of `id` has raised its tombstone and not deleted from shard `k` yet. -/
def DeletePending (s : Sys V β) (id : UInt32) (k : Nat) : Prop :=
  ∃ i : Nat, s.calls[i]? = some (.forgetting id) ∨ ∃ j ≤ k, s.calls[i]? = some (.deleting id j)

/-- Every live tombstoned tag is about to be deleted. -/
def Guarded (s : Sys V β) : Prop :=
  ∀ id ∈ s.cache.deletedIds, ∀ k vec, s.cache.HoldsAt k (1 + id) vec → s.DeletePending id k

/-- While no admit task is queued or running, no tombstoned tag is live, except
    where a remove under way has its deletion still before it. -/
def NoResurrection (s : Sys V β) : Prop :=
  s.idle = true → ∀ id ∈ s.cache.deletedIds, ∀ k, ¬ s.DeletePending id k →
    ∀ vec, ¬ s.cache.HoldsAt k (1 + id) vec

/-- The step does not land a tombstoned id behind the back of its remove. -/
def LandsGuarded (cfg : SystemConfig V β) (s : Sys V β) (l : Label V) : Prop :=
  ∀ k id vec, Lands cfg s l k id vec → id ∈ s.cache.deletedIds → s.DeletePending id k

/-! ## One step -/

/-- A shard that holds a point after a step was there before. -/
theorem lt_of_holds_step {s s' : Sys V β} {l : Label V} (h : step cfg s l = some s') {k : Nat}
    {tag : Tag} {vec : V} (hholds : s'.cache.HoldsAt k tag vec) :
    k < s.cache.memoryIndices.length := by
  rcases holds_step h hholds with hold | ⟨id, _, hlands⟩
  · exact hold.lt
  · exact hlands.accepts.lt

/-- A pending deletion stays pending until it is carried out. -/
theorem deletePending_step {s s' : Sys V β} {l : Label V} (h : step cfg s l = some s') {id : UInt32}
    {k : Nat} {vec : V} (hpending : s.DeletePending id k)
    (hholds : s'.cache.HoldsAt k (1 + id) vec) : s'.DeletePending id k := by
  obtain ⟨i, hi⟩ := hpending
  -- either another step, or the remove itself moves
  by_cases hother : ∀ reply, l ≠ .call i reply
  · refine ⟨i, hi.imp (fun hf => calls_kept h hf hother) ?_⟩
    rintro ⟨j, hj, hd⟩
    exact ⟨j, hj, calls_kept h hd hother⟩
  · push Not at hother
    obtain ⟨reply, rfl⟩ := hother
    have hlt := lt_of_holds_step h hholds
    cases move_of_step h with
    | call _ _ call next hcall hmove =>
      have hnew : (s.afterCall i next).calls[i]? = some next.call :=
        Slots.getElem?_set_of_some hcall _
      -- it forgets the tag and turns to shard 0, or it deletes from shard j
      rcases hi with hf | ⟨j, hj, hd⟩
      · rw [hf] at hcall
        obtain rfl := Option.some.inj hcall
        cases hmove
        exact ⟨i, Or.inr ⟨0, Nat.zero_le k, hnew⟩⟩
      · have hgone := not_holds_after_delete h hd (lt_of_le_of_lt hj hlt) vec
        rw [hd] at hcall
        obtain rfl := Option.some.inj hcall
        cases hmove with
        | deleted =>
          -- had it just deleted from shard k, nothing would be held there
          have hne : j ≠ k := fun heq => hgone (heq ▸ hholds)
          exact ⟨i, Or.inr ⟨j + 1, by omega, hnew⟩⟩
        | dropped _ _ hge => omega
        | notDropped _ _ hge => omega
        | dropThrew _ _ hge => omega

/-- Landing a point does not touch the tombstones. -/
theorem Lands.tombstones {s : Sys V β} {l : Label V} {k : Nat} {id : UInt32} {vec : V}
    (h : Lands cfg s l k id vec) : s.tombstones l = s.cache.deletedIds := by
  cases h with
  | call i _ _ _ hcall => simp [Sys.tombstones, hcall, Call.buries]
  | worker => rfl

/-- Landing a point begins no deletion. -/
theorem Lands.deletePending {s s' : Sys V β} {l : Label V} {k k' : Nat} {id id' : UInt32} {vec : V}
    (hlands : Lands cfg s l k id vec) (h : step cfg s l = some s')
    (hpending : s'.DeletePending id' k') :
    s.DeletePending id' k' := by
  -- an insert that lands leaves its own call at an insert's step, never at a remove's
  have hold : ∀ (i : Nat) (call' : Call V), s'.calls[i]? = some call' →
      s.calls[i]? = some call' ∨
        call' = .noting id vec k ∨ call' = .touching id vec k ∨ call' = .threw := by
    intro i call' hi
    rcases calls_step h hi with hsame | ⟨_, hbegins⟩ | ⟨reply, call, next, rfl, hcall, hmove, rfl⟩
    · exact Or.inl hsame
    · cases hlands <;> cases hbegins
    · cases hlands with
      | call _ _ _ _ hcall' =>
        rw [hcall'] at hcall
        obtain rfl := Option.some.inj hcall
        cases hmove with
        | landed _ _ _ cache accepted =>
          cases accepted with
          | true => exact Or.inr (Or.inl rfl)
          | false => exact Or.inr (Or.inr (Or.inl rfl))
        | landThrew => exact Or.inr (Or.inr (Or.inr rfl))
  obtain ⟨i, hi⟩ := hpending
  refine ⟨i, hi.imp (fun hf => ?_) ?_⟩
  · rcases hold i _ hf with hsame | hcon | hcon | hcon
    · exact hsame
    · cases hcon
    · cases hcon
    · cases hcon
  · rintro ⟨j, hj, hd⟩
    refine ⟨j, hj, ?_⟩
    rcases hold i _ hd with hsame | hcon | hcon | hcon
    · exact hsame
    · cases hcon
    · cases hcon
    · cases hcon

/-- A tombstone of the state after a step is an old one, or its remove has just
    raised it. -/
theorem buried_before_step {s s' : Sys V β} {l : Label V} (h : step cfg s l = some s') {id : UInt32}
    (hburied : id ∈ s'.cache.deletedIds) :
    id ∈ s.cache.deletedIds ∨ ∃ i : Nat, s'.calls[i]? = some (.forgetting id) := by
  rw [deletedIds_step h] at hburied
  cases move_of_step h with
  | insert id' vec => exact Or.inl (Finset.mem_of_mem_erase hburied)
  | call i reply call next hcall hmove =>
    have hnew : (s.afterCall i next).calls[i]? = some next.call :=
      Slots.getElem?_set_of_some hcall _
    simp only [tombstones, hcall, Option.bind_some] at hburied
    cases hmove with
    | buried id' =>
      rcases Finset.mem_insert.mp hburied with rfl | hold
      · exact Or.inr ⟨i, hnew⟩
      · exact Or.inl hold
    | _ => exact Or.inl hburied
  | _ => exact Or.inl hburied

/-- A step keeps the guard exactly if it lands no tombstoned id unguarded. -/
theorem guarded_step {s s' : Sys V β} {l : Label V} (hs : s.Guarded) (h : step cfg s l = some s') :
    s'.Guarded ↔ LandsGuarded cfg s l := by
  constructor
  · intro hs' k id vec hlands hburied
    refine hlands.deletePending h (hs' id ?_ k vec (holds_of_lands hlands h))
    rw [deletedIds_step h, hlands.tombstones]
    exact hburied
  · intro hP id hburied k vec hholds
    rcases buried_before_step h hburied with hold | ⟨i, hforgetting⟩
    · -- the copy was there, or this very step has landed it
      rcases holds_step h hholds with hbefore | ⟨id', htag, hlands⟩
      · exact deletePending_step h (hs id hold k vec hbefore) hholds
      · obtain rfl := (UInt32.add_right_inj 1).mp htag
        exact deletePending_step h (hP k id vec hlands hold) hholds
    · -- a tombstone just raised: its remove visits every shard from 0 on
      exact ⟨i, Or.inl hforgetting⟩

/-! ## Runs -/

theorem guarded_init (cfg : SystemConfig V β) (backend : β) (radius : Nat) (alpha : ℚ)
    (threads : Nat) : (init cfg backend radius alpha threads).Guarded :=
  fun _ hid => absurd hid (Finset.notMem_empty _)

theorem Guarded.noResurrection {s : Sys V β} (h : s.Guarded) : s.NoResurrection :=
  fun _ id hid k hpending vec hholds => hpending (h id hid k vec hholds)

/-- A run from the initial state keeps every live tombstoned tag guarded if and
    only if all its steps land guarded; and then nothing is resurrected. -/
theorem guarded_always_iff {backend : β} {radius : Nat} {alpha : ℚ} {threads : Nat}
    {labels : List (Label V)} {t : Sys V β}
    (hrun : Traces.run (step cfg) (init cfg backend radius alpha threads) labels = some t) :
    (Traces.Always (step cfg) Guarded (init cfg backend radius alpha threads) labels ↔
      Traces.Along (step cfg) (LandsGuarded cfg) (init cfg backend radius alpha threads) labels) ∧
    (Traces.Along (step cfg) (LandsGuarded cfg) (init cfg backend radius alpha threads) labels →
      Traces.Always (step cfg) NoResurrection (init cfg backend radius alpha threads) labels) := by
  have hiff := Traces.always_iff_along (I := Guarded) (P := LandsGuarded cfg)
    (J := fun _ => True) (Q := fun _ _ => True) (fun _ _ _ _ _ _ => trivial)
    (fun _ _ _ _ _ hs hstep => guarded_step hs hstep) hrun (Traces.along_true _ _) trivial
    (guarded_init cfg backend radius alpha threads)
  exact ⟨hiff, fun halong => (hiff.mpr halong).mono fun _ => Guarded.noResurrection⟩

/-- A miss submits the id 7, a remove of 7 runs from start to end, and only then
    does the worker take the task up. -/
def admitAfterRemoval : List (Label Nat) :=
  .search stableSorters 0 1 0 :: missLabels 0 [(7, .fin 3)] false ++ removeLabels 1 7 3 1 ++
    taskLabels 0 [3]

theorem run_admitAfterRemoval :
    ∃ t : Sys Nat Shelf,
      Traces.run (step soloSystem) (shelfStart soloSystem [(7, 3)]) admitAfterRemoval = some t ∧
      t.idle = true ∧ 7 ∈ t.cache.deletedIds ∧
      t.calls = [.missReturned 0 1 [(7, .fin 3)], .removeReturned 7] ∧
      t.cache.memoryIndices[0]?.bind (fun idx => idx.points.lookup 8) = some 3 := by
  have hruns : (Traces.run (step soloSystem) (shelfStart soloSystem [(7, 3)]) admitAfterRemoval).any
      (fun t => decide (t.idle = true ∧ 7 ∈ t.cache.deletedIds ∧
        t.calls = [.missReturned 0 1 [(7, .fin 3)], .removeReturned 7] ∧
        t.cache.memoryIndices[0]?.bind (fun idx => idx.points.lookup 8) = some 3)) = true := by
    decide +kernel
  obtain ⟨t, hrun, ht⟩ := Traces.exists_run hruns
  exact ⟨t, hrun, of_decide_eq_true ht⟩

/-- The equivalence on that run. -/
theorem guarded_always_iff_admitAfterRemoval :
    (Traces.Always (step soloSystem) Guarded (shelfStart soloSystem [(7, 3)]) admitAfterRemoval ↔
      Traces.Along (step soloSystem) (LandsGuarded soloSystem) (shelfStart soloSystem [(7, 3)])
        admitAfterRemoval) ∧
    (Traces.Along (step soloSystem) (LandsGuarded soloSystem) (shelfStart soloSystem [(7, 3)])
        admitAfterRemoval →
      Traces.Always (step soloSystem) NoResurrection (shelfStart soloSystem [(7, 3)])
        admitAfterRemoval) := by
  obtain ⟨t, hrun, _⟩ := run_admitAfterRemoval
  exact guarded_always_iff hrun

/-- All calls have returned, the pool is idle, and the removed id is live. -/
theorem late_admit_resurrects :
    ∃ t : Sys Nat Shelf, Reachable soloSystem t ∧ t.idle = true ∧
      t.calls = [.missReturned 0 1 [(7, .fin 3)], .removeReturned 7] ∧
      7 ∈ t.cache.deletedIds ∧ t.cache.LiveTag (1 + 7) ∧ ¬ t.NoResurrection := by
  obtain ⟨t, hrun, hidle, hburied, hcalls, hlook⟩ := run_admitAfterRemoval
  obtain ⟨idx, hidx, hpoint⟩ := Option.bind_eq_some_iff.mp hlook
  have hholds : t.cache.HoldsAt 0 (1 + 7) 3 := ⟨idx, hidx, hpoint⟩
  refine ⟨t, ⟨_, _, _, _, admitAfterRemoval, hrun⟩, hidle, hcalls, hburied, ⟨0, 3, hholds⟩,
    fun h => ?_⟩
  refine h hidle 7 hburied 0 ?_ 3 hholds
  -- both calls have returned: no deletion is pending
  rintro ⟨i, hi⟩
  rw [hcalls] at hi
  rcases i with _ | _ | i <;> simp at hi

end Sys

end QvCache
