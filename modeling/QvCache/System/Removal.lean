/-
  QvCache.System.Removal

  What a search may still write about an id after its removal.  A hit never
  contains it, but `handle_backend_miss` copies the backend's answer to the
  caller as it is; the tombstones are consulted only for what is admitted.  So
  the removed id stays away exactly as long as the backend does not report it
  (`unwritten_always_iff`).
-/

import QvCache.System.HitSoundness

namespace QvCache

/-- The answer that a miss returns with its next step. -/
def Call.returns {V : Type} (lazyThetaUpdates : Bool) : Call V → Option BackendAnswer
  | .placed _ _ answer _ _ => if lazyThetaUpdates then some answer else none
  | .learned _ _ answer _ _ => some answer
  | _ => none

namespace Sys

variable {V β : Type} {cfg : SystemConfig V β}

/-- No call from the `n`-th on has written the tag of `id`. -/
def Unwritten (id : UInt32) (n : Nat) (s : Sys V β) : Prop :=
  ∀ j call written, n ≤ j → s.calls[j]? = some call → call.written = some written →
    ∀ td ∈ written, td.1 ≠ 1 + id

/-- The step does not return, from one of these calls, a backend's answer that
    reports `id`. -/
def Unreported (cfg : SystemConfig V β) (id : UInt32) (n : Nat) (s : Sys V β) (l : Label V) : Prop :=
  ∀ j answer, n ≤ j → l = .call j .proceed →
    s.calls[j]?.bind (Call.returns cfg.cache.lazyThetaUpdates) = some answer →
      id ∉ answer.map Prod.fst

/-- The tags of a miss are the ids of its answer plus one. -/
theorem written_of_answer {id : UInt32} (answer : BackendAnswer) :
    (∀ td ∈ answer.map fun td => (td.1 + 1, td.2), td.1 ≠ 1 + id) ↔ id ∉ answer.map Prod.fst := by
  constructor
  · intro h hmem
    obtain ⟨td, htd, rfl⟩ := List.mem_map.mp hmem
    exact h _ (List.mem_map.mpr ⟨td, htd, rfl⟩) (UInt32.add_comm _ _)
  · intro h td' htd' heq
    obtain ⟨td, htd, rfl⟩ := List.mem_map.mp htd'
    have hid : td.1 + 1 = id + 1 := heq.trans (UInt32.add_comm 1 id)
    exact h (List.mem_map.mpr ⟨td, htd, (UInt32.add_left_inj 1).mp hid⟩)

/-- What the next step of a call writes: nothing, or the answer it returns. -/
theorem CallMove.written {s : Sys V β} {i : Nat} {call : Call V} {reply : Reply V} {next : Next V β}
    (h : CallMove cfg s i call reply next) :
    next.call.written = (call.returns cfg.cache.lazyThetaUpdates).map
      fun answer => answer.map fun td => (td.1 + 1, td.2) := by
  cases h with
  | deferred query K answer ids shard hlazy => simp [Call.returns, hlazy, submits, Call.written]
  | learned query K answer ids shard heager =>
    simp [Call.returns, heager, goesOnWith, Call.written]
  | landed id vec shard cache accepted => cases accepted <;> rfl
  | _ => rfl

theorem CallMove.proceed_of_returns {s : Sys V β} {i : Nat} {call : Call V} {reply : Reply V}
    {next : Next V β} (h : CallMove cfg s i call reply next) {answer : BackendAnswer}
    (hreturns : call.returns cfg.cache.lazyThetaUpdates = some answer) : reply = .proceed := by
  cases h with
  | answered => cases hreturns
  | fetched => cases hreturns
  | _ => rfl

/-- One step writes the tag exactly if it returns an answer with the id. -/
theorem unwritten_step {s s' : Sys V β} {l : Label V} {id : UInt32} {n : Nat}
    (hburied : id ∈ s.cache.deletedIds) (hs : Unwritten id n s) (h : step cfg s l = some s') :
    Unwritten id n s' ↔ Unreported cfg id n s l := by
  constructor
  · rintro hs' j answer hj rfl hreturns
    obtain ⟨call, hcall, hret⟩ := Option.bind_eq_some_iff.mp hreturns
    cases move_of_step h with
    | call i reply call' next hcall' hmove =>
      rw [hcall] at hcall'
      obtain rfl := Option.some.inj hcall'
      -- the call that returns writes its answer to the caller
      have hwritten := hmove.written
      rw [hret, Option.map_some] at hwritten
      have hnew : (s.afterCall j next).calls[j]? = some next.call :=
        Slots.getElem?_set_of_some hcall _
      exact (written_of_answer answer).mp (hs' j next.call _ hj hnew hwritten)
  · intro hP j call' written hj hcall' hwritten
    -- an old result, a hit of a new search, or a call that has just moved
    rcases calls_step h hcall' with hold | ⟨rfl, hbegins⟩ | ⟨reply, call, next, rfl, hcall, hmove, rfl⟩
    · exact hs j call' written hj hold hwritten
    · cases hbegins with
      | search sorters query K resSize =>
        cases hlook : (s.cache.lookup cfg.cache sorters query K resSize).2 with
        | none =>
          rw [hlook] at hwritten
          cases hwritten
        | some hit =>
          rw [hlook] at hwritten
          obtain rfl := Option.some.inj hwritten
          intro td htd
          obtain ⟨hd, hmem, rfl⟩ := List.mem_map.mp htd
          -- a hit leaves out the tombstoned ids
          exact not_mem_hit_of_buried (Cache.lookup_hit hlook) hburied hd hmem
      | insert => cases hwritten
      | remove => cases hwritten
    · rw [hmove.written, Option.map_eq_some_iff] at hwritten
      obtain ⟨answer, hret, rfl⟩ := hwritten
      have hreply := hmove.proceed_of_returns hret
      exact (written_of_answer answer).mpr
        (hP j answer hj (by rw [hreply]) (by rw [hcall]; exact hret))

/-- After a remove of `id` has returned and as long as no insert of it begins,
    the searches started since write its tag if and only if one of them returns
    a backend's answer that reports the id. -/
theorem unwritten_always_iff {s t : Sys V β} {id : UInt32} {labels : List (Label V)}
    (hremoved : RemovedSince cfg id s) (hinsert : ∀ vec, Label.insert id vec ∉ labels)
    (hrun : Traces.run (step cfg) s labels = some t) :
    Traces.Always (step cfg) (Unwritten id s.calls.length) s labels ↔
      Traces.Along (step cfg) (Unreported cfg id s.calls.length) s labels := by
  refine Traces.always_iff_along (J := fun s => id ∈ s.cache.deletedIds)
    (Q := fun _ l => ∀ vec, l ≠ Label.insert id vec)
    (fun _ _ _ hburied hQ hstep => buried_step hstep hburied hQ)
    (fun _ _ _ hburied _ hs hstep => unwritten_step hburied hs hstep) hrun
    (Traces.along_of_forall fun _ hl vec heq => hinsert vec (heq ▸ hl))
    (buried_of_removedSince hremoved) ?_
  -- at the start no call from this index on exists
  intro j call written hj hcall
  rw [List.getElem?_eq_none hj] at hcall
  cases hcall

/-! ## A backend without updates -/

/-- The state right after a remove, reached by a run that is given in three
    parts. -/
theorem removedSince_of_runs {s₀ : Sys V β} {id : UInt32} {i : Nat} {before after : List (Label V)}
    {backend : β} {radius threads : Nat} {alpha : ℚ} {s : Sys V β}
    (hbefore : Traces.run (step cfg) (init cfg backend radius alpha threads) before = some s₀)
    (hburying : s₀.calls[i]? = some (.burying id))
    (hafter : Traces.run (step cfg) s₀ (.call i .proceed :: after) = some s)
    (hinsert : ∀ vec, Label.insert id vec ∉ after)
    (hreturned : s.calls[i]? = some (.removeReturned id)) : RemovedSince cfg id s := by
  obtain ⟨s₁, hstep, hrun⟩ := Traces.run_cons.mp hafter
  exact ⟨i, s₀, s₁, after, ⟨backend, radius, alpha, threads, before, hbefore⟩, hburying, hstep, hrun,
    hinsert, hreturned⟩

/-- The search after the remove, which misses. -/
def missAfterRemoval : List (Label Nat) :=
  .search stableSorters 0 1 0 :: missLabels 1 [(7, .fin 3)] false

theorem soloRemoval :
    ∃ s t : Sys Nat Shelf, RemovedSince soloSystem 7 s ∧ s.calls.length = 1 ∧
      Traces.run (step soloSystem) s missAfterRemoval = some t ∧
      t.calls[1]? = some (.missReturned 0 1 [(7, .fin 3)]) := by
  have hruns : (Traces.run (step soloSystem) (shelfStart soloSystem [(7, 3)])
      ((removeLabels 0 7 3 1).take 3)).any (fun s₀ =>
        decide (s₀.calls[0]? = some (.burying 7)) &&
        (Traces.run (step soloSystem) s₀ (.call 0 .proceed :: (removeLabels 0 7 3 1).drop 4)).any
          fun s => decide (s.calls[0]? = some (.removeReturned 7)) &&
            (decide (s.calls.length = 1) &&
              (Traces.run (step soloSystem) s missAfterRemoval).any fun t =>
                decide (t.calls[1]? = some (.missReturned 0 1 [(7, .fin 3)])))) = true := by
    decide +kernel
  obtain ⟨s₀, hbefore, h₀⟩ := Traces.exists_run hruns
  obtain ⟨hburying, h₁⟩ := Bool.and_eq_true_iff.mp h₀
  obtain ⟨s, hafter, h₂⟩ := Traces.exists_run h₁
  obtain ⟨hreturned, h₃⟩ := Bool.and_eq_true_iff.mp h₂
  obtain ⟨hlength, h₄⟩ := Bool.and_eq_true_iff.mp h₃
  obtain ⟨t, hrun, hmiss⟩ := Traces.exists_run h₄
  exact ⟨s, t, removedSince_of_runs hbefore (of_decide_eq_true hburying) hafter
    (fun vec => by simp [removeLabels]) (of_decide_eq_true hreturned), of_decide_eq_true hlength, hrun,
    of_decide_eq_true hmiss⟩

theorem not_insert_missAfterRemoval (id : UInt32) (vec : Nat) :
    Label.insert id vec ∉ missAfterRemoval := by
  simp [missAfterRemoval, missLabels]

/-- The equivalence on that run. -/
theorem unwritten_always_iff_solo :
    ∃ s : Sys Nat Shelf, RemovedSince soloSystem 7 s ∧
      (Traces.Always (step soloSystem) (Unwritten 7 s.calls.length) s missAfterRemoval ↔
        Traces.Along (step soloSystem) (Unreported soloSystem 7 s.calls.length) s
          missAfterRemoval) := by
  obtain ⟨s, t, hremoved, _, hrun, _⟩ := soloRemoval
  exact ⟨s, hremoved, unwritten_always_iff hremoved (not_insert_missAfterRemoval 7) hrun⟩

/-- A backend that does not take updates still has the vector and reports it:
    the search that starts after the remove writes its tag 8. -/
theorem removed_id_is_written :
    ∃ (s t : Sys Nat Shelf) (labels : List (Label Nat)), RemovedSince soloSystem 7 s ∧
      (∀ vec, Label.insert 7 vec ∉ labels) ∧ Traces.run (step soloSystem) s labels = some t ∧
      ¬ Unwritten 7 s.calls.length t := by
  obtain ⟨s, t, hremoved, hlength, hrun, hmiss⟩ := soloRemoval
  refine ⟨s, t, missAfterRemoval, hremoved, not_insert_missAfterRemoval 7, hrun, fun h => ?_⟩
  exact h 1 _ [(8, .fin 3)] (le_of_eq hlength) hmiss rfl (8, .fin 3) List.mem_cons_self rfl

end Sys

end QvCache
