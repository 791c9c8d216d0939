/-
  QvCache.Pool.Failure

  What a failing task does to the pool.  Neither the lambda that `submit`
  queues nor the loop of a worker catches anything, so an exception from the
  backend, from `insert_point` or from the theta update leaves the thread
  function, and with it the program ends: the task stays counted, and whatever
  is in the queue stays there.
-/

import QvCache.Pool.Ledger

namespace QvCache

variable {V : Type}

/-- A step of a task fails. -/
def PoolLabel.Throws : PoolLabel V → Prop
  | .act _ threw => threw = true
  | _ => False

namespace InsertPool

variable {hasThetaUpdate : Bool} {s s' : InsertPool V} {l : PoolLabel V}

/-- No exception has left a thread function. -/
def Contained (s : InsertPool V) : Prop := s.terminated = false

/-- Only a failing step ends the program. -/
theorem contained_iff_of_move (h : Move hasThetaUpdate s l s') (hs : s.Contained) :
    s'.Contained ↔ ¬ l.Throws := by
  cases h with
  | threw w n a rest hw hmay =>
    constructor
    · intro hcon
      cases hcon
    · intro hno
      exact absurd rfl hno
  -- a step that did not throw is no failure
  | performed w n a rest hw => exact iff_of_true hs Bool.false_ne_true
  | _ => exact iff_of_true hs id

/-- An insertion fails for tag 0, that is for the largest id, and for no other. -/
theorem insertPoint_throws_iff {w n shard : Nat} {id : UInt32} {rest : List (TaskStep V)}
    {threw : Bool} (hw : s.workers[w]? = some (.running n (.insertPoint shard id :: rest)))
    (h : step hasThetaUpdate s (.act w threw) = some s') : threw = true ↔ 1 + id = 0 := by
  have hterm := terminated_of_step h
  simp only [step, hterm, hw, Bool.false_eq_true, if_false, TaskStep.mayThrow,
    TaskStep.mustThrow, decide_eq_true_eq] at h
  cases threw with
  | true =>
    simp only [if_true] at h
    split_ifs at h with hid
    exact iff_of_true rfl hid
  | false =>
    simp only [Bool.false_eq_true, if_false] at h
    split_ifs at h with hid
    exact iff_of_false Bool.false_ne_true hid

/-- After it nothing happens any more. -/
theorem step_eq_none_of_not_contained (h : ¬ s.Contained) (l : PoolLabel V) :
    step hasThetaUpdate s l = none := by
  cases hstep : step hasThetaUpdate s l with
  | none => rfl
  | some s' => exact absurd (terminated_of_step hstep) h

/-- A failing step leaves the queue, the count and the worker as they were, and
    no thread takes another step. -/
theorem stuck_of_throws (h : step hasThetaUpdate s l = some s') (hl : l.Throws) :
    ¬ s'.Contained ∧ s'.tasks = s.tasks ∧ s'.inflight = s.inflight ∧
      s'.workers = s.workers ∧ s'.completed = s.completed ∧
      ∀ l', step hasThetaUpdate s' l' = none := by
  have hmove := move_of_step h
  have hnot : ¬ s'.Contained := fun hcon =>
    (contained_iff_of_move hmove (terminated_of_step h)).mp hcon hl
  cases hmove with
  -- only the flag is written: nothing on the way out touches the pool
  | threw w n a rest hw hmay =>
    exact ⟨hnot, rfl, rfl, rfl, rfl, step_eq_none_of_not_contained hnot⟩
  | performed w n a rest hw => cases hl
  | _ => exact absurd hl id

/-- Failures are contained exactly in the runs without one: a step of a task
    that throws ends the program, with the task still counted, the queue as it
    was and no thread left that takes a step. -/
theorem contained_iff_no_throw (threadCount : Nat) :
    (∀ (ls : List (PoolLabel V)) (t : InsertPool V),
      Traces.run (step hasThetaUpdate) (init threadCount) ls = some t →
      (Traces.Always (step hasThetaUpdate) Contained (init threadCount) ls ↔
        Traces.Along (step hasThetaUpdate) (fun _ l => ¬ l.Throws) (init threadCount) ls)) ∧
    ∀ (s s' : InsertPool V) (l : PoolLabel V),
      Traces.Reachable (step hasThetaUpdate) (init threadCount) s →
      step hasThetaUpdate s l = some s' → l.Throws →
        ¬ s'.Contained ∧ s'.tasks = s.tasks ∧ s'.inflight = s.inflight ∧
          s'.workers = s.workers ∧ s'.completed = s.completed ∧
          ∀ l', step hasThetaUpdate s' l' = none := by
  constructor
  · intro ls t hrun
    exact Traces.always_iff_along (J := fun _ => True) (fun _ _ _ _ _ _ => trivial)
      (fun s l s' _ _ hs hstep => contained_iff_of_move (move_of_step hstep) hs) hrun
      (Traces.along_true _ _) trivial rfl
  · intro s s' l _ hstep hl
    exact stuck_of_throws hstep hl

/-- The backend throws on the first of two tasks. -/
def throwingFetch : List (PoolLabel Nat) :=
  [.submit ⟨0, [7], 1, 0, some 5, 0⟩, .submit ⟨0, [8], 1, 0, none, 1⟩, .take 0, .act 0 true]

/-- The second task stays in the queue for good. -/
theorem failure_not_contained :
    ∃ t, Traces.run (step true) (init 1) throwingFetch = some t ∧ ¬ t.Contained ∧
      t.tasks = [(1, ⟨0, [8], 1, 0, none, 1⟩)] ∧ t.inflight = 1 ∧ t.completed = [] ∧
      ∀ l, step true t l = none := by
  have hruns : (Traces.run (step true) (init 1) throwingFetch).any (fun t =>
      decide (t.terminated = true ∧ t.tasks = [(1, ⟨0, [8], 1, 0, none, 1⟩)] ∧ t.inflight = 1 ∧
        t.completed = [])) = true := by decide +kernel
  obtain ⟨t, hrun, htest⟩ := Traces.exists_run hruns
  obtain ⟨hterm, htasks, hinflight, hcompleted⟩ := of_decide_eq_true htest
  have hnot : ¬ t.Contained := fun hcon => Bool.false_ne_true (hcon.symm.trans hterm)
  exact ⟨t, hrun, hnot, htasks, hinflight, hcompleted, step_eq_none_of_not_contained hnot⟩

end InsertPool

end QvCache
