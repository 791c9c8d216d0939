/-
  QvCache.Pool.Wakeup

  When `wait_idle` can miss its wake-up.  A worker decrements `inflight` and
  notifies without holding `mtx`, so both may happen after a waiter has found
  its predicate false and before it is in the wait set of `idle_cv`.  The last
  `notify_all` is lost on that waiter; whether this ever happens is exactly
  what decides whether a waiter is left asleep for good.
-/

import QvCache.Lib.Slots
import QvCache.Pool.InsertPool

namespace QvCache

variable {V : Type}

/-- The call has found the predicate false and has not been woken since. -/
def PoolCall.waits : PoolCall → Bool
  | .refused _ => true
  | .asleep _ => true
  | _ => false

namespace InsertPool

/-- There is work left, or a worker that has yet to call `notify_all`. -/
def WakePending (s : InsertPool V) : Prop :=
  s.tasks ≠ [] ∨ s.inflight ≠ 0 ∨ .notifying ∈ s.workers

/-- No caller of `wait_idle` sleeps while nothing is left that would wake it. -/
def NoLostWaiter (s : InsertPool V) : Prop :=
  ∀ before, PoolCall.asleep before ∈ s.calls → s.WakePending

/-- The same for the callers that are about to sleep as well. -/
def NoDoomedWaiter (s : InsertPool V) : Prop :=
  ∀ call ∈ s.calls, call.waits = true → s.WakePending

/-- The notification is not the last one, or no caller is between evaluating
    its predicate and going to sleep. -/
def Heard (s : InsertPool V) : PoolLabel V → Prop
  | .notifyAll w =>
    (∃ before, PoolCall.refused before ∈ s.calls) →
      s.tasks ≠ [] ∨ s.inflight ≠ 0 ∨ ∃ w', w' ≠ w ∧ s.workers[w']? = some .notifying
  | _ => True

theorem NoDoomedWaiter.noLostWaiter {s : InsertPool V} (h : s.NoDoomedWaiter) : s.NoLostWaiter :=
  fun _ hmem => h _ hmem rfl

/-- The predicate is false exactly while there is work left. -/
theorem isIdle_eq_false_iff {s : InsertPool V} :
    s.isIdle = false ↔ s.tasks ≠ [] ∨ s.inflight ≠ 0 := by
  unfold isIdle
  rw [Bool.and_eq_false_iff]
  simp [List.isEmpty_eq_false_iff]

variable {hasThetaUpdate : Bool} {s s' : InsertPool V} {l : PoolLabel V}

/-- Only a `notify_all` uses up what is pending. -/
theorem wakePending_of_move (h : Move hasThetaUpdate s l s') (hl : ∀ w, l ≠ .notifyAll w)
    (hp : s.WakePending) : s'.WakePending := by
  -- a worker that moves had nothing to notify, so what is pending is another's
  have hworker : ∀ {w : Nat} {x y : Worker V}, s.workers[w]? = some x → Worker.notifying ≠ x →
      (s.setWorker w y).WakePending := by
    intro w x y hw hne
    exact hp.imp_right (Or.imp_right fun hmem => Slots.mem_set_of_ne hmem hw hne)
  cases h with
  | submitted task _ _ => exact Or.inl (List.append_ne_nil_of_right_ne_nil _ (List.cons_ne_nil _ _))
  | notified i w hcall hw => exact hworker hw nofun
  | unheard i hcall => exact hp
  | entered halive => exact hp
  | locked i before hcall hfree => exact hp
  | passed i before hcall hidle => exact hp
  | refused i before hcall hbusy => exact hp
  | slept i before hcall => exact hp
  | woke i before hcall => exact hp
  -- the task that leaves the queue is counted in the same step
  | popped w n task rest hw htasks => exact Or.inr (Or.inl (Nat.succ_ne_zero s.inflight))
  | stopped w hw htasks hstop => exact hworker hw nofun
  | waited w hw htasks => exact hworker hw nofun
  | wokeWorker w hw => exact hworker hw nofun
  | threw w n a rest hw hmay => exact hp
  | performed w n a rest hw => exact hworker hw nofun
  | completed w n hw => exact hworker hw nofun
  | decremented w hw =>
    -- the decrement is followed by a notification
    obtain ⟨hlt, _⟩ := List.getElem?_eq_some_iff.mp hw
    exact Or.inr (Or.inr (List.mem_set hlt _))
  | notifiedAll w hw => exact absurd rfl (hl w)
  | destroyed hfree halive => exact hp
  | stopNotified hstopping =>
    refine hp.imp_right (Or.imp_right fun hmem => ?_)
    exact List.mem_map.mpr ⟨.notifying, hmem, rfl⟩
  | joined w hjoin hw => exact hp
  | allJoined w hjoin hw => exact hp

/-- After a `notify_all`, pending is what was pending besides. -/
theorem wakePending_notifiedAll {w : Nat} (h : s.tasks ≠ [] ∨ s.inflight ≠ 0 ∨
    ∃ w', w' ≠ w ∧ s.workers[w']? = some .notifying) :
    (s.wakeWaiters.setWorker w .idle).WakePending := by
  refine h.imp_right (Or.imp_right ?_)
  rintro ⟨w', hne, hw'⟩
  refine List.mem_iff_getElem?.mpr ⟨w', ?_⟩
  show (s.workers.set w .idle)[w']? = _
  rw [List.getElem?_set_ne hne.symm]
  exact hw'

/-- A caller that waits has waited before, or has just found the pool busy. -/
theorem waiter_of_move (h : Move hasThetaUpdate s l s') {call : PoolCall} (hmem : call ∈ s'.calls)
    (hwaits : call.waits = true) :
    (∃ call' ∈ s.calls, call'.waits = true) ∨ s.isIdle = false := by
  -- a call that moves to a state that does not wait is not the one in question
  have hset : ∀ {i : Nat} {new : PoolCall}, call ∈ s.calls.set i new → new.waits = false →
      ∃ call' ∈ s.calls, call'.waits = true := by
    intro i new hmem hnew
    rcases List.mem_or_eq_of_mem_set hmem with hold | rfl
    · exact ⟨call, hold, hwaits⟩
    · rw [hwaits] at hnew
      cases hnew
  cases h with
  | submitted task _ _ =>
    rcases List.mem_append.mp hmem with hold | hnew
    · exact Or.inl ⟨call, hold, hwaits⟩
    · obtain rfl := List.mem_singleton.mp hnew
      cases hwaits
  | notified i w hcall hw => exact Or.inl (hset hmem rfl)
  | unheard i hcall => exact Or.inl (hset hmem rfl)
  | entered halive =>
    rcases List.mem_append.mp hmem with hold | hnew
    · exact Or.inl ⟨call, hold, hwaits⟩
    · obtain rfl := List.mem_singleton.mp hnew
      cases hwaits
  | locked i before hcall hfree => exact Or.inl (hset hmem rfl)
  | passed i before hcall hidle => exact Or.inl (hset hmem rfl)
  -- the only way into the wait: the predicate was false
  | refused i before hcall hbusy => exact Or.inr hbusy
  | slept i before hcall => exact Or.inl ⟨_, List.mem_of_getElem? hcall, rfl⟩
  | woke i before hcall => exact Or.inl (hset hmem rfl)
  | notifiedAll w hw =>
    obtain ⟨call', hold, rfl⟩ := List.mem_map.mp hmem
    refine Or.inl ⟨call', hold, ?_⟩
    -- waking changes no call that does not sleep
    cases call' <;> first | exact hwaits | rfl
  | popped w n task rest hw htasks => exact Or.inl ⟨call, hmem, hwaits⟩
  | stopped w hw htasks hstop => exact Or.inl ⟨call, hmem, hwaits⟩
  | waited w hw htasks => exact Or.inl ⟨call, hmem, hwaits⟩
  | wokeWorker w hw => exact Or.inl ⟨call, hmem, hwaits⟩
  | threw w n a rest hw hmay => exact Or.inl ⟨call, hmem, hwaits⟩
  | performed w n a rest hw => exact Or.inl ⟨call, hmem, hwaits⟩
  | completed w n hw => exact Or.inl ⟨call, hmem, hwaits⟩
  | decremented w hw => exact Or.inl ⟨call, hmem, hwaits⟩
  | destroyed hfree halive => exact Or.inl ⟨call, hmem, hwaits⟩
  | stopNotified hstopping => exact Or.inl ⟨call, hmem, hwaits⟩
  | joined w hjoin hw => exact Or.inl ⟨call, hmem, hwaits⟩
  | allJoined w hjoin hw => exact Or.inl ⟨call, hmem, hwaits⟩

/-- A call that waits right after a `notify_all` was about to sleep. -/
theorem refused_of_woken {call : PoolCall} (h : call.woken.waits = true) :
    ∃ before, call = .refused before := by
  cases call with
  | refused before => exact ⟨before, rfl⟩
  | _ => cases h

/-- A notification that is heard dooms nobody. -/
theorem noDoomedWaiter_of_move (h : Move hasThetaUpdate s l s') (hs : s.NoDoomedWaiter)
    (hheard : s.Heard l) : s'.NoDoomedWaiter := by
  intro call hmem hwaits
  by_cases hl : ∃ w, l = .notifyAll w
  · -- the waiters that are asleep leave; those about to sleep rely on `Heard`
    obtain ⟨w, rfl⟩ := hl
    cases h with
    | notifiedAll w hw =>
      obtain ⟨call', hold, rfl⟩ := List.mem_map.mp hmem
      obtain ⟨before, rfl⟩ := refused_of_woken hwaits
      exact wakePending_notifiedAll (hheard ⟨before, hold⟩)
  · have hl' : ∀ w, l ≠ .notifyAll w := fun w heq => hl ⟨w, heq⟩
    refine wakePending_of_move h hl' ?_
    rcases waiter_of_move h hmem hwaits with ⟨call', hold, hwaits'⟩ | hbusy
    · exact hs call' hold hwaits'
    · exact (isIdle_eq_false_iff.mp hbusy).imp_right Or.inl

/-- A notification that is not heard: the caller it misses sleeps for good as
    soon as it goes on. -/
theorem lost_of_not_heard (h : step hasThetaUpdate s l = some s') (hmiss : ¬ s.Heard l) :
    ∃ i t, step hasThetaUpdate s' (.sleep i) = some t ∧ ¬ t.NoLostWaiter := by
  have hmove := move_of_step h
  have hterm := terminated_of_step h
  cases hmove with
  | notifiedAll w hw =>
    simp only [Heard, Classical.not_imp, not_or, not_not, not_exists, not_and] at hmiss
    obtain ⟨⟨before, hcall⟩, htasks, hinflight, hothers⟩ := hmiss
    obtain ⟨i, hi⟩ := List.mem_iff_getElem?.mp hcall
    have hi' : (s.wakeWaiters.setWorker w .idle).calls[i]? = some (.refused before) := by
      show (s.calls.map PoolCall.woken)[i]? = _
      rw [List.getElem?_map, hi]
      rfl
    -- the caller goes to sleep: that is all it needs
    refine ⟨i, (s.wakeWaiters.setWorker w .idle).setCall i (.asleep before), ?_, ?_⟩
    · have hterm' : (s.wakeWaiters.setWorker w .idle).terminated = false := hterm
      simp only [step, hterm', hi', Bool.false_eq_true, if_false]
    · intro hall
      obtain ⟨hlt, _⟩ := List.getElem?_eq_some_iff.mp hi'
      rcases hall before (List.mem_set hlt _) with h | h | h
      · exact h htasks
      · exact h hinflight
      · -- every other worker has nothing to notify, and this one has done it
        obtain ⟨w', hw'⟩ := List.mem_iff_getElem?.mp h
        have hset : (s.workers.set w .idle)[w']? = some .notifying := hw'
        by_cases hne : w = w'
        · rw [← hne, Slots.getElem?_set_of_some hw] at hset
          cases hset
        · rw [List.getElem?_set_ne hne] at hset
          exact hothers w' (Ne.symm hne) hset
  | _ => exact absurd trivial hmiss

theorem noDoomedWaiter_init (threadCount : Nat) : (init threadCount : InsertPool V).NoDoomedWaiter :=
  fun _ hmem _ => absurd hmem List.not_mem_nil

/-- While every last notification is heard, no caller of `wait_idle` is left
    asleep; a last notification that is not heard leaves one asleep. -/
theorem no_lost_waiter_of_heard (threadCount : Nat) :
    (∀ ls : List (PoolLabel V),
      Traces.Along (step hasThetaUpdate) Heard (init threadCount) ls →
      Traces.Always (step hasThetaUpdate) NoLostWaiter (init threadCount) ls) ∧
    ∀ s : InsertPool V, Traces.Reachable (step hasThetaUpdate) (init threadCount) s →
      ∀ l s', step hasThetaUpdate s l = some s' → ¬ s.Heard l →
        ∃ i t, step hasThetaUpdate s' (.sleep i) = some t ∧ ¬ t.NoLostWaiter := by
  constructor
  · intro ls halong
    have hdoomed := Traces.always_of_along
      (fun s l s' hs hheard hstep => noDoomedWaiter_of_move (move_of_step hstep) hs hheard)
      (noDoomedWaiter_init threadCount) halong
    exact hdoomed.mono fun s hs => hs.noLostWaiter
  · intro s _ l s' hstep hmiss
    exact lost_of_not_heard hstep hmiss

/-- One worker finishes its only task while a caller goes to sleep. -/
def lateSleeper : List (PoolLabel Nat) :=
  [.submit ⟨0, [7], 1, 0, none, 0⟩, .take 0, .act 0 false, .act 0 false, .finish 0,
    .waitIdle, .lock 1, .evaluate 1, .decrement 0, .notifyAll 0, .sleep 1]

theorem waiter_is_lost :
    ∃ t, Traces.run (step true) (init 1) lateSleeper = some t ∧ ¬ t.NoLostWaiter := by
  have hruns : (Traces.run (step true) (init 1) lateSleeper).any (fun t =>
      decide (PoolCall.asleep 1 ∈ t.calls ∧ t.tasks.length = 0 ∧ t.inflight = 0 ∧
        .notifying ∉ t.workers)) = true := by decide +kernel
  obtain ⟨t, hrun, htest⟩ := Traces.exists_run hruns
  obtain ⟨hasleep, htasks, hinflight, hworkers⟩ := of_decide_eq_true htest
  refine ⟨t, hrun, fun h => ?_⟩
  rcases h 1 hasleep with h | h | h
  · exact h (List.length_eq_zero_iff.mp htasks)
  · exact h hinflight
  · exact hworkers h

end InsertPool

end QvCache
