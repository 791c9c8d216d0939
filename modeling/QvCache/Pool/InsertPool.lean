/-
  QvCache.Pool.InsertPool

  InsertThreadPool (src/insert_thread_pool.cpp) as a labelled transition
  system: worker threads, callers of `submit` and `wait_idle`, and the
  destructor, one step at a time and in any order.

  The lock sections of `submit`, of a worker taking a task and of the
  destructor have nothing in them that waits, so each is one step, enabled
  while `mtx` is free.  Outside the lock every access is a step of its own: the
  steps of a task, the decrement of `inflight`, each notification.  `wait_idle`
  holds `mtx` from one step to the next, since evaluating its predicate and
  going to sleep are apart.  A thread asleep on a condition variable may wake
  at any time.

  `submitted`, `started`, `completed` and `log` record what happened; no step
  depends on them.
-/

import QvCache.System.Machine

namespace QvCache

/-! ## Tasks -/

/-- A step of a task, with what it is given. -/
inductive TaskStep (V : Type) where
  | fetch (ids : List UInt32)
  | insertPoint (shard : Nat) (id : UInt32)
  | updateTheta (query : V) (K : Nat) (queryDistance : Double)
  | freeQuery (query : V)
deriving DecidableEq

variable {V : Type}

/-- The lambda that `submit` queues: the task function, then the theta update
    if the pool has one, then the query is freed. -/
def Task.steps (hasThetaUpdate : Bool) (task : Task V) : List (TaskStep V) :=
  .fetch task.toBeInserted :: task.toBeInserted.map (.insertPoint task.shard) ++
    match task.query with
    | none => []
    | some query =>
      if hasThetaUpdate then [.updateTheta query task.K task.queryDistance, .freeQuery query]
      else [.freeQuery query]

/-- The steps that may throw.  `insert_point` does so for tag 0 only, which is
    `1 + id` for the largest id. -/
def TaskStep.mayThrow : TaskStep V → Bool
  | .fetch _ => true
  | .insertPoint _ id => decide (1 + id = 0)
  | .updateTheta _ _ _ => true
  | .freeQuery _ => false

/-- The steps that cannot return. -/
def TaskStep.mustThrow : TaskStep V → Bool
  | .insertPoint _ id => decide (1 + id = 0)
  | _ => false

/-! ## Threads -/

/-- Where a worker is in its loop. -/
inductive Worker (V : Type) where
  /-- About to take `mtx` and look at the queue. -/
  | idle
  /-- In `cv.wait`. -/
  | asleep
  /-- In `task()`, with the steps that are left. -/
  | running (n : Nat) (rest : List (TaskStep V))
  /-- `task()` has returned, `inflight` still counts it. -/
  | finished
  /-- Before `idle_cv.notify_all()`. -/
  | notifying
  /-- The thread function has returned. -/
  | exited
deriving DecidableEq

/-- `cv.notify_all()` for one worker. -/
def Worker.woken : Worker V → Worker V
  | .asleep => .idle
  | worker => worker

def Worker.isAsleep : Worker V → Bool
  | .asleep => true
  | _ => false

/-- A call of `submit` or `wait_idle`.  `before` is the number of tasks that
    had been submitted when `wait_idle` was called. -/
inductive PoolCall where
  /-- `submit` before `cv.notify_one()`. -/
  | notifying
  | submitReturned
  /-- `wait_idle` wants `mtx`. -/
  | entering (before : Nat)
  /-- It holds `mtx`, before it evaluates the predicate. -/
  | holding (before : Nat)
  /-- The predicate was false; it still holds `mtx`. -/
  | refused (before : Nat)
  /-- In the wait set of `idle_cv`. -/
  | asleep (before : Nat)
  | waitReturned (before : Nat)
deriving DecidableEq

def PoolCall.holdsMtx : PoolCall → Bool
  | .holding _ => true
  | .refused _ => true
  | _ => false

/-- `idle_cv.notify_all()` for one call: whoever is in the wait set leaves it. -/
def PoolCall.woken : PoolCall → PoolCall
  | .asleep before => .entering before
  | call => call

/-- Where the destructor is. -/
inductive Destructor where
  | notCalled
  /-- `stop` is set, before `cv.notify_all()`. -/
  | stopping
  /-- Joining the worker at this position. -/
  | joining (w : Nat)
  | returned
deriving DecidableEq

/-! ## The pool -/

structure InsertPool (V : Type) where
  tasks : List (Nat × Task V)
  inflight : Nat
  stop : Bool
  workers : List (Worker V)
  calls : List PoolCall
  destructor : Destructor
  /-- An exception has left a thread function: `std::terminate`. -/
  terminated : Bool
  submitted : List (Task V)
  started : List Nat
  completed : List Nat
  log : List (Nat × TaskStep V)

inductive PoolLabel (V : Type) where
  /-- `submit` up to the end of its lock section. -/
  | submit (task : Task V)
  /-- `cv.notify_one()` of call `i`; `w` is the worker it wakes, if one sleeps. -/
  | notifyOne (i : Nat) (w : Option Nat)
  | waitIdle
  | lock (i : Nat)
  | evaluate (i : Nat)
  | sleep (i : Nat)
  /-- A waiter wakes without a notification. -/
  | wake (i : Nat)
  /-- A worker takes `mtx`: a task, the end, or `cv.wait`. -/
  | take (w : Nat)
  | wakeWorker (w : Nat)
  /-- The next step of the task of worker `w`. -/
  | act (w : Nat) (threw : Bool)
  | finish (w : Nat)
  | decrement (w : Nat)
  | notifyAll (w : Nat)
  | destroy
  | notifyStop
  | join

namespace InsertPool

def init (threadCount : Nat) : InsertPool V where
  tasks := []
  inflight := 0
  stop := false
  workers := List.replicate threadCount .idle
  calls := []
  destructor := .notCalled
  terminated := false
  submitted := []
  started := []
  completed := []
  log := []

/-- Nobody holds `mtx`. -/
def mtxFree (s : InsertPool V) : Bool := s.calls.all fun call => !call.holdsMtx

/-- The predicate of `wait_idle`. -/
def isIdle (s : InsertPool V) : Bool := s.tasks.isEmpty && decide (s.inflight = 0)

def setWorker (s : InsertPool V) (w : Nat) (worker : Worker V) : InsertPool V :=
  { s with workers := s.workers.set w worker }

def setCall (s : InsertPool V) (i : Nat) (call : PoolCall) : InsertPool V :=
  { s with calls := s.calls.set i call }

/-- The lock section of `submit`. -/
def enqueue (s : InsertPool V) (task : Task V) : InsertPool V :=
  { s with
    tasks := s.tasks ++ [(s.submitted.length, task)]
    submitted := s.submitted ++ [task]
    calls := s.calls ++ [.notifying] }

/-- A worker pops a task and counts it, both under `mtx`. -/
def pop (hasThetaUpdate : Bool) (s : InsertPool V) (w n : Nat) (task : Task V)
    (rest : List (Nat × Task V)) : InsertPool V :=
  { s with
    tasks := rest
    inflight := s.inflight + 1
    workers := s.workers.set w (.running n (task.steps hasThetaUpdate))
    started := s.started ++ [n] }

/-- A worker has done a step of its task. -/
def perform (s : InsertPool V) (w n : Nat) (a : TaskStep V) (rest : List (TaskStep V)) :
    InsertPool V :=
  { s with workers := s.workers.set w (.running n rest), log := s.log ++ [(n, a)] }

/-- `task()` has returned. -/
def complete (s : InsertPool V) (w n : Nat) : InsertPool V :=
  { s with workers := s.workers.set w .finished, completed := s.completed ++ [n] }

/-- What a worker does once it has `mtx`. -/
def takeStep (hasThetaUpdate : Bool) (s : InsertPool V) (w : Nat) : InsertPool V :=
  match s.tasks with
  -- a queued task goes first, even while the pool is stopping
  | (n, task) :: rest => s.pop hasThetaUpdate w n task rest
  | [] => if s.stop then s.setWorker w .exited else s.setWorker w .asleep

/-- `idle_cv.notify_all()`. -/
def wakeWaiters (s : InsertPool V) : InsertPool V := { s with calls := s.calls.map .woken }

/-- `cv.notify_all()`. -/
def wakeWorkers (s : InsertPool V) : InsertPool V := { s with workers := s.workers.map .woken }

/-- The successor under a label, or `none` where the label is not enabled.  A
    pool that is being destroyed is not called any more. -/
def step (hasThetaUpdate : Bool) (s : InsertPool V) (l : PoolLabel V) :
    Option (InsertPool V) :=
  if s.terminated then none
  else
    match l with
    | .submit task =>
      if s.mtxFree ∧ s.destructor = .notCalled then some (s.enqueue task) else none
    | .notifyOne i w =>
      match s.calls[i]?, w with
      -- one of the sleeping workers, whichever the system picks
      | some .notifying, some w =>
        match s.workers[w]? with
        | some .asleep => some ((s.setCall i .submitReturned).setWorker w .idle)
        | _ => none
      -- nobody sleeps, the notification is lost
      | some .notifying, none =>
        if s.workers.any Worker.isAsleep then none else some (s.setCall i .submitReturned)
      | _, _ => none
    | .waitIdle =>
      if s.destructor = .notCalled then
        some { s with calls := s.calls ++ [.entering s.submitted.length] }
      else none
    | .lock i =>
      match s.calls[i]? with
      -- `idle_cv.wait` evaluates its predicate first, with `mtx` held
      | some (.entering before) => if s.mtxFree then some (s.setCall i (.holding before)) else none
      | _ => none
    | .evaluate i =>
      match s.calls[i]? with
      | some (.holding before) =>
        some (s.setCall i (if s.isIdle then .waitReturned before else .refused before))
      | _ => none
    | .sleep i =>
      match s.calls[i]? with
      | some (.refused before) => some (s.setCall i (.asleep before))
      | _ => none
    | .wake i =>
      match s.calls[i]? with
      -- a spurious wake-up: back to `mtx`, then the predicate again
      | some (.asleep before) => some (s.setCall i (.entering before))
      | _ => none
    | .take w =>
      match s.workers[w]? with
      -- the predicate of `cv.wait`, the test for the end and the pop share one lock
      | some .idle => if s.mtxFree then some (s.takeStep hasThetaUpdate w) else none
      | _ => none
    | .wakeWorker w =>
      match s.workers[w]? with
      | some .asleep => some (s.setWorker w .idle)
      | _ => none
    | .act w threw =>
      match s.workers[w]? with
      | some (.running n (a :: rest)) =>
        if threw then
          -- nothing catches it: neither the lambda nor the worker's loop
          if a.mayThrow then some { s with terminated := true } else none
        else if a.mustThrow then none
        else some (s.perform w n a rest)
      | _ => none
    | .finish w =>
      match s.workers[w]? with
      | some (.running n []) => some (s.complete w n)
      | _ => none
    | .decrement w =>
      match s.workers[w]? with
      -- without `mtx`, as is the notification below
      | some .finished =>
        some { s with inflight := s.inflight - 1, workers := s.workers.set w .notifying }
      | _ => none
    | .notifyAll w =>
      match s.workers[w]? with
      | some .notifying => some (s.wakeWaiters.setWorker w .idle)
      | _ => none
    | .destroy =>
      if s.mtxFree ∧ s.destructor = .notCalled then
        some { s with stop := true, destructor := .stopping }
      else none
    | .notifyStop =>
      if s.destructor = .stopping then some { s.wakeWorkers with destructor := .joining 0 } else none
    | .join =>
      match s.destructor with
      | .joining w =>
        match s.workers[w]? with
        -- past the last thread
        | none => some { s with destructor := .returned }
        | some .exited => some { s with destructor := .joining (w + 1) }
        -- `join` waits for this thread
        | some _ => none
      | _ => none

/-! ## The branches of a step -/

/-- The branches of `step`, with the conditions under which each is taken. -/
inductive Move (hasThetaUpdate : Bool) (s : InsertPool V) :
    PoolLabel V → InsertPool V → Prop where
  | submitted (task : Task V) (hfree : s.mtxFree = true) (halive : s.destructor = .notCalled) :
    Move hasThetaUpdate s (.submit task) (s.enqueue task)
  | notified (i w : Nat) (hcall : s.calls[i]? = some .notifying)
      (hw : s.workers[w]? = some .asleep) :
    Move hasThetaUpdate s (.notifyOne i (some w)) ((s.setCall i .submitReturned).setWorker w .idle)
  | unheard (i : Nat) (hcall : s.calls[i]? = some .notifying) :
    Move hasThetaUpdate s (.notifyOne i none) (s.setCall i .submitReturned)
  | entered (halive : s.destructor = .notCalled) :
    Move hasThetaUpdate s .waitIdle { s with calls := s.calls ++ [.entering s.submitted.length] }
  | locked (i before : Nat) (hcall : s.calls[i]? = some (.entering before))
      (hfree : s.mtxFree = true) :
    Move hasThetaUpdate s (.lock i) (s.setCall i (.holding before))
  | passed (i before : Nat) (hcall : s.calls[i]? = some (.holding before))
      (hidle : s.isIdle = true) :
    Move hasThetaUpdate s (.evaluate i) (s.setCall i (.waitReturned before))
  | refused (i before : Nat) (hcall : s.calls[i]? = some (.holding before))
      (hbusy : s.isIdle = false) :
    Move hasThetaUpdate s (.evaluate i) (s.setCall i (.refused before))
  | slept (i before : Nat) (hcall : s.calls[i]? = some (.refused before)) :
    Move hasThetaUpdate s (.sleep i) (s.setCall i (.asleep before))
  | woke (i before : Nat) (hcall : s.calls[i]? = some (.asleep before)) :
    Move hasThetaUpdate s (.wake i) (s.setCall i (.entering before))
  | popped (w n : Nat) (task : Task V) (rest : List (Nat × Task V))
      (hw : s.workers[w]? = some .idle) (htasks : s.tasks = (n, task) :: rest) :
    Move hasThetaUpdate s (.take w) (s.pop hasThetaUpdate w n task rest)
  | stopped (w : Nat) (hw : s.workers[w]? = some .idle) (htasks : s.tasks = [])
      (hstop : s.stop = true) :
    Move hasThetaUpdate s (.take w) (s.setWorker w .exited)
  | waited (w : Nat) (hw : s.workers[w]? = some .idle) (htasks : s.tasks = []) :
    Move hasThetaUpdate s (.take w) (s.setWorker w .asleep)
  | wokeWorker (w : Nat) (hw : s.workers[w]? = some .asleep) :
    Move hasThetaUpdate s (.wakeWorker w) (s.setWorker w .idle)
  | threw (w n : Nat) (a : TaskStep V) (rest : List (TaskStep V))
      (hw : s.workers[w]? = some (.running n (a :: rest))) (hmay : a.mayThrow = true) :
    Move hasThetaUpdate s (.act w true) { s with terminated := true }
  | performed (w n : Nat) (a : TaskStep V) (rest : List (TaskStep V))
      (hw : s.workers[w]? = some (.running n (a :: rest))) :
    Move hasThetaUpdate s (.act w false) (s.perform w n a rest)
  | completed (w n : Nat) (hw : s.workers[w]? = some (.running n [])) :
    Move hasThetaUpdate s (.finish w) (s.complete w n)
  | decremented (w : Nat) (hw : s.workers[w]? = some .finished) :
    Move hasThetaUpdate s (.decrement w)
      { s with inflight := s.inflight - 1, workers := s.workers.set w .notifying }
  | notifiedAll (w : Nat) (hw : s.workers[w]? = some .notifying) :
    Move hasThetaUpdate s (.notifyAll w) (s.wakeWaiters.setWorker w .idle)
  | destroyed (hfree : s.mtxFree = true) (halive : s.destructor = .notCalled) :
    Move hasThetaUpdate s .destroy { s with stop := true, destructor := .stopping }
  | stopNotified (hstopping : s.destructor = .stopping) :
    Move hasThetaUpdate s .notifyStop { s.wakeWorkers with destructor := .joining 0 }
  | joined (w : Nat) (hjoin : s.destructor = .joining w) (hw : s.workers[w]? = some .exited) :
    Move hasThetaUpdate s .join { s with destructor := .joining (w + 1) }
  | allJoined (w : Nat) (hjoin : s.destructor = .joining w) (hw : s.workers[w]? = none) :
    Move hasThetaUpdate s .join { s with destructor := .returned }

variable {hasThetaUpdate : Bool} {s s' : InsertPool V} {l : PoolLabel V}

theorem takeStep_move {w : Nat} (hw : s.workers[w]? = some .idle) :
    Move hasThetaUpdate s (.take w) (s.takeStep hasThetaUpdate w) := by
  unfold takeStep
  cases htasks : s.tasks with
  | nil =>
    dsimp only
    split_ifs with hstop
    · exact .stopped w hw htasks hstop
    · exact .waited w hw htasks
  | cons e rest => exact .popped w e.1 e.2 rest hw htasks

/-- Nothing runs after `std::terminate`. -/
theorem terminated_of_step (h : step hasThetaUpdate s l = some s') : s.terminated = false := by
  unfold step at h
  by_contra hterm
  rw [if_pos (Bool.not_eq_false _ ▸ hterm)] at h
  cases h

/-- A step is one of its branches. -/
theorem move_of_step (h : step hasThetaUpdate s l = some s') : Move hasThetaUpdate s l s' := by
  have hterm := terminated_of_step h
  unfold step at h
  rw [if_neg (Bool.not_eq_true _ ▸ hterm)] at h
  -- the enabled branches of the step, one label after the other
  cases l with
  | submit task =>
    dsimp only at h
    split_ifs at h with hguard
    obtain rfl := Option.some.inj h
    exact .submitted task hguard.1 hguard.2
  | notifyOne i w =>
    dsimp only at h
    split at h
    next w hcall =>
      split at h
      next hw =>
        obtain rfl := Option.some.inj h
        exact .notified i w hcall hw
      next => cases h
    next hcall =>
      split_ifs at h
      obtain rfl := Option.some.inj h
      exact .unheard i hcall
    next => cases h
  | waitIdle =>
    dsimp only at h
    split_ifs at h with halive
    obtain rfl := Option.some.inj h
    exact .entered halive
  | lock i =>
    dsimp only at h
    split at h
    next before hcall =>
      split_ifs at h with hfree
      obtain rfl := Option.some.inj h
      exact .locked i before hcall hfree
    next => cases h
  | evaluate i =>
    dsimp only at h
    split at h
    next before hcall =>
      obtain rfl := Option.some.inj h
      cases hidle : s.isIdle with
      | true => exact .passed i before hcall hidle
      | false => exact .refused i before hcall hidle
    next => cases h
  | sleep i =>
    dsimp only at h
    split at h
    next before hcall =>
      obtain rfl := Option.some.inj h
      exact .slept i before hcall
    next => cases h
  | wake i =>
    dsimp only at h
    split at h
    next before hcall =>
      obtain rfl := Option.some.inj h
      exact .woke i before hcall
    next => cases h
  | take w =>
    dsimp only at h
    split at h
    next hw =>
      split_ifs at h
      obtain rfl := Option.some.inj h
      exact takeStep_move hw
    next => cases h
  | wakeWorker w =>
    dsimp only at h
    split at h
    next hw =>
      obtain rfl := Option.some.inj h
      exact .wokeWorker w hw
    next => cases h
  | act w threw =>
    dsimp only at h
    split at h
    next n a rest hw =>
      cases threw with
      | true =>
        simp only [if_true] at h
        split_ifs at h with hmay
        obtain rfl := Option.some.inj h
        exact .threw w n a rest hw hmay
      | false =>
        simp only [Bool.false_eq_true, if_false] at h
        split_ifs at h
        obtain rfl := Option.some.inj h
        exact .performed w n a rest hw
    next => cases h
  | finish w =>
    dsimp only at h
    split at h
    next n hw =>
      obtain rfl := Option.some.inj h
      exact .completed w n hw
    next => cases h
  | decrement w =>
    dsimp only at h
    split at h
    next hw =>
      obtain rfl := Option.some.inj h
      exact .decremented w hw
    next => cases h
  | notifyAll w =>
    dsimp only at h
    split at h
    next hw =>
      obtain rfl := Option.some.inj h
      exact .notifiedAll w hw
    next => cases h
  | destroy =>
    dsimp only at h
    split_ifs at h with hguard
    obtain rfl := Option.some.inj h
    exact .destroyed hguard.1 hguard.2
  | notifyStop =>
    dsimp only at h
    split_ifs at h with hstopping
    obtain rfl := Option.some.inj h
    exact .stopNotified hstopping
  | join =>
    dsimp only at h
    split at h
    next w hjoin =>
      split at h
      next hw =>
        obtain rfl := Option.some.inj h
        exact .allJoined w hjoin hw
      next hw =>
        obtain rfl := Option.some.inj h
        exact .joined w hjoin hw
      next => cases h
    next => cases h

end InsertPool

end QvCache
