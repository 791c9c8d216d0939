/-
  QvCache.Pool.Ledger

  What becomes of the tasks.  A task that was submitted is in the queue, with
  one worker, or completed, and its number says where: the numbers that were
  taken and those in the queue are, one after the other, `0 .. submitted`.

  The invariant comes in four parts, each kept by every step:

    * `Accounts`: the numbers, and `inflight`;
    * `Records`: the steps done for each task, and those that are left;
    * `Waits`: what a call of `wait_idle` that has returned may rely on;
    * `Closing`: how far the destructor has come.
-/

import QvCache.Pool.Wakeup

namespace QvCache

variable {V : Type}

/-- The task a worker runs. -/
def Worker.task? : Worker V → Option Nat
  | .running n _ => some n
  | _ => none

/-- `task()` has returned and `inflight` still counts it. -/
def Worker.isFinished : Worker V → Bool
  | .finished => true
  | _ => false

/-- The number of submitted tasks a call of `wait_idle` knows of. -/
def PoolCall.before? : PoolCall → Option Nat
  | .entering before => some before
  | .holding before => some before
  | .refused before => some before
  | .asleep before => some before
  | .waitReturned before => some before
  | _ => none

def TaskStep.isFree : TaskStep V → Bool
  | .freeQuery _ => true
  | _ => false

/-- A task frees the query copy it was given, and no other. -/
theorem countP_isFree_steps (hasThetaUpdate : Bool) (task : Task V) :
    (task.steps hasThetaUpdate).countP TaskStep.isFree = if task.query.isSome then 1 else 0 := by
  have hinserts : (task.toBeInserted.map (TaskStep.insertPoint (V := V) task.shard)).countP
      TaskStep.isFree = 0 := by
    rw [List.countP_eq_zero]
    intro a ha
    obtain ⟨id, _, rfl⟩ := List.mem_map.mp ha
    exact Bool.false_ne_true
  unfold Task.steps
  rw [List.countP_append, List.countP_cons_of_neg Bool.false_ne_true, hinserts]
  cases task.query with
  | none => rfl
  | some query => cases hasThetaUpdate <;> rfl

namespace InsertPool

def queuedIds (s : InsertPool V) : List Nat := s.tasks.map Prod.fst

def runningIds (s : InsertPool V) : List Nat := s.workers.filterMap Worker.task?

/-- The steps that have been done for task `n`, in order. -/
def done (s : InsertPool V) (n : Nat) : List (TaskStep V) :=
  (s.log.filter fun e => decide (e.1 = n)).map Prod.snd

variable {hasThetaUpdate : Bool} {s s' : InsertPool V} {l : PoolLabel V}

/-! ## The numbers -/

structure Accounts (s : InsertPool V) : Prop where
  order : s.started ++ s.queuedIds = List.range s.submitted.length
  queued : ∀ e ∈ s.tasks, s.submitted[e.1]? = some e.2
  taken : (s.runningIds ++ s.completed).Perm s.started
  counted : s.inflight = s.runningIds.length + s.workers.countP Worker.isFinished

theorem runningIds_init (threadCount : Nat) : (init threadCount : InsertPool V).runningIds = [] := by
  refine List.filterMap_eq_nil_iff.mpr fun x hx => ?_
  rw [List.eq_of_mem_replicate hx]
  rfl

theorem accounts_init (threadCount : Nat) : Accounts (init threadCount : InsertPool V) where
  order := rfl
  queued _ h := absurd h List.not_mem_nil
  taken := by
    rw [runningIds_init]
    exact List.Perm.refl _
  counted := by
    have hnone : (List.replicate threadCount (Worker.idle : Worker V)).countP Worker.isFinished = 0 :=
      List.countP_eq_zero.mpr fun x hx => by
        rw [List.eq_of_mem_replicate hx]
        exact Bool.false_ne_true
    rw [runningIds_init]
    show 0 = 0 + (List.replicate threadCount (Worker.idle : Worker V)).countP Worker.isFinished
    rw [hnone]

theorem Accounts.nodup_started (h : Accounts s) : s.started.Nodup := by
  -- the numbers taken and those queued make up a range
  have hrange := List.nodup_range (n := s.submitted.length)
  rw [← h.order] at hrange
  exact hrange.of_append_left

/-- A task in the queue has not been taken. -/
theorem Accounts.not_started (h : Accounts s) {e : Nat × Task V} (he : e ∈ s.tasks) :
    e.1 ∉ s.started := by
  have hrange := List.nodup_range (n := s.submitted.length)
  rw [← h.order] at hrange
  intro hstarted
  exact List.disjoint_of_nodup_append hrange hstarted (List.mem_map_of_mem he)

/-- What `inflight` counts when one worker goes on from `x` to `y`. -/
theorem counted_set {w : Nat} {x : Worker V} (hw : s.workers[w]? = some x) (y : Worker V) :
    ((s.workers.set w y).filterMap Worker.task?).length +
        (s.workers.set w y).countP Worker.isFinished +
        (x.task?.toList.length + if x.isFinished then 1 else 0) =
      s.runningIds.length + s.workers.countP Worker.isFinished +
        (y.task?.toList.length + if y.isFinished then 1 else 0) := by
  have hids := (Slots.filterMap_set Worker.task? hw y).length_eq
  have hcount := Slots.countP_set Worker.isFinished hw y
  rw [List.length_append, List.length_append] at hids
  unfold runningIds
  omega

/-- A worker goes from one state without a task to another. -/
theorem Accounts.setWorker (h : Accounts s) {w : Nat} {x y : Worker V}
    (hw : s.workers[w]? = some x) (hx : x.task? = none ∧ x.isFinished = false)
    (hy : y.task? = none ∧ y.isFinished = false) : Accounts (s.setWorker w y) := by
  have hids := Slots.filterMap_set_of_none hw hx.1 hy.1
  have hcount := counted_set hw y
  rw [hx.1, hx.2, hy.1, hy.2] at hcount
  exact ⟨h.order, h.queued, (hids.append_right _).trans h.taken, h.counted.trans hcount.symm⟩

/-- Waking the workers that sleep wakes none that has a task. -/
theorem runningIds_wakeWorkers (s : InsertPool V) : s.wakeWorkers.runningIds = s.runningIds := by
  show (s.workers.map Worker.woken).filterMap Worker.task? = _
  rw [List.filterMap_map]
  refine List.filterMap_congr fun x _ => ?_
  -- sleeping and idle workers alike hold nothing
  cases x <;> rfl

theorem countP_finished_wakeWorkers (s : InsertPool V) :
    s.wakeWorkers.workers.countP Worker.isFinished = s.workers.countP Worker.isFinished := by
  show (s.workers.map Worker.woken).countP Worker.isFinished = _
  rw [List.countP_map]
  refine List.countP_congr fun x _ => ?_
  cases x <;> rfl

/-- Only a worker that slept changes. -/
theorem mem_of_woken {s : InsertPool V} {x : Worker V} (h : x ∈ s.wakeWorkers.workers)
    (hx : x ≠ .idle) : x ∈ s.workers := by
  obtain ⟨x', hmem, rfl⟩ := List.mem_map.mp h
  cases x' <;> first | exact hmem | exact absurd rfl hx

theorem accounts_of_move (h : Move hasThetaUpdate s l s') (hs : Accounts s) : Accounts s' := by
  cases h with
  | submitted task hfree halive =>
    refine ⟨?_, ?_, hs.taken, hs.counted⟩
    · show s.started ++ (s.tasks ++ [(s.submitted.length, task)]).map Prod.fst =
        List.range (s.submitted ++ [task]).length
      rw [List.map_append, ← List.append_assoc, List.length_append, List.length_singleton,
        List.range_succ]
      exact congrArg (· ++ [s.submitted.length]) hs.order
    · intro e he
      rcases List.mem_append.mp he with hold | hnew
      · have hlook := hs.queued e hold
        obtain ⟨hlt, _⟩ := List.getElem?_eq_some_iff.mp hlook
        show (s.submitted ++ [task])[e.1]? = _
        rw [List.getElem?_append_left hlt]
        exact hlook
      · obtain rfl := List.mem_singleton.mp hnew
        exact List.getElem?_concat_length
  | notified i w hcall hw =>
    have hs' : Accounts (s.setCall i .submitReturned) := { hs with }
    exact hs'.setWorker hw ⟨rfl, rfl⟩ ⟨rfl, rfl⟩
  | unheard i hcall => exact { hs with }
  | entered halive => exact { hs with }
  | locked i before hcall hfree => exact { hs with }
  | passed i before hcall hidle => exact { hs with }
  | refused i before hcall hbusy => exact { hs with }
  | slept i before hcall => exact { hs with }
  | woke i before hcall => exact { hs with }
  -- `inflight` goes up in the lock section that takes the task
  | popped w n task rest hw htasks =>
    have hids := Slots.filterMap_set Worker.task? hw (.running n (task.steps hasThetaUpdate))
    have hcount : _ + 0 = _ + 1 := counted_set hw (.running n (task.steps hasThetaUpdate))
    refine ⟨?_, ?_, ?_, ?_⟩
    · have horder := hs.order
      rw [queuedIds, htasks, List.map_cons] at horder
      show s.started ++ [n] ++ rest.map Prod.fst = _
      rw [List.append_assoc]
      exact horder
    · intro e he
      exact hs.queued e (htasks ▸ List.mem_cons_of_mem _ he)
    · -- the task that was next is the last one taken
      refine (hids.append_right _).trans ?_
      refine (List.Perm.cons n hs.taken).trans ?_
      show (n :: s.started).Perm (s.started ++ [n])
      exact (List.perm_append_singleton n s.started).symm
    · exact (congrArg (· + 1) hs.counted).trans hcount.symm
  | stopped w hw htasks hstop => exact hs.setWorker hw ⟨rfl, rfl⟩ ⟨rfl, rfl⟩
  | waited w hw htasks => exact hs.setWorker hw ⟨rfl, rfl⟩ ⟨rfl, rfl⟩
  | wokeWorker w hw => exact hs.setWorker hw ⟨rfl, rfl⟩ ⟨rfl, rfl⟩
  | threw w n a rest hw hmay => exact { hs with }
  | performed w n a rest hw =>
    have hids : ((s.workers.set w (.running n rest)).filterMap Worker.task?).Perm s.runningIds :=
      (List.perm_append_left_iff [n]).mp
        (Slots.filterMap_set Worker.task? hw (.running n rest))
    have hcount : _ + 1 = _ + 1 := counted_set hw (.running n rest)
    exact ⟨hs.order, hs.queued, (hids.append_right _).trans hs.taken,
      hs.counted.trans (Nat.add_right_cancel hcount).symm⟩
  | completed w n hw =>
    have hids := Slots.filterMap_set Worker.task? hw .finished
    have hcount : _ + 1 = _ + 1 := counted_set hw .finished
    refine ⟨hs.order, hs.queued, ?_, ?_⟩
    · -- the number moves from the running to the completed tasks
      show ((s.workers.set w .finished).filterMap Worker.task? ++ (s.completed ++ [n])).Perm s.started
      rw [← List.append_assoc]
      refine List.perm_append_comm.trans ?_
      rw [← List.append_assoc]
      exact (hids.append_right _).trans hs.taken
    · exact hs.counted.trans (Nat.add_right_cancel hcount).symm
  -- the worker was counted as finished, and is not any more
  | decremented w hw =>
    have hids := Slots.filterMap_set_of_none (f := Worker.task?) (y := .notifying) hw rfl rfl
    have hcount : _ + 1 = _ + 0 := counted_set hw .notifying
    refine ⟨hs.order, hs.queued, (hids.append_right _).trans hs.taken, ?_⟩
    exact (congrArg (· - 1) (hs.counted.trans hcount.symm)).trans (Nat.add_sub_cancel ..)
  | notifiedAll w hw =>
    have hs' : Accounts s.wakeWaiters := { hs with }
    exact hs'.setWorker hw ⟨rfl, rfl⟩ ⟨rfl, rfl⟩
  | destroyed hfree halive => exact { hs with }
  | stopNotified hstopping =>
    refine ⟨hs.order, hs.queued, ?_, ?_⟩
    · show (s.wakeWorkers.runningIds ++ s.completed).Perm s.started
      rw [runningIds_wakeWorkers]
      exact hs.taken
    · show s.inflight =
        s.wakeWorkers.runningIds.length + s.wakeWorkers.workers.countP Worker.isFinished
      rw [runningIds_wakeWorkers, countP_finished_wakeWorkers]
      exact hs.counted
  | joined w hjoin hw => exact { hs with }
  | allJoined w hjoin hw => exact { hs with }

/-! ## The steps of the tasks -/

structure Records (hasThetaUpdate : Bool) (s : InsertPool V) : Prop where
  logged : ∀ e ∈ s.log, e.1 ∈ s.started
  running : ∀ n rest, Worker.running n rest ∈ s.workers →
    ∃ task, s.submitted[n]? = some task ∧ s.done n ++ rest = task.steps hasThetaUpdate
  completed : ∀ n ∈ s.completed,
    ∃ task, s.submitted[n]? = some task ∧ s.done n = task.steps hasThetaUpdate

theorem records_init (threadCount : Nat) :
    Records hasThetaUpdate (init threadCount : InsertPool V) where
  logged _ h := absurd h List.not_mem_nil
  running n rest h := by
    have hidle := List.eq_of_mem_replicate h
    cases hidle
  completed _ h := absurd h List.not_mem_nil

/-- Nothing has been done for a task that was not taken. -/
theorem Records.done_eq_nil (h : Records hasThetaUpdate s) {n : Nat} (hn : n ∉ s.started) :
    s.done n = [] := by
  have hnone : (s.log.filter fun e => decide (e.1 = n)) = [] := by
    refine List.filter_eq_nil_iff.mpr fun e he heq => hn ?_
    exact of_decide_eq_true heq ▸ h.logged e he
  rw [done, hnone]
  rfl

theorem done_perform (s : InsertPool V) (w n : Nat) (a : TaskStep V) (rest : List (TaskStep V))
    (m : Nat) : (s.perform w n a rest).done m = s.done m ++ if n = m then [a] else [] := by
  show ((s.log ++ [(n, a)]).filter _).map Prod.snd = _
  rw [List.filter_append, List.map_append, List.filter_singleton]
  by_cases hn : n = m
  · simp [done, hn]
  · simp [done, hn]

theorem Accounts.nodup (hs : Accounts s) : (s.runningIds ++ s.completed).Nodup :=
  hs.taken.nodup_iff.mpr hs.nodup_started

theorem mem_runningIds {n : Nat} {rest : List (TaskStep V)} (h : Worker.running n rest ∈ s.workers) :
    n ∈ s.runningIds := List.mem_filterMap.mpr ⟨_, h, rfl⟩

/-- A task that runs is not completed. -/
theorem Accounts.not_completed (hs : Accounts s) {n : Nat} {rest : List (TaskStep V)}
    (h : Worker.running n rest ∈ s.workers) : n ∉ s.completed :=
  fun hcomp => List.disjoint_of_nodup_append hs.nodup (mem_runningIds h) hcomp

/-- Two workers run different tasks. -/
theorem Accounts.ne_of_mem_others (hs : Accounts s) {w n n' : Nat} {rest rest' : List (TaskStep V)}
    (hw : s.workers[w]? = some (.running n rest))
    (h : Worker.running n' rest' ∈ s.workers.eraseIdx w) : n' ≠ n := by
  rintro rfl
  have hperm : s.runningIds.Perm (n' :: (s.workers.eraseIdx w).filterMap Worker.task?) :=
    (Slots.perm_others hw).filterMap Worker.task?
  have hnodup := hperm.nodup_iff.mp hs.nodup.of_append_left
  exact (List.nodup_cons.mp hnodup).1 (List.mem_filterMap.mpr ⟨_, h, rfl⟩)

/-- A worker that takes up no task keeps the records. -/
theorem Records.setWorker (h : Records hasThetaUpdate s) {w : Nat} {y : Worker V}
    (hy : ∀ n rest, y ≠ .running n rest) : Records hasThetaUpdate (s.setWorker w y) := by
  refine ⟨h.logged, fun n rest hmem => ?_, h.completed⟩
  rcases List.mem_or_eq_of_mem_set hmem with hold | hnew
  · exact h.running n rest hold
  · exact absurd hnew.symm (hy n rest)

theorem records_of_move (h : Move hasThetaUpdate s l s') (ha : Accounts s)
    (hs : Records hasThetaUpdate s) : Records hasThetaUpdate s' := by
  cases h with
  | submitted task hfree halive =>
    -- the new task has a number of its own, so the old ones keep theirs
    have hgrow : ∀ {n : Nat} {task' : Task V}, s.submitted[n]? = some task' →
        (s.submitted ++ [task])[n]? = some task' := by
      intro n task' hlook
      obtain ⟨hlt, _⟩ := List.getElem?_eq_some_iff.mp hlook
      rw [List.getElem?_append_left hlt]
      exact hlook
    refine ⟨hs.logged, fun n rest hmem => ?_, fun n hn => ?_⟩
    · obtain ⟨task', hlook, hsteps⟩ := hs.running n rest hmem
      exact ⟨task', hgrow hlook, hsteps⟩
    · obtain ⟨task', hlook, hsteps⟩ := hs.completed n hn
      exact ⟨task', hgrow hlook, hsteps⟩
  | notified i w hcall hw =>
    have hs' : Records hasThetaUpdate (s.setCall i .submitReturned) := { hs with }
    exact hs'.setWorker fun _ _ => nofun
  | unheard i hcall => exact { hs with }
  | entered halive => exact { hs with }
  | locked i before hcall hfree => exact { hs with }
  | passed i before hcall hidle => exact { hs with }
  | refused i before hcall hbusy => exact { hs with }
  | slept i before hcall => exact { hs with }
  | woke i before hcall => exact { hs with }
  | popped w n task rest hw htasks =>
    have hmem : (n, task) ∈ s.tasks := htasks ▸ List.mem_cons_self
    refine ⟨fun e he => List.mem_append_left _ (hs.logged e he), fun n' rest' hrun => ?_,
      hs.completed⟩
    rcases List.mem_or_eq_of_mem_set hrun with hold | hnew
    · exact hs.running n' rest' hold
    · -- a task that was in the queue has all its steps before it
      obtain ⟨rfl, rfl⟩ := Worker.running.inj hnew
      refine ⟨task, ha.queued _ hmem, ?_⟩
      show s.done n' ++ _ = _
      rw [hs.done_eq_nil (ha.not_started hmem)]
      rfl
  | stopped w hw htasks hstop => exact hs.setWorker fun _ _ => nofun
  | waited w hw htasks => exact hs.setWorker fun _ _ => nofun
  | wokeWorker w hw => exact hs.setWorker fun _ _ => nofun
  | threw w n a rest hw hmay => exact { hs with }
  | performed w n a rest hw =>
    have hmem := List.mem_of_getElem? hw
    refine ⟨?_, fun n' rest' hrun => ?_, fun n' hn' => ?_⟩
    · intro e he
      rcases List.mem_append.mp he with hold | hnew
      · exact hs.logged e hold
      · obtain rfl := List.mem_singleton.mp hnew
        exact ha.taken.subset (List.mem_append_left _ (mem_runningIds hmem))
    · rw [done_perform]
      rcases (Slots.mem_set_iff hw _ _).mp hrun with hnew | hother
      · -- the step that was first is now the last one done
        obtain ⟨rfl, rfl⟩ := Worker.running.inj hnew
        obtain ⟨task, hlook, hsteps⟩ := hs.running n' _ hmem
        refine ⟨task, hlook, ?_⟩
        rw [if_pos rfl, List.append_assoc]
        exact hsteps
      · rw [if_neg (ha.ne_of_mem_others hw hother).symm, List.append_nil]
        exact hs.running n' rest' (Slots.mem_of_mem_others hother)
    · have hne : n ≠ n' := by
        rintro rfl
        exact ha.not_completed hmem hn'
      rw [done_perform, if_neg hne, List.append_nil]
      exact hs.completed n' hn'
  | completed w n hw =>
    have hkept := (hs.setWorker (w := w) (y := .finished) fun _ _ => nofun)
    refine ⟨hs.logged, hkept.running, fun n' hn' => ?_⟩
    rcases List.mem_append.mp hn' with hold | hnew
    · exact hs.completed n' hold
    · obtain rfl := List.mem_singleton.mp hnew
      obtain ⟨task, hlook, hsteps⟩ := hs.running n' [] (List.mem_of_getElem? hw)
      rw [List.append_nil] at hsteps
      exact ⟨task, hlook, hsteps⟩
  | decremented w hw =>
    have hkept := (hs.setWorker (w := w) (y := .notifying) fun _ _ => nofun)
    exact { hkept with }
  | notifiedAll w hw =>
    have hs' : Records hasThetaUpdate s.wakeWaiters := { hs with }
    exact hs'.setWorker fun _ _ => nofun
  | destroyed hfree halive => exact { hs with }
  | stopNotified hstopping =>
    refine ⟨hs.logged, fun n rest hrun => ?_, hs.completed⟩
    exact hs.running n rest (mem_of_woken hrun nofun)
  | joined w hjoin hw => exact { hs with }
  | allJoined w hjoin hw => exact { hs with }

/-! ## The callers of wait_idle -/

structure Waits (s : InsertPool V) : Prop where
  known : ∀ call ∈ s.calls, ∀ before, call.before? = some before → before ≤ s.submitted.length
  returned : ∀ before, PoolCall.waitReturned before ∈ s.calls → ∀ n < before, n ∈ s.completed

theorem waits_init (threadCount : Nat) : Waits (init threadCount : InsertPool V) where
  known _ h := absurd h List.not_mem_nil
  returned _ h := absurd h List.not_mem_nil

/-- An idle pool has completed what was submitted. -/
theorem Accounts.completed_of_isIdle (hs : Accounts s) (h : s.isIdle = true) :
    s.completed.Perm (List.range s.submitted.length) := by
  obtain ⟨htasks, hinflight⟩ := Bool.and_eq_true_iff.mp h
  have hcounted := hs.counted
  rw [of_decide_eq_true hinflight] at hcounted
  have hrunning : s.runningIds = [] := List.length_eq_zero_iff.mp (by omega)
  have htaken := hs.taken
  have horder := hs.order
  rw [hrunning] at htaken
  rw [queuedIds, List.isEmpty_iff.mp htasks, List.map_nil, List.append_nil] at horder
  exact horder ▸ htaken

/-- A call goes from one state to another that knows of no more tasks. -/
theorem Waits.setCall (h : Waits s) {i : Nat} {call new : PoolCall} (hi : s.calls[i]? = some call)
    (hbefore : ∀ b, new.before? = some b → call.before? = some b)
    (hnew : ∀ b, new = .waitReturned b → ∀ n < b, n ∈ s.completed) : Waits (s.setCall i new) where
  known call' hmem b hb := by
    rcases List.mem_or_eq_of_mem_set hmem with hold | rfl
    · exact h.known call' hold b hb
    · exact h.known call (List.mem_of_getElem? hi) b (hbefore b hb)
  returned b hmem := by
    rcases List.mem_or_eq_of_mem_set hmem with hold | heq
    · exact h.returned b hold
    · exact hnew b heq.symm

theorem waits_of_move (h : Move hasThetaUpdate s l s') (ha : Accounts s) (hs : Waits s) :
    Waits s' := by
  -- what is no return owes nothing
  have hno : ∀ {P : Prop} {call : PoolCall} {b : Nat}, (∀ b, call ≠ .waitReturned b) →
      call = .waitReturned b → P := fun hne heq => absurd heq (hne _)
  cases h with
  | submitted task hfree halive =>
    have hlen : s.submitted.length ≤ (s.submitted ++ [task]).length := by simp
    refine ⟨fun call hmem b hb => ?_, fun b hmem => ?_⟩
    · rcases List.mem_append.mp hmem with hold | hnew
      · exact (hs.known call hold b hb).trans hlen
      · obtain rfl := List.mem_singleton.mp hnew
        cases hb
    · rcases List.mem_append.mp hmem with hold | hnew
      · exact hs.returned b hold
      · cases List.mem_singleton.mp hnew
  | notified i w hcall hw =>
    have hs' : Waits (s.setCall i .submitReturned) := hs.setCall hcall nofun fun b => hno nofun
    exact { hs' with }
  | unheard i hcall => exact hs.setCall hcall nofun fun b => hno nofun
  | entered halive =>
    refine ⟨fun call hmem b hb => ?_, fun b hmem => ?_⟩
    · rcases List.mem_append.mp hmem with hold | hnew
      · exact hs.known call hold b hb
      · obtain rfl := List.mem_singleton.mp hnew
        obtain rfl := Option.some.inj hb
        exact Nat.le_refl _
    · rcases List.mem_append.mp hmem with hold | hnew
      · exact hs.returned b hold
      · cases List.mem_singleton.mp hnew
  | locked i before hcall hfree => exact hs.setCall hcall (fun _ hb => hb) fun b => hno nofun
  | passed i before hcall hidle =>
    -- the predicate was true, so nothing submitted before is missing
    refine hs.setCall hcall (fun _ hb => hb) fun b heq n hn => ?_
    obtain rfl := PoolCall.waitReturned.inj heq
    have hle := hs.known _ (List.mem_of_getElem? hcall) before rfl
    exact (ha.completed_of_isIdle hidle).mem_iff.mpr (List.mem_range.mpr (by omega))
  | refused i before hcall hbusy => exact hs.setCall hcall (fun _ hb => hb) fun b => hno nofun
  | slept i before hcall => exact hs.setCall hcall (fun _ hb => hb) fun b => hno nofun
  | woke i before hcall => exact hs.setCall hcall (fun _ hb => hb) fun b => hno nofun
  | popped w n task rest hw htasks => exact { hs with }
  | stopped w hw htasks hstop => exact { hs with }
  | waited w hw htasks => exact { hs with }
  | wokeWorker w hw => exact { hs with }
  | threw w n a rest hw hmay => exact { hs with }
  | performed w n a rest hw => exact { hs with }
  | completed w n hw =>
    exact ⟨hs.known, fun b hmem n' hn' => List.mem_append_left _ (hs.returned b hmem n' hn')⟩
  | decremented w hw => exact { hs with }
  | notifiedAll w hw =>
    refine ⟨fun call hmem b hb => ?_, fun b hmem => ?_⟩
    · obtain ⟨call', hold, rfl⟩ := List.mem_map.mp hmem
      refine hs.known call' hold b ?_
      cases call' <;> exact hb
    · obtain ⟨call', hold, heq⟩ := List.mem_map.mp hmem
      have hsame : call' = .waitReturned b := by
        cases call' <;> first | exact heq | cases heq
      exact hs.returned b (hsame ▸ hold)
  | destroyed hfree halive => exact { hs with }
  | stopNotified hstopping => exact { hs with }
  | joined w hjoin hw => exact { hs with }
  | allJoined w hjoin hw => exact { hs with }

/-! ## The destructor -/

structure Closing (threadCount : Nat) (s : InsertPool V) : Prop where
  width : s.workers.length = threadCount
  stopping : s.stop = true → s.destructor ≠ .notCalled
  exited : .exited ∈ s.workers → s.stop = true ∧ s.tasks = []
  joining : ∀ w, s.destructor = .joining w → ∀ k < w, s.workers[k]? = some .exited
  returned : s.destructor = .returned → ∀ x ∈ s.workers, x = .exited

theorem closing_init (threadCount : Nat) : Closing threadCount (init threadCount : InsertPool V) where
  width := List.length_replicate
  stopping h := by cases h
  exited h := by cases List.eq_of_mem_replicate h
  joining w h := by cases h
  returned h := by cases h

/-- A worker that is still in its loop goes on and stays in it. -/
theorem Closing.setWorker {threadCount : Nat} (h : Closing threadCount s) {w : Nat}
    {x y : Worker V} (hw : s.workers[w]? = some x) (hx : x ≠ .exited) (hy : y ≠ .exited) :
    Closing threadCount (s.setWorker w y) where
  width := List.length_set.trans h.width
  stopping := h.stopping
  exited hmem := by
    rcases List.mem_or_eq_of_mem_set hmem with hold | heq
    · exact h.exited hold
    · exact absurd heq.symm hy
  joining w' hjoin k hk := by
    have hexited := h.joining w' hjoin k hk
    have hne : w ≠ k := by
      rintro rfl
      exact hx (Option.some.inj (hw.symm.trans hexited))
    show (s.workers.set w y)[k]? = _
    rw [List.getElem?_set_ne hne]
    exact hexited
  returned hret := absurd (h.returned hret x (List.mem_of_getElem? hw)) hx

theorem closing_of_move {threadCount : Nat} (h : Move hasThetaUpdate s l s')
    (hs : Closing threadCount s) : Closing threadCount s' := by
  cases h with
  | submitted task hfree halive =>
    -- no worker has left yet: they leave only while the pool is stopping
    refine ⟨hs.width, hs.stopping, fun hmem => ?_, hs.joining, hs.returned⟩
    exact absurd halive (hs.stopping (hs.exited hmem).1)
  | notified i w hcall hw =>
    have hs' : Closing threadCount (s.setCall i .submitReturned) := { hs with }
    exact hs'.setWorker hw nofun nofun
  | unheard i hcall => exact { hs with }
  | entered halive => exact { hs with }
  | locked i before hcall hfree => exact { hs with }
  | passed i before hcall hidle => exact { hs with }
  | refused i before hcall hbusy => exact { hs with }
  | slept i before hcall => exact { hs with }
  | woke i before hcall => exact { hs with }
  | popped w n task rest hw htasks =>
    have hs' := hs.setWorker (y := .running n (task.steps hasThetaUpdate)) hw nofun nofun
    refine { hs' with exited := fun hmem => ?_ }
    -- nobody has left while there was a task
    have hnil := (hs'.exited hmem).2
    rw [show (s.setWorker w _).tasks = s.tasks from rfl, htasks] at hnil
    cases hnil
  | stopped w hw htasks hstop =>
    refine ⟨List.length_set.trans hs.width, hs.stopping, fun _ => ⟨hstop, htasks⟩, ?_, ?_⟩
    · intro w' hjoin k hk
      have hexited := hs.joining w' hjoin k hk
      by_cases hne : w = k
      · rw [← hne]
        exact Slots.getElem?_set_of_some hw _
      · show (s.workers.set w .exited)[k]? = _
        rw [List.getElem?_set_ne hne]
        exact hexited
    · intro hret x hmem
      rcases List.mem_or_eq_of_mem_set hmem with hold | heq
      · exact hs.returned hret x hold
      · exact heq
  | waited w hw htasks => exact hs.setWorker hw nofun nofun
  | wokeWorker w hw => exact hs.setWorker hw nofun nofun
  | threw w n a rest hw hmay => exact { hs with }
  | performed w n a rest hw =>
    have hs' := hs.setWorker (y := .running n rest) hw nofun nofun
    exact { hs' with }
  | completed w n hw =>
    have hs' := hs.setWorker (y := .finished) hw nofun nofun
    exact { hs' with }
  | decremented w hw =>
    have hs' := hs.setWorker (y := .notifying) hw nofun nofun
    exact { hs' with }
  | notifiedAll w hw =>
    have hs' : Closing threadCount s.wakeWaiters := { hs with }
    exact hs'.setWorker hw nofun nofun
  | destroyed hfree halive =>
    refine ⟨hs.width, fun _ => nofun, fun hmem => ⟨rfl, (hs.exited hmem).2⟩, nofun, nofun⟩
  | stopNotified hstopping =>
    refine ⟨(List.length_map ..).trans hs.width, fun _ => nofun, fun hmem => ?_, ?_, nofun⟩
    · exact hs.exited (mem_of_woken hmem nofun)
    · intro w hjoin k hk
      obtain rfl := Destructor.joining.inj hjoin
      exact absurd hk (Nat.not_lt_zero k)
  | joined w hjoin hw =>
    refine ⟨hs.width, fun _ => nofun, hs.exited, fun w' hjoin' k hk => ?_, nofun⟩
    obtain rfl := Destructor.joining.inj hjoin'
    rcases Nat.lt_succ_iff_lt_or_eq.mp hk with hlt | rfl
    · exact hs.joining w hjoin k hlt
    · exact hw
  | allJoined w hjoin hw =>
    refine ⟨hs.width, fun _ => nofun, hs.exited, nofun, fun _ x hmem => ?_⟩
    -- all threads up to the end have been joined
    obtain ⟨k, hk⟩ := List.mem_iff_getElem?.mp hmem
    obtain ⟨hlt, _⟩ := List.getElem?_eq_some_iff.mp hk
    have hlt' : k < w := hlt.trans_le (List.getElem?_eq_none_iff.mp hw)
    exact Option.some.inj (hk.symm.trans (hs.joining w hjoin k hlt'))

/-! ## The ledger -/

/-- What holds of a pool whatever has happened. -/
structure Ledger (threadCount : Nat) (hasThetaUpdate : Bool) (s : InsertPool V) : Prop where
  accounts : Accounts s
  records : Records hasThetaUpdate s
  waits : Waits s
  closing : Closing threadCount s

theorem ledger_init (threadCount : Nat) :
    Ledger threadCount hasThetaUpdate (init threadCount : InsertPool V) where
  accounts := accounts_init threadCount
  records := records_init threadCount
  waits := waits_init threadCount
  closing := closing_init threadCount

theorem ledger_of_move {threadCount : Nat} (h : Move hasThetaUpdate s l s')
    (hs : Ledger threadCount hasThetaUpdate s) : Ledger threadCount hasThetaUpdate s' where
  accounts := accounts_of_move h hs.accounts
  records := records_of_move h hs.accounts hs.records
  waits := waits_of_move h hs.accounts hs.waits
  closing := closing_of_move h hs.closing

theorem ledger_of_reachable {threadCount : Nat}
    (h : Traces.Reachable (step hasThetaUpdate) (init threadCount) s) :
    Ledger threadCount hasThetaUpdate s :=
  Traces.reachable_invariant (fun _ _ _ hs hstep => ledger_of_move (move_of_step hstep) hs)
    (ledger_init threadCount) h

variable {threadCount : Nat}

/-- Every submitted task is in exactly one of the three places. -/
theorem Ledger.partition (h : Ledger threadCount hasThetaUpdate s) :
    (s.queuedIds ++ s.runningIds ++ s.completed).Perm (List.range s.submitted.length) := by
  rw [← h.accounts.order, List.append_assoc]
  exact List.perm_append_comm.trans (h.accounts.taken.append_right _)

/-- The steps done for a task are the first ones of it. -/
theorem Ledger.done_prefix (h : Ledger threadCount hasThetaUpdate s) {n : Nat} {task : Task V}
    (hn : s.submitted[n]? = some task) : s.done n <+: task.steps hasThetaUpdate := by
  by_cases hstarted : n ∈ s.started
  · -- taken: with a worker, which has the rest of the steps, or completed
    rcases List.mem_append.mp (h.accounts.taken.mem_iff.mpr hstarted) with hrun | hcomp
    · obtain ⟨x, hx, htask⟩ := List.mem_filterMap.mp hrun
      cases x with
      | running n' rest =>
        obtain rfl := Option.some.inj htask
        obtain ⟨task', htask', hsteps⟩ := h.records.running n' rest hx
        obtain rfl := Option.some.inj (hn.symm.trans htask')
        exact ⟨rest, hsteps⟩
      | _ => cases htask
    · obtain ⟨task', htask', hsteps⟩ := h.records.completed n hcomp
      obtain rfl := Option.some.inj (hn.symm.trans htask')
      exact hsteps ▸ List.prefix_refl _
  · rw [h.records.done_eq_nil hstarted]
    exact List.nil_prefix

theorem Ledger.done_completed (h : Ledger threadCount hasThetaUpdate s) {n : Nat}
    (hcomp : n ∈ s.completed) {task : Task V} (hn : s.submitted[n]? = some task) :
    s.done n = task.steps hasThetaUpdate := by
  obtain ⟨task', htask', hsteps⟩ := h.records.completed n hcomp
  obtain rfl := Option.some.inj (hn.symm.trans htask')
  exact hsteps

/-- When the destructor has returned, nothing is left to do. -/
theorem Ledger.completed_of_returned (h : Ledger threadCount hasThetaUpdate s)
    (hpos : 1 ≤ threadCount) (hret : s.destructor = .returned) :
    s.completed.Perm (List.range s.submitted.length) := by
  have hexited := h.closing.returned hret
  have hrunning : s.runningIds = [] := by
    refine List.filterMap_eq_nil_iff.mpr fun x hx => ?_
    rw [hexited x hx]
    rfl
  have htasks : s.tasks = [] := by
    obtain ⟨x, hx⟩ := List.exists_mem_of_length_pos (h.closing.width ▸ hpos)
    exact (h.closing.exited (hexited x hx ▸ hx)).2
  have hpartition := h.partition
  rw [queuedIds, htasks, hrunning] at hpartition
  exact hpartition

/-- What the pool owes its callers. -/
structure Kept (hasThetaUpdate : Bool) (s : InsertPool V) : Prop where
  /-- The submitted tasks are those in the queue, with a worker, or completed. -/
  partition : (s.queuedIds ++ s.runningIds ++ s.completed).Perm (List.range s.submitted.length)
  queued : ∀ e ∈ s.tasks, s.submitted[e.1]? = some e.2
  /-- `inflight` counts those with a worker, and each worker between the return
      of its task and its decrement. -/
  counted : s.inflight = s.runningIds.length + s.workers.countP Worker.isFinished
  /-- Tasks are taken in the order of submission, each once. -/
  ordered : s.started <+: List.range s.submitted.length
  /-- A task does each of its steps once, in order, and all of them before it
      is completed. -/
  once : ∀ n task, s.submitted[n]? = some task → s.done n <+: task.steps hasThetaUpdate
  whole : ∀ n ∈ s.completed, ∀ task, s.submitted[n]? = some task →
    s.done n = task.steps hasThetaUpdate
  /-- `wait_idle` has returned. -/
  waited : ∀ before, PoolCall.waitReturned before ∈ s.calls → ∀ n < before, ∃ task,
    s.submitted[n]? = some task ∧ n ∈ s.completed ∧ s.done n = task.steps hasThetaUpdate
  /-- The destructor has returned. -/
  destroyed : s.destructor = .returned → s.completed.Perm (List.range s.submitted.length)
  /-- No query copy is freed twice, and that of a completed task is freed. -/
  freed : ∀ n task, s.submitted[n]? = some task →
    (s.done n).countP TaskStep.isFree ≤ 1 ∧
      (n ∈ s.completed →
        (s.done n).countP TaskStep.isFree = if task.query.isSome then 1 else 0)

/-- No task is lost or done twice. -/
theorem kept_of_reachable (hpos : 1 ≤ threadCount)
    (h : Traces.Reachable (step hasThetaUpdate) (init threadCount) s) : Kept hasThetaUpdate s := by
  have hledger := ledger_of_reachable h
  refine
    { partition := hledger.partition
      queued := hledger.accounts.queued
      counted := hledger.accounts.counted
      ordered := ⟨_, hledger.accounts.order⟩
      once := fun n task hn => hledger.done_prefix hn
      whole := fun n hcomp task hn => hledger.done_completed hcomp hn
      waited := fun before hmem n hn => ?_
      destroyed := hledger.completed_of_returned hpos
      freed := fun n task hn => ⟨?_, fun hcomp => ?_⟩ }
  · have hcomp := hledger.waits.returned before hmem n hn
    obtain ⟨task, hlook, hsteps⟩ := hledger.records.completed n hcomp
    exact ⟨task, hlook, hcomp, hsteps⟩
  · have hle := (hledger.done_prefix hn).sublist.countP_le (p := TaskStep.isFree)
    rw [countP_isFree_steps] at hle
    refine hle.trans ?_
    split_ifs <;> omega
  · rw [hledger.done_completed hcomp hn, countP_isFree_steps]

/-- Two tasks, one of them with a query, are waited for before the end. -/
def twoTasks : List (PoolLabel Nat) :=
  [.submit ⟨0, [7], 1, 0, some 5, 0⟩, .take 0, .submit ⟨0, [], 1, 0, none, 1⟩, .waitIdle,
    .act 0 false, .act 0 false, .act 0 false, .act 0 false, .finish 0, .decrement 0, .notifyAll 0,
    .take 0, .act 0 false, .finish 0, .decrement 0, .notifyAll 0, .lock 2, .evaluate 2,
    .destroy, .notifyStop, .take 0, .join, .join]

theorem kept_of_reachable_twoTasks :
    ∃ t : InsertPool Nat, t.destructor = .returned ∧ t.submitted.length = 2 ∧
      PoolCall.waitReturned 2 ∈ t.calls ∧ Kept true t := by
  have hruns : (Traces.run (step true) (init 1) twoTasks).any (fun t =>
      decide (t.destructor = .returned ∧ t.submitted.length = 2 ∧
        PoolCall.waitReturned 2 ∈ t.calls)) = true := by decide +kernel
  obtain ⟨t, hrun, htest⟩ := Traces.exists_run hruns
  obtain ⟨hret, hlen, hwait⟩ := of_decide_eq_true htest
  exact ⟨t, hret, hlen, hwait, kept_of_reachable (Nat.le_refl 1) ⟨_, hrun⟩⟩

end InsertPool

end QvCache
