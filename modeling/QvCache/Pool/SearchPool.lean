/-
  QvCache.Pool.SearchPool

  SearchThreadPool (include/qvcache/search_thread_pool.h) as a labelled
  transition system: workers that follow `epoch_`, and callers of
  `parallel_for`, with one atomic access in each step and the steps of all
  threads in any order.

  `call_mu_` is a field, since it is held from one step to the next; the
  sections under `error_mu_` are one step each.  `job_` holds the position of
  the call whose function it points to.  `next_` is a number without a bound: as a
  `size_t` it does not wrap around while the `n` of each call plus the number of
  workers is below `2 ^ 64` (`next_lt_of_reachable`).  The run of a job has a
  beginning and an end, and an end may throw.  A worker asleep on the futex may
  wake at any time; a worker that has not started yet is one that has taken no
  step.
-/

import QvCache.Lib.Slots
import QvCache.Lib.Traces

namespace QvCache

variable {E : Type}

/-! ## Threads -/

/-- Where a worker is in `worker_main`; `seen` is its variable of that name. -/
inductive SearchWorker (E : Type) where
  /-- Before the first load of `epoch_`. -/
  | top (seen : UInt32)
  /-- After the spin loop, before the second load. -/
  | spun (seen : UInt32)
  /-- No new epoch: before the load of `stop_`. -/
  | idle (seen : UInt32)
  /-- Before `futex_wait`. -/
  | sleeping (seen : UInt32)
  | asleep (seen : UInt32)
  /-- A new epoch `gen`: before the load of `stop_`. -/
  | awake (seen gen : UInt32)
  | loadJob (seen : UInt32)
  | loadN (seen : UInt32) (job : Option Nat)
  /-- Before `next_.fetch_add(1)`. -/
  | claim (seen : UInt32) (job n : Nat)
  /-- In `(*job)(id)`. -/
  | running (seen : UInt32) (job n id : Nat)
  /-- In the handler, before `error_mu_`. -/
  | failed (seen : UInt32) (e : E)
  /-- Before `arrived_.fetch_sub(1)`. -/
  | arriving (seen : UInt32)
  | exited

/-- Where a call is in `parallel_for`. -/
inductive CallPc (E : Type) where
  /-- In the loop without the pool, before `fn(i)`. -/
  | inline (i : Nat)
  | inlineRunning (i : Nat)
  /-- Before `call_mu_`. -/
  | entering
  /-- Before each of the stores that announce the job. -/
  | resetError
  | storeNext
  | storeArrived
  | storeN
  | storeJob
  | bumpEpoch
  | wake
  /-- Before and in `fn(0)`, and in its handler. -/
  | beginOwn
  | runningOwn
  | failedOwn (e : E)
  /-- In the loop on `arrived_`. -/
  | waiting
  | clearJob
  | readError
  /-- At the end of the scope of `call_mu_`. -/
  | unlocking (error : Option E)
  | returned
  | rethrew (e : E)

/-- The call holds `call_mu_`. -/
def CallPc.holds : CallPc E → Bool
  | .inline _ | .inlineRunning _ | .entering | .returned | .rethrew _ => false
  | _ => true

/-- A call: its `n`, and the ids its function has been run on, with what came
    of it (`none` for a normal return). -/
structure SearchCall (E : Type) where
  n : Nat
  pc : CallPc E
  started : List Nat
  finished : List (Nat × Option E)

namespace SearchCall

def goTo (c : SearchCall E) (pc : CallPc E) : SearchCall E := { c with pc := pc }

/-- `fn(id)` begins. -/
def beginRun (id : Nat) (c : SearchCall E) : SearchCall E := { c with started := c.started ++ [id] }

/-- `fn(id)` ends. -/
def endRun (id : Nat) (outcome : Option E) (c : SearchCall E) : SearchCall E :=
  { c with finished := c.finished ++ [(id, outcome)] }

/-- Where a call starts. -/
def start (threadCount n : Nat) : SearchCall E where
  n := n
  pc := if n = 0 then .returned else if n = 1 ∨ threadCount = 0 then .inline 0 else .entering
  started := []
  finished := []

end SearchCall

/-- A worker in `futex_wait` goes back to its loop. -/
def SearchWorker.woken : SearchWorker E → SearchWorker E
  | .asleep seen => .top seen
  | x => x

/-- The call is over. -/
def CallPc.isOver : CallPc E → Bool
  | .returned | .rethrew _ => true
  | _ => false

/-- Where the destructor is. -/
inductive SearchDestructor where
  | notCalled
  | bumpEpoch
  | wake
  /-- Joining the worker at this position. -/
  | joining (w : Nat)
  | returned
deriving DecidableEq

/-! ## The pool -/

structure SearchPool (E : Type) where
  workers : List (SearchWorker E)
  callMu : Option Nat
  error : Option E
  job : Option Nat
  jobN : Nat
  next : Nat
  arrived : Nat
  epoch : UInt32
  stop : Bool
  destructor : SearchDestructor
  calls : List (SearchCall E)

inductive SearchLabel (E : Type) where
  /-- `parallel_for(n, fn)` is called. -/
  | call (n : Nat)
  /-- The next step of call `i`; `outcome` is how a run of its function ends. -/
  | caller (i : Nat) (outcome : Option E)
  /-- The next step of a worker; for one that is asleep, it wakes by itself. -/
  | worker (w : Nat) (outcome : Option E)
  /-- The destructor up to the store of `stop_`; nobody is in `parallel_for`. -/
  | destroy
  /-- The next step of the destructor. -/
  | destructor

namespace SearchPool

def init (threadCount : Nat) : SearchPool E where
  workers := List.replicate threadCount (.top 0)
  callMu := none
  error := none
  job := none
  jobN := 0
  next := 0
  arrived := 0
  epoch := 0
  stop := false
  destructor := .notCalled
  calls := []

def setWorker (s : SearchPool E) (w : Nat) (x : SearchWorker E) : SearchPool E :=
  { s with workers := s.workers.set w x }

def setCall (s : SearchPool E) (i : Nat) (c : SearchCall E) : SearchPool E :=
  { s with calls := s.calls.set i c }

/-- Through the pointer `job_`, which holds the position of a call. -/
def updateCall (s : SearchPool E) (i : Nat) (f : SearchCall E → SearchCall E) : SearchPool E :=
  match s.calls[i]? with
  | some c => s.setCall i (f c)
  | none => s

/-- `futex_wake(&epoch_, workers_.size())`. -/
def futexWake (s : SearchPool E) : SearchPool E := { s with workers := s.workers.map .woken }

/-- `if (!error_) error_ = std::current_exception()`. -/
def noteError (s : SearchPool E) (e : E) : SearchPool E := { s with error := s.error.or (some e) }

/-- The next step of worker `w`, which is at `x`. -/
def workerStep (s : SearchPool E) (w : Nat) (outcome : Option E) :
    SearchWorker E → Option (SearchPool E)
  | .top seen => some (s.setWorker w (if s.epoch = seen then .spun seen else .awake seen s.epoch))
  | .spun seen => some (s.setWorker w (if s.epoch = seen then .idle seen else .awake seen s.epoch))
  | .idle seen => some (s.setWorker w (if s.stop then .exited else .sleeping seen))
  -- the kernel compares and goes to sleep in one step
  | .sleeping seen => some (s.setWorker w (if s.epoch = seen then .asleep seen else .top seen))
  | .asleep seen => some (s.setWorker w (.top seen))
  | .awake _ gen => some (s.setWorker w (if s.stop then .exited else .loadJob gen))
  | .loadJob seen => some (s.setWorker w (.loadN seen s.job))
  | .loadN seen job =>
    some (s.setWorker w (match job with
      | some job => .claim seen job s.jobN
      -- `job_` has been cleared: nothing to run, but the worker is counted
      | none => .arriving seen))
  | .claim seen job n =>
    let s' := { s with next := s.next + 1 }
    -- the ids are used up
    if n ≤ s.next then some (s'.setWorker w (.arriving seen))
    else some ((s'.setWorker w (.running seen job n s.next)).updateCall job (.beginRun s.next))
  | .running seen job n id =>
    some ((s.setWorker w (match outcome with
      | none => .claim seen job n
      | some e => .failed seen e)).updateCall job (.endRun id outcome))
  -- the first exception is kept, the worker leaves the loop either way
  | .failed seen e => some ((s.setWorker w (.arriving seen)).noteError e)
  | .arriving seen => some ({ s with arrived := s.arrived - 1 }.setWorker w (.top seen))
  | .exited => none

/-- The next step of call `i`, which is `c`. -/
def callerStep (s : SearchPool E) (i : Nat) (outcome : Option E) (c : SearchCall E) :
    Option (SearchPool E) :=
  match c.pc with
  | .inline k =>
    if k < c.n then some (s.setCall i ((c.goTo (.inlineRunning k)).beginRun k))
    else some (s.setCall i (c.goTo .returned))
  | .inlineRunning k =>
    some (s.setCall i ((c.goTo (match outcome with
      | none => .inline (k + 1)
      | some e => .rethrew e)).endRun k outcome))
  | .entering =>
    if s.callMu = none then some { s.setCall i (c.goTo .resetError) with callMu := some i }
    else none
  | .resetError => some { s.setCall i (c.goTo .storeNext) with error := none }
  -- id 0 is the caller's own
  | .storeNext => some { s.setCall i (c.goTo .storeArrived) with next := 1 }
  | .storeArrived =>
    some { s.setCall i (c.goTo .storeN) with arrived := s.workers.length }
  | .storeN => some { s.setCall i (c.goTo .storeJob) with jobN := c.n }
  | .storeJob => some { s.setCall i (c.goTo .bumpEpoch) with job := some i }
  | .bumpEpoch => some { s.setCall i (c.goTo .wake) with epoch := s.epoch + 1 }
  | .wake => some (s.setCall i (c.goTo .beginOwn)).futexWake
  | .beginOwn => some (s.setCall i ((c.goTo .runningOwn).beginRun 0))
  | .runningOwn =>
    some (s.setCall i ((c.goTo (match outcome with
      | none => .waiting
      | some e => .failedOwn e)).endRun 0 outcome))
  | .failedOwn e => some ((s.setCall i (c.goTo .waiting)).noteError e)
  -- it yields until all workers have arrived
  | .waiting => if s.arrived = 0 then some (s.setCall i (c.goTo .clearJob)) else none
  | .clearJob => some { s.setCall i (c.goTo .readError) with job := none }
  -- `error_` is moved out under `error_mu_`
  | .readError => some { s.setCall i (c.goTo (.unlocking s.error)) with error := none }
  | .unlocking error =>
    some { s.setCall i (c.goTo (match error with
      | none => .returned
      | some e => .rethrew e)) with callMu := none }
  | .returned | .rethrew _ => none

/-- The next step of the destructor. -/
def destructorStep (s : SearchPool E) : SearchDestructor → Option (SearchPool E)
  | .bumpEpoch => some { s with epoch := s.epoch + 1, destructor := .wake }
  | .wake => some { s.futexWake with destructor := .joining 0 }
  | .joining w =>
    match s.workers[w]? with
    | none => some { s with destructor := .returned }
    | some .exited => some { s with destructor := .joining (w + 1) }
    | some _ => none
  | .notCalled | .returned => none

/-- The successor under a label, or `none` where the label is not enabled.  A
    pool that is being destroyed is not called any more. -/
def step (s : SearchPool E) : SearchLabel E → Option (SearchPool E)
  | .call n =>
    if s.stop then none else some { s with calls := s.calls ++ [.start s.workers.length n] }
  | .caller i outcome => s.calls[i]?.bind (s.callerStep i outcome)
  | .worker w outcome => s.workers[w]?.bind (s.workerStep w outcome)
  | .destroy =>
    if s.stop = false ∧ s.calls.all fun c => c.pc.isOver then
      some { s with stop := true, destructor := .bumpEpoch }
    else none
  | .destructor => s.destructorStep s.destructor

end SearchPool

end QvCache
