/-
  QvCache.System.Machine

  QVCache with its callers, its insert pool (src/insert_thread_pool.cpp) and
  its backend as one labelled transition system.  A call of `search`, `insert`
  or `remove` and a task of the pool advance one step at a time, in any order;
  what happens under one lock of the source is one step.

  Some steps take more than one lock: a lookup up to its verdict, the choice of a
  shard for an insert (`choosing`), `ensure_admit_shard` (`filtered`), and the
  check for a free slot with the `insert_point` behind it (`landing`), which
  returns -1 for a slot that is gone by then, as if the check had failed.

  A step is enabled only where the source does not wait: for `wait_idle` the
  queue has to be empty and every worker idle.  A label carries what the step
  learns from outside, such as the backend's reply.
-/

import QvCache.Cache.Search
import QvCache.Lib.Traces

namespace QvCache

/-! ## The backend -/

/-- `BackendInterface`, with the contents of the backend as a state of type `β`.
    `answers` and `fetches` say which replies the backend may give; `none`
    stands for an exception, in a fetched list for an empty vector. -/
structure Backend (V β : Type) where
  supportsUpdates : Bool
  answers : β → V → Nat → BackendAnswer → Bool
  fetches : β → List UInt32 → Option (List (Option V)) → Bool
  insert : β → UInt32 → V → Option β
  remove : β → UInt32 → Option β

/-- What a step is told by the backend. -/
inductive Reply (V : Type) where
  | proceed
  | answer (answer : BackendAnswer)
  | vectors (vectors : List V)
  | fetched (fetched : Option (List (Option V)))

/-- What `fetch_backend_vector` makes of a reply: `none` for no vector. -/
def fetchedVector {V : Type} : Option (List (Option V)) → Option V
  | some (some vec :: _) => some vec
  | _ => none

/-! ## Tasks and calls -/

/-- What `insert_pool->submit` is given.  `query` is the copy made for a lazy
    theta update; `miss` notes the call that submitted the task. -/
structure Task (V : Type) where
  shard : Nat
  toBeInserted : List UInt32
  K : Nat
  queryDistance : Double
  query : Option V
  miss : Nat
deriving DecidableEq

/-- How far a worker has come with its task: `memory_index_insert_sync` before
    and after the fetch. -/
inductive Running (V : Type) where
  | fetching (task : Task V)
  | inserting (task : Task V) (rest : List (UInt32 × V))
deriving DecidableEq

def Running.task {V : Type} : Running V → Task V
  | .fetching task => task
  | .inserting task _ => task

/-- How far a call has come; the names say what it does next. -/
inductive Call (V : Type) where
  -- search
  | hit (query : V) (K : Nat) (report : Report)
  | missed (query : V) (K : Nat)
  | searching (query : V) (K : Nat)
  | answered (query : V) (K : Nat) (answer : BackendAnswer)
  | filtered (query : V) (K : Nat) (answer : BackendAnswer) (ids : List UInt32)
  | placed (query : V) (K : Nat) (answer : BackendAnswer) (ids : List UInt32) (shard : Nat)
  | learned (query : V) (K : Nat) (answer : BackendAnswer) (ids : List UInt32) (shard : Nat)
  | missReturned (query : V) (K : Nat) (answer : BackendAnswer)
  -- insert
  | inserting (id : UInt32) (vec : V)
  | choosing (id : UInt32) (vec : V)
  | checking (id : UInt32) (vec : V) (shard : Nat)
  | landing (id : UInt32) (vec : V) (shard : Nat)
  | noting (id : UInt32) (vec : V) (shard : Nat)
  | touching (id : UInt32) (vec : V) (shard : Nat)
  | penalising (id : UInt32) (vec : V)
  | insertReturned (id : UInt32) (vec : V)
  -- remove
  | removing (id : UInt32) (vec : Option V)
  | lowering (id : UInt32) (vec : Option V)
  | burying (id : UInt32)
  | forgetting (id : UInt32)
  | deleting (id : UInt32) (shard : Nat)
  | removeReturned (id : UInt32)
  -- an exception left the call
  | threw
deriving DecidableEq

/-- The tags and distances `search` leaves in the caller's arrays. -/
def Call.written {V : Type} : Call V → Option (List (Tag × Double))
  | .hit _ _ report => some (report.map fun td => (td.1, .fin td.2))
  | .missReturned _ _ answer => some (answer.map fun td => (td.1 + 1, td.2))
  | _ => none

/-! ## The system -/

structure SystemConfig (V β : Type) where
  cache : CacheConfig V
  backend : Backend V β

/-- The state of the system.  `calls` lists all calls made so far, so a call
    keeps its position; `queue` and `workers` are the insert pool's. -/
structure Sys (V β : Type) where
  cache : Cache V
  backend : β
  calls : List (Call V)
  queue : List (Task V)
  workers : List (Option (Running V))

/-- A step of the system. -/
inductive Label (V : Type) where
  /-- `search` up to its verdict; `resSize` is the size of the caller's `res`. -/
  | search (sorters : Sorters) (query : V) (K resSize : Nat)
  /-- `insert` up to the erasure of the tombstone. -/
  | insert (id : UInt32) (vec : V)
  /-- `remove` is entered; `vec` is `none` for a null pointer. -/
  | remove (id : UInt32) (vec : Option V)
  /-- The next step of a call. -/
  | call (i : Nat) (reply : Reply V)
  /-- The next step of a worker. -/
  | worker (w : Nat) (reply : Reply V)
  /-- `perform_eviction`; the wait before it may be over long since. -/
  | evict
  /-- `consolidate_shard`; the wait before it may be over long since. -/
  | consolidate (shard : Nat)
  | setWriteThetaDiscount (alpha : ℚ)
  | setWriteL1Radius (radius : Nat)
  | setSearchStrategy (strategy : SearchStrategy)

namespace Sys

variable {V β : Type} (cfg : SystemConfig V β)

def init (backend : β) (writeL1Radius : Nat) (writeThetaDiscount : ℚ) (nAsyncInsertThreads : Nat) :
    Sys V β where
  cache := Cache.init cfg.cache writeL1Radius writeThetaDiscount
  backend := backend
  calls := []
  queue := []
  workers := List.replicate nAsyncInsertThreads none

/-- The condition `wait_idle` waits for. -/
def idle (s : Sys V β) : Bool := s.queue.isEmpty && s.workers.all Option.isNone

/-- The call that a lookup leaves. -/
def lookedUp (query : V) (K : Nat) : Option Report → Call V
  | some report => .hit query K report
  | none => .missed query K

/-- What a step of a call leaves. -/
structure Next (V β : Type) where
  cache : Cache V
  backend : β
  submitted : Option (Task V)
  call : Call V

/-- The call goes on, and nothing else changes. -/
def goesOn (s : Sys V β) (call : Call V) : Next V β := ⟨s.cache, s.backend, none, call⟩

/-- The call goes on with another state of the cache. -/
def goesOnWith (s : Sys V β) (cache : Cache V) (call : Call V) : Next V β :=
  ⟨cache, s.backend, none, call⟩

/-- The loop of `handle_backend_miss` that collects what to admit. -/
def tagsToInsert (s : Sys V β) (answer : BackendAnswer) : List UInt32 :=
  (answer.map Prod.fst).filter fun t => decide (t ≠ 0xFFFFFFFF) && !s.cache.isDeletedId t

/-- The task a miss submits; `copy` is the query for a lazy theta update. -/
def missTask (K : Nat) (answer : BackendAnswer) (ids : List UInt32) (shard : Nat) (copy : Option V)
    (i : Nat) : Task V where
  shard := shard
  toBeInserted := ids
  K := K
  queryDistance := missKthDistance K answer
  query := copy
  miss := i

/-- The call submits its task and returns. -/
def submits (s : Sys V β) (query : V) (K : Nat) (answer : BackendAnswer) (ids : List UInt32)
    (shard : Nat) (copy : Option V) (i : Nat) : Next V β :=
  ⟨s.cache, s.backend, some (missTask K answer ids shard copy i), .missReturned query K answer⟩

/-- The next step of call `i`. -/
def callStep (s : Sys V β) (i : Nat) : Call V → Reply V → Option (Next V β)
  -- handle_backend_miss
  | .missed query K, .proceed => some (s.goesOn (.searching query K))
  | .searching query K, .answer answer =>
    if answer.length = K ∧ cfg.backend.answers s.backend query K answer = true then
      some (s.goesOn (.answered query K answer))
    else none
  | .answered query K answer, .proceed =>
    some (s.goesOn (.filtered query K answer (s.tagsToInsert answer)))
  | .filtered query K answer ids, .proceed =>
    -- the eviction in ensure_admit_shard waits for the pool to be idle
    if s.cache.ensureAdmitWaits cfg.cache = true ∧ s.idle = false then none
    else
      let r := s.cache.ensureAdmitShard cfg.cache
      some (s.goesOnWith r.1 (.placed query K answer ids r.2))
  | .placed query K answer ids shard, .proceed =>
    if cfg.cache.lazyThetaUpdates then
      some (s.submits query K answer ids shard (some query) i)
    else
      some (s.goesOnWith (s.cache.updateTheta cfg.cache query K (missKthDistance K answer))
        (.learned query K answer ids shard))
  | .learned query K answer ids shard, .proceed =>
    some (s.submits query K answer ids shard none i)
  -- insert
  | .inserting id vec, .proceed =>
    if cfg.backend.supportsUpdates then
      match cfg.backend.insert s.backend id vec with
      | none => some (s.goesOn .threw)
      | some backend => some ⟨s.cache, backend, none, .choosing id vec⟩
    else some (s.goesOn (.choosing id vec))
  | .choosing id vec, .proceed =>
    -- so does a consolidation of the active shard
    if s.cache.reclaims cfg.cache s.cache.activeInsertIndexId = true ∧ s.idle = false then none
    else
      let r := s.cache.chooseDataShard cfg.cache
      some (s.goesOnWith r.1
        (match r.2 with
          | none => .penalising id vec
          | some shard => .checking id vec shard))
  | .checking id vec shard, .proceed =>
    if s.cache.passesInsertCheck shard id then some (s.goesOn (.landing id vec shard))
    else some (s.goesOn (.touching id vec shard))
  | .landing id vec shard, .proceed =>
    match s.cache.insertPointUnchecked cfg.cache shard id vec with
    | none => some (s.goesOn .threw)
    | some (cache, accepted) =>
      some (s.goesOnWith cache
        (if accepted then .noting id vec shard else .touching id vec shard))
  | .noting id vec shard, .proceed =>
    some (s.goesOnWith (s.cache.noteAdmittedTag (1 + id)) (.touching id vec shard))
  | .touching id vec shard, .proceed =>
    some (s.goesOnWith (s.cache.touchShard shard) (.penalising id vec))
  | .penalising id vec, .proceed =>
    some (s.goesOnWith (s.cache.staleWriteRegions cfg.cache (some vec)) (.insertReturned id vec))
  -- remove
  | .removing id (some vec), .proceed => some (s.goesOn (.lowering id (some vec)))
  | .removing id none, .fetched fetched =>
    if cfg.backend.fetches s.backend [id] fetched = true then
      some (s.goesOn (.lowering id (fetchedVector fetched)))
    else none
  | .lowering id vec, .proceed =>
    some (s.goesOnWith (s.cache.staleWriteRegions cfg.cache vec) (.burying id))
  | .burying id, .proceed =>
    some (s.goesOnWith { s.cache with deletedIds := insert id s.cache.deletedIds } (.forgetting id))
  | .forgetting id, .proceed =>
    some (s.goesOnWith (s.cache.forgetAdmittedTag (1 + id)) (.deleting id 0))
  | .deleting id shard, .proceed =>
    if shard < s.cache.memoryIndices.length then
      some (s.goesOnWith (s.cache.lazyDeleteIn shard (1 + id)) (.deleting id (shard + 1)))
    else if cfg.backend.supportsUpdates then
      match cfg.backend.remove s.backend id with
      | none => some (s.goesOn .threw)
      | some backend => some ⟨s.cache, backend, none, .removeReturned id⟩
    else some (s.goesOn (.removeReturned id))
  | _, _ => none

/-- The theta update at the end of a task. -/
def finished (s : Sys V β) (task : Task V) : Cache V :=
  match task.query with
  | none => s.cache
  | some query => s.cache.updateTheta cfg.cache query task.K task.queryDistance

/-- The next step of worker `w`: take a task, fetch, insert point by point, and
    then the lazy theta update.  An exception on a worker ends the program. -/
def workerStep (s : Sys V β) (w : Nat) (reply : Reply V) : Option (Sys V β) :=
  match s.workers[w]?, reply with
  | some none, .proceed =>
    match s.queue with
    | [] => none
    | task :: rest => some { s with queue := rest, workers := s.workers.set w (some (.fetching task)) }
  | some (some (.fetching task)), .vectors vectors =>
    if vectors.length = task.toBeInserted.length ∧
        cfg.backend.fetches s.backend task.toBeInserted (some (vectors.map some)) = true then
      some { s with
        workers := s.workers.set w (some (.inserting task (task.toBeInserted.zip vectors))) }
    else none
  | some (some (.inserting task ((id, vec) :: rest))), .proceed =>
    (s.cache.indexInsertPoint task.shard id vec).map fun r =>
      { s with cache := r.1, workers := s.workers.set w (some (.inserting task rest)) }
  | some (some (.inserting task [])), .proceed =>
    some { s with cache := s.finished cfg task, workers := s.workers.set w none }
  | _, _ => none

/-- The state after a step of call `i`. -/
def afterCall (s : Sys V β) (i : Nat) (next : Next V β) : Sys V β :=
  { s with
    cache := next.cache
    backend := next.backend
    calls := s.calls.set i next.call
    queue := s.queue ++ next.submitted.toList }

def step (s : Sys V β) : Label V → Option (Sys V β)
  | .search sorters query K resSize =>
    let r := s.cache.lookup cfg.cache sorters query K resSize
    some { s with
      cache := r.1
      calls := s.calls ++ [lookedUp query K r.2] }
  | .insert id vec =>
    some { s with
      cache := { s.cache with deletedIds := s.cache.deletedIds.erase id }
      calls := s.calls ++ [.inserting id vec] }
  | .remove id vec => some { s with calls := s.calls ++ [.removing id vec] }
  | .call i reply =>
    (s.calls[i]?.bind fun call => s.callStep cfg i call reply).map (s.afterCall i)
  | .worker w reply => s.workerStep cfg w reply
  | .evict => some { s with cache := s.cache.performEviction cfg.cache }
  | .consolidate shard => some { s with cache := s.cache.consolidateShard shard }
  | .setWriteThetaDiscount alpha =>
    some { s with cache := { s.cache with writeThetaDiscount := alpha } }
  | .setWriteL1Radius radius =>
    some { s with cache := { s.cache with thresholds := { s.cache.thresholds with
      pcaUtils := { s.cache.thresholds.pcaUtils with writeL1Radius := radius } } } }
  | .setSearchStrategy strategy =>
    some { s with cache := { s.cache with searchStrategy := strategy } }

/-- The states the system can be in. -/
def Reachable (s : Sys V β) : Prop :=
  ∃ backend radius alpha threads,
    Traces.Reachable (step cfg) (init cfg backend radius alpha threads) s

variable {cfg}

/-! ## Calls that nothing interrupts -/

/-- The state with call `i` and the cache moved on. -/
def moved (s : Sys V β) (i : Nat) (cache : Cache V) (call : Call V) : Sys V β :=
  { s with cache := cache, calls := s.calls.set i call }

/-- A step of call `i` that submits nothing. -/
theorem step_call {s : Sys V β} {i : Nat} {call call' : Call V} {reply : Reply V} {cache : Cache V}
    (hcall : s.calls[i]? = some call)
    (hstep : s.callStep cfg i call reply = some (s.goesOnWith cache call')) :
    step cfg s (.call i reply) = some (s.moved i cache call') := by
  rw [step, hcall, Option.bind_some, hstep, Option.map_some]
  simp [afterCall, goesOnWith, moved]

/-- The same in the middle of an uninterrupted call. -/
theorem step_moved {s : Sys V β} {i : Nat} {c cache : Cache V} {call call' : Call V}
    {reply : Reply V} (hlt : i < s.calls.length)
    (hstep : (s.moved i c call).callStep cfg i call reply =
      some ((s.moved i c call).goesOnWith cache call')) :
    step cfg (s.moved i c call) (.call i reply) = some (s.moved i cache call') := by
  rw [step_call (List.getElem?_set_self hlt) hstep]
  simp [moved]

/-- An insert that no other step interrupts admits its vector as
    `try_admit_data_vector` does in one piece. -/
theorem run_tryAdmitDataVector {s : Sys V β} {i : Nat} {id : UInt32} {vec : V} {cache : Cache V}
    {placed : Bool} (hcall : s.calls[i]? = some (.choosing id vec))
    (hwait : s.cache.reclaims cfg.cache s.cache.activeInsertIndexId = true → s.idle = true)
    (h : s.cache.tryAdmitDataVector cfg.cache id vec = some (cache, placed)) :
    ∃ n, Traces.run (step cfg) s (List.replicate n (.call i .proceed)) =
      some (s.moved i cache (.penalising id vec)) := by
  have hlt := (List.getElem?_eq_some_iff.mp hcall).1
  have hfree : ¬ (s.cache.reclaims cfg.cache s.cache.activeInsertIndexId = true ∧ s.idle = false) := by
    rintro ⟨hreclaims, hbusy⟩
    rw [hwait hreclaims] at hbusy
    cases hbusy
  have hchoose : s.callStep cfg i (.choosing id vec) .proceed =
      some (s.goesOnWith (s.cache.chooseDataShard cfg.cache).1
        (match (s.cache.chooseDataShard cfg.cache).2 with
          | none => .penalising id vec
          | some shard => .checking id vec shard)) := if_neg hfree
  have hfirst := step_call hcall hchoose
  unfold Cache.tryAdmitDataVector at h
  generalize s.cache.chooseDataShard cfg.cache = choice at h hfirst
  rcases choice with ⟨chosen, _ | shard⟩
  · -- no shard has room
    obtain ⟨rfl, _⟩ := Prod.mk.inj (Option.some.inj h)
    exact ⟨1, Traces.run_singleton.mpr hfirst⟩
  · obtain ⟨landed, hland, heq⟩ := Option.map_eq_some_iff.mp h
    obtain ⟨rfl, _⟩ := Prod.mk.inj heq
    have htouch : ∀ c : Cache V, step cfg (s.moved i c (.touching id vec shard)) (.call i .proceed) =
        some (s.moved i (c.touchShard shard) (.penalising id vec)) := fun c => step_moved hlt rfl
    unfold Cache.insertPointIntoShard at hland
    by_cases hcheck : chosen.passesInsertCheck shard id = true
    · -- check, land, note and touch
      rw [if_pos hcheck] at hland
      obtain ⟨⟨c, accepted⟩, hpoint, rfl⟩ := Option.map_eq_some_iff.mp hland
      have hchecked : step cfg (s.moved i chosen (.checking id vec shard)) (.call i .proceed) =
          some (s.moved i chosen (.landing id vec shard)) := step_moved hlt (if_pos hcheck)
      have hlanded : step cfg (s.moved i chosen (.landing id vec shard)) (.call i .proceed) =
          some (s.moved i c (if accepted then .noting id vec shard else .touching id vec shard)) := by
        refine step_moved hlt ?_
        have hcache : (s.moved i chosen (.landing id vec shard)).cache = chosen := rfl
        simp only [callStep, hcache, hpoint]
      cases accepted with
      | false => exact ⟨4, Traces.run_cons.mpr ⟨_, hfirst, Traces.run_cons.mpr ⟨_, hchecked,
          Traces.run_cons.mpr ⟨_, hlanded, Traces.run_singleton.mpr (htouch c)⟩⟩⟩⟩
      | true =>
        have hnoted : step cfg (s.moved i c (.noting id vec shard)) (.call i .proceed) =
            some (s.moved i (c.noteAdmittedTag (1 + id)) (.touching id vec shard)) :=
          step_moved hlt rfl
        exact ⟨5, Traces.run_cons.mpr ⟨_, hfirst, Traces.run_cons.mpr ⟨_, hchecked,
          Traces.run_cons.mpr ⟨_, hlanded, Traces.run_cons.mpr ⟨_, hnoted,
            Traces.run_singleton.mpr (htouch _)⟩⟩⟩⟩⟩
    · -- the tombstone check fails, and nothing lands
      rw [if_neg hcheck] at hland
      obtain rfl := Option.some.inj hland
      have hrefused : step cfg (s.moved i chosen (.checking id vec shard)) (.call i .proceed) =
          some (s.moved i chosen (.touching id vec shard)) := step_moved hlt (if_neg hcheck)
      exact ⟨3, Traces.run_cons.mpr ⟨_, hfirst, Traces.run_cons.mpr ⟨_, hrefused,
        Traces.run_singleton.mpr (htouch chosen)⟩⟩⟩

end Sys

end QvCache
