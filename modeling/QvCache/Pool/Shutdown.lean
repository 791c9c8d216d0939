/-
  QvCache.Pool.Shutdown

  The destruction of a QVCache.  The class has no destructor of its own, so its
  members go in the reverse order of their declaration, and the insert pool
  runs what is in its queue when its turn comes.  The queued lambdas reach back
  into the QVCache: `backend` and `memory_indices` are declared before the
  pool and outlive it, `theta_map`, `theta_map_mutex` and `pca_utils` are
  declared after it and are gone by then.
-/

import QvCache.Pool.Failure

namespace QvCache

/-! ## The members -/

/-- The data members of `QVCache`. -/
inductive Member where
  | backend | memoryIndices | activeInsertIndexId | lruCache | dataPath | pcaPrefix | dim
  | alignedDim | numPoints | memoryIndexMaxPointsPerIndex | numberOfMiniIndexes | searchThreads
  | useReconstructedVectors | insertPool | thetaMap | thetaMapMutex | p | deviationFactor
  | memoryL | beamwidth | useRegionalTheta | nAsyncInsertThreads | lazyThetaUpdates
  | maxSearchThreads | searchPool | metric | evictionInProgress | evictionFuture | evictionMutex
  | missAdmitDelta | writeThetaDiscount | writeL1Radius | globalThetaDiscount | deletedMutex
  | deletedIds | admitFifoMutex | admitFifo | admitSet | pointEvictions | regionInvalidations
  | pcaUtils | searchStrategy
deriving DecidableEq

/-- The members in the order of their declaration. -/
def declared : List Member :=
  [.backend, .memoryIndices, .activeInsertIndexId, .lruCache, .dataPath, .pcaPrefix, .dim,
    .alignedDim, .numPoints, .memoryIndexMaxPointsPerIndex, .numberOfMiniIndexes, .searchThreads,
    .useReconstructedVectors, .insertPool, .thetaMap, .thetaMapMutex, .p, .deviationFactor,
    .memoryL, .beamwidth, .useRegionalTheta, .nAsyncInsertThreads, .lazyThetaUpdates,
    .maxSearchThreads, .searchPool, .metric, .evictionInProgress, .evictionFuture, .evictionMutex,
    .missAdmitDelta, .writeThetaDiscount, .writeL1Radius, .globalThetaDiscount, .deletedMutex,
    .deletedIds, .admitFifoMutex, .admitFifo, .admitSet, .pointEvictions, .regionInvalidations,
    .pcaUtils, .searchStrategy]

variable {V : Type}

/-- The members a step of a task uses: `fetch_vectors_by_ids` and the copies of
    its result, `insert_point`, `update_theta`. -/
def TaskStep.uses (useRegionalTheta : Bool) : TaskStep V → List Member
  | .fetch _ => [.backend, .alignedDim, .dim]
  | .insertPoint _ _ => [.memoryIndices]
  | .updateTheta _ _ _ =>
    if useRegionalTheta then [.thetaMapMutex, .useRegionalTheta, .pcaUtils, .p]
    else [.thetaMapMutex, .useRegionalTheta, .thetaMap, .metric, .p, .globalThetaDiscount]
  | .freeQuery _ => []

def TaskStep.isUpdate : TaskStep V → Bool
  | .updateTheta _ _ _ => true
  | _ => false

/-- The steps a worker has left. -/
def Worker.rest : Worker V → List (TaskStep V)
  | .running _ rest => rest
  | _ => []

/-- The steps that the tasks in the queue and with the workers have left. -/
def InsertPool.pendingSteps (hasThetaUpdate : Bool) (s : InsertPool V) : List (TaskStep V) :=
  s.tasks.flatMap (fun e => e.2.steps hasThetaUpdate) ++ s.workers.flatMap Worker.rest

/-! ## The machine -/

/-- A step of a worker. -/
def PoolLabel.ofWorker : PoolLabel V → Bool
  | .take _ | .wakeWorker _ | .act _ _ | .finish _ | .decrement _ | .notifyAll _ => true
  | _ => false

/-- A step of `~InsertThreadPool`. -/
def PoolLabel.ofDestructor : PoolLabel V → Bool
  | .destroy | .notifyStop | .join => true
  | _ => false

/-- A QVCache that is being destroyed.  `alive` are the members that still
    exist, `dangling` those that a step of a task used after they were gone. -/
structure Shutdown (V : Type) where
  pool : InsertPool V
  alive : List Member
  dangling : List Member

inductive ShutdownLabel (V : Type) where
  | pool (l : PoolLabel V)
  /-- The destructor of the next member has run. -/
  | destroyMember

/-- The members that the step under a label uses. -/
def InsertPool.touched (useRegionalTheta : Bool) (s : InsertPool V) : PoolLabel V → List Member
  | .act w _ =>
    match s.workers[w]? with
    | some (.running _ (a :: _)) => a.uses useRegionalTheta
    | _ => []
  | _ => []

namespace Shutdown

def start (pool : InsertPool V) : Shutdown V := ⟨pool, declared, []⟩

/-- A step of the pool, by a worker or by the pool's destructor. -/
def poolStep (useRegionalTheta hasThetaUpdate : Bool) (u : Shutdown V) (l : PoolLabel V) :
    Option (Shutdown V) :=
  (u.pool.step hasThetaUpdate l).map fun pool =>
    { u with
      pool := pool
      -- a use of a member that is gone is noted, and the thread goes on
      dangling := u.dangling ++
        (u.pool.touched useRegionalTheta l).filter fun m => decide (m ∉ u.alive) }

def step (useRegionalTheta hasThetaUpdate : Bool) (u : Shutdown V) :
    ShutdownLabel V → Option (Shutdown V)
  | .pool l =>
    -- the threads run on while members go; the destructor of the pool has its turn
    if l.ofWorker then u.poolStep useRegionalTheta hasThetaUpdate l
    else if l.ofDestructor ∧ u.alive.getLast? = some .insertPool then
      u.poolStep useRegionalTheta hasThetaUpdate l
    else none
  | .destroyMember =>
    -- the pool goes once its destructor has joined the workers
    if u.pool.terminated = false ∧ u.alive ≠ [] ∧
        (u.alive.getLast? = some .insertPool → u.pool.destructor = .returned) then
      some { u with alive := u.alive.dropLast }
    else none

variable {useRegionalTheta hasThetaUpdate : Bool} {u u' : Shutdown V}

/-- A step of the shutdown is one of the pool, or a member goes. -/
theorem step_cases {l : ShutdownLabel V} (h : step useRegionalTheta hasThetaUpdate u l = some u') :
    (∃ pl pool, (pl.ofWorker = true ∨ pl.ofDestructor = true) ∧
      u.pool.step hasThetaUpdate pl = some pool ∧
      u' = ⟨pool, u.alive, u.dangling ++
        (u.pool.touched useRegionalTheta pl).filter fun m => decide (m ∉ u.alive)⟩) ∨
    (u' = ⟨u.pool, u.alive.dropLast, u.dangling⟩ ∧
      (u.alive.getLast? = some .insertPool → u.pool.destructor = .returned)) := by
  cases l with
  | pool pl =>
    have hpool : u.poolStep useRegionalTheta hasThetaUpdate pl = some u' →
        (pl.ofWorker = true ∨ pl.ofDestructor = true) → ∃ pl pool,
          (pl.ofWorker = true ∨ pl.ofDestructor = true) ∧
          u.pool.step hasThetaUpdate pl = some pool ∧
          u' = ⟨pool, u.alive, u.dangling ++
            (u.pool.touched useRegionalTheta pl).filter fun m => decide (m ∉ u.alive)⟩ := by
      intro hstep hkind
      obtain ⟨pool, hpl, rfl⟩ := Option.map_eq_some_iff.mp hstep
      exact ⟨pl, pool, hkind, hpl, rfl⟩
    dsimp only [step] at h
    split_ifs at h with hworker hdestructor
    · exact Or.inl (hpool h (Or.inl hworker))
    · exact Or.inl (hpool h (Or.inr hdestructor.1))
  | destroyMember =>
    dsimp only [step] at h
    split_ifs at h with hgoes
    obtain rfl := Option.some.inj h
    exact Or.inr ⟨rfl, hgoes.2.2⟩

/-! ## Updates that are still to come -/

theorem mem_pendingSteps {s : InsertPool V} {a : TaskStep V} :
    a ∈ s.pendingSteps hasThetaUpdate ↔
      (∃ e ∈ s.tasks, a ∈ e.2.steps hasThetaUpdate) ∨ ∃ x ∈ s.workers, a ∈ x.rest := by
  rw [InsertPool.pendingSteps, List.mem_append, List.mem_flatMap, List.mem_flatMap]

/-- Nothing is added to what is left while nobody submits. -/
theorem pendingSteps_of_move {s s' : InsertPool V} {l : PoolLabel V}
    (h : InsertPool.Move hasThetaUpdate s l s') (hl : ∀ task, l ≠ .submit task) {a : TaskStep V}
    (ha : a ∈ s'.pendingSteps hasThetaUpdate) : a ∈ s.pendingSteps hasThetaUpdate := by
  -- a worker in one slot changes, and what it has left was left before
  have hset : ∀ {w : Nat} {y : Worker V},
      (a ∈ y.rest → a ∈ s.pendingSteps hasThetaUpdate) →
      a ∈ (s.setWorker w y).pendingSteps hasThetaUpdate → a ∈ s.pendingSteps hasThetaUpdate := by
    intro w y hy ha
    rcases mem_pendingSteps.mp ha with hqueue | ⟨x, hx, hrest⟩
    · exact mem_pendingSteps.mpr (Or.inl hqueue)
    · rcases List.mem_or_eq_of_mem_set hx with hold | rfl
      · exact mem_pendingSteps.mpr (Or.inr ⟨x, hold, hrest⟩)
      · exact hy hrest
  have hnone : ∀ {y : Worker V}, y.rest = [] → a ∈ y.rest → a ∈ s.pendingSteps hasThetaUpdate := by
    intro y hy hrest
    rw [hy] at hrest
    exact absurd hrest List.not_mem_nil
  -- only a pop brings new steps to a worker, and takes them from the queue
  cases h with
  | submitted task hfree halive => exact absurd rfl (hl task)
  | notified i w hcall hw => exact hset (hnone rfl) ha
  | popped w n task rest hw htasks =>
    rcases mem_pendingSteps.mp ha with ⟨e, he, hsteps⟩ | ⟨x, hx, hrest⟩
    · have hmem : e ∈ s.tasks := htasks ▸ List.mem_cons_of_mem _ he
      exact mem_pendingSteps.mpr (Or.inl ⟨e, hmem, hsteps⟩)
    · rcases List.mem_or_eq_of_mem_set hx with hold | rfl
      · exact mem_pendingSteps.mpr (Or.inr ⟨x, hold, hrest⟩)
      · have hmem : (n, task) ∈ s.tasks := htasks ▸ List.mem_cons_self
        exact mem_pendingSteps.mpr (Or.inl ⟨_, hmem, hrest⟩)
  | stopped w hw htasks hstop => exact hset (hnone rfl) ha
  | waited w hw htasks => exact hset (hnone rfl) ha
  | wokeWorker w hw => exact hset (hnone rfl) ha
  | performed w n b rest hw =>
    refine hset (w := w) (y := .running n rest) (fun hrest => ?_) ha
    exact mem_pendingSteps.mpr
      (Or.inr ⟨_, List.mem_of_getElem? hw, List.mem_cons_of_mem b hrest⟩)
  | completed w n hw => exact hset (w := w) (y := .finished) (hnone rfl) ha
  | decremented w hw => exact hset (w := w) (y := .notifying) (hnone rfl) ha
  | notifiedAll w hw => exact hset (w := w) (y := .idle) (hnone rfl) ha
  | stopNotified hstopping =>
    rcases mem_pendingSteps.mp ha with hqueue | ⟨x, hx, hrest⟩
    · exact mem_pendingSteps.mpr (Or.inl hqueue)
    · have hne : x ≠ .idle := by
        rintro rfl
        exact List.not_mem_nil hrest
      exact mem_pendingSteps.mpr (Or.inr ⟨x, InsertPool.mem_of_woken hx hne, hrest⟩)
  | _ => exact ha

/-! ## No update left -/

/-- The members declared before the insert pool. -/
def outlivingPool : List Member := declared.take 13

theorem outlivingPool_subset {alive : List Member} (h : alive <+: declared)
    (hpool : Member.insertPool ∈ alive) : outlivingPool ⊆ alive := by
  rw [List.prefix_iff_eq_take] at h
  -- members go from the end, so with the pool all that precede it are there
  have hlen : 13 ≤ alive.length := by
    by_contra hlt
    have hsub : alive ⊆ declared.take 13 := by
      rw [h]
      exact List.take_subset_take_left declared (by omega)
    exact absurd (hsub hpool) (by decide)
  rw [h]
  exact List.take_subset_take_left declared hlen

/-- The steps of a task but the update use what outlives the pool. -/
theorem uses_subset {a : TaskStep V} (h : a.isUpdate = false) :
    a.uses useRegionalTheta ⊆ outlivingPool := by
  cases a with
  | fetch ids =>
    show [Member.backend, .alignedDim, .dim] ⊆ outlivingPool
    decide
  | insertPoint shard id =>
    show [Member.memoryIndices] ⊆ outlivingPool
    decide
  -- the one step that reaches past the pool
  | updateTheta query K d => cases h
  | freeQuery query => exact List.nil_subset _

/-- A shutdown with no update left, or nobody to run it. -/
structure Harmless (threadCount : Nat) (hasThetaUpdate : Bool) (u : Shutdown V) : Prop where
  closing : InsertPool.Closing threadCount u.pool
  order : u.alive <+: declared
  pool : .insertPool ∈ u.alive ∨ u.pool.destructor = .returned
  updates : threadCount = 0 ∨ ∀ a ∈ u.pool.pendingSteps hasThetaUpdate, a.isUpdate = false
  safe : u.dangling = []

/-- A step of a task that is not an update finds what it uses. -/
theorem Harmless.touched {threadCount : Nat} (h : Harmless threadCount hasThetaUpdate u)
    (l : PoolLabel V) :
    ((u.pool.touched useRegionalTheta l).filter fun m => decide (m ∉ u.alive)) = [] := by
  refine List.filter_eq_nil_iff.mpr fun m hm hgone => of_decide_eq_true hgone ?_
  unfold InsertPool.touched at hm
  split at hm
  next w _ =>
    split at hm
    next n a rest hw =>
      have hmem := List.mem_of_getElem? hw
      have hpos : threadCount ≠ 0 := by
        rw [← h.closing.width]
        exact (List.length_pos_of_mem hmem).ne'
      have hupdate := h.updates.resolve_left hpos a
        (mem_pendingSteps.mpr (Or.inr ⟨_, hmem, List.mem_cons_self⟩))
      -- a worker with a task has not been joined
      have hpool : Member.insertPool ∈ u.alive := h.pool.resolve_right fun hret => by
        cases h.closing.returned hret _ hmem
      exact outlivingPool_subset h.order hpool (uses_subset hupdate hm)
    next => exact absurd hm List.not_mem_nil
  next => exact absurd hm List.not_mem_nil

theorem destructor_returned_of_move {s s' : InsertPool V} {l : PoolLabel V}
    (h : InsertPool.Move hasThetaUpdate s l s') (hs : s.destructor = .returned) :
    s'.destructor = .returned := by
  cases h with
  | destroyed hfree halive =>
    rw [hs] at halive
    cases halive
  | stopNotified hstopping =>
    rw [hs] at hstopping
    cases hstopping
  | joined w hjoin hw =>
    rw [hs] at hjoin
    cases hjoin
  | allJoined w hjoin hw => rfl
  | _ => exact hs

theorem Harmless.step {threadCount : Nat} (h : Harmless threadCount hasThetaUpdate u)
    {l : ShutdownLabel V} (hstep : step useRegionalTheta hasThetaUpdate u l = some u') :
    Harmless threadCount hasThetaUpdate u' := by
  rcases step_cases hstep with ⟨pl, pool, hkind, hpl, rfl⟩ | ⟨rfl, hgoes⟩
  · have hmove := InsertPool.move_of_step hpl
    have hsubmit : ∀ task, pl ≠ .submit task := by
      rintro task rfl
      rcases hkind with hkind | hkind <;> cases hkind
    refine ⟨InsertPool.closing_of_move hmove h.closing, h.order,
      h.pool.imp_right (destructor_returned_of_move hmove), ?_, ?_⟩
    · exact h.updates.imp_right fun hnone a ha => hnone a (pendingSteps_of_move hmove hsubmit ha)
    · show u.dangling ++ _ = []
      rw [h.touched, h.safe, List.append_nil]
  · refine ⟨h.closing, (List.dropLast_prefix _).trans h.order, ?_, h.updates, h.safe⟩
    -- either the pool went, after its destructor, or something declared after it
    by_cases hlast : u.alive.getLast? = some .insertPool
    · exact Or.inr (hgoes hlast)
    · refine h.pool.imp_left fun hmem => ?_
      -- another member was the last one
      have hne : u.alive ≠ [] := List.ne_nil_of_mem hmem
      have hsplit := List.dropLast_append_getLast hne
      rw [← hsplit] at hmem
      refine (List.mem_append.mp hmem).resolve_right fun hlast' => hlast ?_
      rw [List.getLast?_eq_some_getLast hne, ← List.mem_singleton.mp hlast']

theorem dangling_eq_nil {threadCount : Nat} {s : InsertPool V} {t : Shutdown V}
    (hclosing : InsertPool.Closing threadCount s)
    (hupdates : threadCount = 0 ∨ ∀ a ∈ s.pendingSteps hasThetaUpdate, a.isUpdate = false)
    (h : Traces.Reachable (step useRegionalTheta hasThetaUpdate) (start s) t) :
    t.dangling = [] := by
  have hpool : Member.insertPool ∈ declared := by decide
  have hstart : Harmless threadCount hasThetaUpdate (start s) :=
    ⟨hclosing, List.prefix_refl _, Or.inl hpool, hupdates, rfl⟩
  exact (Traces.reachable_invariant (fun _ _ _ hu hstep => hu.step hstep) hstart h).safe

/-! ## An update left -/

/-- Worker `w` can go on from `x`, with `tasks` in the queue. -/
structure Drives (alive : List Member) (tasks : List (Nat × Task V)) (w : Nat) (x : Worker V)
    (u : Shutdown V) : Prop where
  alive : u.alive = alive
  running : u.pool.terminated = false
  free : u.pool.mtxFree = true
  tasks : u.pool.tasks = tasks
  worker : u.pool.workers[w]? = some x

variable {alive : List Member} {tasks : List (Nat × Task V)} {w : Nat} {x y : Worker V}

/-- A step of a worker that leaves its slot with `y`. -/
theorem Drives.of_step (useRegionalTheta : Bool) (h : Drives alive tasks w x u)
    {tasks' : List (Nat × Task V)} {l : PoolLabel V} {pool : InsertPool V}
    (hstep : u.pool.step hasThetaUpdate l = some pool) (hkind : l.ofWorker = true)
    (hrunning : pool.terminated = false) (hfree : pool.mtxFree = true)
    (htasks : pool.tasks = tasks') (hworkers : pool.workers = u.pool.workers.set w y) :
    ∃ u', Traces.Reachable (step useRegionalTheta hasThetaUpdate) u u' ∧
      Drives alive tasks' w y u' ∧
      u'.dangling = u.dangling ++
        (u.pool.touched useRegionalTheta l).filter fun m => decide (m ∉ alive) := by
  obtain ⟨hlt, _⟩ := List.getElem?_eq_some_iff.mp h.worker
  let u' : Shutdown V := ⟨pool, u.alive, u.dangling ++
    (u.pool.touched useRegionalTheta l).filter fun m => decide (m ∉ u.alive)⟩
  have hu' : step useRegionalTheta hasThetaUpdate u (.pool l) = some u' := by
    simp only [step, hkind, if_true, poolStep, hstep, Option.map_some]
    rfl
  refine ⟨u', Traces.Reachable.of_step hu', ⟨h.alive, hrunning, hfree, htasks, ?_⟩, ?_⟩
  · show pool.workers[w]? = some y
    rw [hworkers]
    exact List.getElem?_set_self hlt
  · show u.dangling ++ _ = _
    rw [h.alive]

/-- The next step of a task. -/
theorem Drives.act {n : Nat} {a : TaskStep V} {rest : List (TaskStep V)}
    (h : Drives alive tasks w (.running n (a :: rest)) u) (ha : a.mustThrow = false) :
    ∃ u', Traces.Reachable (step useRegionalTheta hasThetaUpdate) u u' ∧
      Drives alive tasks w (.running n rest) u' ∧
      u'.dangling = u.dangling ++
        (a.uses useRegionalTheta).filter fun m => decide (m ∉ alive) := by
  have hstep : u.pool.step hasThetaUpdate (.act w false) = some (u.pool.perform w n a rest) := by
    simp [InsertPool.step, h.running, h.worker, ha]
  have htouched : u.pool.touched useRegionalTheta (.act w false) = a.uses useRegionalTheta := by
    simp only [InsertPool.touched, h.worker]
  rw [← htouched]
  exact h.of_step useRegionalTheta hstep rfl h.running h.free h.tasks rfl

/-- All the steps a task has left. -/
theorem Drives.acts {n : Nat} {steps : List (TaskStep V)}
    (h : Drives alive tasks w (.running n steps) u) (hsteps : ∀ a ∈ steps, a.mustThrow = false) :
    ∃ u', Traces.Reachable (step useRegionalTheta hasThetaUpdate) u u' ∧
      Drives alive tasks w (.running n []) u' ∧ u.dangling <+: u'.dangling ∧
      ∀ a ∈ steps, ∀ m ∈ a.uses useRegionalTheta, m ∉ alive → m ∈ u'.dangling := by
  induction steps generalizing u with
  | nil => exact ⟨u, Traces.Reachable.refl u, h, List.prefix_refl _, by simp⟩
  | cons a rest ih =>
    obtain ⟨u₁, hreach₁, h₁, hdangling₁⟩ := h.act (hsteps a List.mem_cons_self)
    obtain ⟨u₂, hreach₂, h₂, hprefix₂, huses₂⟩ :=
      ih h₁ fun b hb => hsteps b (List.mem_cons_of_mem a hb)
    have hprefix₁ : u.dangling <+: u₁.dangling := hdangling₁ ▸ List.prefix_append _ _
    refine ⟨u₂, hreach₁.trans hreach₂, h₂, hprefix₁.trans hprefix₂, fun b hb m hm hgone => ?_⟩
    rcases List.mem_cons.mp hb with rfl | hb
    · refine hprefix₂.subset ?_
      rw [hdangling₁]
      exact List.mem_append_right _ (List.mem_filter.mpr ⟨hm, decide_eq_true hgone⟩)
    · exact huses₂ b hb m hm hgone

/-- A worker that has notified is idle again. -/
theorem Drives.notifyAll (h : Drives alive tasks w .notifying u) :
    ∃ u', Traces.Reachable (step useRegionalTheta hasThetaUpdate) u u' ∧
      Drives alive tasks w .idle u' := by
  have hnotify : u.pool.step hasThetaUpdate (.notifyAll w) =
      some (u.pool.wakeWaiters.setWorker w .idle) := by
    simp [InsertPool.step, h.running, h.worker]
  have hfree : (u.pool.wakeWaiters.setWorker w .idle).mtxFree = true := by
    show (u.pool.calls.map PoolCall.woken).all _ = true
    rw [List.all_map, List.all_eq_true]
    intro call hcall
    have hcall' := List.all_eq_true.mp h.free call hcall
    cases call <;> exact hcall'
  obtain ⟨u', hreach, h', _⟩ :=
    h.of_step useRegionalTheta hnotify rfl h.running hfree h.tasks rfl
  exact ⟨u', hreach, h'⟩

theorem Drives.decrement (h : Drives alive tasks w .finished u) :
    ∃ u', Traces.Reachable (step useRegionalTheta hasThetaUpdate) u u' ∧
      Drives alive tasks w .idle u' := by
  have hdecrement : u.pool.step hasThetaUpdate (.decrement w) = some { u.pool with
      inflight := u.pool.inflight - 1, workers := u.pool.workers.set w .notifying } := by
    simp [InsertPool.step, h.running, h.worker]
  obtain ⟨u₁, hreach₁, h₁, _⟩ :=
    h.of_step useRegionalTheta hdecrement rfl h.running h.free h.tasks rfl
  obtain ⟨u₂, hreach₂, h₂⟩ := h₁.notifyAll
  exact ⟨u₂, hreach₁.trans hreach₂, h₂⟩

/-- A worker that has done its task comes back for the next one. -/
theorem Drives.finish {n : Nat} (h : Drives alive tasks w (.running n []) u) :
    ∃ u', Traces.Reachable (step useRegionalTheta hasThetaUpdate) u u' ∧
      Drives alive tasks w .idle u' := by
  have hfinish : u.pool.step hasThetaUpdate (.finish w) = some (u.pool.complete w n) := by
    simp [InsertPool.step, h.running, h.worker]
  obtain ⟨u₁, hreach₁, h₁, _⟩ :=
    h.of_step useRegionalTheta hfinish rfl h.running h.free h.tasks rfl
  obtain ⟨u₂, hreach₂, h₂⟩ := h₁.decrement
  exact ⟨u₂, hreach₁.trans hreach₂, h₂⟩

/-- A worker in the loop gets back to its start. -/
theorem Drives.toIdle (h : Drives alive tasks w x u) (hx : x ≠ .exited)
    (hrest : ∀ a ∈ x.rest, a.mustThrow = false) :
    ∃ u', Traces.Reachable (step useRegionalTheta hasThetaUpdate) u u' ∧
      Drives alive tasks w .idle u' := by
  cases x with
  | idle => exact ⟨u, Traces.Reachable.refl u, h⟩
  | asleep =>
    have hwake : u.pool.step hasThetaUpdate (.wakeWorker w) = some (u.pool.setWorker w .idle) := by
      simp [InsertPool.step, h.running, h.worker]
    obtain ⟨u', hreach, h', _⟩ :=
      h.of_step useRegionalTheta hwake rfl h.running h.free h.tasks rfl
    exact ⟨u', hreach, h'⟩
  | running n rest =>
    obtain ⟨u₁, hreach₁, h₁, _⟩ := h.acts hrest
    obtain ⟨u₂, hreach₂, h₂⟩ := h₁.finish
    exact ⟨u₂, hreach₁.trans hreach₂, h₂⟩
  | finished => exact h.decrement
  | notifying => exact h.notifyAll
  | exited => exact absurd rfl hx

/-- An idle worker takes the next task. -/
theorem Drives.take {n : Nat} {task : Task V} {rest : List (Nat × Task V)}
    (h : Drives alive ((n, task) :: rest) w .idle u) :
    ∃ u', Traces.Reachable (step useRegionalTheta hasThetaUpdate) u u' ∧
      Drives alive rest w (.running n (task.steps hasThetaUpdate)) u' := by
  have htake : u.pool.step hasThetaUpdate (.take w) =
      some (u.pool.pop hasThetaUpdate w n task rest) := by
    simp [InsertPool.step, InsertPool.takeStep, h.running, h.worker, h.free, h.tasks]
  obtain ⟨u', hreach, h', _⟩ := h.of_step useRegionalTheta htake rfl h.running h.free rfl rfl
  exact ⟨u', hreach, h'⟩

/-- An idle worker gets to every task of the queue. -/
theorem Drives.reaches (h : Drives alive tasks w .idle u)
    (hthrow : ∀ e ∈ tasks, ∀ a ∈ e.2.steps hasThetaUpdate, a.mustThrow = false)
    {e : Nat × Task V} (he : e ∈ tasks) {a : TaskStep V} (ha : a ∈ e.2.steps hasThetaUpdate)
    {m : Member} (hm : m ∈ a.uses useRegionalTheta) (hgone : m ∉ alive) :
    ∃ u', Traces.Reachable (step useRegionalTheta hasThetaUpdate) u u' ∧ m ∈ u'.dangling := by
  -- by the tasks in front: the worker does each of them and comes back
  induction tasks generalizing u with
  | nil => exact absurd he List.not_mem_nil
  | cons next rest ih =>
    obtain ⟨u₁, hreach₁, h₁⟩ := h.take
    obtain ⟨u₂, hreach₂, h₂, _, huses₂⟩ := h₁.acts (hthrow next List.mem_cons_self)
    rcases List.mem_cons.mp he with rfl | hrest
    · exact ⟨u₂, hreach₁.trans hreach₂, huses₂ a ha m hm hgone⟩
    · obtain ⟨u₃, hreach₃, h₃⟩ := h₂.finish
      obtain ⟨u₄, hreach₄, h₄⟩ :=
        ih h₃ (fun e he => hthrow e (List.mem_cons_of_mem next he)) hrest
      exact ⟨u₄, ((hreach₁.trans hreach₂).trans hreach₃).trans hreach₄, h₄⟩

/-- A member that is not the pool can go. -/
theorem destroyMember_reachable {pool : InsertPool V} {alive : List Member} {m : Member}
    (hrunning : pool.terminated = false) (hm : m ≠ .insertPool) :
    Traces.Reachable (step useRegionalTheta hasThetaUpdate)
      (⟨pool, alive ++ [m], []⟩ : Shutdown V) ⟨pool, alive, []⟩ := by
  refine Traces.Reachable.of_step (l := .destroyMember) ?_
  have hlast : (alive ++ [m]).getLast? = some m := List.getLast?_concat
  simp [step, hrunning, hlast, hm]

/-- The members declared after the pool can all go before it. -/
theorem destroyMembers_reachable {pool : InsertPool V} {alive : List Member} (gone : List Member)
    (hrunning : pool.terminated = false) (hgone : .insertPool ∉ gone) :
    Traces.Reachable (step useRegionalTheta hasThetaUpdate)
      (⟨pool, alive ++ gone, []⟩ : Shutdown V) ⟨pool, alive, []⟩ := by
  -- the last one declared goes first
  induction gone using List.reverseRecOn with
  | nil =>
    rw [List.append_nil]
    exact Traces.Reachable.refl _
  | append_singleton rest m ih =>
    have hne : m ≠ .insertPool := fun heq =>
      hgone (List.mem_append_right _ (List.mem_singleton.mpr heq.symm))
    have hrest := ih fun hmem => hgone (List.mem_append_left _ hmem)
    rw [← List.append_assoc]
    exact (destroyMember_reachable hrunning hne).trans hrest

/-- The insert pool and what is declared before it. -/
def uptoPool : List Member := declared.take 14

theorem start_reachable {pool : InsertPool V} (hrunning : pool.terminated = false) :
    Traces.Reachable (step useRegionalTheta hasThetaUpdate) (start pool) ⟨pool, uptoPool, []⟩ := by
  have hsplit : declared = uptoPool ++ declared.drop 14 := (List.take_append_drop 14 declared).symm
  have hgone : Member.insertPool ∉ declared.drop 14 := by decide
  rw [start, hsplit]
  exact destroyMembers_reachable (declared.drop 14) hrunning hgone

/-! ## When the destruction is safe -/

/-- The destructor of a QVCache starts on this pool.  A miss never submits the
    id that stands for "no result". -/
structure DestructorStarts (threadCount : Nat) (hasThetaUpdate : Bool) (s : InsertPool V) :
    Prop where
  reachable : Traces.Reachable (InsertPool.step hasThetaUpdate) (InsertPool.init threadCount) s
  running : s.terminated = false
  untouched : s.destructor = .notCalled
  quiet : s.mtxFree = true
  ids : ∀ task ∈ s.submitted, 0xFFFFFFFF ∉ task.toBeInserted

/-- No step of a task of a miss is bound to fail. -/
theorem mustThrow_of_mem_steps {task : Task V} (h : 0xFFFFFFFF ∉ task.toBeInserted)
    {a : TaskStep V} (ha : a ∈ task.steps hasThetaUpdate) : a.mustThrow = false := by
  cases a with
  | insertPoint shard id =>
    have hid : id ∈ task.toBeInserted := by
      unfold Task.steps at ha
      rcases List.mem_append.mp ha with ha | ha
      · rcases List.mem_cons.mp ha with heq | ha
        · cases heq
        · obtain ⟨id', hmem, heq⟩ := List.mem_map.mp ha
          exact (TaskStep.insertPoint.inj heq).2 ▸ hmem
      · cases hquery : task.query <;> cases hasThetaUpdate <;> simp [hquery] at ha
    exact decide_eq_false fun hzero => h (tag_eq_zero_iff.mp hzero ▸ hid)
  | _ => rfl

theorem mem_steps_of_mem_rest {threadCount : Nat} {s : InsertPool V}
    (h : InsertPool.Ledger threadCount hasThetaUpdate s) {x : Worker V} (hx : x ∈ s.workers)
    {a : TaskStep V} (ha : a ∈ x.rest) : ∃ task ∈ s.submitted, a ∈ task.steps hasThetaUpdate := by
  cases x with
  | running n rest =>
    obtain ⟨task, hlook, hsteps⟩ := h.records.running n rest hx
    exact ⟨task, List.mem_of_getElem? hlook, hsteps ▸ List.mem_append_right _ ha⟩
  | _ => exact absurd ha List.not_mem_nil

/-- An update uses the mutex, which is gone when the pool's turn comes. -/
theorem thetaMapMutex_mem_uses {a : TaskStep V} (h : a.isUpdate = true) :
    Member.thetaMapMutex ∈ a.uses useRegionalTheta := by
  cases a with
  | updateTheta query K d => cases useRegionalTheta <;> exact List.mem_cons_self
  | _ => cases h

theorem thetaMapMutex_dangles {threadCount : Nat} {s : InsertPool V}
    (hs : DestructorStarts threadCount hasThetaUpdate s) (hpos : threadCount ≠ 0)
    {a : TaskStep V} (ha : a ∈ s.pendingSteps hasThetaUpdate) (hupdate : a.isUpdate = true) :
    ∃ t, Traces.Reachable (step useRegionalTheta hasThetaUpdate) (start s) t ∧
      Member.thetaMapMutex ∈ t.dangling := by
  have hledger := InsertPool.ledger_of_reachable hs.reachable
  have hgone : Member.thetaMapMutex ∉ uptoPool := by decide
  have hthrow : ∀ x ∈ s.workers, ∀ a ∈ x.rest, a.mustThrow = false := by
    intro x hx a ha
    obtain ⟨task, htask, hmem⟩ := mem_steps_of_mem_rest hledger hx ha
    exact mustThrow_of_mem_steps (hs.ids task htask) hmem
  have hstart : Traces.Reachable (step useRegionalTheta hasThetaUpdate) (start s)
      ⟨s, uptoPool, []⟩ := start_reachable hs.running
  have hdrives : ∀ {w : Nat} {x : Worker V}, s.workers[w]? = some x →
      Drives uptoPool s.tasks w x ⟨s, uptoPool, []⟩ := fun hw =>
    ⟨rfl, hs.running, hs.quiet, rfl, hw⟩
  rcases mem_pendingSteps.mp ha with ⟨e, he, hsteps⟩ | ⟨x, hx, hrest⟩
  · -- any worker gets there
    have hsome : 0 < s.workers.length := by
      rw [hledger.closing.width]
      omega
    obtain ⟨x, hx⟩ : ∃ x, s.workers[0]? = some x := ⟨_, List.getElem?_eq_getElem hsome⟩
    have hmem := List.mem_of_getElem? hx
    have hexited : x ≠ .exited := by
      rintro rfl
      exact hledger.closing.stopping (hledger.closing.exited hmem).1 hs.untouched
    obtain ⟨u₁, hreach₁, h₁⟩ := (hdrives hx).toIdle hexited (hthrow x hmem)
    have hqueue : ∀ e ∈ s.tasks, ∀ a ∈ e.2.steps hasThetaUpdate, a.mustThrow = false :=
      fun e he a ha => mustThrow_of_mem_steps
        (hs.ids e.2 (List.mem_of_getElem? (hledger.accounts.queued e he))) ha
    obtain ⟨u₂, hreach₂, hdangles⟩ :=
      h₁.reaches hqueue he hsteps (thetaMapMutex_mem_uses hupdate) hgone
    exact ⟨u₂, (hstart.trans hreach₁).trans hreach₂, hdangles⟩
  · -- the worker that runs the task
    obtain ⟨w, hw⟩ := List.mem_iff_getElem?.mp hx
    cases x with
    | running n rest =>
      obtain ⟨u₁, hreach₁, _, _, huses⟩ := (hdrives hw).acts (hthrow _ hx)
      exact ⟨u₁, hstart.trans hreach₁, huses a hrest _ (thetaMapMutex_mem_uses hupdate) hgone⟩
    | _ => exact absurd hrest List.not_mem_nil

/-- The destruction is safe, whatever the workers do meanwhile, exactly when no
    theta update is left in the queue or with a worker (or the pool has no
    worker at all). -/
theorem shutdown_safe_iff {threadCount : Nat} {s : InsertPool V} (useRegionalTheta : Bool)
    (hs : DestructorStarts threadCount hasThetaUpdate s) :
    (∀ t, Traces.Reachable (step useRegionalTheta hasThetaUpdate) (start s) t → t.dangling = []) ↔
      (threadCount = 0 ∨ ∀ a ∈ s.pendingSteps hasThetaUpdate, a.isUpdate = false) := by
  constructor
  · intro hsafe
    by_contra hcon
    obtain ⟨hpos, hpending⟩ := not_or.mp hcon
    push Not at hpending
    obtain ⟨a, ha, hupdate⟩ := hpending
    obtain ⟨t, hreach, hdangles⟩ := thetaMapMutex_dangles hs hpos ha (Bool.not_eq_false _ ▸ hupdate)
    rw [hsafe t hreach] at hdangles
    exact List.not_mem_nil hdangles
  · intro hupdates t hreach
    exact dangling_eq_nil (InsertPool.ledger_of_reachable hs.reachable).closing hupdates hreach

/-- A pool with one worker and the task of one miss in its queue. -/
def oneQueued (query : Option Nat) : InsertPool Nat :=
  (InsertPool.init 1).enqueue ⟨0, [7], 10, .fin 2, query, 0⟩

theorem destructorStarts_oneQueued (query : Option Nat) :
    DestructorStarts 1 true (oneQueued query) where
  reachable := ⟨[.submit ⟨0, [7], 10, .fin 2, query, 0⟩], rfl⟩
  running := rfl
  untouched := rfl
  quiet := rfl
  ids task htask := by
    obtain rfl := List.mem_singleton.mp htask
    show (0xFFFFFFFF : UInt32) ∉ [7]
    decide

theorem shutdown_safe_iff_oneQueued :
    (∀ t, Traces.Reachable (step true true) (start (oneQueued none)) t → t.dangling = []) ↔
      (1 = 0 ∨ ∀ a ∈ (oneQueued none).pendingSteps true, a.isUpdate = false) :=
  shutdown_safe_iff true (destructorStarts_oneQueued none)

/-- The members go down to the pool, whose worker then runs the queued task. -/
def destroyWithUpdate : List (ShutdownLabel Nat) :=
  List.replicate 28 .destroyMember ++
    [.pool (.take 0), .pool (.act 0 false), .pool (.act 0 false), .pool (.act 0 false)]

theorem update_after_destruction :
    DestructorStarts 1 true (oneQueued (some 5)) ∧
      ∃ t, Traces.Reachable (step true true) (start (oneQueued (some 5))) t ∧
        Member.pcaUtils ∈ t.dangling ∧ Member.thetaMapMutex ∈ t.dangling := by
  have hruns : (Traces.run (step true true) (start (oneQueued (some 5))) destroyWithUpdate).any
      (fun t => decide (Member.pcaUtils ∈ t.dangling ∧ Member.thetaMapMutex ∈ t.dangling)) =
        true := by decide +kernel
  obtain ⟨t, hrun, htest⟩ := Traces.exists_run hruns
  exact ⟨destructorStarts_oneQueued (some 5), t, ⟨_, hrun⟩, of_decide_eq_true htest⟩

end Shutdown

end QvCache
