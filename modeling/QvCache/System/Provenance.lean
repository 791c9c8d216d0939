/-
  QvCache.System.Provenance

  QVCache over `PgVectorBackend`, and where the vectors in its mini-indexes come
  from.  The machine of System.Machine is run here with two things taken apart:

    * `fetch_vectors_by_ids` takes `overlay_mu_` once for each id, so the fetches
      of one task are steps of their own, between which other calls go on;
    * a statement that fails throws after the layers in memory have been written.

  `fetch_one` answers with zeros for an id it does not find, and the task stores
  what it is given.
-/

import QvCache.Backend.LocalView
import QvCache.System.Shelf

namespace QvCache

/-! ## What the backend holds -/

namespace PgVectorBackend

variable {V : Type}

/-- The vector the backend has for an id: the inserted version, else the row of
    the base file, else the row of the table. -/
def holds (cfg : PgVectorConfig V) (s : PgVectorBackend V) (id : UInt32) : Option V :=
  if id ∈ s.removedIds then none
  else
    match s.overlay.lookup id with
    | some vec => some vec
    | none =>
      match cfg.vectorData[id.toNat]? with
      | some vec => some vec
      | none => (s.rows.lookup id).map fun row => cfg.parseVectorText row.text cfg.zeros

/-- `fetch_one` finds the id: it is not removed, and is in the overlay, in the
    base file, or in a row that the `SELECT` returns. -/
def Finds (cfg : PgVectorConfig V) (s : PgVectorBackend V) (reply : SqlReply) (id : UInt32) : Prop :=
  id ∉ s.removedIds ∧ ((s.overlay.lookup id).isSome ∨ id.toNat < cfg.vectorData.length ∨
    (s.rows.lookup id).isSome ∧ reply = .done)

instance (cfg : PgVectorConfig V) (s : PgVectorBackend V) (reply : SqlReply) (id : UInt32) :
    Decidable (s.Finds cfg reply id) :=
  inferInstanceAs (Decidable (_ ∧ _))

variable {cfg : PgVectorConfig V} {s : PgVectorBackend V} {reply : SqlReply} {id : UInt32}

theorem holds_of_finds {vec : V} (hfinds : s.Finds cfg reply id)
    (h : s.fetchOne cfg reply id = .ok vec) : s.holds cfg id = some vec := by
  obtain ⟨hkept, hwhere⟩ := hfinds
  unfold fetchOne at h
  unfold holds
  rw [if_neg hkept] at h ⊢
  cases hover : s.overlay.lookup id with
  | some copy =>
    rw [hover] at h
    exact congrArg some (Except.ok.inj h)
  | none =>
    rw [hover] at h hwhere
    cases hdata : cfg.vectorData[id.toNat]? with
    | some copy =>
      rw [hdata] at h
      exact congrArg some (Except.ok.inj h)
    | none =>
      -- past the base file, so the row was returned
      have hpast := List.getElem?_eq_none_iff.mp hdata
      rcases hwhere with hover | hbase | ⟨hrow, rfl⟩
      · cases hover
      · exact absurd hbase (not_lt.mpr hpast)
      · rw [hdata] at h
        obtain ⟨row, hrow⟩ := Option.isSome_iff_exists.mp hrow
        simp only [fetchOneFromDb, hrow] at h
        rw [hrow]
        exact congrArg some (Except.ok.inj h)

/-- Whatever it does not find it makes up. -/
theorem fetchOne_of_not_finds {vec : V} (hfinds : ¬ s.Finds cfg reply id)
    (h : s.fetchOne cfg reply id = .ok vec) : vec = cfg.zeros := by
  unfold fetchOne at h
  split_ifs at h with hremoved
  · exact (Except.ok.inj h).symm
  · have hnowhere : ¬ ((s.overlay.lookup id).isSome ∨ id.toNat < cfg.vectorData.length ∨
        (s.rows.lookup id).isSome ∧ reply = .done) := fun hwhere => hfinds ⟨hremoved, hwhere⟩
    push Not at hnowhere
    obtain ⟨hover, hpast, hrow⟩ := hnowhere
    rw [Option.not_isSome_iff_eq_none.mp hover, List.getElem?_eq_none hpast] at h
    cases reply with
    | noConnection what => cases h
    | failed err => exact (Except.ok.inj h).symm
    | done =>
      have hnone : s.rows.lookup id = none :=
        Option.not_isSome_iff_eq_none.mp fun hsome => hrow hsome rfl
      simp only [fetchOneFromDb, hnone] at h
      exact (Except.ok.inj h).symm

end PgVectorBackend

/-! ## The cache over this backend -/

/-- A cache over `PgVectorBackend`.  `answers` says which answers the vector
    search of PostgreSQL may give. -/
structure PgSystemConfig (V : Type) where
  cache : CacheConfig V
  pg : PgVectorConfig V
  answers : PgVectorBackend V → V → Nat → BackendAnswer → Bool

namespace PgSystemConfig

variable {V : Type} [DecidableEq V]

/-- Whether `fetch_one` may return this vector, or throw. -/
def mayFetch (pg : PgVectorConfig V) (b : PgVectorBackend V) (id : UInt32) (fetched : Option V) :
    Bool :=
  [SqlReply.done, .failed "", .noConnection ""].any fun reply =>
    match b.fetchOne pg reply id with
    | .ok vec => decide (fetched = some vec)
    | .error _ => fetched.isNone

/-- The backend of the machine, with statements that succeed. -/
def toSystem (cfg : PgSystemConfig V) : SystemConfig V (PgVectorBackend V) where
  cache := cfg.cache
  backend := {
    supportsUpdates := true
    answers := cfg.answers
    fetches := fun b ids fetched =>
      match fetched with
      | none => ids.any fun id => mayFetch cfg.pg b id none
      | some vectors => decide (vectors.length = ids.length) &&
          (ids.zip vectors).all fun e => mayFetch cfg.pg b e.1 e.2
    insert := fun b id vec => some (b.insert cfg.pg .done id (some vec)).1
    remove := fun b id => some (b.remove .done id).1 }

end PgSystemConfig

/-- The system and, for each worker, what it has fetched of its task so far. -/
structure PgSys (V : Type) where
  sys : Sys V (PgVectorBackend V)
  fetched : Nat → List V

inductive PgLabel (V : Type) where
  | sys (label : Label V)
  /-- The next `fetch_one` of a worker. -/
  | fetchOne (w : Nat) (reply : SqlReply)
  /-- `fetch_vectors_by_ids` returns to a worker. -/
  | fetchedAll (w : Nat)
  /-- `backend->insert` or `backend->remove` of call `i` throws. -/
  | writeFails (i : Nat) (reply : SqlReply)

/-- The fetch of a whole task in one step, which is taken apart here. -/
def Label.fetchesAll {V : Type} : Label V → Bool
  | .worker _ (.vectors _) => true
  | _ => false

namespace PgSys

variable {V : Type} [DecidableEq V] (cfg : PgSystemConfig V)

def start (rows : Table UInt32 (Row V)) (writeL1Radius : Nat) (writeThetaDiscount : ℚ)
    (nAsyncInsertThreads : Nat) : PgSys V where
  sys := Sys.init cfg.toSystem (PgVectorBackend.start rows) writeL1Radius writeThetaDiscount
    nAsyncInsertThreads
  fetched _ := []

/-- The task whose vectors a worker is fetching. -/
def fetching (r : PgSys V) (w : Nat) : Option (Task V) :=
  match r.sys.workers[w]? with
  | some (some (.fetching task)) => some task
  | _ => none

/-- The id that a worker fetches next. -/
def asked (r : PgSys V) (w : Nat) : Option UInt32 :=
  (r.fetching w).bind fun task => task.toBeInserted[(r.fetched w).length]?

/-- What a failing write leaves of the backend, `none` where call `i` is not
    about to write. -/
def failedWrite (r : PgSys V) (i : Nat) (reply : SqlReply) : Option (PgVectorBackend V) :=
  match r.sys.calls[i]? with
  | some (.inserting id vec) => some (r.sys.backend.insert cfg.pg reply id (some vec)).1
  | some (.deleting id shard) =>
    if r.sys.cache.memoryIndices.length ≤ shard then some (r.sys.backend.remove reply id).1 else none
  | _ => none

def step (r : PgSys V) : PgLabel V → Option (PgSys V)
  | .sys label =>
    if label.fetchesAll then none
    else (Sys.step cfg.toSystem r.sys label).map fun sys => { r with sys := sys }
  | .fetchOne w reply =>
    match r.asked w with
    | none => none
    | some id =>
      match r.sys.backend.fetchOne cfg.pg reply id with
      -- an exception on a worker ends the program
      | .error _ => none
      | .ok vec => some { r with fetched := Function.update r.fetched w (r.fetched w ++ [vec]) }
  | .fetchedAll w =>
    match r.fetching w with
    | none => none
    | some task =>
      if (r.fetched w).length = task.toBeInserted.length then
        let points := task.toBeInserted.zip (r.fetched w)
        some ⟨{ r.sys with workers := r.sys.workers.set w (some (.inserting task points)) },
          Function.update r.fetched w []⟩
      else none
  | .writeFails i reply =>
    if reply = .done then none
    else (r.failedWrite cfg i reply).map fun backend =>
      { r with sys := { r.sys with backend := backend, calls := r.sys.calls.set i .threw } }

/-! ## Where stored vectors come from -/

/-- A worker puts a vector into a mini-index under tag `1 + id`. -/
def Stores (r : PgSys V) (label : PgLabel V) (id : UInt32) (vec : V) : Prop :=
  ∃ (w : Nat) (task : Task V) (rest : List (UInt32 × V)) (cache : Cache V),
    label = .sys (.worker w .proceed) ∧
    r.sys.workers[w]? = some (some (.inserting task ((id, vec) :: rest))) ∧
    r.sys.cache.indexInsertPoint task.shard id vec = some (cache, 0)

/-- At some moment of the run the backend held this vector for the id. -/
def HeldDuring (r : PgSys V) (labels : List (PgLabel V)) (id : UInt32) (vec : V) : Prop :=
  ∃ (past : List (PgLabel V)) (r' : PgSys V), past <+: labels ∧
    Traces.run (step cfg) r past = some r' ∧ r'.sys.backend.holds cfg.pg id = some vec

/-- Every vector that an admit task stores was the backend's own before. -/
def StoresOnlyHeld (r : PgSys V) (labels : List (PgLabel V)) : Prop :=
  ∀ (past rest : List (PgLabel V)) (label : PgLabel V) (r' : PgSys V), labels = past ++ label :: rest →
    Traces.run (step cfg) r past = some r' →
    ∀ (id : UInt32) (vec : V), r'.Stores label id vec → HeldDuring cfg r past id vec

/-- The fetches of the admit tasks find their ids. -/
def FetchFinds (r : PgSys V) : PgLabel V → Prop
  | .fetchOne w reply => ∀ id ∈ r.asked w, r.sys.backend.Finds cfg.pg reply id
  | _ => True

instance (r : PgSys V) : ∀ label : PgLabel V, Decidable (r.FetchFinds cfg label)
  | .sys _ => isTrue trivial
  | .fetchOne _ _ => Option.decidableForallMem _
  | .fetchedAll _ => isTrue trivial
  | .writeFails _ _ => isTrue trivial

variable {cfg}

/-! ## The workers -/

section Workers

omit [DecidableEq V]

theorem fetching_eq_some_iff {r : PgSys V} {w : Nat} {task : Task V} :
    r.fetching w = some task ↔ r.sys.workers[w]? = some (some (.fetching task)) := by
  unfold fetching
  constructor
  · intro h
    split at h
    · next hworker => rw [hworker, Option.some.inj h]
    · cases h
  · intro h
    rw [h]

theorem fetching_eq_none_iff {r : PgSys V} {w : Nat} :
    r.fetching w = none ↔ ∀ task, r.sys.workers[w]? ≠ some (some (.fetching task)) := by
  rw [Option.eq_none_iff_forall_ne_some]
  exact forall_congr' fun task => not_congr fetching_eq_some_iff

/-- What a step of the machine does to a worker, apart from the fetch. -/
theorem worker_step {β : Type} {cfg : SystemConfig V β} {s s' : Sys V β} {label : Label V}
    (h : Sys.step cfg s label = some s') (hlabel : label.fetchesAll = false) (w : Nat) :
    s'.workers[w]? = s.workers[w]? ∨
      (∃ task, s.workers[w]? = some none ∧ s'.workers[w]? = some (some (.fetching task))) ∨
      (∃ task e rest, s.workers[w]? = some (some (.inserting task (e :: rest))) ∧
        s'.workers[w]? = some (some (.inserting task rest))) ∨
      (∃ task, s.workers[w]? = some (some (.inserting task [])) ∧ s'.workers[w]? = some none) := by
  cases Sys.move_of_step h with
  | took w' task rest hworker =>
    rcases Slots.getElem?_set_or hworker (some (.fetching task)) w with hkept | ⟨rfl, hnew⟩
    · exact Or.inl hkept
    · exact Or.inr (Or.inl ⟨task, hworker, hnew⟩)
  | fetched => cases hlabel
  | inserted w' task id vec rest hworker =>
    rcases Slots.getElem?_set_or hworker (some (.inserting task rest)) w with hkept | ⟨rfl, hnew⟩
    · exact Or.inl hkept
    · exact Or.inr (Or.inr (Or.inl ⟨task, (id, vec), rest, hworker, hnew⟩))
  | finished w' task hworker =>
    rcases Slots.getElem?_set_or hworker none w with hkept | ⟨rfl, hnew⟩
    · exact Or.inl hkept
    · exact Or.inr (Or.inr (Or.inr ⟨task, hworker, hnew⟩))
  | _ => exact Or.inl rfl

/-! ## The source of what the workers hold -/

/-- Every vector on its way into a mini-index meets `P`. -/
structure Sourced (P : UInt32 → V → Prop) (r : PgSys V) : Prop where
  fetched : ∀ (w : Nat) (task : Task V), r.fetching w = some task →
    ∀ (k : Nat) (id : UInt32) (vec : V), task.toBeInserted[k]? = some id →
      (r.fetched w)[k]? = some vec → P id vec
  idle : ∀ w : Nat, r.fetching w = none → r.fetched w = []
  points : ∀ (w : Nat) (task : Task V) (rest : List (UInt32 × V)),
    r.sys.workers[w]? = some (some (.inserting task rest)) → ∀ e ∈ rest, P e.1 e.2

theorem Sourced.mono {P Q : UInt32 → V → Prop} (h : ∀ id vec, P id vec → Q id vec) {r : PgSys V}
    (hr : r.Sourced P) : r.Sourced Q where
  fetched w task htask k id vec hid hvec := h id vec (hr.fetched w task htask k id vec hid hvec)
  idle := hr.idle
  points w task rest hworker e he := h e.1 e.2 (hr.points w task rest hworker e he)

end Workers

theorem sourced_start (P : UInt32 → V → Prop) (rows : Table UInt32 (Row V)) (radius : Nat) (alpha : ℚ)
    (threads : Nat) : (start cfg rows radius alpha threads).Sourced P := by
  have hnone : ∀ (w : Nat) (running : Running V),
      (start cfg rows radius alpha threads).sys.workers[w]? ≠ some (some running) :=
    fun w running hw => nomatch List.eq_of_mem_replicate (List.mem_of_getElem? hw)
  exact {
    fetched := fun w task htask => absurd (fetching_eq_some_iff.mp htask) (hnone w _)
    idle := fun _ _ => rfl
    points := fun w task rest hworker => absurd hworker (hnone w _) }

theorem sourced_sys {P : UInt32 → V → Prop} {r : PgSys V} {label : Label V}
    {sys : Sys V (PgVectorBackend V)} (hr : r.Sourced P) (hlabel : label.fetchesAll = false)
    (h : Sys.step cfg.toSystem r.sys label = some sys) :
    Sourced P { r with sys := sys } where
  fetched := by
    intro w task htask k id vec hid hvec
    have hnew := fetching_eq_some_iff.mp htask
    rcases worker_step h hlabel w with hkept | ⟨task', hold, _⟩ | ⟨task', e, rest, _, hstep⟩ |
      ⟨task', _, hstep⟩
    · rw [hkept] at hnew
      exact hr.fetched w task (fetching_eq_some_iff.mpr hnew) k id vec hid hvec
    · -- a task just taken has nothing fetched
      have hempty := hr.idle w (fetching_eq_none_iff.mpr fun t ht => by rw [hold] at ht; cases ht)
      rw [hempty] at hvec
      cases hvec
    · rw [hnew] at hstep
      cases hstep
    · rw [hnew] at hstep
      cases hstep
  idle := by
    intro w hnone
    have hnew := fetching_eq_none_iff.mp hnone
    refine hr.idle w (fetching_eq_none_iff.mpr fun t ht => ?_)
    rcases worker_step h hlabel w with hkept | ⟨task', hold, _⟩ | ⟨task', e, rest, hold, _⟩ |
      ⟨task', hold, _⟩
    · exact hnew t (hkept.trans ht)
    · rw [hold] at ht
      cases ht
    · rw [hold] at ht
      cases ht
    · rw [hold] at ht
      cases ht
  points := by
    intro w task rest hworker e he
    rcases worker_step h hlabel w with hkept | ⟨task', _, hstep⟩ | ⟨task', e', rest', hold, hstep⟩ |
      ⟨task', _, hstep⟩
    · exact hr.points w task rest (hkept ▸ hworker) e he
    · rw [hworker] at hstep
      cases hstep
    · rw [hworker] at hstep
      cases hstep
      exact hr.points w task (e' :: rest) hold e (List.mem_cons_of_mem _ he)
    · rw [hworker] at hstep
      cases hstep

/-- Worker `w` is given `vec` for the id it asks for. -/
def Fetches (cfg : PgSystemConfig V) (r : PgSys V) (label : PgLabel V) (id : UInt32) (vec : V) :
    Prop :=
  ∃ (w : Nat) (reply : SqlReply), label = .fetchOne w reply ∧ r.asked w = some id ∧
    r.sys.backend.fetchOne cfg.pg reply id = .ok vec

theorem sourced_fetchOne {P : UInt32 → V → Prop} {r r' : PgSys V} {w : Nat} {reply : SqlReply}
    (hr : r.Sourced P) (hfetch : ∀ id vec, Fetches cfg r (.fetchOne w reply) id vec → P id vec)
    (h : step cfg r (.fetchOne w reply) = some r') : r'.Sourced P := by
  simp only [step] at h
  cases hasked : r.asked w with
  | none =>
    rw [hasked] at h
    cases h
  | some id =>
    cases hreply : r.sys.backend.fetchOne cfg.pg reply id with
    | error what => simp [hasked, hreply] at h
    | ok vec =>
      simp only [hasked, hreply, Option.some.injEq] at h
      subst h
      have hvec := hfetch id vec ⟨w, reply, rfl, hasked, hreply⟩
      obtain ⟨task, htask, hid⟩ := Option.bind_eq_some_iff.mp hasked
      refine ⟨fun w' task' htask' k id' vec' hid' hvec' => ?_, fun w' hnone => ?_, hr.points⟩
      · change (Function.update r.fetched w (r.fetched w ++ [vec]) w')[k]? = some vec' at hvec'
        by_cases hw : w' = w
        · subst hw
          obtain rfl : task' = task := Option.some.inj (htask'.symm.trans htask)
          rw [Function.update_self, List.getElem?_append] at hvec'
          split_ifs at hvec' with hk
          · exact hr.fetched w' task' htask k id' vec' hid' hvec'
          · -- position `k` is the one just fetched
            rw [List.getElem?_singleton] at hvec'
            split_ifs at hvec' with hlast
            have hpos : k = (r.fetched w').length := by omega
            rw [hpos, hid] at hid'
            obtain rfl := Option.some.inj hid'
            obtain rfl := Option.some.inj hvec'
            exact hvec
        · rw [Function.update_of_ne hw] at hvec'
          exact hr.fetched w' task' htask' k id' vec' hid' hvec'
      · show Function.update r.fetched w (r.fetched w ++ [vec]) w' = []
        by_cases hw : w' = w
        · subst hw
          exact absurd (htask.symm.trans hnone) nofun
        · rw [Function.update_of_ne hw]
          exact hr.idle w' hnone

/-- The fetched vectors are paired with their ids. -/
theorem sourced_fetchedAll {P : UInt32 → V → Prop} {r r' : PgSys V} {w : Nat} (hr : r.Sourced P)
    (h : step cfg r (.fetchedAll w) = some r') : r'.Sourced P := by
  simp only [step] at h
  cases htask : r.fetching w with
  | none =>
    rw [htask] at h
    cases h
  | some task =>
    simp only [htask] at h
    split_ifs at h with hlen
    obtain rfl := Option.some.inj h
    have hworker := fetching_eq_some_iff.mp htask
    have hlt := (List.getElem?_eq_some_iff.mp hworker).1
    -- the other workers are as before
    have hother : ∀ (w' : Nat) (o : Option (Running V)), w' ≠ w →
        (r.sys.workers.set w o)[w']? = r.sys.workers[w']? :=
      fun w' o hw => List.getElem?_set_ne hw.symm
    refine ⟨fun w' task' htask' k id vec hid hvec => ?_, fun w' hnone => ?_,
      fun w' task' rest hrest e he => ?_⟩
    · have hnew := fetching_eq_some_iff.mp htask'
      change (Function.update r.fetched w [] w')[k]? = some vec at hvec
      by_cases hw : w' = w
      · rw [hw, Function.update_self] at hvec
        cases hvec
      · rw [Function.update_of_ne hw] at hvec
        have hold := (hother w' _ hw).symm.trans hnew
        exact hr.fetched w' task' (fetching_eq_some_iff.mpr hold) k id vec hid hvec
    · show Function.update r.fetched w [] w' = []
      by_cases hw : w' = w
      · rw [hw, Function.update_self]
      · rw [Function.update_of_ne hw]
        have hnew := fetching_eq_none_iff.mp hnone
        exact hr.idle w' (fetching_eq_none_iff.mpr fun t ht => hnew t ((hother w' _ hw).trans ht))
    · change (r.sys.workers.set w _)[w']? = _ at hrest
      by_cases hw : w' = w
      · rw [hw, List.getElem?_set_self hlt] at hrest
        cases hrest
        obtain ⟨k, hk⟩ := List.getElem?_of_mem he
        obtain ⟨hid, hvec⟩ := List.getElem?_zip_eq_some.mp hk
        exact hr.fetched w task htask k e.1 e.2 hid hvec
      · exact hr.points w' task' rest ((hother w' _ hw).symm.trans hrest) e he

theorem sourced_step {P : UInt32 → V → Prop} {r r' : PgSys V} {label : PgLabel V}
    (hr : r.Sourced P) (hfetch : ∀ id vec, Fetches cfg r label id vec → P id vec)
    (h : step cfg r label = some r') : r'.Sourced P := by
  cases label with
  | sys label =>
    simp only [step] at h
    split_ifs at h with hlabel
    obtain ⟨sys, hsys, rfl⟩ := Option.map_eq_some_iff.mp h
    exact sourced_sys hr (by simpa using hlabel) hsys
  | fetchOne w reply => exact sourced_fetchOne hr hfetch h
  | fetchedAll w => exact sourced_fetchedAll hr h
  | writeFails i reply =>
    simp only [step] at h
    split_ifs at h
    obtain ⟨backend, _, rfl⟩ := Option.map_eq_some_iff.mp h
    exact ⟨hr.fetched, hr.idle, hr.points⟩

/-! ## Whole runs -/

theorem HeldDuring.append {r : PgSys V} {labels : List (PgLabel V)} (more : List (PgLabel V))
    {id : UInt32} {vec : V} (h : HeldDuring cfg r labels id vec) :
    HeldDuring cfg r (labels ++ more) id vec := by
  obtain ⟨past, r', hpast, hrun, hheld⟩ := h
  exact ⟨past, r', hpast.trans (List.prefix_append labels more), hrun, hheld⟩

omit [DecidableEq V] in
/-- What is fetched is held at the time, or made up. -/
theorem held_or_zeros_of_fetches {r : PgSys V} {label : PgLabel V} {id : UInt32} {vec : V}
    (h : Fetches cfg r label id vec) :
    r.sys.backend.holds cfg.pg id = some vec ∨ ¬ r.FetchFinds cfg label ∧ vec = cfg.pg.zeros := by
  obtain ⟨w, reply, rfl, hasked, hreply⟩ := h
  by_cases hfinds : r.sys.backend.Finds cfg.pg reply id
  · exact Or.inl (PgVectorBackend.holds_of_finds hfinds hreply)
  · exact Or.inr ⟨fun hall => hfinds (hall id hasked),
      PgVectorBackend.fetchOne_of_not_finds hfinds hreply⟩

/-- A source that every fetch of the run has, as the run goes on. -/
theorem sourced_run {P : List (PgLabel V) → UInt32 → V → Prop}
    (hmore : ∀ past label id vec, P past id vec → P (past ++ [label]) id vec)
    {r r' : PgSys V} (hr : r.Sourced (P [])) {labels : List (PgLabel V)}
    (hfetch : ∀ past label rest u, labels = past ++ label :: rest →
      Traces.run (step cfg) r past = some u → ∀ id vec, Fetches cfg u label id vec → P past id vec)
    (hrun : Traces.run (step cfg) r labels = some r') : r'.Sourced (P labels) := by
  induction labels using List.reverseRecOn generalizing r' with
  | nil =>
    obtain rfl := Option.some.inj hrun
    exact hr
  | append_singleton past label ih =>
    obtain ⟨u, hu, hlast⟩ := Traces.run_append.mp hrun
    have hbefore := ih (fun past' label' rest' u' heq =>
      hfetch past' label' (rest' ++ [label]) u' (by rw [heq, List.append_assoc]; rfl)) hu
    exact (sourced_step hbefore (hfetch past label [] u rfl hu) (Traces.run_singleton.mp hlast)).mono
      (hmore past label)

variable {rows : Table UInt32 (Row V)} {radius : Nat} {alpha : ℚ} {threads : Nat}

/-- In any run, what a task stores was held by the backend, or is zeros. -/
theorem held_or_zeros_of_stores {past : List (PgLabel V)} {label : PgLabel V} {r : PgSys V}
    (hrun : Traces.run (step cfg) (start cfg rows radius alpha threads) past = some r)
    {id : UInt32} {vec : V} (h : r.Stores label id vec) :
    HeldDuring cfg (start cfg rows radius alpha threads) past id vec ∨ vec = cfg.pg.zeros := by
  obtain ⟨w, task, points, cache, _, hworker, _⟩ := h
  have hsourced := sourced_run
    (P := fun past id vec => HeldDuring cfg (start cfg rows radius alpha threads) past id vec ∨
      vec = cfg.pg.zeros)
    (fun past label id vec h => h.imp_left fun hheld => hheld.append [label])
    (sourced_start _ rows radius alpha threads)
    (fun past' label' rest u _ hu id vec hfetches =>
      (held_or_zeros_of_fetches hfetches).imp
        (fun hheld => ⟨past', u, List.prefix_refl past', hu, hheld⟩) And.right) hrun
  exact hsourced.points w task _ hworker (id, vec) List.mem_cons_self

/-- In a run in which every fetch of an admit task finds its id, no task stores
    a vector that the backend did not hold for the id before. -/
theorem storesOnlyHeld_of_fetchFinds (cfg : PgSystemConfig V) (rows : Table UInt32 (Row V))
    (radius : Nat) (alpha : ℚ) (threads : Nat) (labels : List (PgLabel V))
    (hfinds : Traces.Along (step cfg) (FetchFinds cfg) (start cfg rows radius alpha threads) labels) :
    StoresOnlyHeld cfg (start cfg rows radius alpha threads) labels := by
  rintro past rest label r rfl hrun id vec ⟨w, task, points, cache, _, hworker, _⟩
  have hsourced := sourced_run (P := HeldDuring cfg (start cfg rows radius alpha threads))
    (fun past label id vec hheld => hheld.append [label])
    (sourced_start _ rows radius alpha threads)
    (fun past' label' rest' u heq hu id vec hfetches => ?_) hrun
  · exact hsourced.points w task _ hworker (id, vec) List.mem_cons_self
  · have hbefore := hfinds.left
    rw [heq] at hbefore
    rcases held_or_zeros_of_fetches hfetches with hheld | ⟨hnot, _⟩
    · exact ⟨past', u, List.prefix_refl past', hu, hheld⟩
    · exact absurd (hbefore.of_append hu).1 hnot

end PgSys

/-! ## A remove between the miss and the fetch -/

open PgVectorBackend (lineTable lineRows)

/-- One shard over the two points of `lineTable`. -/
def pgLine : PgSystemConfig Nat where
  cache := (lineSystem 1 Nat.one_pos false true).cache
  pg := lineTable
  answers b query K answer := decide (answer =
    Shelf.nearest (b.rows.entries.foldl (fun shelf e => shelf.insert e.1 e.2.written) ∅) query K)

/-- A search for point 20 misses and submits id 1. -/
def missOf1 : List (PgLabel Nat) :=
  (.search stableSorters 20 1 1 :: missLabels 0 [(1, .fin 0)] false).map .sys

def removeOf1 : List (PgLabel Nat) := (removeLabels 1 1 20 1).map .sys

/-- The worker takes the task, fetches its id, and is about to insert it. -/
def fetchOf1 : List (PgLabel Nat) := [.sys (.worker 0 .proceed), .fetchOne 0 .done, .fetchedAll 0]

def store : PgLabel Nat := .sys (.worker 0 .proceed)

/-- The vector in the shard under the tag of id 1. -/
def storedFor1 (r : PgSys Nat) : Option Nat :=
  r.sys.cache.memoryIndices[0]?.bind fun idx => idx.points.lookup 2

namespace PgSys

/-- Without a remove the task stores the row. -/
theorem storesOnlyHeld_of_fetchFinds_miss :
    StoresOnlyHeld pgLine (start pgLine lineRows 0 (1 / 2) 1) (missOf1 ++ fetchOf1 ++ [store]) ∧
      ((Traces.run (step pgLine) (start pgLine lineRows 0 (1 / 2) 1)
        (missOf1 ++ fetchOf1 ++ [store])).bind storedFor1) = some 20 :=
  ⟨storesOnlyHeld_of_fetchFinds pgLine lineRows 0 (1 / 2) 1 _ (by decide +kernel), by decide +kernel⟩

/-- The task that the miss has submitted. -/
def taskOf1 : Task Nat := ⟨0, [1], 1, .fin 0, none, 0⟩

/-- The worker inserts zeros under the tag of id 1 next. -/
def storesZeros (r : PgSys Nat) : Bool :=
  decide (r.sys.workers[0]? = some (some (.inserting taskOf1 [(1, 0)]))) &&
    (r.sys.cache.indexInsertPoint 0 1 0).any fun r => decide (r.2 = 0)

theorem stores_of_storesZeros {r : PgSys Nat} (h : storesZeros r = true) : r.Stores store 1 0 := by
  obtain ⟨hworker, hinsert⟩ := Bool.and_eq_true_iff.mp h
  obtain ⟨⟨cache, ret⟩, hcache, hret⟩ := (Option.any_eq_true _ _).mp hinsert
  obtain rfl : ret = 0 := of_decide_eq_true hret
  exact ⟨0, taskOf1, [], cache, rfl, of_decide_eq_true hworker, hcache⟩

/-- With the remove it stores zeros, which the backend never held for id 1. -/
theorem removed_id_stored_as_zeros :
    ((Traces.run (step pgLine) (start pgLine lineRows 0 (1 / 2) 1)
        (missOf1 ++ removeOf1 ++ fetchOf1 ++ [store])).bind storedFor1) = some 0 ∧
      ¬ StoresOnlyHeld pgLine (start pgLine lineRows 0 (1 / 2) 1)
        (missOf1 ++ removeOf1 ++ fetchOf1 ++ [store]) := by
  refine ⟨by decide +kernel, fun h => ?_⟩
  have hruns : ∃ r, Traces.run (step pgLine) (start pgLine lineRows 0 (1 / 2) 1)
      (missOf1 ++ removeOf1 ++ fetchOf1) = some r ∧ storesZeros r = true :=
    Traces.exists_run (by decide +kernel)
  obtain ⟨r, hrun, hzeros⟩ := hruns
  obtain ⟨past, u, hpast, hu, hheld⟩ :=
    h _ [] store r rfl hrun 1 0 (stores_of_storesZeros hzeros)
  -- in none of its states does the backend hold zeros for id 1
  have hnever : ∀ n ≤ (missOf1 ++ removeOf1 ++ fetchOf1).length,
      ((Traces.run (step pgLine) (start pgLine lineRows 0 (1 / 2) 1)
        ((missOf1 ++ removeOf1 ++ fetchOf1).take n)).all fun r =>
          decide (r.sys.backend.holds lineTable 1 ≠ some 0)) = true := by
    decide +kernel
  have hstate := hnever past.length hpast.length_le
  rw [← List.prefix_iff_eq_take.mp hpast, hu] at hstate
  exact of_decide_eq_true hstate hheld

end PgSys

end QvCache
