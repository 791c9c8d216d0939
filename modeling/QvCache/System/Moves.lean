/-
  QvCache.System.Moves

  What a step of the system can be.  `CallMove` and `Move` list the branches of
  `callStep` and `step` with the conditions under which each is taken;
  `move_of_step` is the only place where the two functions are unfolded.

  From this list, what a step does to each part of the state: to the tombstones
  (`deletedIds_step`), to the points in the shards (`holds_step`), to the
  backend (`backend_step`), to the calls (`calls_step`), to the tasks of the pool
  (`hasTask_step`) and to the shape of the shards (`shaped_of_reachable`).
-/

import QvCache.Cache.HitSpec
import QvCache.Cache.Shape
import QvCache.Lib.Slots
import QvCache.System.Machine

namespace QvCache

/-- The tombstone the next step of a call adds. -/
def Call.buries {V : Type} : Call V → Option UInt32
  | .burying id => some id
  | _ => none

/-- The shard an insert has settled for is one of the first `n`. -/
def Call.InRange {V : Type} (n : Nat) : Call V → Prop
  | .checking _ _ shard => shard < n
  | .landing _ _ shard => shard < n
  | .noting _ _ shard => shard < n
  | .touching _ _ shard => shard < n
  | _ => True

namespace Sys

variable {V β : Type} {cfg : SystemConfig V β}

/-! ## The branches -/

/-- The branches of `callStep`. -/
inductive CallMove (cfg : SystemConfig V β) (s : Sys V β) (i : Nat) :
    Call V → Reply V → Next V β → Prop where
  | started (query : V) (K : Nat) :
    CallMove cfg s i (.missed query K) .proceed (s.goesOn (.searching query K))
  | answered (query : V) (K : Nat) (answer : BackendAnswer) (hlen : answer.length = K)
      (hanswer : cfg.backend.answers s.backend query K answer = true) :
    CallMove cfg s i (.searching query K) (.answer answer) (s.goesOn (.answered query K answer))
  | filtered (query : V) (K : Nat) (answer : BackendAnswer) :
    CallMove cfg s i (.answered query K answer) .proceed
      (s.goesOn (.filtered query K answer (s.tagsToInsert answer)))
  | placed (query : V) (K : Nat) (answer : BackendAnswer) (ids : List UInt32) :
    CallMove cfg s i (.filtered query K answer ids) .proceed
      (s.goesOnWith (s.cache.ensureAdmitShard cfg.cache).1
        (.placed query K answer ids (s.cache.ensureAdmitShard cfg.cache).2))
  | deferred (query : V) (K : Nat) (answer : BackendAnswer) (ids : List UInt32) (shard : Nat)
      (hlazy : cfg.cache.lazyThetaUpdates = true) :
    CallMove cfg s i (.placed query K answer ids shard) .proceed
      (s.submits query K answer ids shard (some query) i)
  | learned (query : V) (K : Nat) (answer : BackendAnswer) (ids : List UInt32) (shard : Nat)
      (heager : cfg.cache.lazyThetaUpdates = false) :
    CallMove cfg s i (.placed query K answer ids shard) .proceed
      (s.goesOnWith (s.cache.updateTheta cfg.cache query K (missKthDistance K answer))
        (.learned query K answer ids shard))
  | submitted (query : V) (K : Nat) (answer : BackendAnswer) (ids : List UInt32) (shard : Nat) :
    CallMove cfg s i (.learned query K answer ids shard) .proceed
      (s.submits query K answer ids shard none i)
  | stored (id : UInt32) (vec : V) (backend : β) (hsupports : cfg.backend.supportsUpdates = true)
      (hinsert : cfg.backend.insert s.backend id vec = some backend) :
    CallMove cfg s i (.inserting id vec) .proceed ⟨s.cache, backend, none, .choosing id vec⟩
  | notStored (id : UInt32) (vec : V) (hsupports : cfg.backend.supportsUpdates = false) :
    CallMove cfg s i (.inserting id vec) .proceed (s.goesOn (.choosing id vec))
  | storeThrew (id : UInt32) (vec : V) (hinsert : cfg.backend.insert s.backend id vec = none) :
    CallMove cfg s i (.inserting id vec) .proceed (s.goesOn .threw)
  | chose (id : UInt32) (vec : V) (shard : Nat)
      (hshard : (s.cache.chooseDataShard cfg.cache).2 = some shard) :
    CallMove cfg s i (.choosing id vec) .proceed
      (s.goesOnWith (s.cache.chooseDataShard cfg.cache).1 (.checking id vec shard))
  | gaveUp (id : UInt32) (vec : V) :
    CallMove cfg s i (.choosing id vec) .proceed
      (s.goesOnWith (s.cache.chooseDataShard cfg.cache).1 (.penalising id vec))
  | passed (id : UInt32) (vec : V) (shard : Nat)
      (hcheck : s.cache.passesInsertCheck shard id = true) :
    CallMove cfg s i (.checking id vec shard) .proceed (s.goesOn (.landing id vec shard))
  | refused (id : UInt32) (vec : V) (shard : Nat) :
    CallMove cfg s i (.checking id vec shard) .proceed (s.goesOn (.touching id vec shard))
  | landed (id : UInt32) (vec : V) (shard : Nat) (cache : Cache V) (accepted : Bool)
      (hland : s.cache.insertPointUnchecked cfg.cache shard id vec = some (cache, accepted)) :
    CallMove cfg s i (.landing id vec shard) .proceed
      (s.goesOnWith cache (if accepted then .noting id vec shard else .touching id vec shard))
  | landThrew (id : UInt32) (vec : V) (shard : Nat)
      (hland : s.cache.insertPointUnchecked cfg.cache shard id vec = none) :
    CallMove cfg s i (.landing id vec shard) .proceed (s.goesOn .threw)
  | noted (id : UInt32) (vec : V) (shard : Nat) :
    CallMove cfg s i (.noting id vec shard) .proceed
      (s.goesOnWith (s.cache.noteAdmittedTag (1 + id)) (.touching id vec shard))
  | touched (id : UInt32) (vec : V) (shard : Nat) :
    CallMove cfg s i (.touching id vec shard) .proceed
      (s.goesOnWith (s.cache.touchShard shard) (.penalising id vec))
  | penalised (id : UInt32) (vec : V) :
    CallMove cfg s i (.penalising id vec) .proceed
      (s.goesOnWith (s.cache.staleWriteRegions cfg.cache (some vec)) (.insertReturned id vec))
  | given (id : UInt32) (vec : V) :
    CallMove cfg s i (.removing id (some vec)) .proceed (s.goesOn (.lowering id (some vec)))
  | fetched (id : UInt32) (fetched : Option (List (Option V)))
      (hfetch : cfg.backend.fetches s.backend [id] fetched = true) :
    CallMove cfg s i (.removing id none) (.fetched fetched)
      (s.goesOn (.lowering id (fetchedVector fetched)))
  | lowered (id : UInt32) (vec : Option V) :
    CallMove cfg s i (.lowering id vec) .proceed
      (s.goesOnWith (s.cache.staleWriteRegions cfg.cache vec) (.burying id))
  | buried (id : UInt32) :
    CallMove cfg s i (.burying id) .proceed
      (s.goesOnWith { s.cache with deletedIds := insert id s.cache.deletedIds } (.forgetting id))
  | forgot (id : UInt32) :
    CallMove cfg s i (.forgetting id) .proceed
      (s.goesOnWith (s.cache.forgetAdmittedTag (1 + id)) (.deleting id 0))
  | deleted (id : UInt32) (shard : Nat) (hshard : shard < s.cache.memoryIndices.length) :
    CallMove cfg s i (.deleting id shard) .proceed
      (s.goesOnWith (s.cache.lazyDeleteIn shard (1 + id)) (.deleting id (shard + 1)))
  | dropped (id : UInt32) (shard : Nat) (hshard : s.cache.memoryIndices.length ≤ shard)
      (backend : β) (hsupports : cfg.backend.supportsUpdates = true)
      (hremove : cfg.backend.remove s.backend id = some backend) :
    CallMove cfg s i (.deleting id shard) .proceed ⟨s.cache, backend, none, .removeReturned id⟩
  | notDropped (id : UInt32) (shard : Nat) (hshard : s.cache.memoryIndices.length ≤ shard)
      (hsupports : cfg.backend.supportsUpdates = false) :
    CallMove cfg s i (.deleting id shard) .proceed (s.goesOn (.removeReturned id))
  | dropThrew (id : UInt32) (shard : Nat) (hshard : s.cache.memoryIndices.length ≤ shard) :
    CallMove cfg s i (.deleting id shard) .proceed (s.goesOn .threw)

theorem callMove_of_callStep {s : Sys V β} {i : Nat} {call : Call V} {reply : Reply V}
    {next : Next V β} (h : s.callStep cfg i call reply = some next) :
    CallMove cfg s i call reply next := by
  unfold callStep at h
  split at h
  · -- handle_backend_miss
    obtain rfl := Option.some.inj h
    exact .started _ _
  · -- search_disk_index answers
    split_ifs at h with hcond
    obtain rfl := Option.some.inj h
    exact .answered _ _ _ hcond.1 hcond.2
  · -- the tags to admit
    obtain rfl := Option.some.inj h
    exact .filtered _ _ _
  · -- ensure_admit_shard
    split_ifs at h
    obtain rfl := Option.some.inj h
    exact .placed _ _ _ _
  · -- the theta update, now or on the worker
    split_ifs at h with hlazy
    · obtain rfl := Option.some.inj h
      exact .deferred _ _ _ _ _ hlazy
    · obtain rfl := Option.some.inj h
      exact .learned _ _ _ _ _ (Bool.eq_false_iff.mpr hlazy)
  · -- the submit
    obtain rfl := Option.some.inj h
    exact .submitted _ _ _ _ _
  · -- insert: the backend first
    split_ifs at h with hsupports
    · split at h
      · next hinsert =>
        obtain rfl := Option.some.inj h
        exact .storeThrew _ _ hinsert
      · next hinsert =>
        obtain rfl := Option.some.inj h
        exact .stored _ _ _ hsupports hinsert
    · obtain rfl := Option.some.inj h
      exact .notStored _ _ (Bool.eq_false_iff.mpr hsupports)
  · -- try_admit_data_vector: the shard
    split_ifs at h
    obtain rfl := Option.some.inj h
    cases hshard : (s.cache.chooseDataShard cfg.cache).2 with
    | none => exact .gaveUp _ _
    | some shard => exact .chose _ _ _ hshard
  · -- the tombstone check
    split_ifs at h with hcheck
    · obtain rfl := Option.some.inj h
      exact .passed _ _ _ hcheck
    · obtain rfl := Option.some.inj h
      exact .refused _ _ _
  · -- insert_point_unchecked
    split at h
    · next hland =>
      obtain rfl := Option.some.inj h
      exact .landThrew _ _ _ hland
    · next hland =>
      obtain rfl := Option.some.inj h
      exact .landed _ _ _ _ _ hland
  · -- note_admitted_tag
    obtain rfl := Option.some.inj h
    exact .noted _ _ _
  · -- the shard becomes the most recent one
    obtain rfl := Option.some.inj h
    exact .touched _ _ _
  · -- the stale write regions
    obtain rfl := Option.some.inj h
    exact .penalised _ _
  · -- remove: the vector is given
    obtain rfl := Option.some.inj h
    exact .given _ _
  · -- or it is fetched
    split_ifs at h with hfetch
    obtain rfl := Option.some.inj h
    exact .fetched _ _ hfetch
  · -- the stale write regions
    obtain rfl := Option.some.inj h
    exact .lowered _ _
  · -- the tombstone
    obtain rfl := Option.some.inj h
    exact .buried _
  · -- the record of admitted tags
    obtain rfl := Option.some.inj h
    exact .forgot _
  · -- the shards one by one, then the backend
    split_ifs at h with hshard hsupports
    · obtain rfl := Option.some.inj h
      exact .deleted _ _ hshard
    · split at h
      · obtain rfl := Option.some.inj h
        exact .dropThrew _ _ (Nat.not_lt.mp hshard)
      · next hremove =>
        obtain rfl := Option.some.inj h
        exact .dropped _ _ (Nat.not_lt.mp hshard) _ hsupports hremove
    · obtain rfl := Option.some.inj h
      exact .notDropped _ _ (Nat.not_lt.mp hshard) (Bool.eq_false_iff.mpr hsupports)
  · -- every other pair of call and reply
    cases h

/-- The branches of `step`. -/
inductive Move (cfg : SystemConfig V β) (s : Sys V β) : Label V → Sys V β → Prop where
  | search (sorters : Sorters) (query : V) (K resSize : Nat) :
    Move cfg s (.search sorters query K resSize)
      { s with
        cache := (s.cache.lookup cfg.cache sorters query K resSize).1
        calls := s.calls ++
          [lookedUp query K (s.cache.lookup cfg.cache sorters query K resSize).2] }
  | insert (id : UInt32) (vec : V) :
    Move cfg s (.insert id vec)
      { s with
        cache := { s.cache with deletedIds := s.cache.deletedIds.erase id }
        calls := s.calls ++ [.inserting id vec] }
  | remove (id : UInt32) (vec : Option V) :
    Move cfg s (.remove id vec) { s with calls := s.calls ++ [.removing id vec] }
  | call (i : Nat) (reply : Reply V) (call : Call V) (next : Next V β)
      (hcall : s.calls[i]? = some call) (hmove : CallMove cfg s i call reply next) :
    Move cfg s (.call i reply) (s.afterCall i next)
  | took (w : Nat) (task : Task V) (rest : List (Task V)) (hworker : s.workers[w]? = some none)
      (hqueue : s.queue = task :: rest) :
    Move cfg s (.worker w .proceed)
      { s with queue := rest, workers := s.workers.set w (some (.fetching task)) }
  -- a short or failed fetch ends the program, so there is no move for it
  | fetched (w : Nat) (task : Task V) (vectors : List V)
      (hworker : s.workers[w]? = some (some (.fetching task)))
      (hlen : vectors.length = task.toBeInserted.length)
      (hfetch : cfg.backend.fetches s.backend task.toBeInserted (some (vectors.map some)) = true) :
    Move cfg s (.worker w (.vectors vectors))
      { s with workers := s.workers.set w (some (.inserting task (task.toBeInserted.zip vectors))) }
  | inserted (w : Nat) (task : Task V) (id : UInt32) (vec : V) (rest : List (UInt32 × V))
      (hworker : s.workers[w]? = some (some (.inserting task ((id, vec) :: rest))))
      (cache : Cache V) (ret : Int)
      (hinsert : s.cache.indexInsertPoint task.shard id vec = some (cache, ret)) :
    Move cfg s (.worker w .proceed)
      { s with cache := cache, workers := s.workers.set w (some (.inserting task rest)) }
  | finished (w : Nat) (task : Task V)
      (hworker : s.workers[w]? = some (some (.inserting task []))) :
    Move cfg s (.worker w .proceed)
      { s with cache := s.finished cfg task, workers := s.workers.set w none }
  | evict : Move cfg s .evict { s with cache := s.cache.performEviction cfg.cache }
  | consolidate (shard : Nat) :
    Move cfg s (.consolidate shard) { s with cache := s.cache.consolidateShard shard }
  | setWriteThetaDiscount (alpha : ℚ) :
    Move cfg s (.setWriteThetaDiscount alpha)
      { s with cache := { s.cache with writeThetaDiscount := alpha } }
  | setWriteL1Radius (radius : Nat) :
    Move cfg s (.setWriteL1Radius radius)
      { s with cache := { s.cache with thresholds := { s.cache.thresholds with
        pcaUtils := { s.cache.thresholds.pcaUtils with writeL1Radius := radius } } } }
  | setSearchStrategy (strategy : SearchStrategy) :
    Move cfg s (.setSearchStrategy strategy)
      { s with cache := { s.cache with searchStrategy := strategy } }

/-- The theta update at the end of a task changes thresholds and nothing else. -/
theorem finished_eq (cfg : SystemConfig V β) (s : Sys V β) (task : Task V) :
    ∃ th, s.finished cfg task = { s.cache with thresholds := th } := by
  unfold finished
  cases task.query with
  | none => exact ⟨s.cache.thresholds, rfl⟩
  | some query => exact ⟨_, rfl⟩

theorem move_of_step {s s' : Sys V β} {l : Label V} (h : step cfg s l = some s') :
    Move cfg s l s' := by
  cases l with
  | search sorters query K resSize =>
    obtain rfl := Option.some.inj h
    exact .search _ _ _ _
  | insert id vec =>
    obtain rfl := Option.some.inj h
    exact .insert _ _
  | remove id vec =>
    obtain rfl := Option.some.inj h
    exact .remove _ _
  | call i reply =>
    simp only [step, Option.map_eq_some_iff, Option.bind_eq_some_iff] at h
    obtain ⟨next, ⟨call, hcall, hstep⟩, rfl⟩ := h
    exact .call i reply call next hcall (callMove_of_callStep hstep)
  | worker w reply =>
    simp only [step, workerStep] at h
    split at h
    · next hworker =>
      split at h
      · cases h
      · next hqueue =>
        obtain rfl := Option.some.inj h
        exact .took _ _ _ hworker hqueue
    · next hworker =>
      split_ifs at h with hcond
      obtain rfl := Option.some.inj h
      exact .fetched _ _ _ hworker hcond.1 hcond.2
    · next hworker =>
      rw [Option.map_eq_some_iff] at h
      obtain ⟨⟨cache, ret⟩, hinsert, rfl⟩ := h
      exact .inserted _ _ _ _ _ hworker _ _ hinsert
    · next hworker =>
      obtain rfl := Option.some.inj h
      exact .finished _ _ hworker
    · cases h
  | evict =>
    obtain rfl := Option.some.inj h
    exact .evict
  | consolidate shard =>
    obtain rfl := Option.some.inj h
    exact .consolidate _
  | setWriteThetaDiscount alpha =>
    obtain rfl := Option.some.inj h
    exact .setWriteThetaDiscount _
  | setWriteL1Radius radius =>
    obtain rfl := Option.some.inj h
    exact .setWriteL1Radius _
  | setSearchStrategy strategy =>
    obtain rfl := Option.some.inj h
    exact .setSearchStrategy _

/-! ## The tombstones -/

/-- The tombstones after a step: an insert erases one when it starts, a remove
    adds one in its step `burying`. -/
def tombstones (s : Sys V β) : Label V → Finset UInt32
  | .insert id _ => s.cache.deletedIds.erase id
  | .call i _ =>
    (s.calls[i]?.bind Call.buries).elim s.cache.deletedIds fun id => insert id s.cache.deletedIds
  | _ => s.cache.deletedIds

theorem CallMove.deletedIds {s : Sys V β} {i : Nat} {call : Call V} {reply : Reply V}
    {next : Next V β} (h : CallMove cfg s i call reply next) :
    next.cache.deletedIds =
      call.buries.elim s.cache.deletedIds fun id => insert id s.cache.deletedIds := by
  cases h with
  | placed => exact (Cache.drops_ensureAdmitShard _).deletedIds
  | chose => exact (Cache.drops_chooseDataShard _).deletedIds
  | gaveUp => exact (Cache.drops_chooseDataShard _).deletedIds
  | landed id vec shard cache accepted hland =>
    obtain ⟨_, _, idxs, _, rfl⟩ := Cache.insertPointUnchecked_cases hland
    rfl
  | noted id => exact Cache.deletedIds_noteAdmittedTag _ _
  | deleted id shard => exact Cache.deletedIds_lazyDeleteIn _ _ _
  | _ => rfl

theorem deletedIds_step {s s' : Sys V β} {l : Label V} (h : step cfg s l = some s') :
    s'.cache.deletedIds = s.tombstones l := by
  cases move_of_step h with
  | search sorters query K resSize => exact (Cache.sameContents_lookup sorters resSize).deletedIds
  | call i reply call next hcall hmove =>
    simp only [tombstones, hcall, Option.bind_some]
    exact hmove.deletedIds
  | inserted w task id vec rest hworker cache ret hinsert =>
    obtain ⟨_, idxs, _, rfl⟩ := Cache.indexInsertPoint_cases hinsert
    rfl
  | finished w task =>
    obtain ⟨th, hth⟩ := finished_eq cfg s task
    show (s.finished cfg task).deletedIds = _
    rw [hth]
    rfl
  | evict => exact (Cache.drops_performEviction _).deletedIds
  | consolidate shard => exact (Cache.drops_consolidateShard _ shard).deletedIds
  | _ => rfl

/-! ## The points in the shards -/

/-- The step is an `insert_point` of this id and vector on this shard, and the
    shard accepts it. -/
inductive Lands (cfg : SystemConfig V β) (s : Sys V β) : Label V → Nat → UInt32 → V → Prop where
  | call (i : Nat) (id : UInt32) (vec : V) (shard : Nat)
      (hcall : s.calls[i]? = some (.landing id vec shard))
      (hslots : s.cache.shardHasInsertSlots cfg.cache shard = true)
      (haccepts : s.cache.Accepts shard (1 + id)) :
    Lands cfg s (.call i .proceed) shard id vec
  | worker (w : Nat) (task : Task V) (id : UInt32) (vec : V) (rest : List (UInt32 × V))
      (hworker : s.workers[w]? = some (some (.inserting task ((id, vec) :: rest))))
      (haccepts : s.cache.Accepts task.shard (1 + id)) :
    Lands cfg s (.worker w .proceed) task.shard id vec

theorem Lands.accepts {s : Sys V β} {l : Label V} {k : Nat} {id : UInt32} {vec : V}
    (h : Lands cfg s l k id vec) : s.cache.Accepts k (1 + id) := by
  cases h with
  | call _ _ _ _ _ _ haccepts => exact haccepts
  | worker _ _ _ _ _ _ haccepts => exact haccepts

/-- A point that is in a shard after a step was there before, or the step has
    inserted it. -/
theorem holds_step {s s' : Sys V β} {l : Label V} (h : step cfg s l = some s') {k : Nat} {tag : Tag}
    {vec : V} (hholds : s'.cache.HoldsAt k tag vec) :
    s.cache.HoldsAt k tag vec ∨ ∃ id, tag = 1 + id ∧ Lands cfg s l k id vec := by
  cases move_of_step h with
  | search sorters query K resSize =>
    exact Or.inl
      ((Cache.holdsAt_congr (Cache.sameContents_lookup sorters resSize).memoryIndices).mp hholds)
  | call i reply call next hcall hmove =>
    have hnext : next.cache.HoldsAt k tag vec := hholds
    cases hmove with
    | placed => exact Or.inl ((Cache.drops_ensureAdmitShard _).holds k tag vec hnext)
    | chose => exact Or.inl ((Cache.drops_chooseDataShard _).holds k tag vec hnext)
    | gaveUp => exact Or.inl ((Cache.drops_chooseDataShard _).holds k tag vec hnext)
    | landed id v shard cache accepted hland =>
      obtain ⟨hcases, haccepted, _⟩ := Cache.insertPointUnchecked_cases hland
      rcases (hcases k tag vec).mp hnext with hold | ⟨⟨rfl, rfl, rfl⟩, htrue⟩
      · exact Or.inl hold
      · obtain ⟨hslots, haccepts⟩ := haccepted.mp htrue
        exact Or.inr ⟨id, rfl, .call i id vec k hcall hslots haccepts⟩
    | noted id => exact Or.inl (Cache.holdsAt_noteAdmittedTag.mp hnext)
    | deleted id shard => exact Or.inl (Cache.holdsAt_lazyDeleteIn.mp hnext).1
    | lowered id v => cases v <;> exact Or.inl hnext
    | _ => exact Or.inl hnext
  | inserted w task id v rest hworker cache ret hinsert =>
    obtain ⟨hcases, _⟩ := Cache.indexInsertPoint_cases hinsert
    -- a refused point changes nothing
    rcases hcases with ⟨heq, _⟩ | ⟨_, haccepts, hadd⟩
    · exact Or.inl ((Cache.holdsAt_congr heq).mp hholds)
    · rcases (hadd k tag vec).mp hholds with hold | ⟨rfl, rfl, rfl⟩
      · exact Or.inl hold
      · exact Or.inr ⟨id, rfl, .worker w task id vec rest hworker haccepts⟩
  | finished w task =>
    obtain ⟨th, hth⟩ := finished_eq cfg s task
    exact Or.inl ((Cache.holdsAt_congr (congrArg Cache.memoryIndices hth)).mp hholds)
  | evict => exact Or.inl ((Cache.drops_performEviction _).holds k tag vec hholds)
  | consolidate shard => exact Or.inl ((Cache.drops_consolidateShard _ shard).holds k tag vec hholds)
  | _ => exact Or.inl hholds

/-- The point is there after the step that inserts it. -/
theorem holds_of_lands {s s' : Sys V β} {l : Label V} {k : Nat} {id : UInt32} {vec : V}
    (hlands : Lands cfg s l k id vec) (h : step cfg s l = some s') :
    s'.cache.HoldsAt k (1 + id) vec := by
  cases hlands with
  | call i _ _ _ hcall hslots haccepts =>
    cases move_of_step h with
    | call _ _ call next hcall' hmove =>
      rw [hcall] at hcall'
      obtain rfl := Option.some.inj hcall'
      cases hmove with
      | landed _ _ _ cache accepted hland =>
        obtain ⟨hcases, haccepted, _⟩ := Cache.insertPointUnchecked_cases hland
        exact (hcases k (1 + id) vec).mpr
          (Or.inr ⟨⟨rfl, rfl, rfl⟩, haccepted.mpr ⟨hslots, haccepts⟩⟩)
      -- an accepted point does not throw
      | landThrew _ _ _ hthrew => exact absurd haccepts (Cache.not_accepts_of_throw hslots hthrew)
  | worker w task _ _ rest hworker haccepts =>
    cases move_of_step h with
    | took _ _ _ hworker' =>
      rw [hworker] at hworker'
      cases hworker'
    | inserted _ task' id' vec' rest' hworker' cache ret hinsert =>
      rw [hworker] at hworker'
      obtain ⟨rfl, hpoints⟩ := Running.inserting.inj (Option.some.inj (Option.some.inj hworker'))
      obtain ⟨hpoint, _⟩ := List.cons.inj hpoints
      obtain ⟨rfl, rfl⟩ := Prod.mk.inj hpoint
      obtain ⟨hcases, _⟩ := Cache.indexInsertPoint_cases hinsert
      rcases hcases with ⟨_, _, hrefused⟩ | ⟨_, _, hadd⟩
      · exact absurd haccepts hrefused
      · exact (hadd _ _ _).mpr (Or.inr ⟨rfl, rfl, rfl⟩)
    | finished _ _ hworker' =>
      rw [hworker] at hworker'
      cases hworker'

/-- After the step of a remove on a shard, the shard does not hold the tag. -/
theorem not_holds_after_delete {s s' : Sys V β} {i : Nat} {reply : Reply V} {id : UInt32} {k : Nat}
    (h : step cfg s (.call i reply) = some s') (hcall : s.calls[i]? = some (.deleting id k))
    (hk : k < s.cache.memoryIndices.length) (vec : V) : ¬ s'.cache.HoldsAt k (1 + id) vec := by
  cases move_of_step h with
  | call i reply call next hcall' hmove =>
    rw [hcall] at hcall'
    obtain rfl := Option.some.inj hcall'
    cases hmove with
    | deleted => exact fun hholds => (Cache.holdsAt_lazyDeleteIn.mp hholds).2 ⟨rfl, rfl⟩
    | dropped _ _ hge => exact absurd hk (Nat.not_lt.mpr hge)
    | notDropped _ _ hge => exact absurd hk (Nat.not_lt.mpr hge)
    | dropThrew _ _ hge => exact absurd hk (Nat.not_lt.mpr hge)

/-! ## The backend -/

/-- What a step can do to the backend. -/
inductive BackendChange (cfg : SystemConfig V β) (s : Sys V β) (l : Label V) (backend : β) : Prop where
  | same (hsame : backend = s.backend)
  | inserted (i : Nat) (id : UInt32) (vec : V) (hl : l = .call i .proceed)
      (hcall : s.calls[i]? = some (.inserting id vec))
      (hinsert : cfg.backend.insert s.backend id vec = some backend)
  | removed (i : Nat) (id : UInt32) (shard : Nat) (hl : l = .call i .proceed)
      (hcall : s.calls[i]? = some (.deleting id shard))
      (hshard : s.cache.memoryIndices.length ≤ shard)
      (hremove : cfg.backend.remove s.backend id = some backend)

theorem backend_step {s s' : Sys V β} {l : Label V} (h : step cfg s l = some s') :
    BackendChange cfg s l s'.backend := by
  cases move_of_step h with
  | call i reply call next hcall hmove =>
    cases hmove with
    | stored id vec backend hsupports hinsert => exact .inserted i id vec rfl hcall hinsert
    | dropped id shard hshard backend hsupports hremove =>
      exact .removed i id shard rfl hcall hshard hremove
    | _ => exact .same rfl
  | _ => exact .same rfl

/-! ## The calls -/

/-- The call that a label begins. -/
inductive Begins (cfg : SystemConfig V β) (s : Sys V β) : Label V → Call V → Prop where
  | search (sorters : Sorters) (query : V) (K resSize : Nat) :
    Begins cfg s (.search sorters query K resSize)
      (lookedUp query K (s.cache.lookup cfg.cache sorters query K resSize).2)
  | insert (id : UInt32) (vec : V) : Begins cfg s (.insert id vec) (.inserting id vec)
  | remove (id : UInt32) (vec : Option V) : Begins cfg s (.remove id vec) (.removing id vec)

/-- A call after a step is as it was, new, or the one that has moved. -/
theorem calls_step {s s' : Sys V β} {l : Label V} (h : step cfg s l = some s') {j : Nat}
    {call' : Call V} (hj : s'.calls[j]? = some call') :
    s.calls[j]? = some call' ∨
      (j = s.calls.length ∧ Begins cfg s l call') ∨
      ∃ reply call next, l = .call j reply ∧ s.calls[j]? = some call ∧
        CallMove cfg s j call reply next ∧ call' = next.call := by
  have happend : ∀ {new : Call V}, (s.calls ++ [new])[j]? = some call' →
      Begins cfg s l new → s.calls[j]? = some call' ∨
        (j = s.calls.length ∧ Begins cfg s l call') ∨
        ∃ reply call next, l = .call j reply ∧ s.calls[j]? = some call ∧
          CallMove cfg s j call reply next ∧ call' = next.call := by
    intro new hget hbegins
    -- an old call, the new one, or none
    rcases Nat.lt_trichotomy j s.calls.length with hlt | rfl | hgt
    · rw [List.getElem?_append_left hlt] at hget
      exact Or.inl hget
    · rw [List.getElem?_concat_length] at hget
      obtain rfl := Option.some.inj hget
      exact Or.inr (Or.inl ⟨rfl, hbegins⟩)
    · rw [List.getElem?_eq_none (by rw [List.length_append, List.length_singleton]; omega)] at hget
      cases hget
  cases move_of_step h with
  | search sorters query K resSize => exact happend hj (.search sorters query K resSize)
  | insert id vec => exact happend hj (.insert id vec)
  | remove id vec => exact happend hj (.remove id vec)
  | call i reply call next hcall hmove =>
    rcases Slots.eq_or_of_getElem?_set hj with ⟨rfl, hnow⟩ | hold
    · exact Or.inr (Or.inr ⟨reply, call, next, rfl, hcall, hmove, hnow⟩)
    · exact Or.inl hold
  | _ => exact Or.inl hj

/-- Only its own steps move a call. -/
theorem calls_kept {s s' : Sys V β} {l : Label V} (h : step cfg s l = some s') {j : Nat}
    {call : Call V} (hj : s.calls[j]? = some call) (hother : ∀ reply, l ≠ .call j reply) :
    s'.calls[j]? = some call := by
  have hlt : j < s.calls.length := (List.getElem?_eq_some_iff.mp hj).1
  have happend : ∀ new : Call V, (s.calls ++ [new])[j]? = some call := fun new => by
    rw [List.getElem?_append_left hlt, hj]
  cases move_of_step h with
  | search => exact happend _
  | insert => exact happend _
  | remove => exact happend _
  | call i reply call' next hcall hmove =>
    have hij : i ≠ j := fun heq => hother reply (by rw [heq])
    exact (List.getElem?_set_ne hij).trans hj
  | _ => exact hj

/-! ## The tasks -/

/-- A task of the pool, waiting or at work. -/
def HasTask (s : Sys V β) (task : Task V) : Prop :=
  task ∈ s.queue ∨ ∃ (w : Nat) (running : Running V),
    s.workers[w]? = some (some running) ∧ running.task = task

/-- A worker moves on, and the task it now works on was in the pool already. -/
theorem HasTask.of_set {s : Sys V β} {queue : List (Task V)} {w : Nat} {o : Option (Running V)}
    {task : Task V} (hqueue : ∀ task ∈ queue, task ∈ s.queue)
    (ho : ∀ running, o = some running → s.HasTask running.task)
    (htask : task ∈ queue ∨ ∃ (w' : Nat) (running : Running V),
      (s.workers.set w o)[w']? = some (some running) ∧ running.task = task) : s.HasTask task := by
  rcases htask with hmem | ⟨w', running, hset, rfl⟩
  · exact Or.inl (hqueue task hmem)
  · rcases Slots.eq_or_of_getElem?_set hset with ⟨_, hnow⟩ | hold
    · exact ho running hnow.symm
    · exact Or.inr ⟨w', running, hold, rfl⟩

/-- A task of the pool was there before, or a call has submitted it. -/
theorem hasTask_step {s s' : Sys V β} {l : Label V} (h : step cfg s l = some s') {task : Task V}
    (htask : s'.HasTask task) :
    s.HasTask task ∨ ∃ i reply call next, l = .call i reply ∧ s.calls[i]? = some call ∧
      CallMove cfg s i call reply next ∧ next.submitted = some task := by
  cases move_of_step h with
  | call i reply call next hcall hmove =>
    rcases htask with hqueue | hworker
    · rcases List.mem_append.mp hqueue with hold | hnew
      · exact Or.inl (Or.inl hold)
      · exact Or.inr ⟨i, reply, call, next, rfl, hcall, hmove, Option.mem_toList.mp hnew⟩
    · exact Or.inl (Or.inr hworker)
  | took w first rest hworker hqueue =>
    -- the first task of the queue is now the worker's
    refine Or.inl (HasTask.of_set (fun t ht => ?_) (fun running hnew => ?_) htask)
    · exact hqueue ▸ List.mem_cons_of_mem first ht
    · obtain rfl := Option.some.inj hnew
      exact Or.inl (hqueue ▸ List.mem_cons_self)
  | fetched w first vectors hworker =>
    refine Or.inl (HasTask.of_set (fun _ ht => ht) (fun running hnew => ?_) htask)
    obtain rfl := Option.some.inj hnew
    exact Or.inr ⟨w, _, hworker, rfl⟩
  | inserted w first id vec rest hworker =>
    refine Or.inl (HasTask.of_set (fun _ ht => ht) (fun running hnew => ?_) htask)
    obtain rfl := Option.some.inj hnew
    exact Or.inr ⟨w, _, hworker, rfl⟩
  | finished w first hworker =>
    -- the worker is free again
    refine Or.inl (HasTask.of_set (fun _ ht => ht) (fun running hnew => ?_) htask)
    cases hnew
  | _ => exact Or.inl htask

/-! ## The shards -/

/-- The shards are complete, and the inserts under way point to them. -/
structure Shaped (cfg : SystemConfig V β) (s : Sys V β) : Prop where
  cache : Cache.Shaped cfg.cache s.cache
  calls : ∀ (i : Nat) (call : Call V), s.calls[i]? = some call →
    call.InRange cfg.cache.numberOfMiniIndexes

theorem CallMove.shaped {s : Sys V β} {i : Nat} {call : Call V} {reply : Reply V} {next : Next V β}
    (h : CallMove cfg s i call reply next) (hcache : Cache.Shaped cfg.cache s.cache)
    (hcall : call.InRange cfg.cache.numberOfMiniIndexes) :
    Cache.Shaped cfg.cache next.cache ∧ next.call.InRange cfg.cache.numberOfMiniIndexes := by
  cases h with
  | placed => exact ⟨hcache.ensureAdmitShard, trivial⟩
  | chose id vec shard hshard => exact ⟨hcache.chooseDataShard, hcache.chosen_lt hshard⟩
  | gaveUp => exact ⟨hcache.chooseDataShard, trivial⟩
  | passed => exact ⟨hcache, hcall⟩
  | refused => exact ⟨hcache, hcall⟩
  | landed id vec shard cache accepted hland =>
    obtain ⟨_, _, idxs, hlen, rfl⟩ := Cache.insertPointUnchecked_cases hland
    refine ⟨hcache.of_same hlen rfl, ?_⟩
    cases accepted <;> exact hcall
  | noted id vec shard =>
    obtain ⟨fifo, set, hnote⟩ := Cache.noteAdmittedTag_eq s.cache (1 + id)
    refine ⟨?_, hcall⟩
    show Cache.Shaped cfg.cache (s.cache.noteAdmittedTag (1 + id))
    rw [hnote]
    exact hcache.of_same rfl rfl
  | touched => exact ⟨hcache.touchShard hcall, trivial⟩
  | deleted id shard => exact ⟨hcache.lazyDeleteIn shard _, trivial⟩
  | lowered id vec => cases vec <;> exact ⟨hcache.of_same rfl rfl, trivial⟩
  | _ => exact ⟨hcache.of_same rfl rfl, trivial⟩

theorem shaped_step {s s' : Sys V β} {l : Label V} (hs : Shaped cfg s) (h : step cfg s l = some s') :
    Shaped cfg s' := by
  constructor
  · cases move_of_step h with
    | search sorters query K resSize => exact hs.cache.lookup sorters query K resSize
    | call i reply call next hcall hmove => exact (hmove.shaped hs.cache (hs.calls i call hcall)).1
    | inserted w task id vec rest hworker cache ret hinsert =>
      obtain ⟨_, idxs, hlen, rfl⟩ := Cache.indexInsertPoint_cases hinsert
      exact hs.cache.of_same hlen rfl
    | finished w task =>
      obtain ⟨th, hth⟩ := finished_eq cfg s task
      show Cache.Shaped cfg.cache (s.finished cfg task)
      rw [hth]
      exact hs.cache.of_same rfl rfl
    | evict => exact hs.cache.performEviction
    | consolidate shard => exact hs.cache.consolidateShard shard
    | _ => exact hs.cache.of_same rfl rfl
  · intro j call' hj
    rcases calls_step h hj with hold | ⟨_, hbegins⟩ | ⟨reply, call, next, _, hcall, hmove, rfl⟩
    · exact hs.calls j call' hold
    · cases hbegins with
      | search sorters query K resSize =>
        cases (s.cache.lookup cfg.cache sorters query K resSize).2 <;> trivial
      | insert => trivial
      | remove => trivial
    · exact (hmove.shaped hs.cache (hs.calls j call hcall)).2

theorem shaped_of_reachable {s : Sys V β} (h : Reachable cfg s) : Shaped cfg s := by
  obtain ⟨backend, radius, alpha, threads, hreach⟩ := h
  refine Traces.reachable_invariant (fun s l s' hs hstep => shaped_step hs hstep) ?_ hreach
  exact ⟨Cache.shaped_init radius alpha, fun i call hi => by simp [init] at hi⟩

end Sys

end QvCache
