/-
  QvCache.System.Admission

  Miss admission over whole runs: in every reachable state with no task pending,
  the shard that `ensure_admit_shard` returns has a free slot, except in a cache
  whose only shard is full of live points, and in one with fewer points than
  shards; and the task of the miss admits its first new id there, whatever other
  steps come in between, unless one of them changes the shard.

  Every mini-index of a run keeps the bound it was created with: what all its
  operations keep holds of every mini-index of every reachable state.

  The points of an admit task never make `insert_point` throw
  (`inserts_of_reachable`): the miss has filtered the one id whose tag is 0.
-/

import QvCache.Cache.Room
import QvCache.Lib.Slots
import QvCache.System.Bookkeeping
import QvCache.System.HitSoundness

namespace QvCache

/-- A property of mini-indexes that a fresh one has and every operation keeps. -/
structure MiniIndex.Kept {V : Type} (maxPoints : Nat) (P : MiniIndex V → Prop) : Prop where
  create : P (MiniIndex.create maxPoints)
  insertPoint : ∀ {idx idx' : MiniIndex V} {point : V} {tag : Tag} {ret : Int}, P idx →
    idx.insertPoint point tag = some (idx', ret) → P idx'
  lazyDelete : ∀ {idx : MiniIndex V} (tag : Tag), P idx → P (idx.lazyDelete tag).1
  consolidateDeletes : ∀ {idx : MiniIndex V}, P idx → P idx.consolidateDeletes

/-- The bound of a mini-index never changes. -/
theorem MiniIndex.kept_maxPoints {V : Type} (maxPoints : Nat) :
    MiniIndex.Kept maxPoints fun idx : MiniIndex V =>
      idx.maxPoints = (MiniIndex.create maxPoints : MiniIndex V).maxPoints where
  create := rfl
  insertPoint := by
    intro idx idx' point tag ret hidx h
    obtain ⟨_, ⟨rfl, _, _⟩ | ⟨_, _, _, _, _, hmax⟩⟩ := MiniIndex.insertPoint_cases h
    · exact hidx
    · exact hmax.trans hidx
  lazyDelete := by
    intro idx tag hidx
    unfold MiniIndex.lazyDelete
    split_ifs
    · exact hidx
    · exact hidx
  consolidateDeletes := id

namespace Cache

variable {V : Type} {cfg : CacheConfig V} {c c' : Cache V} {P : MiniIndex V → Prop}

/-- Every mini-index has the property. -/
def Each (P : MiniIndex V → Prop) (c : Cache V) : Prop := ∀ idx ∈ c.memoryIndices, P idx

theorem Each.of_get (h : c.Each P) {i : Nat} {idx : MiniIndex V}
    (hidx : c.memoryIndices[i]? = some idx) : P idx :=
  h idx (List.mem_of_getElem? hidx)

theorem Each.setIndex (h : c.Each P) (i : Nat) {idx : MiniIndex V} (hidx : P idx) :
    (c.setIndex i idx).Each P :=
  Slots.forall_mem_set h hidx

variable (hP : MiniIndex.Kept cfg.memoryIndexMaxPointsPerIndex P)

include hP

theorem Each.consolidateShard (h : c.Each P) (i : Nat) : (c.consolidateShard i).Each P := by
  unfold Cache.consolidateShard
  cases hidx : c.memoryIndices[i]? with
  | none => exact h
  | some idx =>
    dsimp only
    split_ifs
    · exact h
    · exact h.setIndex i (hP.consolidateDeletes (h.of_get hidx))

theorem Each.reclaimInsertSlots (h : c.Each P) (i : Nat) :
    (c.reclaimInsertSlots cfg i).Each P := by
  unfold Cache.reclaimInsertSlots
  split_ifs
  · exact h.consolidateShard hP i
  · exact h

theorem Each.allReclaimed (h : c.Each P) : (c.allReclaimed cfg).Each P := by
  -- the active shard first, then by induction the others
  unfold Cache.allReclaimed reclaimOthers
  have hactive := h.reclaimInsertSlots hP c.activeInsertIndexId
  generalize c.reclaimInsertSlots cfg c.activeInsertIndexId = d at hactive ⊢
  generalize List.range d.memoryIndices.length = shards
  induction shards generalizing d with
  | nil => exact hactive
  | cons i rest ih =>
    refine ih _ ?_
    dsimp only
    split_ifs
    · exact hactive
    · exact hactive.reclaimInsertSlots hP i

theorem Each.performEviction (h : c.Each P) : (c.performEviction cfg).Each P :=
  performEviction_induction h (fun _ i hd => hd.setIndex i hP.create) (fun _ _ _ hd => hd)
    fun _ hd => hd

theorem Each.ensureAdmitShard (h : c.Each P) : (c.ensureAdmitShard cfg).1.Each P := by
  have hall := h.allReclaimed hP
  have hways := admitShard cfg c
  generalize c.ensureAdmitShard cfg = r at hways ⊢
  -- the shard comes from one of four branches
  cases hways with
  | active => exact h.reclaimInsertSlots hP _
  | spare => exact hall
  | pending => exact hall
  | evicted =>
    have hready : (c.readyToEvict cfg).Each P := hall
    exact hready.performEviction hP

theorem Each.chooseDataShard (h : c.Each P) : (c.chooseDataShard cfg).1.Each P :=
  chooseDataShard_fst cfg c ▸ h.reclaimInsertSlots hP _

theorem Each.indexInsertPoint (h : c.Each P) {shard : Nat} {id : UInt32} {vec : V} {ret : Int}
    (hinsert : c.indexInsertPoint shard id vec = some (c', ret)) : c'.Each P := by
  unfold Cache.indexInsertPoint at hinsert
  cases hidx : c.memoryIndices[shard]? with
  | none =>
    rw [hidx] at hinsert
    cases hinsert
  | some idx =>
    rw [hidx] at hinsert
    obtain ⟨⟨idx', r⟩, hpoint, heq⟩ := Option.map_eq_some_iff.mp hinsert
    obtain ⟨rfl, _⟩ := Prod.mk.inj heq
    exact h.setIndex shard (hP.insertPoint (h.of_get hidx) hpoint)

theorem Each.insertPointUnchecked (h : c.Each P) {shard : Nat} {id : UInt32} {vec : V}
    {accepted : Bool}
    (hinsert : c.insertPointUnchecked cfg shard id vec = some (c', accepted)) : c'.Each P := by
  unfold Cache.insertPointUnchecked at hinsert
  split_ifs at hinsert
  · obtain ⟨⟨d, r⟩, hpoint, heq⟩ := Option.map_eq_some_iff.mp hinsert
    obtain ⟨rfl, _⟩ := Prod.mk.inj heq
    exact h.indexInsertPoint hP hpoint
  · obtain ⟨rfl, _⟩ := Prod.mk.inj (Option.some.inj hinsert)
    exact h

omit hP in
theorem Each.noteAdmittedTag (h : c.Each P) (memTag : Tag) : (c.noteAdmittedTag memTag).Each P := by
  obtain ⟨fifo, set, heq⟩ := c.noteAdmittedTag_eq memTag
  rw [heq]
  exact h

theorem Each.lazyDeleteIn (h : c.Each P) (i : Nat) (memTag : Tag) :
    (c.lazyDeleteIn i memTag).Each P := by
  unfold Cache.lazyDeleteIn
  cases hidx : c.memoryIndices[i]? with
  | none => exact h
  | some idx => exact h.setIndex i (hP.lazyDelete memTag (h.of_get hidx))

end Cache

/-- An admit task that `insert_point` does not throw at: none of its ids has the
    tag 0, and its shard is one of the first `n`. -/
def Insertable (n : Nat) (ids : List UInt32) (shard : Nat) : Prop := 0xFFFFFFFF ∉ ids ∧ shard < n

/-- What a miss has collected so far leads to such a task. -/
def Call.Admissible {V : Type} (n : Nat) : Call V → Prop
  | .filtered _ _ _ ids => 0xFFFFFFFF ∉ ids
  | .placed _ _ _ ids shard => Insertable n ids shard
  | .learned _ _ _ ids shard => Insertable n ids shard
  | _ => True

/-- The points that a worker still has to insert. -/
def Running.pointsLeft {V : Type} : Running V → List (UInt32 × V)
  | .fetching _ => []
  | .inserting _ rest => rest

namespace Sys

variable {V β : Type} {cfg : SystemConfig V β} {P : MiniIndex V → Prop}

theorem CallMove.each (hP : MiniIndex.Kept cfg.cache.memoryIndexMaxPointsPerIndex P) {s : Sys V β}
    {i : Nat} {call : Call V} {reply : Reply V} {next : Next V β}
    (h : CallMove cfg s i call reply next) (hs : s.cache.Each P) : next.cache.Each P := by
  cases h with
  | placed => exact hs.ensureAdmitShard hP
  | chose => exact hs.chooseDataShard hP
  | gaveUp => exact hs.chooseDataShard hP
  | landed id vec shard cache accepted hland => exact hs.insertPointUnchecked hP hland
  | noted id => exact hs.noteAdmittedTag (1 + id)
  | deleted id shard => exact hs.lazyDeleteIn hP shard _
  | lowered id vec => cases vec <;> exact hs
  | _ => exact hs

theorem each_step (hP : MiniIndex.Kept cfg.cache.memoryIndexMaxPointsPerIndex P) {s s' : Sys V β}
    {l : Label V} (hs : s.cache.Each P) (h : step cfg s l = some s') : s'.cache.Each P := by
  cases move_of_step h with
  | search sorters query K resSize =>
    have hsame : Cache.SameContents s.cache
        (s.cache.lookup cfg.cache sorters query K resSize).1 :=
      Cache.sameContents_lookup sorters resSize
    intro idx hidx
    exact hs idx (hsame.memoryIndices ▸ hidx)
  | call i reply call next hcall hmove => exact hmove.each hP hs
  | inserted w task id vec rest hworker cache ret hinsert => exact hs.indexInsertPoint hP hinsert
  | finished w task =>
    obtain ⟨th, hth⟩ := finished_eq cfg s task
    show (s.finished cfg task).Each P
    rw [hth]
    exact hs
  | evict => exact hs.performEviction hP
  | consolidate shard => exact hs.consolidateShard hP shard
  | _ => exact hs

theorem each_of_reachable (hP : MiniIndex.Kept cfg.cache.memoryIndexMaxPointsPerIndex P)
    {s : Sys V β} (h : Reachable cfg s) : s.cache.Each P := by
  obtain ⟨backend, radius, alpha, threads, hreach⟩ := h
  refine Traces.reachable_invariant (fun s l s' hs hstep => each_step hP hs hstep) ?_ hreach
  intro idx hidx
  rw [List.eq_of_mem_replicate hidx]
  exact hP.create

/-! ## The first new id of a miss -/

/-- A shard with slots takes a tag that is not live there. -/
theorem insert_of_slots {cfg : CacheConfig V} {c : Cache V} {shard : Nat}
    (hslots : c.shardHasInsertSlots cfg shard = true)
    (hbound : c.Each fun idx =>
      idx.maxPoints = (MiniIndex.create cfg.memoryIndexMaxPointsPerIndex : MiniIndex V).maxPoints)
    {id : UInt32} (vec : V) (hid : id ≠ 0xFFFFFFFF) (hnew : ∀ vec', ¬ c.HoldsAt shard (1 + id) vec') :
    ∃ c', c.indexInsertPoint shard id vec = some (c', 0) ∧ c'.HoldsAt shard (1 + id) vec := by
  obtain ⟨idx, hidx, hroom⟩ := Cache.shardHasInsertSlots_iff.mp hslots
  have htag : (1 + id : Tag) ≠ 0 := fun hzero => hid (tag_eq_zero_iff.mp hzero)
  -- the tag is new, so this is not the refusal of a duplicate
  have hdead : ¬ (idx.points.lookup (1 + id)).isSome := by
    intro hlive
    obtain ⟨vec', hvec'⟩ := Option.isSome_iff_exists.mp hlive
    exact hnew vec' ⟨idx, hidx, hvec'⟩
  -- the free slot that the shard reports is one of its mini-index
  have hfree : idx.points.size + idx.lazyDeleted < idx.maxPoints := by
    rw [hbound.of_get hidx]
    show _ < if cfg.memoryIndexMaxPointsPerIndex = 0 then 1 else cfg.memoryIndexMaxPointsPerIndex
    split_ifs <;> omega
  have hinsert : ∃ c', c.indexInsertPoint shard id vec = some (c', 0) := by
    unfold Cache.indexInsertPoint MiniIndex.insertPoint
    rw [hidx]
    dsimp only
    rw [if_neg htag, dif_pos hfree, dif_neg hdead]
    exact ⟨_, rfl⟩
  obtain ⟨c', hc'⟩ := hinsert
  refine ⟨c', hc', ?_⟩
  obtain ⟨⟨_, hret, _⟩ | ⟨_, _, hholds⟩, _⟩ := Cache.indexInsertPoint_cases hc'
  · cases hret
  · exact (hholds shard (1 + id) vec).mpr (Or.inr ⟨rfl, rfl, rfl⟩)

/-! ## The points of an admit task -/

/-- The misses under way, the tasks they have submitted, and the points that the
    workers have fetched for them. -/
structure AdmitsOnly (cfg : SystemConfig V β) (s : Sys V β) : Prop where
  calls : ∀ (i : Nat) (call : Call V), s.calls[i]? = some call →
    call.Admissible cfg.cache.numberOfMiniIndexes
  tasks : ∀ task, s.HasTask task →
    Insertable cfg.cache.numberOfMiniIndexes task.toBeInserted task.shard
  points : ∀ (w : Nat) (running : Running V), s.workers[w]? = some (some running) →
    ∀ e ∈ running.pointsLeft, e.1 ∈ running.task.toBeInserted

theorem CallMove.admissible {s : Sys V β} {i : Nat} {call : Call V} {reply : Reply V}
    {next : Next V β} (h : CallMove cfg s i call reply next)
    (hsteady : Cache.Steady cfg.cache s.cache)
    (hcall : call.Admissible cfg.cache.numberOfMiniIndexes) :
    next.call.Admissible cfg.cache.numberOfMiniIndexes := by
  cases h with
  | filtered query K answer =>
    -- the filter of `handle_backend_miss`
    intro hmem
    have hkept := (List.mem_filter.mp hmem).2
    simp at hkept
  | placed => exact ⟨hcall, hsteady.admitShard_lt⟩
  | learned => exact hcall
  | landed id vec shard cache accepted => cases accepted <;> trivial
  | _ => trivial

/-- A task that a call submits has its ids and its shard from the call. -/
theorem CallMove.admissible_submitted {s : Sys V β} {i : Nat} {call : Call V} {reply : Reply V}
    {next : Next V β} (h : CallMove cfg s i call reply next) {n : Nat}
    (hcall : call.Admissible n) {task : Task V} (hsubmit : next.submitted = some task) :
    Insertable n task.toBeInserted task.shard := by
  cases h with
  | deferred =>
    obtain rfl := Option.some.inj hsubmit
    exact hcall
  | submitted =>
    obtain rfl := Option.some.inj hsubmit
    exact hcall
  | _ => cases hsubmit

theorem pointsLeft_step {s s' : Sys V β} {l : Label V} (h : step cfg s l = some s')
    (hs : AdmitsOnly cfg s) (w : Nat) (running : Running V)
    (hw : s'.workers[w]? = some (some running)) :
    ∀ e ∈ running.pointsLeft, e.1 ∈ running.task.toBeInserted := by
  have hset : ∀ {w' : Nat} {o : Option (Running V)},
      (∀ running, o = some running → ∀ e ∈ running.pointsLeft, e.1 ∈ running.task.toBeInserted) →
      (s.workers.set w' o)[w]? = some (some running) →
      ∀ e ∈ running.pointsLeft, e.1 ∈ running.task.toBeInserted := by
    intro w' o ho hget
    rcases Slots.eq_or_of_getElem?_set hget with ⟨_, hnow⟩ | hold
    · exact ho running hnow.symm
    · exact hs.points w running hold
  cases move_of_step h with
  | took =>
    refine hset (fun running heq => ?_) hw
    obtain rfl := Option.some.inj heq
    exact nofun
  | fetched w' task vectors =>
    -- each fetched vector is paired with its id
    refine hset (fun running heq e he => ?_) hw
    obtain rfl := Option.some.inj heq
    exact (List.of_mem_zip he).1
  | inserted w' task id vec rest hworker =>
    refine hset (fun running heq e he => ?_) hw
    obtain rfl := Option.some.inj heq
    exact hs.points w' _ hworker e (List.mem_cons_of_mem _ he)
  | finished =>
    refine hset (fun running heq => ?_) hw
    cases heq
  | _ => exact hs.points w running hw

theorem admitsOnly_step {s s' : Sys V β} {l : Label V} (hsteady : Cache.Steady cfg.cache s.cache)
    (hs : AdmitsOnly cfg s) (h : step cfg s l = some s') : AdmitsOnly cfg s' where
  calls := by
    intro i call' hi
    rcases calls_step h hi with hold | ⟨_, hbegins⟩ | ⟨reply, call, next, _, hcall, hmove, rfl⟩
    · exact hs.calls i call' hold
    · cases hbegins with
      | search sorters query K resSize =>
        cases (s.cache.lookup cfg.cache sorters query K resSize).2 <;> trivial
      | insert => trivial
      | remove => trivial
    · exact hmove.admissible hsteady (hs.calls i call hcall)
  tasks := by
    intro task htask
    rcases hasTask_step h htask with hold | ⟨i, reply, call, next, _, hcall, hmove, hsubmit⟩
    · exact hs.tasks task hold
    · exact hmove.admissible_submitted (hs.calls i call hcall) hsubmit
  points := pointsLeft_step h hs

theorem Reachable.step {s s' : Sys V β} {l : Label V} (h : Reachable cfg s)
    (hstep : Sys.step cfg s l = some s') : Reachable cfg s' := by
  obtain ⟨backend, radius, alpha, threads, hreach⟩ := h
  exact ⟨backend, radius, alpha, threads, hreach.trans (.of_step hstep)⟩

theorem Reachable.run {s t : Sys V β} {labels : List (Label V)} (h : Reachable cfg s)
    (hrun : Traces.run (Sys.step cfg) s labels = some t) : Reachable cfg t := by
  obtain ⟨backend, radius, alpha, threads, hreach⟩ := h
  exact ⟨backend, radius, alpha, threads, hreach.trans ⟨labels, hrun⟩⟩

theorem admitsOnly_of_reachable {s : Sys V β} (h : Reachable cfg s) : AdmitsOnly cfg s := by
  obtain ⟨backend, radius, alpha, threads, hreach⟩ := h
  have hboth := Traces.reachable_invariant
    (I := fun s => Reachable cfg s ∧ AdmitsOnly cfg s)
    (fun s l s' hs hstep => ?_) ⟨⟨backend, radius, alpha, threads, .refl _⟩, ?_⟩ hreach
  · exact hboth.2
  · exact ⟨hs.1.step hstep, admitsOnly_step (steady_of_reachable hs.1) hs.2 hstep⟩
  · refine ⟨fun i call hi => by simp [init] at hi, fun task htask => ?_, fun w running hw => ?_⟩
    · rcases htask with hqueue | ⟨w, running, hw, _⟩
      · cases hqueue
      · cases List.eq_of_mem_replicate (List.mem_of_getElem? hw)
    · cases List.eq_of_mem_replicate (List.mem_of_getElem? hw)

/-- In every reachable state a worker can insert its next point: `insert_point`
    does not throw at what a miss has filtered. -/
theorem inserts_of_reachable {s : Sys V β} (h : Reachable cfg s) {w : Nat} {task : Task V}
    {id : UInt32} {vec : V} {rest : List (UInt32 × V)}
    (hworker : s.workers[w]? = some (some (.inserting task ((id, vec) :: rest)))) :
    id ≠ 0xFFFFFFFF ∧ ∃ cache ret,
      s.cache.indexInsertPoint task.shard id vec = some (cache, ret) ∧
      step cfg s (.worker w .proceed) =
        some { s with cache := cache, workers := s.workers.set w (some (.inserting task rest)) } := by
  have hadmits := admitsOnly_of_reachable h
  obtain ⟨hids, hshard⟩ := hadmits.tasks task (Or.inr ⟨w, _, hworker, rfl⟩)
  have hid : id ≠ 0xFFFFFFFF := fun heq =>
    hids (heq ▸ hadmits.points w _ hworker (id, vec) List.mem_cons_self)
  have hlt : task.shard < s.cache.memoryIndices.length :=
    (shaped_of_reachable h).cache.length ▸ hshard
  have hinsert : ∃ r, s.cache.indexInsertPoint task.shard id vec = some r := by
    unfold Cache.indexInsertPoint MiniIndex.insertPoint
    rw [List.getElem?_eq_getElem hlt]
    dsimp only
    rw [if_neg fun hzero => hid (tag_eq_zero_iff.mp hzero)]
    split_ifs
    · exact ⟨_, rfl⟩
    · exact ⟨_, rfl⟩
    · exact ⟨_, rfl⟩
  obtain ⟨⟨cache, ret⟩, hr⟩ := hinsert
  refine ⟨hid, cache, ret, hr, ?_⟩
  simp only [step, workerStep, hworker, hr, Option.map_some]

/-! ## The task of a miss -/

/-- The step leaves mini-index `k` as it is. -/
def LeavesIndex (cfg : SystemConfig V β) (k : Nat) (s : Sys V β) (l : Label V) : Prop :=
  ∀ s', step cfg s l = some s' → s'.cache.memoryIndices[k]? = s.cache.memoryIndices[k]?

/-- The worker that comes to the first id of the miss of call `i` that mini-index
    `k` does not hold admits it there, whatever has happened in between, unless a
    step has changed the mini-index. -/
def AdmitsFirstNew (cfg : SystemConfig V β) (i k : Nat) (s : Sys V β) : Prop :=
  ∀ (labels : List (Label V)) (t : Sys V β), Traces.run (step cfg) s labels = some t →
    Traces.Along (step cfg) (LeavesIndex cfg k) s labels →
    ∀ (w : Nat) (task : Task V) (id : UInt32) (vec : V) (rest : List (UInt32 × V)),
      t.workers[w]? = some (some (.inserting task ((id, vec) :: rest))) → task.miss = i →
      (∀ vec', ¬ t.cache.HoldsAt k (1 + id) vec') →
      ∃ t', step cfg t (.worker w .proceed) = some t' ∧ t'.cache.HoldsAt k (1 + id) vec

/-- The steps of call `i` from its shard on, and of worker `w` with its task up to
    point `n`. -/
def admitLabels (i w : Nat) (lazyThetaUpdates : Bool) (vectors : List V) (n : Nat) :
    List (Label V) :=
  List.replicate (if lazyThetaUpdates then 1 else 2) (.call i .proceed) ++
    [.worker w .proceed, .worker w (.vectors vectors)] ++
    List.replicate (n + 1) (.worker w .proceed)

/-- With a free worker and a backend that has the vectors, these steps can be taken,
    and they admit the first id that mini-index `k` does not hold. -/
def ReachesFirstNew (cfg : SystemConfig V β) (i k : Nat) (ids : List UInt32) (s : Sys V β) : Prop :=
  ∀ (w : Nat) (vectors : List V), s.workers[w]? = some none → vectors.length = ids.length →
    cfg.backend.fetches s.backend ids (some (vectors.map some)) = true →
    ∀ (old : List (UInt32 × V)) (id : UInt32) (vec : V) (rest : List (UInt32 × V)),
      ids.zip vectors = old ++ (id, vec) :: rest →
      (∀ e ∈ old, ∃ vec', s.cache.HoldsAt k (1 + e.1) vec') →
      (∀ vec', ¬ s.cache.HoldsAt k (1 + id) vec') →
      ∃ t, Traces.run (step cfg) s
          (admitLabels i w cfg.cache.lazyThetaUpdates vectors old.length) = some t ∧
        t.cache.HoldsAt k (1 + id) vec

/-- A call past `ensure_admit_shard`, which has returned mini-index `k`. -/
def PlacedIn (k : Nat) : Call V → Prop
  | .placed _ _ _ _ shard => shard = k
  | .learned _ _ _ _ shard => shard = k
  | .missReturned _ _ _ => True
  | _ => False

/-- The miss of call `i` has been given mini-index `k`, and so has its task. -/
structure GoesTo (i k : Nat) (s : Sys V β) : Prop where
  call : ∃ call, s.calls[i]? = some call ∧ PlacedIn k call
  tasks : ∀ task, s.HasTask task → task.miss = i → task.shard = k

theorem goesTo_step {i k : Nat} {s s' : Sys V β} {l : Label V} (hs : GoesTo i k s)
    (h : step cfg s l = some s') : GoesTo i k s' := by
  obtain ⟨mine, hmine, hplaced⟩ := hs.call
  constructor
  · by_cases hmoves : ∃ reply, l = .call i reply
    · obtain ⟨reply, rfl⟩ := hmoves
      cases move_of_step h with
      | call _ _ call next hcall hmove =>
        obtain rfl := Option.some.inj (hmine.symm.trans hcall)
        refine ⟨next.call, Slots.getElem?_set_of_some hmine next.call, ?_⟩
        cases hmove with
        | deferred => trivial
        | learned => exact hplaced
        | submitted => trivial
        | _ => exact hplaced.elim
    · exact ⟨mine, calls_kept h hmine fun reply heq => hmoves ⟨reply, heq⟩, hplaced⟩
  · intro task htask hmiss
    rcases hasTask_step h htask with hold | ⟨j, reply, call, next, _, hcall, hmove, hsubmit⟩
    · exact hs.tasks task hold hmiss
    · -- only call `i` submits a task of miss `i`
      cases hmove with
      | deferred query K answer ids shard =>
        obtain rfl := Option.some.inj hsubmit
        obtain rfl : j = i := hmiss
        obtain rfl := Option.some.inj (hmine.symm.trans hcall)
        exact hplaced
      | submitted query K answer ids shard =>
        obtain rfl := Option.some.inj hsubmit
        obtain rfl : j = i := hmiss
        obtain rfl := Option.some.inj (hmine.symm.trans hcall)
        exact hplaced
      | _ => cases hsubmit

/-- A worker admits a point that is new to a shard with free slots. -/
theorem lands_new {s : Sys V β} (h : Reachable cfg s) {w : Nat} {task : Task V} {id : UInt32}
    {vec : V} {rest : List (UInt32 × V)}
    (hworker : s.workers[w]? = some (some (.inserting task ((id, vec) :: rest))))
    (hslots : s.cache.shardHasInsertSlots cfg.cache task.shard = true)
    (hnew : ∀ vec', ¬ s.cache.HoldsAt task.shard (1 + id) vec') :
    ∃ s', step cfg s (.worker w .proceed) = some s' ∧
      s'.cache.HoldsAt task.shard (1 + id) vec := by
  have hkept := MiniIndex.kept_maxPoints (V := V) cfg.cache.memoryIndexMaxPointsPerIndex
  obtain ⟨hid, cache, ret, hinsert, hstep⟩ := inserts_of_reachable h hworker
  obtain ⟨c', hc', hholds⟩ := insert_of_slots hslots (each_of_reachable hkept h) vec hid hnew
  obtain ⟨rfl, _⟩ := Prod.mk.inj (Option.some.inj (hinsert.symm.trans hc'))
  exact ⟨_, hstep, hholds⟩

/-- As long as the mini-index stays as `ensure_admit_shard` has returned it, the
    slots it had are there. -/
theorem admitsFirstNew {i k : Nat} {s : Sys V β} (h : Reachable cfg s) (hgoes : GoesTo i k s)
    (hslots : s.cache.shardHasInsertSlots cfg.cache k = true) : AdmitsFirstNew cfg i k s := by
  intro labels t hrun halong w task id vec rest hworker hmiss hnew
  obtain ⟨hreach, hgoes', hsame⟩ := Traces.run_invariant_along
    (I := fun t => Reachable cfg t ∧ GoesTo i k t ∧
      t.cache.memoryIndices[k]? = s.cache.memoryIndices[k]?)
    (fun u l u' hu hleaves hstep =>
      ⟨hu.1.step hstep, goesTo_step hu.2.1 hstep, (hleaves u' hstep).trans hu.2.2⟩)
    ⟨h, hgoes, rfl⟩ halong hrun
  obtain rfl := hgoes'.tasks task (Or.inr ⟨w, _, hworker, rfl⟩) hmiss
  rw [← Cache.shardHasInsertSlots_congr hsame] at hslots
  exact lands_new hreach hworker hslots hnew

/-- Points that are live in the shard already leave the cache as it is. -/
theorem run_old {s : Sys V β} (h : Reachable cfg s) {w : Nat} {task : Task V}
    {old rest : List (UInt32 × V)}
    (hworker : s.workers[w]? = some (some (.inserting task (old ++ rest))))
    (hold : ∀ e ∈ old, ∃ vec', s.cache.HoldsAt task.shard (1 + e.1) vec') :
    ∃ t, Traces.run (step cfg) s (List.replicate old.length (.worker w .proceed)) = some t ∧
      t.cache.memoryIndices = s.cache.memoryIndices ∧
      t.workers[w]? = some (some (.inserting task rest)) := by
  induction old generalizing s with
  | nil => exact ⟨s, rfl, rfl, hworker⟩
  | cons e old ih =>
    obtain ⟨hid, cache, ret, hinsert, hstep⟩ := inserts_of_reachable h hworker
    -- the tag is live, so `insert_point` refuses it
    obtain ⟨vec', hlive⟩ := hold e List.mem_cons_self
    have hsame : cache.memoryIndices = s.cache.memoryIndices := by
      obtain ⟨⟨hsame, _⟩ | ⟨_, haccepts, _⟩, _⟩ := Cache.indexInsertPoint_cases hinsert
      · exact hsame
      · exact absurd hlive (haccepts.not_holdsAt vec')
    obtain ⟨t, hrun, hcache, hrest⟩ := ih (h.step hstep) (Slots.getElem?_set_of_some hworker _)
      fun e' he' => by
        obtain ⟨vec', hlive'⟩ := hold e' (List.mem_cons_of_mem e he')
        exact ⟨vec', (Cache.holdsAt_congr hsame).mpr hlive'⟩
    exact ⟨t, Traces.run_cons.mpr ⟨_, hstep, hrun⟩, hcache.trans hsame, hrest⟩

/-- The miss submits its task, which goes to the end of the queue. -/
theorem run_submits (cfg : SystemConfig V β) {s : Sys V β} {i k K : Nat} {query : V}
    {answer : BackendAnswer} {ids : List UInt32}
    (hcall : s.calls[i]? = some (.placed query K answer ids k)) :
    ∃ copy t, Traces.run (step cfg) s
        (List.replicate (if cfg.cache.lazyThetaUpdates then 1 else 2) (.call i .proceed)) = some t ∧
      t.queue = s.queue ++ [missTask K answer ids k copy i] ∧ t.workers = s.workers ∧
      t.backend = s.backend ∧ t.cache.memoryIndices = s.cache.memoryIndices := by
  cases hlazy : cfg.cache.lazyThetaUpdates with
  | true =>
    have hstep : step cfg s (.call i .proceed) =
        some (s.afterCall i (s.submits query K answer ids k (some query) i)) := by
      simp only [step, hcall, Option.bind_some, callStep, hlazy, if_true, Option.map_some]
    exact ⟨some query, _, Traces.run_singleton.mpr hstep, rfl, rfl, rfl, rfl⟩
  | false =>
    -- the theta update first
    have hlearn : s.callStep cfg i (.placed query K answer ids k) .proceed =
        some (s.goesOnWith (s.cache.updateTheta cfg.cache query K (missKthDistance K answer))
          (.learned query K answer ids k)) := if_neg (by simp [hlazy])
    have hlearned := step_call hcall hlearn
    generalize hcache : s.cache.updateTheta cfg.cache query K (missKthDistance K answer) = cache
      at hlearned
    have hnow := Slots.getElem?_set_of_some hcall (.learned query K answer ids k)
    have hstep : step cfg (s.moved i cache (.learned query K answer ids k)) (.call i .proceed) =
        some ((s.moved i cache (.learned query K answer ids k)).afterCall i
          ((s.moved i cache (.learned query K answer ids k)).submits query K answer ids k none
            i)) := by
      rw [step, show (s.moved i cache _).calls[i]? = _ from hnow, Option.bind_some, callStep,
        Option.map_some]
    exact ⟨none, _, Traces.run_cons.mpr ⟨_, hlearned, Traces.run_singleton.mpr hstep⟩,
      rfl, rfl, rfl, hcache ▸ rfl⟩

/-- The steps up to the first new point can be taken, and it lands. -/
theorem reachesFirstNew {s : Sys V β} (h : Reachable cfg s) {i k K : Nat} {query : V}
    {answer : BackendAnswer} {ids : List UInt32}
    (hcall : s.calls[i]? = some (.placed query K answer ids k)) (hqueue : s.queue = [])
    (hslots : s.cache.shardHasInsertSlots cfg.cache k = true) :
    ReachesFirstNew cfg i k ids s := by
  intro w vectors hfree hlen hfetch old id vec rest hzip hold hnew
  obtain ⟨copy, u, hsubmits, hwaiting, hworkers, hbackend, hsame⟩ :=
    run_submits cfg hcall
  rw [hqueue, List.nil_append] at hwaiting
  generalize htask : missTask K answer ids k copy i = task at hwaiting
  have hids : task.toBeInserted = ids := htask ▸ rfl
  obtain rfl : task.shard = k := htask ▸ rfl
  -- the worker takes the task and fetches its vectors
  have htake : step cfg u (.worker w .proceed) =
      some { u with queue := [], workers := u.workers.set w (some (.fetching task)) } := by
    simp only [step, workerStep, hworkers, hfree, hwaiting]
  have hfetching := Slots.getElem?_set_of_some (hworkers ▸ hfree) (some (.fetching task))
  have hfetched : step cfg
      { u with queue := [], workers := u.workers.set w (some (.fetching task)) }
      (.worker w (.vectors vectors)) =
      some { u with
        queue := []
        workers := (u.workers.set w (some (.fetching task))).set w
          (some (.inserting task (old ++ (id, vec) :: rest))) } := by
    simp only [step, workerStep, hfetching, hids, hbackend, hlen, hfetch, hzip, and_self, if_true]
  have hreach := h.run hsubmits |>.step htake |>.step hfetched
  have hinserting := Slots.getElem?_set_of_some hfetching
    (some (.inserting task (old ++ (id, vec) :: rest)))
  -- the points before the new one are refused, and the new one lands
  obtain ⟨v, hskips, hkept, hnext⟩ := run_old hreach hinserting fun e he =>
    (hold e he).imp fun vec' hlive => (Cache.holdsAt_congr hsame).mpr hlive
  have hroom : v.cache.shardHasInsertSlots cfg.cache task.shard = true := by
    rw [Cache.shardHasInsertSlots_congr (congrArg (·[task.shard]?) (hkept.trans hsame))]
    exact hslots
  obtain ⟨t, hlands, hholds⟩ := lands_new (hreach.run hskips) hnext hroom fun vec' hlive =>
    hnew vec' ((Cache.holdsAt_congr (hkept.trans hsame)).mp hlive)
  refine ⟨t, ?_, hholds⟩
  rw [admitLabels, List.replicate_succ', List.append_assoc, List.cons_append, List.cons_append,
    List.nil_append]
  exact Traces.run_append.mpr ⟨u, hsubmits, Traces.run_cons.mpr ⟨_, htake,
    Traces.run_cons.mpr ⟨_, hfetched, Traces.run_append.mpr ⟨v, hskips,
      Traces.run_singleton.mpr hlands⟩⟩⟩⟩

/-- `ensure_admit_shard` returns a shard with free slots exactly where a shard
    may hold points and there is another one or room in the only one; and then the
    first new id of the miss that asked for it is admitted there, unless another
    step changes the shard in between. -/
theorem admits_iff {s : Sys V β} {memoryIndexMaxPoints : Nat}
    (hbound : cfg.cache.memoryIndexMaxPointsPerIndex =
      memoryIndexMaxPoints / cfg.cache.numberOfMiniIndexes) (hs : Reachable cfg s)
    (hidle : s.idle = true) :
    let r := s.cache.ensureAdmitShard cfg.cache
    (r.1.shardHasInsertSlots cfg.cache r.2 = true ↔
      cfg.cache.numberOfMiniIndexes ≤ memoryIndexMaxPoints ∧
        (2 ≤ cfg.cache.numberOfMiniIndexes ∨
          s.cache.activeVectors 0 < cfg.cache.memoryIndexMaxPointsPerIndex)) ∧
    (r.1.shardHasInsertSlots cfg.cache r.2 = true →
      ∀ i query K answer ids, s.calls[i]? = some (.filtered query K answer ids) →
        ∃ s₁, step cfg s (.call i .proceed) = some s₁ ∧ s₁.cache = r.1 ∧
          s₁.calls[i]? = some (.placed query K answer ids r.2) ∧
          AdmitsFirstNew cfg i r.2 s₁ ∧ ReachesFirstNew cfg i r.2 ids s₁) := by
  intro r
  have hcap : 1 ≤ cfg.cache.memoryIndexMaxPointsPerIndex ↔
      cfg.cache.numberOfMiniIndexes ≤ memoryIndexMaxPoints := by
    rw [hbound]
    exact Nat.div_pos_iff.trans (and_iff_right cfg.cache.someMiniIndex)
  constructor
  · rw [← hcap]
    exact (steady_of_reachable hs).slots_ensureAdmitShard
  · intro hslots i query K answer ids hcall
    obtain ⟨hqueue, hworkers⟩ := Bool.and_eq_true_iff.mp hidle
    have hempty : s.queue = [] := List.isEmpty_iff.mp hqueue
    have hstep : step cfg s (.call i .proceed) =
        some (s.moved i r.1 (.placed query K answer ids r.2)) :=
      step_call hcall (if_neg (by simp [hidle]))
    have hplaced : (s.moved i r.1 (.placed query K answer ids r.2)).calls[i]? =
        some (.placed query K answer ids r.2) := Slots.getElem?_set_of_some hcall _
    -- no task is under way, so none belongs to this miss
    have hgoes : GoesTo i r.2 (s.moved i r.1 (.placed query K answer ids r.2)) := by
      refine ⟨⟨_, hplaced, rfl⟩, ?_⟩
      rintro task (hwaits | ⟨w, running, hw, _⟩) _
      · cases hempty ▸ hwaits
      · exact nomatch List.all_eq_true.mp hworkers _ (List.mem_of_getElem? hw)
    exact ⟨_, hstep, rfl, hplaced, admitsFirstNew (hs.step hstep) hgoes hslots,
      reachesFirstNew (hs.step hstep) hplaced hempty hslots⟩

def tenOnShelf : List (UInt32 × Nat) := eightOnShelf ++ [(9, 100), (10, 101)]

/-- Two misses fill both shards, and a third is about to choose one. -/
def fillBothAndMiss : List (Label Nat) :=
  fillBoth ++ [.search stableSorters 100 2 0, .call 2 .proceed,
    .call 2 (.answer [(9, .fin 0), (10, .fin 1)]), .call 2 .proceed]

/-- One of the two full shards is replaced, and the first new id lands there. -/
theorem admits_iff_fillBothAndMiss :
    ∃ s s₁ t : Sys Nat Shelf, (s.cache.activeVectors 0 = 4 ∧ s.cache.activeVectors 1 = 4) ∧
      step duoSystem s (.call 2 .proceed) = some s₁ ∧ AdmitsFirstNew duoSystem 2 0 s₁ ∧
      Traces.run (step duoSystem) s₁ (admitLabels 2 0 false [100, 101] 0) = some t ∧
      t.cache.HoldsAt 0 10 100 := by
  have hruns : (Traces.run (step duoSystem) (shelfStart duoSystem tenOnShelf)
      fillBothAndMiss).any (fun s => decide (
        (s.cache.activeVectors 0 = 4 ∧ s.cache.activeVectors 1 = 4) ∧ s.idle = true ∧
        s.calls[2]? = some (.filtered 100 2 [(9, .fin 0), (10, .fin 1)] [9, 10]) ∧
        (s.cache.ensureAdmitShard duoSystem.cache).2 = 0 ∧
        (step duoSystem s (.call 2 .proceed)).all fun s₁ =>
          decide (s₁.workers[0]? = some none ∧
            duoSystem.backend.fetches s₁.backend [9, 10] (some [some 100, some 101]) = true ∧
            s₁.cache.memoryIndices[0]?.map (fun idx => idx.points.lookup 10) = some none))) =
        true := by
    decide +kernel
  obtain ⟨s, hrun, htest⟩ := Traces.exists_run hruns
  obtain ⟨hfull, hidle, hcall, hshard, hnext⟩ := of_decide_eq_true htest
  have hcap : duoSystem.cache.memoryIndexMaxPointsPerIndex =
    8 / duoSystem.cache.numberOfMiniIndexes := rfl
  obtain ⟨hslots, hadmits⟩ := admits_iff hcap ⟨_, 0, 1 / 2, 1, fillBothAndMiss, hrun⟩ hidle
  obtain ⟨s₁, hstep, _, _, hfirst, hreaches⟩ :=
    hadmits (hslots.mpr ⟨by decide, Or.inl (by decide)⟩) 2 100 2 _ _ hcall
  rw [hshard] at hfirst hreaches
  rw [hstep] at hnext
  obtain ⟨hfree, hfetch, hdead⟩ := of_decide_eq_true hnext
  obtain ⟨t, hadmitted, hholds⟩ := hreaches 0 [100, 101] hfree rfl hfetch [] 9 100 [(10, 101)] rfl
    (fun _ he => absurd he List.not_mem_nil) (by
      rintro vec' ⟨idx, hidx, hlive⟩
      rw [hidx] at hdead
      exact nomatch hlive.symm.trans (Option.some.inj hdead))
  exact ⟨s, s₁, t, hfull, hstep, hfirst, hadmitted, hholds⟩

/-! ## The only shard -/

/-- A miss fills the only shard. -/
def fillOnly : List (Label Nat) :=
  [.search stableSorters 9 4 0] ++
    missLabels 0 [(1, .fin 1), (2, .fin 2), (3, .fin 3), (4, .fin 4)] false ++
    taskLabels 0 [10, 11, 12, 13]

/-- Then `ensure_admit_shard` returns it full, and the next new id is refused. -/
theorem only_shard_stays_full :
    ∃ s : Sys Nat Shelf, Reachable soloSystem s ∧ s.idle = true ∧
      let r := s.cache.ensureAdmitShard soloSystem.cache
      r.1.shardHasInsertSlots soloSystem.cache r.2 = false ∧
        ((r.1.indexInsertPoint r.2 5 50).map Prod.snd) = some (-1) := by
  have hruns : (Traces.run (step soloSystem) (shelfStart soloSystem eightOnShelf) fillOnly).any
      (fun s => decide (s.idle = true ∧
        (s.cache.ensureAdmitShard soloSystem.cache).1.shardHasInsertSlots soloSystem.cache
          (s.cache.ensureAdmitShard soloSystem.cache).2 = false ∧
        (((s.cache.ensureAdmitShard soloSystem.cache).1.indexInsertPoint
          (s.cache.ensureAdmitShard soloSystem.cache).2 5 50).map Prod.snd) = some (-1))) = true := by
    decide +kernel
  obtain ⟨s, hrun, htest⟩ := Traces.exists_run hruns
  obtain ⟨hidle, hslots, hret⟩ := of_decide_eq_true htest
  exact ⟨s, ⟨_, 0, 1 / 2, 1, fillOnly, hrun⟩, hidle, hslots, hret⟩

end Sys

end QvCache
