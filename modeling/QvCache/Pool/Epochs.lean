/-
  QvCache.Pool.Epochs

  What every worker of the search pool may be doing, which follows from where
  the one call stands that holds `call_mu_`:

    * before it bumps `epoch_`, and after it has seen `arrived_` at 0, every
      worker rests at the current epoch (`Resting`);
    * in between, a worker rests at the epoch before and has yet to notice,
      works for this call, or rests at the current epoch and is done, and
      `arrived_` counts the workers that are not done (`Active`).

  So no worker can hold a stale `job_`: it loads the pointer only for an epoch
  that the barrier keeps open until it has arrived.  The argument never
  compares epochs other than neighbours, so it survives their wrapping around.
-/

import Mathlib.Data.List.Nodup
import QvCache.Pool.SearchPool

namespace QvCache

variable {E : Type}

/-! ## Where the threads may be -/

namespace SearchWorker

/-- The epoch at which a worker waits for the next one. -/
def restsAt : SearchWorker E → Option UInt32
  | .top seen | .spun seen | .idle seen | .sleeping seen | .asleep seen => some seen
  | _ => none

/-- Not done with epoch `e`. -/
def busy (e : UInt32) (x : SearchWorker E) : Bool := decide (x.restsAt ≠ some e)

/-- The id a worker runs. -/
def runs : SearchWorker E → Option Nat
  | .running _ _ _ id => some id
  | _ => none

def isFailed : SearchWorker E → Bool
  | .failed _ _ => true
  | _ => false

/-- Out of the loop over the ids of epoch `e`. -/
def passed (e : UInt32) : SearchWorker E → Bool
  | .arriving _ => true
  | x => decide (x.restsAt = some e)

/-- Where a worker may be in epoch `e`, which call `i` has opened. -/
def InEpoch (e : UInt32) (i : Nat) (c : SearchCall E) : SearchWorker E → Prop
  | .top seen | .spun seen | .idle seen | .sleeping seen | .asleep seen => seen = e ∨ seen + 1 = e
  | .awake _ gen => gen = e
  | .loadJob seen => seen = e
  | .loadN seen job => seen = e ∧ job = some i
  | .claim seen job n => seen = e ∧ job = i ∧ n = c.n
  | .running seen job n id => seen = e ∧ job = i ∧ n = c.n ∧ id ≠ 0 ∧ id < c.n
  | .failed seen x => seen = e ∧ ∃ id, (id, some x) ∈ c.finished
  | .arriving seen => seen = e
  | .exited => False

/-- Where a worker may be once `stop_` is set. -/
def canStop : SearchWorker E → Prop
  | .awake _ _ | .exited => True
  | x => x.restsAt.isSome

end SearchWorker

namespace CallPc

/-- From the bump of `epoch_` until `arrived_` is 0. -/
def isActive : CallPc E → Bool
  | .wake | .beginOwn | .runningOwn | .failedOwn _ | .waiting => true
  | _ => false

/-- The caller has begun `fn(0)`. -/
def begunOwn : CallPc E → Bool
  | .runningOwn | .failedOwn _ | .waiting => true
  | _ => false

def isFailedOwn : CallPc E → Bool
  | .failedOwn _ => true
  | _ => false

/-- The error with which a call that has passed the barrier will end. -/
def settles (error : Option E) : CallPc E → Option (Option E)
  | .clearJob | .readError => some error
  | .unlocking error => some error
  | _ => none

theorem holds_of_isActive {pc : CallPc E} (h : pc.isActive = true) : pc.holds = true := by
  cases pc <;> first | rfl | exact nomatch h

theorem holds_of_settles {pc : CallPc E} {error error' : Option E}
    (h : pc.settles error = some error') : pc.holds = true := by
  cases pc <;> first | rfl | exact nomatch h

end CallPc

namespace SearchCall

/-- Some run of the call's function threw. -/
def Threw (c : SearchCall E) : Prop := ∃ id e, (id, some e) ∈ c.finished

/-- The runs of a call that ends with `error` (`none` for a normal return). -/
structure Settled (error : Option E) (c : SearchCall E) : Prop where
  nodup : c.started.Nodup
  own : ∀ id ∈ c.started, id < c.n
  complete : ¬ c.Threw → ∀ id < c.n, id ∈ c.started ∧ (id, none) ∈ c.finished
  noted : c.Threw → error ≠ none
  raised : ∀ e, error = some e → ∃ id, (id, some e) ∈ c.finished

/-- A call that does not hold `call_mu_`. -/
def Ok (threadCount : Nat) (c : SearchCall E) : Prop :=
  match c.pc with
  | .inline k =>
    k ≤ c.n ∧ c.started = List.range k ∧ c.finished = (List.range k).map fun id => (id, none)
  | .inlineRunning k =>
    k < c.n ∧ c.started = List.range (k + 1) ∧
      c.finished = (List.range k).map fun id => (id, none)
  | .entering => c.started = [] ∧ c.finished = [] ∧ 2 ≤ c.n ∧ 0 < threadCount
  | .returned => c.Settled none
  | .rethrew e => c.Settled (some e)
  | _ => False

end SearchCall

namespace SearchPool

/-- Every worker waits for the next epoch. -/
def Resting (s : SearchPool E) : Prop := ∀ x ∈ s.workers, x.restsAt = some s.epoch

/-- What the stores that announce a job have done so far. -/
def Announced (s : SearchPool E) (i : Nat) (c : SearchCall E) : CallPc E → Prop
  | .resetError => True
  | .storeNext => s.error = none
  | .storeArrived => s.error = none ∧ s.next = 1
  | .storeN => s.error = none ∧ s.next = 1 ∧ s.arrived = s.workers.length
  | .storeJob => s.error = none ∧ s.next = 1 ∧ s.arrived = s.workers.length ∧ s.jobN = c.n
  | .bumpEpoch =>
    s.error = none ∧ s.next = 1 ∧ s.arrived = s.workers.length ∧ s.jobN = c.n ∧ s.job = some i
  | _ => False

theorem Announced.holds {s : SearchPool E} {i : Nat} {c : SearchCall E} {pc : CallPc E}
    (h : s.Announced i c pc) : pc.holds = true := by
  cases pc <;> first | rfl | exact h.elim

/-- The epoch of call `i` is open. -/
structure Active (s : SearchPool E) (i : Nat) (c : SearchCall E) : Prop where
  pc : c.pc.isActive = true
  announced : s.job = some i ∧ s.jobN = c.n ∧ 1 ≤ s.next ∧ 2 ≤ c.n
  workers : ∀ x ∈ s.workers, x.InEpoch s.epoch i c
  barrier : s.arrived = s.workers.countP (SearchWorker.busy s.epoch)
  nodup : c.started.Nodup
  claimed : ∀ id, id ∈ c.started ↔
    (id = 0 ∧ c.pc.begunOwn = true) ∨ (id ≠ 0 ∧ id < s.next ∧ id < c.n)
  /-- A run that has begun has ended or is with somebody. -/
  ended : ∀ id ∈ c.started, (∃ o, (id, o) ∈ c.finished) ∨ (∃ x ∈ s.workers, x.runs = some id) ∨
    (id = 0 ∧ c.pc = .runningOwn)
  /-- A worker leaves the loop when the ids are used up, or by an exception. -/
  passed : ∀ x ∈ s.workers, x.passed s.epoch = true → c.n ≤ s.next ∨ c.Threw
  raised : ∀ e, s.error = some e → ∃ id, (id, some e) ∈ c.finished
  own : ∀ e, c.pc = .failedOwn e → (0, some e) ∈ c.finished
  noted : c.Threw → s.error ≠ none ∨ (∃ x ∈ s.workers, x.isFailed = true) ∨
    c.pc.isFailedOwn = true
  /-- A worker takes one id too many at most, and leaves the loop with it. -/
  bounded : s.next ≤ c.n + s.workers.countP (SearchWorker.passed s.epoch)

/-- Where the pool stands. -/
inductive Phase (s : SearchPool E) : Prop where
  | quiet (hmu : s.callMu = none) (hstop : s.stop = false) (hrest : s.Resting)
  | stopping (hmu : s.callMu = none) (hstop : s.stop = true)
      (hover : ∀ c ∈ s.calls, c.pc.isOver = true) (hworkers : ∀ x ∈ s.workers, x.canStop)
  | preparing (i : Nat) (c : SearchCall E) (hmu : s.callMu = some i)
      (hcall : s.calls[i]? = some c) (hstop : s.stop = false) (hrest : s.Resting)
      (hpos : 0 < s.workers.length) (hempty : c.started = [] ∧ c.finished = [] ∧ 2 ≤ c.n)
      (hannounced : s.Announced i c c.pc)
  | active (i : Nat) (c : SearchCall E) (hmu : s.callMu = some i)
      (hcall : s.calls[i]? = some c) (hstop : s.stop = false) (hpos : 0 < s.workers.length)
      (hactive : s.Active i c)
  | settling (i : Nat) (c : SearchCall E) (hmu : s.callMu = some i)
      (hcall : s.calls[i]? = some c) (hstop : s.stop = false) (hrest : s.Resting)
      (error : Option E) (herror : c.pc.settles s.error = some error) (hsettled : c.Settled error)

structure Inv (s : SearchPool E) : Prop where
  others : ∀ j c, s.calls[j]? = some c → s.callMu ≠ some j → c.Ok s.workers.length
  phase : s.Phase
  closing : s.stop = false → s.destructor = .notCalled

variable {s s' : SearchPool E} {i w : Nat} {c : SearchCall E} {x y : SearchWorker E}
  {outcome : Option E}

theorem inv_init (threadCount : Nat) : Inv (init threadCount : SearchPool E) where
  others j c h := by
    rw [show (init threadCount : SearchPool E).calls = [] from rfl] at h
    cases h
  phase := .quiet rfl rfl fun x hx => by
    rw [List.eq_of_mem_replicate hx]
    rfl
  closing _ := rfl

/-! ## Workers at rest -/

/-- A worker at rest goes round its loop and changes nothing else. -/
theorem workerStep_of_restsAt (hstop : s.stop = false) (hx : x.restsAt = some s.epoch)
    (h : s.workerStep w outcome x = some s') :
    ∃ y, s' = s.setWorker w y ∧ y.restsAt = some s.epoch := by
  -- at the epoch it has seen, both loads find nothing new
  cases x with
  | top seen =>
    obtain rfl := Option.some.inj hx
    exact ⟨_, (Option.some.inj h).symm, by rw [if_pos rfl]; rfl⟩
  | spun seen =>
    obtain rfl := Option.some.inj hx
    exact ⟨_, (Option.some.inj h).symm, by rw [if_pos rfl]; rfl⟩
  | idle seen =>
    obtain rfl := Option.some.inj hx
    exact ⟨_, (Option.some.inj h).symm, by rw [hstop]; rfl⟩
  | sleeping seen =>
    obtain rfl := Option.some.inj hx
    exact ⟨_, (Option.some.inj h).symm, by rw [if_pos rfl]; rfl⟩
  | asleep seen =>
    obtain rfl := Option.some.inj hx
    exact ⟨_, (Option.some.inj h).symm, rfl⟩
  | _ => cases hx

/-- Once `stop_` is set, workers only look at the epoch and leave. -/
theorem workerStep_of_canStop (hstop : s.stop = true) (hx : x.canStop)
    (h : s.workerStep w outcome x = some s') : ∃ y, s' = s.setWorker w y ∧ y.canStop := by
  cases x with
  | top seen =>
    refine ⟨_, (Option.some.inj h).symm, ?_⟩
    split_ifs <;> trivial
  | spun seen =>
    refine ⟨_, (Option.some.inj h).symm, ?_⟩
    split_ifs <;> trivial
  | idle seen => exact ⟨_, (Option.some.inj h).symm, by rw [hstop]; trivial⟩
  | sleeping seen =>
    refine ⟨_, (Option.some.inj h).symm, ?_⟩
    split_ifs <;> trivial
  | asleep seen => exact ⟨_, (Option.some.inj h).symm, rfl⟩
  | awake seen gen => exact ⟨_, (Option.some.inj h).symm, by rw [hstop]; trivial⟩
  | exited => cases h
  | _ => cases hx

/-! ## Workers in an open epoch -/

theorem succ_ne_self (e : UInt32) : e + 1 ≠ e := by
  intro h
  have hnat := congrArg UInt32.toNat h
  rw [UInt32.toNat_add] at hnat
  have hlt := e.toNat_lt
  have hone : (1 : UInt32).toNat = 1 := rfl
  rw [hone] at hnat
  omega

/-- Call `i` is now `c`, and everything outside of the epoch is as it was. -/
structure Keeps (s s' : SearchPool E) (i : Nat) (c : SearchCall E) : Prop where
  callMu : s'.callMu = s.callMu
  stop : s'.stop = s.stop
  destructor : s'.destructor = s.destructor
  width : s'.workers.length = s.workers.length
  call : s'.calls[i]? = some c
  others : ∀ j, j ≠ i → s'.calls[j]? = s.calls[j]?

theorem keeps_setWorker (hcall : s.calls[i]? = some c) (w : Nat) (y : SearchWorker E) :
    Keeps s (s.setWorker w y) i c :=
  ⟨rfl, rfl, rfl, List.length_set, hcall, fun _ _ => rfl⟩

theorem Keeps.updateCall_eq (h : Keeps s s' i c) (f : SearchCall E → SearchCall E) :
    s'.updateCall i f = s'.setCall i (f c) := by
  simp only [updateCall, h.call]

theorem keeps_refl (hcall : s.calls[i]? = some c) : Keeps s s i c :=
  ⟨rfl, rfl, rfl, rfl, hcall, fun _ _ => rfl⟩

theorem Keeps.setCall {c' : SearchCall E} (h : Keeps s s' i c) :
    Keeps s (s'.setCall i c') i c' := by
  obtain ⟨hlt, _⟩ := List.getElem?_eq_some_iff.mp h.call
  refine ⟨h.callMu, h.stop, h.destructor, h.width, List.getElem?_set_self hlt, fun j hj => ?_⟩
  show (s'.calls.set i c')[j]? = _
  rw [List.getElem?_set_ne hj.symm]
  exact h.others j hj

/-- `arrived_` stays right while a worker moves on without arriving. -/
theorem Active.barrier_set (h : s.Active i c) (hw : s.workers[w]? = some x)
    (hbusy : y.busy s.epoch = x.busy s.epoch) :
    s.arrived = (s.workers.set w y).countP (SearchWorker.busy s.epoch) := by
  have hcount := Slots.countP_set (SearchWorker.busy s.epoch) hw y
  rw [hbusy, Nat.add_right_cancel_iff] at hcount
  exact h.barrier.trans hcount.symm

/-- `next_` stays within its bound while no worker comes back into the loop. -/
theorem Active.bounded_set (h : s.Active i c) (hw : s.workers[w]? = some x)
    (hpassed : x.passed s.epoch = true → y.passed s.epoch = true) :
    s.next ≤ c.n + (s.workers.set w y).countP (SearchWorker.passed s.epoch) := by
  have hcount := Slots.countP_set (SearchWorker.passed s.epoch) hw y
  have hbounded := h.bounded
  by_cases hx : x.passed s.epoch = true
  · rw [if_pos hx, if_pos (hpassed hx)] at hcount
    omega
  · rw [if_neg hx] at hcount
    omega

/-- A worker that runs nothing moves on within the epoch. -/
theorem Active.setWorker (h : s.Active i c) (hw : s.workers[w]? = some x)
    (hy : y.InEpoch s.epoch i c) (hbusy : y.busy s.epoch = x.busy s.epoch)
    (hruns : x.runs = none) (hfailed : x.isFailed = false)
    (hpassed : y.passed s.epoch = x.passed s.epoch) :
    (s.setWorker w y).Active i c := by
  refine
    { h with
      workers := Slots.forall_mem_set h.workers hy
      barrier := h.barrier_set hw hbusy
      ended := fun id hid => ?_
      passed := Slots.forall_mem_set h.passed fun hp =>
        h.passed x (List.mem_of_getElem? hw) (hpassed ▸ hp)
      noted := fun hthrew => ?_
      bounded := h.bounded_set hw hpassed.trans }
  · refine (h.ended id hid).imp_right (Or.imp_left (Slots.exists_mem_set hw ?_ _))
    rw [hruns]
    exact nofun
  · refine (h.noted hthrew).imp_right (Or.imp_left (Slots.exists_mem_set hw ?_ _))
    rw [hfailed]
    exact nofun

/-- A worker at rest in an open epoch goes on resting or notices the epoch. -/
theorem Active.rests (h : s.Active i c) (hw : s.workers[w]? = some x) {seen : UInt32}
    (hx : x.restsAt = some seen) (hy : y.restsAt = some seen) : (s.setWorker w y).Active i c := by
  have hxin := h.workers x (List.mem_of_getElem? hw)
  refine h.setWorker hw ?_ ?_ ?_ ?_ ?_
  · -- at rest before and after, so `InEpoch` says the same of both
    cases x <;> cases hx <;> cases y <;> cases hy <;> exact hxin
  · unfold SearchWorker.busy
    rw [hx, hy]
  · cases x <;> cases hx <;> rfl
  · cases x <;> cases hx <;> rfl
  · cases x <;> cases hx <;> cases y <;> cases hy <;> rfl

theorem Active.wakes (h : s.Active i c) (hw : s.workers[w]? = some x) {seen : UInt32}
    (hx : x.restsAt = some seen) (hne : s.epoch ≠ seen) :
    (s.setWorker w (.awake seen s.epoch)).Active i c := by
  refine h.setWorker hw rfl ?_ ?_ ?_ ?_
  · unfold SearchWorker.busy
    rw [hx]
    show decide (none ≠ some s.epoch) = _
    simp [Ne.symm hne]
  · cases x <;> cases hx <;> rfl
  · cases x <;> cases hx <;> rfl
  · have hnot : x.restsAt ≠ some s.epoch := fun h => hne (Option.some.inj (h.symm.trans hx))
    have hawake : (SearchWorker.awake seen s.epoch : SearchWorker E).passed s.epoch = false := rfl
    rw [hawake]
    cases x <;> cases hx <;> exact (decide_eq_false hnot).symm

/-- What is said of a worker depends on the call through its `n` and on what
    has thrown so far. -/
theorem inEpoch_mono {e : UInt32} {c c' : SearchCall E}
    (h : x.InEpoch e i c) (hn : c'.n = c.n) (hfinished : c.finished ⊆ c'.finished) :
    x.InEpoch e i c' := by
  cases x with
  | claim seen job n => exact ⟨h.1, h.2.1, h.2.2.trans hn.symm⟩
  | running seen job n id => exact ⟨h.1, h.2.1, h.2.2.1.trans hn.symm, h.2.2.2.1, hn ▸ h.2.2.2.2⟩
  | failed seen e' =>
    obtain ⟨id, hid⟩ := h.2
    exact ⟨h.1, id, hfinished hid⟩
  | _ => exact h

/-- What is true of an exception noted before and of this one is true of the
    one that `error_` holds now. -/
theorem of_or_eq_some {error : Option E} {P : E → Prop} (hold : ∀ e, error = some e → P e) {e : E}
    (he : P e) : ∀ e', error.or (some e) = some e' → P e' := by
  intro e' hor
  cases error with
  | none => exact Option.some.inj hor ▸ he
  | some e'' => exact hold e' hor

/-- A run that returns normally throws nothing. -/
theorem threw_of_endRun {c : SearchCall E} {id : Nat} (h : (c.endRun id none).Threw) : c.Threw := by
  obtain ⟨id', e, hmem⟩ := h
  rcases List.mem_append.mp hmem with hold | hnew
  · exact ⟨id', e, hold⟩
  · cases List.mem_singleton.mp hnew

theorem nodup_beginRun {c : SearchCall E} {id : Nat} (h : c.started.Nodup) (hnew : id ∉ c.started) :
    (c.beginRun id).started.Nodup :=
  h.append (List.nodup_singleton id) (List.disjoint_singleton.mpr hnew)

/-- A worker takes the next id and begins its run. -/
theorem Active.claims (h : s.Active i c) (hw : s.workers[w]? = some (.claim s.epoch i c.n))
    (hlt : s.next < c.n) :
    (({ s with next := s.next + 1 }.setWorker w (.running s.epoch i c.n s.next)).setCall i
      (c.beginRun s.next)).Active i (c.beginRun s.next) := by
  obtain ⟨hjob, hjobN, hnext, hn⟩ := h.announced
  -- `next_` is past all ids claimed so far
  have hnew : s.next ∉ c.started := by
    rw [h.claimed]
    omega
  refine
    { pc := h.pc
      announced := ⟨hjob, hjobN, Nat.le_succ_of_le hnext, hn⟩
      workers := Slots.forall_mem_set
        (fun x hx => inEpoch_mono (h.workers x hx) rfl (List.Subset.refl _))
        ⟨rfl, rfl, rfl, by omega, hlt⟩
      barrier := h.barrier_set hw rfl
      nodup := nodup_beginRun h.nodup hnew
      claimed := fun id => ?_
      ended := fun id hid => ?_
      passed := Slots.forall_mem_set
        (fun x hx hp => (h.passed x hx hp).imp_left Nat.le_succ_of_le) nofun
      raised := h.raised
      own := h.own
      noted := fun hthrew => ?_
      bounded := Nat.le_trans hlt (Nat.le_add_right _ _) }
  · show id ∈ c.started ++ [s.next] ↔
      (id = 0 ∧ c.pc.begunOwn = true) ∨ (id ≠ 0 ∧ id < s.next + 1 ∧ id < c.n)
    rw [List.mem_append, List.mem_singleton, h.claimed]
    constructor
    · rintro ((hown | hold) | rfl)
      · exact Or.inl hown
      · exact Or.inr ⟨hold.1, by omega, hold.2.2⟩
      · exact Or.inr ⟨by omega, Nat.lt_succ_self _, hlt⟩
    · rintro (hown | ⟨hid, hle, hidn⟩)
      · exact Or.inl (Or.inl hown)
      · by_cases heq : id = s.next
        · exact Or.inr heq
        · exact Or.inl (Or.inr ⟨hid, by omega, hidn⟩)
  · rcases List.mem_append.mp hid with hold | hnew'
    · exact (h.ended id hold).imp_right (Or.imp_left (Slots.exists_mem_set hw nofun _))
    · -- the run that has just begun
      obtain rfl := List.mem_singleton.mp hnew'
      obtain ⟨hltw, _⟩ := List.getElem?_eq_some_iff.mp hw
      exact Or.inr (Or.inl ⟨_, List.mem_set hltw _, rfl⟩)
  · exact (h.noted hthrew).imp_right (Or.imp_left (Slots.exists_mem_set hw nofun _))

/-- A worker finds no id left. -/
theorem Active.leaves (h : s.Active i c) (hw : s.workers[w]? = some (.claim s.epoch i c.n))
    (hle : c.n ≤ s.next) :
    ({ s with next := s.next + 1 }.setWorker w (.arriving s.epoch)).Active i c := by
  obtain ⟨hjob, hjobN, hnext, hn⟩ := h.announced
  have hcount := Slots.countP_set (SearchWorker.passed s.epoch) hw (.arriving s.epoch)
  refine
    { h with
      announced := ⟨hjob, hjobN, Nat.le_succ_of_le hnext, hn⟩
      workers := Slots.forall_mem_set h.workers rfl
      barrier := h.barrier_set hw rfl
      claimed := fun id => ?_
      ended := fun id hid => ?_
      passed := Slots.forall_mem_set (fun x hx hp => (h.passed x hx hp).imp_left Nat.le_succ_of_le)
        fun _ => Or.inl (Nat.le_succ_of_le hle)
      noted := fun hthrew => ?_
      bounded := ?_ }
  · rw [h.claimed]
    show _ ↔ _ ∨ (id ≠ 0 ∧ id < s.next + 1 ∧ id < c.n)
    have hbound : id < c.n → (id < s.next ↔ id < s.next + 1) := by omega
    exact or_congr_right (and_congr_right fun _ =>
      ⟨fun hid => ⟨(hbound hid.2).mp hid.1, hid.2⟩, fun hid => ⟨(hbound hid.2).mpr hid.1, hid.2⟩⟩)
  · exact (h.ended id hid).imp_right (Or.imp_left (Slots.exists_mem_set hw nofun _))
  · exact (h.noted hthrew).imp_right (Or.imp_left (Slots.exists_mem_set hw nofun _))
  · -- this worker is out of the loop now, and was not before
    have hgrow : (s.workers.set w (.arriving s.epoch)).countP (SearchWorker.passed s.epoch) + 0 =
        s.workers.countP (SearchWorker.passed s.epoch) + 1 := hcount
    show s.next + 1 ≤
      c.n + (s.workers.set w (.arriving s.epoch)).countP (SearchWorker.passed s.epoch)
    have hbounded := h.bounded
    omega

/-- The worker after the run of a job. -/
def afterRun (e : UInt32) (i n : Nat) : Option E → SearchWorker E
  | none => .claim e i n
  | some x => .failed e x

/-- A worker comes back from a job. -/
theorem Active.ends (h : s.Active i c) {id : Nat}
    (hw : s.workers[w]? = some (.running s.epoch i c.n id)) (outcome : Option E) :
    ((s.setWorker w (afterRun s.epoch i c.n outcome)).setCall i
      (c.endRun id outcome)).Active i (c.endRun id outcome) := by
  have hbusy : (afterRun s.epoch i c.n outcome).busy s.epoch =
      (SearchWorker.running s.epoch i c.n id : SearchWorker E).busy s.epoch := by
    cases outcome <;> rfl
  obtain ⟨hltw, _⟩ := List.getElem?_eq_some_iff.mp hw
  have hgrow : c.finished ⊆ (c.endRun id outcome).finished := List.subset_append_left _ _
  have hthrew : c.Threw → (c.endRun id outcome).Threw := by
    rintro ⟨id', e, hmem⟩
    exact ⟨id', e, hgrow hmem⟩
  have hlast : (id, outcome) ∈ (c.endRun id outcome).finished :=
    List.mem_append_right _ (List.mem_singleton.mpr rfl)
  refine
    { pc := h.pc
      announced := h.announced
      workers := Slots.forall_mem_set (fun x hx => inEpoch_mono (h.workers x hx) rfl hgrow) ?_
      barrier := h.barrier_set hw hbusy
      nodup := h.nodup
      claimed := h.claimed
      ended := fun id' hid => ?_
      passed := Slots.forall_mem_set (fun x hx hp => (h.passed x hx hp).imp_right hthrew) ?_
      raised := fun e he => ?_
      own := fun e he => hgrow (h.own e he)
      noted := fun hthrew' => ?_
      bounded := h.bounded_set hw nofun }
  · cases outcome with
    | none => exact ⟨rfl, rfl, rfl⟩
    | some e => exact ⟨rfl, id, hlast⟩
  · rcases h.ended id' hid with ⟨o, ho⟩ | ⟨x', hx', hid'⟩ | hown
    · exact Or.inl ⟨o, hgrow ho⟩
    · by_cases heq : x' = .running s.epoch i c.n id
      · -- the run that has just ended
        rw [heq] at hid'
        obtain rfl := Option.some.inj hid'
        exact Or.inl ⟨outcome, hlast⟩
      · exact Or.inr (Or.inl ⟨x', Slots.mem_set_of_ne hx' hw heq, hid'⟩)
    · exact Or.inr (Or.inr hown)
  · cases outcome <;> exact nofun
  · obtain ⟨id', hid'⟩ := h.raised e he
    exact ⟨id', hgrow hid'⟩
  · cases outcome with
    | some e => exact Or.inr (Or.inl ⟨.failed s.epoch e, List.mem_set hltw _, rfl⟩)
    | none =>
      exact (h.noted (threw_of_endRun hthrew')).imp_right
        (Or.imp_left (Slots.exists_mem_set hw nofun _))

/-- A worker notes the exception it has caught, unless there is one. -/
theorem Active.notes (h : s.Active i c) {e : E}
    (hw : s.workers[w]? = some (.failed s.epoch e)) :
    ((s.setWorker w (.arriving s.epoch)).noteError e).Active i c := by
  obtain ⟨_, id, hid⟩ := h.workers _ (List.mem_of_getElem? hw)
  have hsome : s.error.or (some e) ≠ none := by
    cases s.error <;> exact nofun
  refine
    { h with
      workers := Slots.forall_mem_set h.workers rfl
      barrier := h.barrier_set hw rfl
      ended := fun id' hid' => ?_
      passed := Slots.forall_mem_set h.passed fun _ => Or.inr ⟨id, e, hid⟩
      raised := of_or_eq_some h.raised ⟨id, hid⟩
      noted := fun _ => Or.inl hsome
      bounded := h.bounded_set hw fun _ => rfl }
  exact (h.ended id' hid').imp_right (Or.imp_left (Slots.exists_mem_set hw nofun _))

/-- A worker arrives at the barrier. -/
theorem Active.arrives (h : s.Active i c) (hw : s.workers[w]? = some (.arriving s.epoch)) :
    ({ s with arrived := s.arrived - 1 }.setWorker w (.top s.epoch)).Active i c := by
  have hcount := Slots.countP_set (SearchWorker.busy s.epoch) hw (.top s.epoch)
  have hx : (SearchWorker.arriving s.epoch : SearchWorker E).busy s.epoch = true := rfl
  have hy : (SearchWorker.top s.epoch : SearchWorker E).busy s.epoch = false := by
    show decide (some s.epoch ≠ some s.epoch) = false
    simp
  rw [hx, hy] at hcount
  -- it had left the loop, which is all that is asked of a worker at rest
  have hpassed := h.passed _ (List.mem_of_getElem? hw) rfl
  refine
    { h with
      workers := Slots.forall_mem_set h.workers (Or.inl rfl)
      barrier := ?_
      ended := fun id hid => ?_
      passed := Slots.forall_mem_set h.passed fun _ => hpassed
      noted := fun hthrew => ?_
      bounded := h.bounded_set hw fun _ => decide_eq_true rfl }
  · show s.arrived - 1 = (s.workers.set w (.top s.epoch)).countP (SearchWorker.busy s.epoch)
    have hbarrier := h.barrier
    simp only [if_true, Bool.false_eq_true, if_false] at hcount
    omega
  · exact (h.ended id hid).imp_right (Or.imp_left (Slots.exists_mem_set hw nofun _))
  · exact (h.noted hthrew).imp_right (Or.imp_left (Slots.exists_mem_set hw nofun _))

/-- A step of a worker in an open epoch. -/
theorem Active.worker (h : s.Active i c) (hcall : s.calls[i]? = some c) (hstop : s.stop = false)
    (hw : s.workers[w]? = some x) (hstep : s.workerStep w outcome x = some s') :
    ∃ c', s'.Active i c' ∧ Keeps s s' i c' := by
  have hx := h.workers x (List.mem_of_getElem? hw)
  cases x with
  | top seen =>
    obtain rfl := Option.some.inj hstep
    refine ⟨c, ?_, keeps_setWorker hcall w _⟩
    by_cases hseen : s.epoch = seen
    · rw [if_pos hseen]
      exact h.rests hw rfl rfl
    · rw [if_neg hseen]
      exact h.wakes hw rfl hseen
  | spun seen =>
    obtain rfl := Option.some.inj hstep
    refine ⟨c, ?_, keeps_setWorker hcall w _⟩
    by_cases hseen : s.epoch = seen
    · rw [if_pos hseen]
      exact h.rests hw rfl rfl
    · rw [if_neg hseen]
      exact h.wakes hw rfl hseen
  | idle seen =>
    obtain rfl := Option.some.inj hstep
    refine ⟨c, ?_, keeps_setWorker hcall w _⟩
    rw [hstop]
    exact h.rests hw rfl rfl
  -- the futex compares again: nothing is missed between the load and the sleep
  | sleeping seen =>
    obtain rfl := Option.some.inj hstep
    refine ⟨c, h.rests hw rfl ?_, keeps_setWorker hcall w _⟩
    split_ifs <;> rfl
  | asleep seen =>
    obtain rfl := Option.some.inj hstep
    exact ⟨c, h.rests hw rfl rfl, keeps_setWorker hcall w _⟩
  | awake seen gen =>
    obtain rfl := Option.some.inj hstep
    obtain rfl : gen = s.epoch := hx
    refine ⟨c, ?_, keeps_setWorker hcall w _⟩
    rw [hstop]
    exact h.setWorker hw rfl rfl rfl rfl rfl
  -- the barrier is still closed for this worker, so `job_` is the call's
  | loadJob seen =>
    obtain rfl := Option.some.inj hstep
    exact ⟨c, h.setWorker hw ⟨hx, h.announced.1⟩ rfl rfl rfl rfl, keeps_setWorker hcall w _⟩
  | loadN seen job =>
    obtain rfl := Option.some.inj hstep
    obtain ⟨hseen, rfl⟩ := hx
    exact ⟨c, h.setWorker hw ⟨hseen, rfl, h.announced.2.1⟩ rfl rfl rfl rfl,
      keeps_setWorker hcall w _⟩
  | claim seen job n =>
    obtain ⟨rfl, hjob, rfl⟩ := hx
    subst hjob
    by_cases hle : c.n ≤ s.next
    · have hs' := (if_pos hle).symm.trans hstep
      obtain rfl := Option.some.inj hs'
      exact ⟨c, h.leaves hw hle, rfl, rfl, rfl, List.length_set, hcall, fun _ _ => rfl⟩
    · have hs' := (if_neg hle).symm.trans hstep
      obtain rfl := Option.some.inj hs'
      have hkeeps : Keeps s ({ s with next := s.next + 1 }.setWorker w
          (.running s.epoch job c.n s.next)) job c :=
        ⟨rfl, rfl, rfl, List.length_set, hcall, fun _ _ => rfl⟩
      rw [hkeeps.updateCall_eq]
      exact ⟨_, h.claims hw (Nat.lt_of_not_le hle), hkeeps.setCall⟩
  | running seen job n id =>
    obtain ⟨rfl, hjob, rfl, _⟩ := hx
    subst hjob
    obtain rfl := Option.some.inj hstep
    have hkeeps := keeps_setWorker hcall w (afterRun s.epoch job c.n outcome)
    refine ⟨c.endRun id outcome, ?_⟩
    show ((s.setWorker w (afterRun s.epoch job c.n outcome)).updateCall job _).Active job _ ∧
      Keeps s ((s.setWorker w (afterRun s.epoch job c.n outcome)).updateCall job _) job _
    rw [hkeeps.updateCall_eq]
    exact ⟨h.ends hw outcome, hkeeps.setCall⟩
  | failed seen e =>
    obtain ⟨rfl, _⟩ := hx
    obtain rfl := Option.some.inj hstep
    exact ⟨c, h.notes hw, rfl, rfl, rfl, List.length_set, hcall, fun _ _ => rfl⟩
  | arriving seen =>
    obtain rfl : seen = s.epoch := hx
    obtain rfl := Option.some.inj hstep
    exact ⟨c, h.arrives hw, rfl, rfl, rfl, List.length_set, hcall, fun _ _ => rfl⟩
  | exited => exact hx.elim

end SearchPool

end QvCache
