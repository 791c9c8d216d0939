/-
  QvCache.Pool.ParallelFor

  `parallel_for` runs every id once: the caller's side of an epoch, then the
  invariant over every step of callers, workers and the destructor.

  The barrier does the work.  When `arrived_` is 0 every worker rests, so each
  id that was begun has ended, and each has been begun since a worker leaves
  its loop only when the ids are used up or a run has thrown.  It leaves with one
  id too many at most, which bounds `next_`.
-/

import QvCache.Pool.Epochs

namespace QvCache

variable {E : Type}

namespace SearchPool

variable {s s' : SearchPool E} {i w : Nat} {c : SearchCall E} {x : SearchWorker E}
  {outcome : Option E}

/-! ## The caller in an open epoch -/

/-- Before the bump every worker rests, so all of them have yet to notice. -/
theorem active_of_bump (hrest : s.Resting) (hempty : c.started = [] ∧ c.finished = [] ∧ 2 ≤ c.n)
    (hannounced : s.Announced i c .bumpEpoch) :
    ({ s.setCall i (c.goTo .wake) with epoch := s.epoch + 1 }).Active i (c.goTo .wake) := by
  obtain ⟨hstarted, hfinished, hn⟩ := hempty
  obtain ⟨herror, hnext, harrived, hjobN, hjob⟩ := hannounced
  have hthrew : ¬ (c.goTo .wake).Threw := by
    rintro ⟨id, e, hmem⟩
    rw [show (c.goTo .wake).finished = [] from hfinished] at hmem
    cases hmem
  -- nobody has seen the new epoch, so all are counted in `arrived_`
  have hbusy : ∀ x ∈ s.workers, x.busy (s.epoch + 1) = true := fun x hx => by
    show decide (x.restsAt ≠ some (s.epoch + 1)) = true
    rw [hrest x hx]
    exact decide_eq_true fun heq => succ_ne_self s.epoch (Option.some.inj heq).symm
  refine
    { pc := rfl
      announced := ⟨hjob, hjobN, Nat.le_of_eq hnext.symm, hn⟩
      workers := fun x hx => ?_
      barrier := ?_
      nodup := ?_
      claimed := fun id => ?_
      ended := fun id hid => ?_
      passed := fun x hx hp => ?_
      raised := fun e he => ?_
      own := nofun
      noted := fun h => (hthrew h).elim
      bounded := ?_ }
  · -- `InEpoch` allows the epoch before this one
    have hseen := hrest x hx
    cases x <;> cases hseen <;> exact Or.inr rfl
  · exact harrived.trans (List.countP_eq_length.mpr hbusy).symm
  · rw [show (c.goTo .wake).started = [] from hstarted]
    exact List.nodup_nil
  · show id ∈ c.started ↔ (id = 0 ∧ false = true) ∨ (id ≠ 0 ∧ id < s.next ∧ id < c.n)
    rw [hstarted, hnext]
    have hnone : ¬ (id ≠ 0 ∧ id < 1) := by omega
    simp only [List.not_mem_nil, Bool.false_eq_true, and_false, false_or, false_iff]
    exact fun h => hnone ⟨h.1, h.2.1⟩
  · rw [show (c.goTo .wake).started = [] from hstarted] at hid
    cases hid
  · have hb := hbusy x hx
    have hseen := hrest x hx
    cases x <;> cases hseen <;> exact absurd (of_decide_eq_true hp) (of_decide_eq_true hb)
  · rw [show s.error = some e from he] at herror
    cases herror
  · show s.next ≤ c.n + _
    omega

/-- The sleepers are woken. -/
theorem Active.wake (h : s.Active i c) (hpc : c.pc = .wake) :
    (s.setCall i (c.goTo .beginOwn)).futexWake.Active i (c.goTo .beginOwn) := by
  -- only sleepers move, from one resting state to another
  have hsame : ∀ x : SearchWorker E, x.woken.runs = x.runs ∧ x.woken.isFailed = x.isFailed ∧
      x.woken.passed s.epoch = x.passed s.epoch ∧ x.woken.busy s.epoch = x.busy s.epoch := by
    intro x
    cases x <;> exact ⟨rfl, rfl, rfl, rfl⟩
  have hwoken : ∀ x : SearchWorker E, x.InEpoch s.epoch i c → x.woken.InEpoch s.epoch i c := by
    intro x hx
    cases x <;> exact hx
  have hclaimed := h.claimed
  rw [hpc] at hclaimed
  refine
    { pc := rfl
      announced := h.announced
      workers := fun y hy => ?_
      barrier := ?_
      nodup := h.nodup
      claimed := hclaimed
      ended := fun id hid => ?_
      passed := fun y hy hp => ?_
      raised := h.raised
      own := nofun
      noted := fun hthrew => ?_
      bounded := ?_ }
  · obtain ⟨x, hx, rfl⟩ := List.mem_map.mp hy
    exact inEpoch_mono (hwoken x (h.workers x hx)) rfl (List.Subset.refl _)
  · show s.arrived = (s.workers.map .woken).countP (SearchWorker.busy s.epoch)
    rw [List.countP_map, h.barrier]
    exact List.countP_congr fun x _ => by
      rw [Function.comp_apply, (hsame x).2.2.2]
  · refine (h.ended id hid).imp_right (Or.imp ?_ ?_)
    · rintro ⟨x, hx, hruns⟩
      exact ⟨x.woken, List.mem_map_of_mem hx, (hsame x).1.trans hruns⟩
    · rw [hpc]
      exact nofun
  · obtain ⟨x, hx, rfl⟩ := List.mem_map.mp hy
    exact h.passed x hx ((hsame x).2.2.1.symm.trans hp)
  · refine (h.noted hthrew).imp_right (Or.imp ?_ ?_)
    · rintro ⟨x, hx, hfailed⟩
      exact ⟨x.woken, List.mem_map_of_mem hx, (hsame x).2.1.trans hfailed⟩
    · rw [hpc]
      exact nofun
  · show s.next ≤ c.n + (s.workers.map .woken).countP (SearchWorker.passed s.epoch)
    rw [List.countP_map, List.countP_congr (q := SearchWorker.passed s.epoch) fun x _ => by
      rw [Function.comp_apply, (hsame x).2.2.1]]
    exact h.bounded

/-- The caller begins `fn(0)`. -/
theorem Active.beginOwn (h : s.Active i c) (hpc : c.pc = .beginOwn) :
    (s.setCall i ((c.goTo .runningOwn).beginRun 0)).Active i ((c.goTo .runningOwn).beginRun 0) := by
  have hclaimed := h.claimed
  rw [hpc] at hclaimed
  have hnew : 0 ∉ c.started := by
    rw [hclaimed]
    rintro (⟨_, hown⟩ | ⟨hne, _⟩)
    · cases hown
    · exact hne rfl
  refine
    { pc := rfl
      announced := h.announced
      workers := fun x hx => inEpoch_mono (h.workers x hx) rfl (List.Subset.refl _)
      barrier := h.barrier
      nodup := nodup_beginRun h.nodup hnew
      claimed := fun id => ?_
      ended := fun id hid => ?_
      passed := h.passed
      raised := h.raised
      own := nofun
      noted := fun hthrew => ?_
      bounded := h.bounded }
  · show id ∈ c.started ++ [0] ↔
      (id = 0 ∧ true = true) ∨ (id ≠ 0 ∧ id < s.next ∧ id < c.n)
    rw [List.mem_append, List.mem_singleton, hclaimed]
    show (id = 0 ∧ false = true ∨ _) ∨ id = 0 ↔ _
    simp only [Bool.false_eq_true, and_false, false_or, and_true]
    exact or_comm
  · rcases List.mem_append.mp hid with hold | hzero
    · refine (h.ended id hold).imp_right (Or.imp_right ?_)
      rw [hpc]
      exact nofun
    · exact Or.inr (Or.inr ⟨List.mem_singleton.mp hzero, rfl⟩)
  · refine (h.noted hthrew).imp_right (Or.imp_right ?_)
    rw [hpc]
    exact nofun

/-- The caller after `fn(0)`. -/
def afterOwn : Option E → CallPc E
  | none => .waiting
  | some e => .failedOwn e

/-- The caller comes back from `fn(0)`. -/
theorem Active.endOwn (h : s.Active i c) (hpc : c.pc = .runningOwn) (outcome : Option E) :
    (s.setCall i ((c.goTo (afterOwn outcome)).endRun 0 outcome)).Active i
      ((c.goTo (afterOwn outcome)).endRun 0 outcome) := by
  have hclaimed := h.claimed
  rw [hpc] at hclaimed
  have hgrow : c.finished ⊆ ((c.goTo (afterOwn outcome)).endRun 0 outcome).finished :=
    List.subset_append_left _ _
  have hlast : (0, outcome) ∈ ((c.goTo (afterOwn outcome)).endRun 0 outcome).finished :=
    List.mem_append_right _ (List.mem_singleton.mpr rfl)
  refine
    { pc := ?_
      announced := h.announced
      workers := fun x hx => inEpoch_mono (h.workers x hx) rfl hgrow
      barrier := h.barrier
      nodup := h.nodup
      claimed := fun id => ?_
      ended := fun id hid => ?_
      passed := fun x hx hp => (h.passed x hx hp).imp_right ?_
      raised := fun e he => ?_
      own := fun e he => ?_
      noted := fun hthrew => ?_
      bounded := h.bounded }
  · cases outcome <;> rfl
  · cases outcome <;> exact hclaimed id
  · rcases h.ended id hid with ⟨o, ho⟩ | hworker | ⟨rfl, _⟩
    · exact Or.inl ⟨o, hgrow ho⟩
    · exact Or.inr (Or.inl hworker)
    · exact Or.inl ⟨outcome, hlast⟩
  · rintro ⟨id, e, hmem⟩
    exact ⟨id, e, hgrow hmem⟩
  · obtain ⟨id, hid⟩ := h.raised e he
    exact ⟨id, hgrow hid⟩
  · cases outcome with
    | none => cases he
    | some e' =>
      have hee : CallPc.failedOwn e' = .failedOwn e := he
      obtain rfl := CallPc.failedOwn.inj hee
      exact hlast
  · cases outcome with
    | some e => exact Or.inr (Or.inr rfl)
    | none =>
      refine (h.noted (threw_of_endRun hthrew)).imp_right (Or.imp_right ?_)
      rw [hpc]
      exact nofun

/-- The caller notes the exception of `fn(0)`, unless there is one. -/
theorem Active.noteOwn (h : s.Active i c) {e : E} (hpc : c.pc = .failedOwn e) :
    ((s.setCall i (c.goTo .waiting)).noteError e).Active i (c.goTo .waiting) := by
  have hclaimed := h.claimed
  rw [hpc] at hclaimed
  have hsome : s.error.or (some e) ≠ none := by
    cases s.error <;> exact nofun
  refine
    { pc := rfl
      announced := h.announced
      workers := fun x hx => inEpoch_mono (h.workers x hx) rfl (List.Subset.refl _)
      barrier := h.barrier
      nodup := h.nodup
      claimed := hclaimed
      ended := fun id hid => ?_
      passed := h.passed
      raised := of_or_eq_some h.raised ⟨0, h.own e hpc⟩
      own := nofun
      noted := fun _ => Or.inl hsome
      bounded := h.bounded }
  refine (h.ended id hid).imp_right (Or.imp_right ?_)
  rw [hpc]
  exact nofun

/-! ## The barrier -/

/-- Nobody is left to arrive. -/
theorem Active.resting (h : s.Active i c) (hzero : s.arrived = 0) : s.Resting := by
  intro x hx
  have hcount := h.barrier.symm.trans hzero
  rw [List.countP_eq_zero] at hcount
  have hx' := hcount x hx
  unfold SearchWorker.busy at hx'
  simpa using hx'

/-- All of the call's runs are over. -/
theorem Active.settled (h : s.Active i c) (hpc : c.pc = .waiting) (hzero : s.arrived = 0)
    (hpos : 0 < s.workers.length) : c.Settled s.error := by
  have hrest := h.resting hzero
  have hclaimed := h.claimed
  rw [hpc] at hclaimed
  obtain ⟨_, _, hnext, hn⟩ := h.announced
  obtain ⟨x, hx⟩ := List.exists_mem_of_length_pos hpos
  -- one worker is enough to tell that the loop over the ids is over
  have hout : c.n ≤ s.next ∨ c.Threw := by
    refine h.passed x hx ?_
    have hseen := hrest x hx
    cases x <;> cases hseen <;> exact decide_eq_true rfl
  have hend : ∀ id ∈ c.started, ∃ o, (id, o) ∈ c.finished := by
    intro id hid
    rcases h.ended id hid with hfin | ⟨y, hy, hruns⟩ | ⟨_, hown⟩
    · exact hfin
    · have hseen := hrest y hy
      cases y <;> cases hseen <;> cases hruns
    · rw [hpc] at hown
      cases hown
  refine
    { nodup := h.nodup
      own := fun id hid => ?_
      complete := fun hthrew id hid => ?_
      noted := fun hthrew => ?_
      raised := h.raised }
  · rcases (hclaimed id).mp hid with ⟨rfl, _⟩ | hlt
    · omega
    · exact hlt.2.2
  · have hbegun : id ∈ c.started := by
      rw [hclaimed]
      by_cases hid0 : id = 0
      · exact Or.inl ⟨hid0, rfl⟩
      · exact Or.inr ⟨hid0, Nat.lt_of_lt_of_le hid (hout.resolve_right hthrew), hid⟩
    obtain ⟨o, ho⟩ := hend id hbegun
    cases o with
    | none => exact ⟨hbegun, ho⟩
    | some e => exact (hthrew ⟨id, e, ho⟩).elim
  · -- nobody is between catching an exception and noting it
    rcases h.noted hthrew with herror | ⟨y, hy, hfailed⟩ | hown
    · exact herror
    · have hseen := hrest y hy
      cases y <;> cases hseen <;> cases hfailed
    · rw [hpc] at hown
      cases hown

/-! ## Calls without the pool -/

/-- Where a call starts. -/
theorem start_ok (threadCount n : Nat) : (SearchCall.start threadCount n : SearchCall E).Ok
    threadCount := by
  unfold SearchCall.start SearchCall.Ok
  split_ifs with hzero hinline
  · have hnone : ∀ id, ¬ id < n := by omega
    exact ⟨List.nodup_nil, nofun, fun _ id hid => (hnone id hid).elim, nofun, nofun⟩
  · exact ⟨Nat.zero_le _, rfl, rfl⟩
  · have hlarge : 2 ≤ n ∧ 0 < threadCount := by omega
    exact ⟨rfl, rfl, hlarge⟩

/-- The next iteration of the loop without the pool. -/
theorem ok_inline {threadCount k : Nat} (h : c.Ok threadCount) (hpc : c.pc = .inline k)
    (hlt : k < c.n) : ((c.goTo (.inlineRunning k)).beginRun k).Ok threadCount := by
  unfold SearchCall.Ok at h
  rw [hpc] at h
  obtain ⟨_, hstarted, hfinished⟩ := h
  refine ⟨hlt, ?_, hfinished⟩
  show c.started ++ [k] = _
  rw [hstarted, List.range_succ]

theorem mem_range_none {k id : Nat} {o : Option E} :
    (id, o) ∈ (List.range k).map (fun id => (id, (none : Option E))) ↔ id < k ∧ o = none := by
  rw [List.mem_map]
  constructor
  · rintro ⟨id', hid', heq⟩
    obtain ⟨rfl, rfl⟩ := Prod.mk.inj heq
    exact ⟨List.mem_range.mp hid', rfl⟩
  · rintro ⟨hid, rfl⟩
    exact ⟨id, List.mem_range.mpr hid, rfl⟩

/-- The loop without the pool is over. -/
theorem ok_inline_end {threadCount k : Nat} (h : c.Ok threadCount) (hpc : c.pc = .inline k)
    (hle : ¬ k < c.n) : (c.goTo .returned).Ok threadCount := by
  unfold SearchCall.Ok at h
  rw [hpc] at h
  obtain ⟨hk, hstarted, hfinished⟩ := h
  obtain rfl : k = c.n := by omega
  have hthrew : ¬ (c.goTo .returned).Threw := by
    rintro ⟨id, e, hmem⟩
    rw [show (c.goTo .returned).finished = _ from hfinished, mem_range_none] at hmem
    cases hmem.2
  refine
    { nodup := ?_
      own := fun id hid => ?_
      complete := fun _ id hid => ⟨?_, ?_⟩
      noted := fun h => (hthrew h).elim
      raised := nofun }
  · rw [show (c.goTo .returned).started = _ from hstarted]
    exact List.nodup_range
  · rw [show (c.goTo .returned).started = _ from hstarted] at hid
    exact List.mem_range.mp hid
  · rw [show (c.goTo .returned).started = _ from hstarted]
    exact List.mem_range.mpr hid
  · rw [show (c.goTo .returned).finished = _ from hfinished, mem_range_none]
    exact ⟨hid, rfl⟩

/-- A run without the pool ends. -/
theorem ok_inlineRunning {threadCount k : Nat} (h : c.Ok threadCount)
    (hpc : c.pc = .inlineRunning k) (outcome : Option E) :
    ((c.goTo (match outcome with
      | none => .inline (k + 1)
      | some e => .rethrew e)).endRun k outcome).Ok threadCount := by
  unfold SearchCall.Ok at h
  rw [hpc] at h
  obtain ⟨hk, hstarted, hfinished⟩ := h
  cases outcome with
  | none =>
    refine ⟨hk, hstarted, ?_⟩
    show c.finished ++ [(k, none)] = _
    rw [hfinished, List.range_succ, List.map_append]
    rfl
  | some e =>
    have hlast : (k, some e) ∈ ((c.goTo (.rethrew e)).endRun k (some e)).finished :=
      List.mem_append_right _ (List.mem_singleton.mpr rfl)
    refine
      { nodup := ?_
        own := fun id hid => ?_
        complete := fun hthrew => (hthrew ⟨k, e, hlast⟩).elim
        noted := fun _ => nofun
        raised := fun e' he' => ⟨k, he' ▸ hlast⟩ }
    · show c.started.Nodup
      rw [hstarted]
      exact List.nodup_range
    · have hid' : id ∈ c.started := hid
      rw [hstarted, List.mem_range] at hid'
      exact Nat.lt_of_lt_of_le hid' hk

/-! ## Every step -/

theorem setWorker_length (s : SearchPool E) (w : Nat) (x : SearchWorker E) :
    (s.setWorker w x).workers.length = s.workers.length := List.length_set

/-- Calls that are not in the pool do not matter to where it stands. -/
theorem Phase.frame (h : s.Phase) (hstop : s.stop = false) {calls : List (SearchCall E)}
    (hcalls : ∀ j c, s.callMu = some j → s.calls[j]? = some c → calls[j]? = some c) :
    ({ s with calls := calls }).Phase := by
  cases h with
  | quiet hmu _ hrest => exact .quiet hmu hstop hrest
  | stopping _ hstop' => exact nomatch hstop.symm.trans hstop'
  | preparing j d hmu hcall _ hrest hpos hempty hannounced =>
    refine .preparing j d hmu (hcalls j d hmu hcall) hstop hrest hpos hempty ?_
    cases hpc : d.pc <;> rw [hpc] at hannounced <;> exact hannounced
  | active j d hmu hcall _ hpos hactive =>
    exact .active j d hmu (hcalls j d hmu hcall) hstop hpos { hactive with }
  | settling j d hmu hcall _ hrest error herror hsettled =>
    exact .settling j d hmu (hcalls j d hmu hcall) hstop hrest error herror hsettled

/-- The call in the pool took a step, or a worker did for it. -/
theorem Inv.of_keeps {c' : SearchCall E} (h : s.Inv) (hmu : s.callMu = some i)
    (hkeeps : Keeps s s' i c') (hphase : s'.Phase) : s'.Inv where
  others j d hj hne := by
    rw [hkeeps.callMu, hmu] at hne
    have hji : j ≠ i := fun heq => hne (heq ▸ rfl)
    rw [hkeeps.others j hji] at hj
    rw [hkeeps.width]
    exact h.others j d hj (by rw [hmu]; exact fun heq => hji (Option.some.inj heq).symm)
  phase := hphase
  closing hstop := by
    rw [hkeeps.destructor]
    exact h.closing (hkeeps.stop ▸ hstop)

/-- A call outside of the pool took a step. -/
theorem Inv.setCall {c' : SearchCall E} (h : s.Inv) (hcall : s.calls[i]? = some c)
    (hstop : s.stop = false) (hmu : s.callMu ≠ some i) (hok : c'.Ok s.workers.length) :
    (s.setCall i c').Inv where
  others j d hj hne := by
    by_cases hji : j = i
    · subst hji
      obtain ⟨hlt, _⟩ := List.getElem?_eq_some_iff.mp hcall
      have hself : (s.calls.set j c')[j]? = some c' := List.getElem?_set_self hlt
      obtain rfl := Option.some.inj (hself.symm.trans hj)
      exact hok
    · have hother : (s.calls.set i c')[j]? = s.calls[j]? := List.getElem?_set_ne (Ne.symm hji)
      exact h.others j d (hother.symm.trans hj) hne
  phase := h.phase.frame hstop fun j d hj hd => by
    have hji : i ≠ j := fun heq => hmu (heq ▸ hj)
    rw [List.getElem?_set_ne hji]
    exact hd
  closing := h.closing

/-- A call that takes a step is not over, so nobody destroys the pool. -/
theorem Inv.running (h : s.Inv) (hcall : s.calls[i]? = some c) (hover : c.pc.isOver = false) :
    s.stop = false := by
  cases h.phase with
  | quiet _ hstop => exact hstop
  | stopping _ _ hall =>
    rw [hall c (List.mem_of_getElem? hcall)] at hover
    cases hover
  | preparing _ _ _ _ hstop => exact hstop
  | active _ _ _ _ hstop => exact hstop
  | settling _ _ _ _ hstop => exact hstop

/-- Where a call that holds `call_mu_` stands. -/
inductive Leads (s : SearchPool E) (i : Nat) (c : SearchCall E) : Prop where
  | preparing (hrest : s.Resting) (hpos : 0 < s.workers.length)
      (hempty : c.started = [] ∧ c.finished = [] ∧ 2 ≤ c.n) (hannounced : s.Announced i c c.pc)
  | active (hpos : 0 < s.workers.length) (hactive : s.Active i c)
  | settling (hrest : s.Resting) (error : Option E) (herror : c.pc.settles s.error = some error)
      (hsettled : c.Settled error)

theorem Inv.leads (h : s.Inv) (hcall : s.calls[i]? = some c) (hholds : c.pc.holds = true) :
    s.callMu = some i ∧ s.Leads i c := by
  have hmu : s.callMu = some i := by
    by_contra hne
    have hok := h.others i c hcall hne
    unfold SearchCall.Ok at hok
    cases hpc : c.pc <;> rw [hpc] at hok hholds <;> first | exact hok | exact nomatch hholds
  refine ⟨hmu, ?_⟩
  cases h.phase with
  | quiet hmu' => exact nomatch hmu.symm.trans hmu'
  | stopping hmu' => exact nomatch hmu.symm.trans hmu'
  | preparing j d hmu' hd _ hrest hpos hempty hannounced =>
    obtain rfl := Option.some.inj (hmu.symm.trans hmu')
    obtain rfl := Option.some.inj (hcall.symm.trans hd)
    exact .preparing hrest hpos hempty hannounced
  | active j d hmu' hd _ hpos hactive =>
    obtain rfl := Option.some.inj (hmu.symm.trans hmu')
    obtain rfl := Option.some.inj (hcall.symm.trans hd)
    exact .active hpos hactive
  | settling j d hmu' hd _ hrest error herror hsettled =>
    obtain rfl := Option.some.inj (hmu.symm.trans hmu')
    obtain rfl := Option.some.inj (hcall.symm.trans hd)
    exact .settling hrest error herror hsettled

/-- A call that does not hold `call_mu_`. -/
theorem Inv.not_leads (h : s.Inv) (hcall : s.calls[i]? = some c) (hholds : c.pc.holds = false) :
    s.callMu ≠ some i := by
  intro hmu
  cases h.phase with
  | quiet hmu' => exact nomatch hmu.symm.trans hmu'
  | stopping hmu' => exact nomatch hmu.symm.trans hmu'
  | preparing j d hmu' hd _ _ _ _ hannounced =>
    obtain rfl := Option.some.inj (hmu.symm.trans hmu')
    obtain rfl := Option.some.inj (hcall.symm.trans hd)
    exact nomatch hholds.symm.trans hannounced.holds
  | active j d hmu' hd _ _ hactive =>
    obtain rfl := Option.some.inj (hmu.symm.trans hmu')
    obtain rfl := Option.some.inj (hcall.symm.trans hd)
    exact nomatch hholds.symm.trans (CallPc.holds_of_isActive hactive.pc)
  | settling j d hmu' hd _ _ error herror =>
    obtain rfl := Option.some.inj (hmu.symm.trans hmu')
    obtain rfl := Option.some.inj (hcall.symm.trans hd)
    exact nomatch hholds.symm.trans (CallPc.holds_of_settles herror)

/-- A worker's step. -/
theorem inv_worker (h : s.Inv) (hw : s.workers[w]? = some x)
    (hstep : s.workerStep w outcome x = some s') : s'.Inv := by
  have hx := List.mem_of_getElem? hw
  cases h.phase with
  | quiet hmu hstop hrest =>
    obtain ⟨y, rfl, hy⟩ := workerStep_of_restsAt hstop (hrest x hx) hstep
    refine ⟨?_, .quiet hmu hstop (Slots.forall_mem_set hrest hy), h.closing⟩
    rw [setWorker_length]
    exact h.others
  | stopping hmu hstop hover hworkers =>
    obtain ⟨y, rfl, hy⟩ := workerStep_of_canStop hstop (hworkers x hx) hstep
    refine ⟨?_, .stopping hmu hstop hover (Slots.forall_mem_set hworkers hy), h.closing⟩
    rw [setWorker_length]
    exact h.others
  | preparing i c hmu hcall hstop hrest hpos hempty hannounced =>
    obtain ⟨y, rfl, hy⟩ := workerStep_of_restsAt hstop (hrest x hx) hstep
    refine h.of_keeps hmu (keeps_setWorker hcall w y) ?_
    refine .preparing i c hmu hcall hstop (Slots.forall_mem_set hrest hy) ?_ hempty ?_
    · rw [setWorker_length]
      exact hpos
    · have hlen := setWorker_length s w y
      cases hpc : c.pc <;> rw [hpc] at hannounced <;> unfold Announced at hannounced ⊢ <;>
        first | exact hannounced | (rw [hlen]; exact hannounced)
  | active i c hmu hcall hstop hpos hactive =>
    obtain ⟨c', hactive', hkeeps⟩ := hactive.worker hcall hstop hw hstep
    refine h.of_keeps hmu hkeeps ?_
    exact .active i c' (hkeeps.callMu.trans hmu) hkeeps.call (hkeeps.stop.trans hstop)
      (hkeeps.width ▸ hpos) hactive'
  | settling i c hmu hcall hstop hrest error herror hsettled =>
    obtain ⟨y, rfl, hy⟩ := workerStep_of_restsAt hstop (hrest x hx) hstep
    refine h.of_keeps hmu (keeps_setWorker hcall w y) ?_
    exact .settling i c hmu hcall hstop (Slots.forall_mem_set hrest hy) error herror hsettled

/-- A step before the epoch is opened. -/
theorem inv_prepare (h : s.Inv) (hrest : s.Resting) (hpos : 0 < s.workers.length)
    (hempty : c.started = [] ∧ c.finished = [] ∧ 2 ≤ c.n)
    (hmu : s.callMu = some i) (hstop : s.stop = false) {pc : CallPc E}
    (hkeeps : Keeps s s' i (c.goTo pc)) (hworkers : s'.workers = s.workers)
    (hepoch : s'.epoch = s.epoch) (hannounced : s'.Announced i (c.goTo pc) pc) : s'.Inv := by
  refine h.of_keeps hmu hkeeps ?_
  refine .preparing i (c.goTo pc) (hkeeps.callMu.trans hmu) hkeeps.call
    (hkeeps.stop.trans hstop) ?_ (hkeeps.width ▸ hpos) hempty hannounced
  intro x hx
  rw [hepoch]
  exact hrest x (hworkers ▸ hx)

/-- A call outside of the pool. -/
theorem inv_caller_outside (h : s.Inv) (hcall : s.calls[i]? = some c)
    (hholds : c.pc.holds = false) (hover : c.pc.isOver = false)
    (hstep : s.callerStep i outcome c = some s') : s'.Inv := by
  have hstop := h.running hcall hover
  have hmu := h.not_leads hcall hholds
  have hok := h.others i c hcall hmu
  unfold callerStep at hstep
  cases hpc : c.pc with
  | inline k =>
    simp only [hpc] at hstep
    by_cases hlt : k < c.n
    · rw [if_pos hlt] at hstep
      obtain rfl := Option.some.inj hstep
      exact h.setCall hcall hstop hmu (ok_inline hok hpc hlt)
    · rw [if_neg hlt] at hstep
      obtain rfl := Option.some.inj hstep
      exact h.setCall hcall hstop hmu (ok_inline_end hok hpc hlt)
  | inlineRunning k =>
    simp only [hpc] at hstep
    obtain rfl := Option.some.inj hstep
    exact h.setCall hcall hstop hmu (ok_inlineRunning hok hpc outcome)
  | entering =>
    simp only [hpc] at hstep
    by_cases hfree : s.callMu = none
    · rw [if_pos hfree] at hstep
      obtain rfl := Option.some.inj hstep
      unfold SearchCall.Ok at hok
      rw [hpc] at hok
      obtain ⟨hstarted, hfinished, hn, hpos⟩ := hok
      obtain ⟨hlt, _⟩ := List.getElem?_eq_some_iff.mp hcall
      have hself : (s.calls.set i (c.goTo .resetError))[i]? = some (c.goTo .resetError) :=
        List.getElem?_set_self hlt
      -- the mutex is free, so no epoch is open
      have hrest : s.Resting := by
        cases h.phase with
        | quiet _ _ hrest => exact hrest
        | stopping _ hstop' => exact nomatch hstop.symm.trans hstop'
        | preparing _ _ hmu' => exact nomatch hfree.symm.trans hmu'
        | active _ _ hmu' => exact nomatch hfree.symm.trans hmu'
        | settling _ _ hmu' => exact nomatch hfree.symm.trans hmu'
      refine ⟨fun j d hj hne => ?_, ?_, h.closing⟩
      · have hji : i ≠ j := fun heq => hne (heq ▸ rfl)
        have hother : (s.calls.set i (c.goTo .resetError))[j]? = s.calls[j]? :=
          List.getElem?_set_ne hji
        refine h.others j d (hother.symm.trans hj) ?_
        rw [hfree]
        exact nofun
      · exact .preparing i _ rfl hself hstop hrest hpos ⟨hstarted, hfinished, hn⟩ trivial
    · rw [if_neg hfree] at hstep
      cases hstep
  | returned => exact nomatch hover.symm.trans (congrArg CallPc.isOver hpc)
  | rethrew e => exact nomatch hover.symm.trans (congrArg CallPc.isOver hpc)
  | _ => exact nomatch hholds.symm.trans (congrArg CallPc.holds hpc)

/-- A call that announces its job. -/
theorem inv_caller_preparing (h : s.Inv) (hcall : s.calls[i]? = some c)
    (hmu : s.callMu = some i) (hstop : s.stop = false) (hrest : s.Resting)
    (hpos : 0 < s.workers.length) (hempty : c.started = [] ∧ c.finished = [] ∧ 2 ≤ c.n)
    (hannounced : s.Announced i c c.pc) (hstep : s.callerStep i outcome c = some s') :
    s'.Inv := by
  have hkeeps : ∀ pc, Keeps s (s.setCall i (c.goTo pc)) i (c.goTo pc) :=
    fun _ => (keeps_refl hcall).setCall
  unfold callerStep at hstep
  cases hpc : c.pc with
  | resetError =>
    simp only [hpc] at hstep
    obtain rfl := Option.some.inj hstep
    exact inv_prepare h hrest hpos hempty hmu hstop { hkeeps .storeNext with } rfl rfl rfl
  | storeNext =>
    simp only [hpc] at hstep
    rw [hpc] at hannounced
    obtain rfl := Option.some.inj hstep
    exact inv_prepare h hrest hpos hempty hmu hstop { hkeeps .storeArrived with } rfl rfl
      ⟨hannounced, rfl⟩
  | storeArrived =>
    simp only [hpc] at hstep
    rw [hpc] at hannounced
    obtain ⟨herror, hnext⟩ := hannounced
    obtain rfl := Option.some.inj hstep
    exact inv_prepare h hrest hpos hempty hmu hstop { hkeeps .storeN with } rfl rfl
      ⟨herror, hnext, rfl⟩
  | storeN =>
    simp only [hpc] at hstep
    rw [hpc] at hannounced
    obtain ⟨herror, hnext, harrived⟩ := hannounced
    obtain rfl := Option.some.inj hstep
    exact inv_prepare h hrest hpos hempty hmu hstop { hkeeps .storeJob with } rfl rfl
      ⟨herror, hnext, harrived, rfl⟩
  | storeJob =>
    simp only [hpc] at hstep
    rw [hpc] at hannounced
    obtain ⟨herror, hnext, harrived, hjobN⟩ := hannounced
    obtain rfl := Option.some.inj hstep
    exact inv_prepare h hrest hpos hempty hmu hstop { hkeeps .bumpEpoch with } rfl rfl
      ⟨herror, hnext, harrived, hjobN, rfl⟩
  -- the epoch opens
  | bumpEpoch =>
    simp only [hpc] at hstep
    rw [hpc] at hannounced
    obtain rfl := Option.some.inj hstep
    refine h.of_keeps hmu { hkeeps .wake with } ?_
    exact .active i _ hmu (hkeeps .wake).call hstop hpos
      (active_of_bump hrest hempty hannounced)
  | _ =>
    rw [hpc] at hannounced
    exact hannounced.elim

/-- A call in its epoch. -/
theorem inv_caller_active (h : s.Inv) (hcall : s.calls[i]? = some c) (hmu : s.callMu = some i)
    (hstop : s.stop = false) (hpos : 0 < s.workers.length) (hactive : s.Active i c)
    (hstep : s.callerStep i outcome c = some s') : s'.Inv := by
  have hkeeps : ∀ c', Keeps s (s.setCall i c') i c' := fun _ => (keeps_refl hcall).setCall
  unfold callerStep at hstep
  cases hpc : c.pc with
  | wake =>
    simp only [hpc] at hstep
    obtain rfl := Option.some.inj hstep
    refine h.of_keeps hmu { hkeeps _ with width := List.length_map _ } ?_
    exact .active i _ hmu (hkeeps _).call hstop
      (Nat.lt_of_lt_of_eq hpos (List.length_map _).symm) (hactive.wake hpc)
  | beginOwn =>
    simp only [hpc] at hstep
    obtain rfl := Option.some.inj hstep
    refine h.of_keeps hmu (hkeeps _) ?_
    exact .active i _ hmu (hkeeps _).call hstop hpos (hactive.beginOwn hpc)
  | runningOwn =>
    simp only [hpc] at hstep
    obtain rfl := Option.some.inj hstep
    refine h.of_keeps hmu (hkeeps _) ?_
    exact .active i _ hmu (hkeeps _).call hstop hpos (hactive.endOwn hpc outcome)
  | failedOwn e =>
    simp only [hpc] at hstep
    obtain rfl := Option.some.inj hstep
    refine h.of_keeps hmu { hkeeps (c.goTo .waiting) with } ?_
    exact .active i _ hmu (hkeeps _).call hstop hpos (hactive.noteOwn hpc)
  | waiting =>
    simp only [hpc] at hstep
    -- the barrier opens
    by_cases hzero : s.arrived = 0
    · rw [if_pos hzero] at hstep
      obtain rfl := Option.some.inj hstep
      refine h.of_keeps hmu (hkeeps _) ?_
      exact .settling i _ hmu (hkeeps _).call hstop (hactive.resting hzero) s.error rfl
        { hactive.settled hpc hzero hpos with }
    · rw [if_neg hzero] at hstep
      cases hstep
  | _ => exact nomatch (congrArg CallPc.isActive hpc).symm.trans hactive.pc

/-- A call that has passed the barrier. -/
theorem inv_caller_settling (h : s.Inv) (hcall : s.calls[i]? = some c) (hmu : s.callMu = some i)
    (hstop : s.stop = false) (hrest : s.Resting) {error : Option E}
    (herror : c.pc.settles s.error = some error) (hsettled : c.Settled error)
    (hstep : s.callerStep i outcome c = some s') : s'.Inv := by
  have hkeeps : ∀ c', Keeps s (s.setCall i c') i c' := fun _ => (keeps_refl hcall).setCall
  unfold callerStep at hstep
  cases hpc : c.pc with
  | clearJob =>
    simp only [hpc] at hstep
    rw [hpc] at herror
    obtain rfl := Option.some.inj hstep
    refine h.of_keeps hmu { hkeeps (c.goTo .readError) with } ?_
    exact .settling i _ hmu (hkeeps _).call hstop hrest error herror { hsettled with }
  | readError =>
    simp only [hpc] at hstep
    rw [hpc] at herror
    obtain rfl := Option.some.inj hstep
    refine h.of_keeps hmu { hkeeps (c.goTo (.unlocking s.error)) with } ?_
    exact .settling i _ hmu (hkeeps _).call hstop hrest error herror { hsettled with }
  | unlocking error' =>
    simp only [hpc] at hstep
    rw [hpc] at herror
    obtain rfl := Option.some.inj herror
    obtain rfl := Option.some.inj hstep
    refine ⟨fun j d hj hne => ?_, .quiet rfl hstop hrest, h.closing⟩
    by_cases hji : j = i
    · subst hji
      obtain rfl := Option.some.inj ((hkeeps _).call.symm.trans hj)
      cases error' with
      | none => exact { hsettled with }
      | some e => exact { hsettled with }
    · refine h.others j d (((hkeeps _).others j hji).symm.trans hj) ?_
      rw [hmu]
      exact fun heq => hji (Option.some.inj heq).symm
  | _ => rw [hpc] at herror; exact nomatch herror

theorem inv_caller (h : s.Inv) (hcall : s.calls[i]? = some c)
    (hstep : s.callerStep i outcome c = some s') : s'.Inv := by
  have hover : c.pc.isOver = false := by
    unfold callerStep at hstep
    cases hpc : c.pc <;> rw [hpc] at hstep <;> first | rfl | exact nomatch hstep
  cases hholds : c.pc.holds with
  | false => exact inv_caller_outside h hcall hholds hover hstep
  | true =>
    have hstop := h.running hcall hover
    obtain ⟨hmu, hleads⟩ := h.leads hcall hholds
    cases hleads with
    | preparing hrest hpos hempty hannounced =>
      exact inv_caller_preparing h hcall hmu hstop hrest hpos hempty hannounced hstep
    | active hpos hactive => exact inv_caller_active h hcall hmu hstop hpos hactive hstep
    | settling hrest error herror hsettled =>
      exact inv_caller_settling h hcall hmu hstop hrest herror hsettled hstep

/-- Nobody uses the pool any more, and `stop_` is set. -/
theorem Inv.stopped (h : s.Inv) (hstop : s.stop = true) :
    s.callMu = none ∧ (∀ c ∈ s.calls, c.pc.isOver = true) ∧ ∀ x ∈ s.workers, x.canStop := by
  cases h.phase with
  | quiet _ hstop' => exact nomatch hstop.symm.trans hstop'
  | stopping hmu _ hover hworkers => exact ⟨hmu, hover, hworkers⟩
  | preparing _ _ _ _ hstop' => exact nomatch hstop.symm.trans hstop'
  | active _ _ _ _ hstop' => exact nomatch hstop.symm.trans hstop'
  | settling _ _ _ _ hstop' => exact nomatch hstop.symm.trans hstop'

theorem inv_destructor (h : s.Inv) (hstep : s.destructorStep s.destructor = some s') : s'.Inv := by
  -- only `destroy` takes the destructor out of `notCalled`, and it sets `stop_`
  have hstop : s.stop = true := by
    by_contra hne
    rw [h.closing (Bool.eq_false_iff.mpr hne)] at hstep
    cases hstep
  obtain ⟨hmu, hover, hworkers⟩ := h.stopped hstop
  have hclosing : s.stop = false → ∀ {d : SearchDestructor}, d = .notCalled :=
    fun hfalse => nomatch hstop.symm.trans hfalse
  cases hd : s.destructor with
  | notCalled =>
    rw [hd] at hstep
    cases hstep
  | bumpEpoch =>
    rw [hd] at hstep
    obtain rfl := Option.some.inj hstep
    exact ⟨h.others, .stopping hmu hstop hover hworkers, fun hfalse => hclosing hfalse⟩
  | wake =>
    rw [hd] at hstep
    obtain rfl := Option.some.inj hstep
    refine ⟨fun j d hj hne => ?_, .stopping hmu hstop hover fun y hy => ?_,
      fun hfalse => hclosing hfalse⟩
    · show d.Ok (s.workers.map SearchWorker.woken).length
      rw [List.length_map]
      exact h.others j d hj hne
    · obtain ⟨x, hx, rfl⟩ := List.mem_map.mp hy
      have hx' := hworkers x hx
      cases x <;> exact hx'
  | joining w =>
    rw [hd] at hstep
    simp only [destructorStep] at hstep
    split at hstep
    · obtain rfl := Option.some.inj hstep
      exact ⟨h.others, .stopping hmu hstop hover hworkers, fun hfalse => hclosing hfalse⟩
    · obtain rfl := Option.some.inj hstep
      exact ⟨h.others, .stopping hmu hstop hover hworkers, fun hfalse => hclosing hfalse⟩
    · cases hstep
  | returned =>
    rw [hd] at hstep
    cases hstep

theorem inv_step {l : SearchLabel E} (h : s.Inv) (hstep : s.step l = some s') : s'.Inv := by
  cases l with
  | call n =>
    by_cases hstop : s.stop = true
    · exact nomatch (if_pos hstop).symm.trans hstep
    · have hs' := (if_neg hstop).symm.trans hstep
      obtain rfl := Option.some.inj hs'
      refine ⟨fun j d hj hne => ?_, ?_, h.closing⟩
      · have happend : (s.calls ++ [SearchCall.start s.workers.length n])[j]? = some d := hj
        rw [List.getElem?_append] at happend
        split at happend
        · exact h.others j d happend hne
        · have hnew := List.mem_singleton.mp (List.mem_of_getElem? happend)
          rw [hnew]
          exact start_ok _ _
      · refine h.phase.frame (Bool.eq_false_iff.mpr hstop) fun j d _ hd => ?_
        obtain ⟨hlt, _⟩ := List.getElem?_eq_some_iff.mp hd
        rw [List.getElem?_append_left hlt]
        exact hd
  | caller i outcome =>
    obtain ⟨c, hcall, hstep⟩ := Option.bind_eq_some_iff.mp hstep
    exact inv_caller h hcall hstep
  | worker w outcome =>
    obtain ⟨x, hw, hstep⟩ := Option.bind_eq_some_iff.mp hstep
    exact inv_worker h hw hstep
  | destroy =>
    by_cases hfree : s.stop = false ∧ s.calls.all fun c => c.pc.isOver
    · have hs' := (if_pos hfree).symm.trans hstep
      obtain rfl := Option.some.inj hs'
      obtain ⟨hstop, hall⟩ := hfree
      have hover : ∀ c ∈ s.calls, c.pc.isOver = true := List.all_eq_true.mp hall
      -- whoever holds `call_mu_` is still in `parallel_for`
      have hleader : ∀ {j : Nat} {d : SearchCall E}, s.calls[j]? = some d →
          d.pc.holds = true → False := by
        intro j d hd hholds
        have hd' := hover d (List.mem_of_getElem? hd)
        cases hpc : d.pc <;> rw [hpc] at hd' hholds <;> first | cases hholds; done | cases hd'
      refine ⟨h.others, ?_, fun hfalse => nomatch hfalse⟩
      cases h.phase with
      | quiet hmu _ hrest =>
        refine .stopping hmu rfl hover fun x hx => ?_
        have hseen := hrest x hx
        cases x <;> cases hseen <;> exact rfl
      | stopping hmu _ _ hworkers => exact .stopping hmu rfl hover hworkers
      | preparing _ _ _ hd _ _ _ _ hannounced => exact (hleader hd hannounced.holds).elim
      | active _ _ _ hd _ _ hactive =>
        exact (hleader hd (CallPc.holds_of_isActive hactive.pc)).elim
      | settling _ _ _ hd _ _ error herror =>
        exact (hleader hd (CallPc.holds_of_settles herror)).elim
    · exact nomatch (if_neg hfree).symm.trans hstep
  | destructor => exact inv_destructor h hstep

/-! ## How far `next_` goes -/

/-- `next_` is past the ids of some call by the number of the workers at most. -/
def NextBounded (s : SearchPool E) : Prop :=
  s.next ≤ 1 ∨ ∃ c ∈ s.calls, s.next ≤ c.n + s.workers.length

theorem Active.nextBounded (h : s.Active i c) (hcall : s.calls[i]? = some c) : s.NextBounded :=
  Or.inr ⟨c, List.mem_of_getElem? hcall,
    Nat.le_trans h.bounded (Nat.add_le_add_left List.countP_le_length _)⟩

theorem NextBounded.frame (h : s.NextBounded) (hnext : s'.next = s.next)
    (hwidth : s'.workers.length = s.workers.length)
    (hcalls : ∀ c ∈ s.calls, ∃ c' ∈ s'.calls, c'.n = c.n) : s'.NextBounded := by
  unfold NextBounded
  rw [hnext, hwidth]
  refine h.imp_right ?_
  rintro ⟨c, hc, hle⟩
  obtain ⟨c', hc', hn⟩ := hcalls c hc
  exact ⟨c', hc', hn ▸ hle⟩

/-- A call keeps its `n`. -/
theorem NextBounded.setCall (h : s.NextBounded) (hcall : s.calls[i]? = some c)
    {c' : SearchCall E} (hcalls : s'.calls = s.calls.set i c') (hn : c'.n = c.n)
    (hnext : s'.next = s.next) (hwidth : s'.workers.length = s.workers.length) :
    s'.NextBounded := by
  refine h.frame hnext hwidth fun d hd => ?_
  rw [hcalls]
  by_cases heq : d = c
  · obtain ⟨hlt, _⟩ := List.getElem?_eq_some_iff.mp hcall
    exact ⟨c', List.mem_set hlt c', heq ▸ hn⟩
  · exact ⟨d, Slots.mem_set_of_ne hd hcall heq, rfl⟩

/-- A worker goes on and leaves `next_` alone. -/
theorem NextBounded.setWorker (h : s.NextBounded) (w : Nat) (y : SearchWorker E) :
    (s.setWorker w y).NextBounded :=
  h.frame rfl (setWorker_length s w y) fun c hc => ⟨c, hc, rfl⟩

theorem nextBounded_worker (h : s.Inv) (hs : s.NextBounded) (hw : s.workers[w]? = some x)
    (hstep : s.workerStep w outcome x = some s') : s'.NextBounded := by
  have hx := List.mem_of_getElem? hw
  have hrests : s.stop = false → s.Resting → s'.NextBounded := fun hstop hrest => by
    obtain ⟨y, rfl, _⟩ := workerStep_of_restsAt hstop (hrest x hx) hstep
    exact hs.setWorker w y
  cases h.phase with
  | quiet _ hstop hrest => exact hrests hstop hrest
  | stopping _ hstop _ hworkers =>
    obtain ⟨y, rfl, _⟩ := workerStep_of_canStop hstop (hworkers x hx) hstep
    exact hs.setWorker w y
  | preparing _ _ _ _ hstop hrest => exact hrests hstop hrest
  | active i c _ hcall hstop _ hactive =>
    obtain ⟨c', hactive', hkeeps⟩ := hactive.worker hcall hstop hw hstep
    exact hactive'.nextBounded hkeeps.call
  | settling _ _ _ _ hstop hrest => exact hrests hstop hrest

theorem nextBounded_caller (hs : s.NextBounded) (hcall : s.calls[i]? = some c)
    (hstep : s.callerStep i outcome c = some s') : s'.NextBounded := by
  unfold callerStep at hstep
  cases hpc : c.pc <;> simp only [hpc] at hstep
  case storeNext =>
    obtain rfl := Option.some.inj hstep
    exact Or.inl (Nat.le_refl 1)
  case wake =>
    obtain rfl := Option.some.inj hstep
    exact hs.setCall hcall rfl rfl rfl (List.length_map _)
  case inline k =>
    split at hstep
    all_goals
      obtain rfl := Option.some.inj hstep
      exact hs.setCall hcall rfl rfl rfl rfl
  case entering =>
    split at hstep
    · obtain rfl := Option.some.inj hstep
      exact hs.setCall hcall rfl rfl rfl rfl
    · cases hstep
  case waiting =>
    split at hstep
    · obtain rfl := Option.some.inj hstep
      exact hs.setCall hcall rfl rfl rfl rfl
    · cases hstep
  case returned => cases hstep
  case rethrew e => cases hstep
  -- the others leave `next_` alone
  all_goals
    obtain rfl := Option.some.inj hstep
    exact hs.setCall hcall rfl rfl rfl rfl

theorem nextBounded_destructor (hs : s.NextBounded)
    (hstep : s.destructorStep s.destructor = some s') : s'.NextBounded := by
  cases hd : s.destructor <;> simp only [hd, destructorStep] at hstep
  case bumpEpoch =>
    obtain rfl := Option.some.inj hstep
    exact hs
  case wake =>
    obtain rfl := Option.some.inj hstep
    exact hs.frame rfl (List.length_map _) fun c hc => ⟨c, hc, rfl⟩
  case joining w =>
    split at hstep
    · obtain rfl := Option.some.inj hstep
      exact hs
    · obtain rfl := Option.some.inj hstep
      exact hs
    · cases hstep
  all_goals cases hstep

theorem nextBounded_step {l : SearchLabel E} (h : s.Inv) (hs : s.NextBounded)
    (hstep : s.step l = some s') : s'.NextBounded := by
  cases l with
  | call n =>
    by_cases hstop : s.stop = true
    · exact nomatch (if_pos hstop).symm.trans hstep
    · obtain rfl := Option.some.inj ((if_neg hstop).symm.trans hstep)
      exact hs.frame rfl rfl fun c hc => ⟨c, List.mem_append_left _ hc, rfl⟩
  | caller i outcome =>
    obtain ⟨c, hcall, hstep⟩ := Option.bind_eq_some_iff.mp hstep
    exact nextBounded_caller hs hcall hstep
  | worker w outcome =>
    obtain ⟨x, hw, hstep⟩ := Option.bind_eq_some_iff.mp hstep
    exact nextBounded_worker h hs hw hstep
  | destroy =>
    by_cases hfree : s.stop = false ∧ s.calls.all fun c => c.pc.isOver
    · obtain rfl := Option.some.inj ((if_pos hfree).symm.trans hstep)
      exact hs
    · exact nomatch (if_neg hfree).symm.trans hstep
  | destructor => exact nextBounded_destructor hs hstep

/-- While the `n` of every call and the workers together fit a `size_t`, so does
    `next_`: it does not wrap around. -/
theorem next_lt_of_reachable {threadCount : Nat}
    (h : Traces.Reachable step (init threadCount) s)
    (hsmall : ∀ c ∈ s.calls, c.n + s.workers.length < UInt64.size) : s.next < UInt64.size := by
  have hinv : s.Inv ∧ s.NextBounded :=
    Traces.reachable_invariant (I := fun s => s.Inv ∧ s.NextBounded)
      (fun _ _ _ hs hstep => ⟨inv_step hs.1 hstep, nextBounded_step hs.1 hs.2 hstep⟩)
      ⟨inv_init threadCount, Or.inl (Nat.zero_le 1)⟩ h
  rcases hinv.2 with hone | ⟨c, hc, hle⟩
  · exact Nat.lt_of_le_of_lt hone (by decide)
  · exact Nat.lt_of_le_of_lt hle (hsmall c hc)

/-! ## What `parallel_for` promises -/

/-- The ids that were begun are ids of the call, each begun once. -/
theorem Inv.started (h : s.Inv) (hcall : s.calls[i]? = some c) :
    c.started.Nodup ∧ ∀ id ∈ c.started, id < c.n := by
  cases hholds : c.pc.holds with
  | true =>
    obtain ⟨_, hleads⟩ := h.leads hcall hholds
    cases hleads with
    | preparing _ _ hempty =>
      rw [hempty.1]
      exact ⟨List.nodup_nil, nofun⟩
    | active _ hactive =>
      refine ⟨hactive.nodup, fun id hid => ?_⟩
      have hn := hactive.announced.2.2.2
      rcases (hactive.claimed id).mp hid with ⟨rfl, _⟩ | hlt
      · omega
      · exact hlt.2.2
    | settling _ _ _ hsettled => exact ⟨hsettled.nodup, hsettled.own⟩
  | false =>
    have hok := h.others i c hcall (h.not_leads hcall hholds)
    unfold SearchCall.Ok at hok
    cases hpc : c.pc <;> rw [hpc] at hok hholds
    case inline k =>
      rw [hok.2.1]
      exact ⟨List.nodup_range, fun id hid => Nat.lt_of_lt_of_le (List.mem_range.mp hid) hok.1⟩
    case inlineRunning k =>
      rw [hok.2.1]
      exact ⟨List.nodup_range, fun id hid => Nat.lt_of_lt_of_le (List.mem_range.mp hid) hok.1⟩
    case entering =>
      rw [hok.1]
      exact ⟨List.nodup_nil, nofun⟩
    case returned => exact ⟨hok.nodup, hok.own⟩
    case rethrew e => exact ⟨hok.nodup, hok.own⟩
    all_goals exact hok.elim

/-- A worker runs a job of the call whose epoch is open. -/
theorem Inv.running_job (h : s.Inv) {seen : UInt32} {job n id : Nat}
    (hx : SearchWorker.running seen job n id ∈ s.workers) :
    ∃ c, s.calls[job]? = some c ∧ c.pc.isActive = true ∧ n = c.n ∧ id < c.n := by
  cases h.phase with
  | quiet _ _ hrest => exact nomatch hrest _ hx
  | stopping _ _ _ hworkers => exact nomatch hworkers _ hx
  | preparing _ _ _ _ _ hrest => exact nomatch hrest _ hx
  | active i c _ hcall _ _ hactive =>
    obtain ⟨_, rfl, hn, _, hid⟩ := hactive.workers _ hx
    exact ⟨c, hcall, hactive.pc, hn, hid⟩
  | settling _ _ _ _ _ hrest => exact nomatch hrest _ hx

/-- What `parallel_for` promises about call `i`. -/
structure Served (s : SearchPool E) (i : Nat) (c : SearchCall E) : Prop where
  once : c.started.Nodup ∧ ∀ id ∈ c.started, id < c.n
  /-- It has returned, and no run of its function threw. -/
  returned : c.pc.isOver = true → ¬ c.Threw →
    c.pc = .returned ∧ ∀ id < c.n, c.started.count id = 1 ∧ (id, none) ∈ c.finished
  /-- It is over, and some run of its function threw. -/
  rethrew : c.pc.isOver = true → c.Threw →
    ∃ e id, c.pc = .rethrew e ∧ (id, some e) ∈ c.finished
  /-- No worker runs a job of a call that is over. -/
  left : c.pc.isOver = true → ∀ seen n id, SearchWorker.running seen i n id ∉ s.workers
  /-- A call that used the workers returns when none of them runs any job. -/
  alone : ∀ error, c.pc = .unlocking error → ∀ x ∈ s.workers, x.runs = none

theorem served_of_settled {error : Option E} (hsettled : c.Settled error)
    (hpc : c.pc = match error with | none => .returned | some e => .rethrew e) :
    (¬ c.Threw → c.pc = .returned ∧ ∀ id < c.n, c.started.count id = 1 ∧ (id, none) ∈ c.finished) ∧
      (c.Threw → ∃ e id, c.pc = .rethrew e ∧ (id, some e) ∈ c.finished) := by
  constructor
  · intro hthrew
    cases error with
    | none =>
      refine ⟨hpc, fun id hid => ?_⟩
      obtain ⟨hbegun, hended⟩ := hsettled.complete hthrew id hid
      exact ⟨List.count_eq_one_of_mem hsettled.nodup hbegun, hended⟩
    | some e =>
      obtain ⟨id, hid⟩ := hsettled.raised e rfl
      exact (hthrew ⟨id, e, hid⟩).elim
  · intro hthrew
    cases error with
    | none => exact (hsettled.noted hthrew rfl).elim
    | some e =>
      obtain ⟨id, hid⟩ := hsettled.raised e rfl
      exact ⟨e, id, hpc, hid⟩

theorem Inv.served (h : s.Inv) (hcall : s.calls[i]? = some c) : s.Served i c := by
  have hover : c.pc.isOver = true →
      (¬ c.Threw →
        c.pc = .returned ∧ ∀ id < c.n, c.started.count id = 1 ∧ (id, none) ∈ c.finished) ∧
      (c.Threw → ∃ e id, c.pc = .rethrew e ∧ (id, some e) ∈ c.finished) := by
    intro hover
    have hok := h.others i c hcall (h.not_leads hcall ?_)
    · unfold SearchCall.Ok at hok
      cases hpc : c.pc <;> rw [hpc] at hok hover
      case returned => exact hpc ▸ served_of_settled hok hpc
      case rethrew e => exact hpc ▸ served_of_settled hok hpc
      all_goals cases hover
    · cases hpc : c.pc <;> rw [hpc] at hover <;> first | rfl | cases hover
  refine ⟨h.started hcall, fun ho => (hover ho).1, fun ho => (hover ho).2, ?_, ?_⟩
  · intro ho seen n id hx
    obtain ⟨d, hd, hactive, _⟩ := h.running_job hx
    obtain rfl := Option.some.inj (hcall.symm.trans hd)
    cases hpc : c.pc <;> rw [hpc] at ho hactive <;> first | cases ho; done | cases hactive
  · intro error hpc x hx
    have hholds : c.pc.holds = true := congrArg CallPc.holds hpc
    obtain ⟨_, hleads⟩ := h.leads hcall hholds
    have hrest : s.Resting := by
      cases hleads with
      | preparing hrest => exact hrest
      | active _ hactive => exact nomatch (congrArg CallPc.isActive hpc).symm.trans hactive.pc
      | settling hrest => exact hrest
    have hseen := hrest x hx
    cases x <;> cases hseen <;> rfl

/-- Every call gets its ids run once, by its own function and for its own `n`,
    and fails with an exception of its own. -/
theorem served_of_reachable {threadCount : Nat}
    (h : Traces.Reachable step (init threadCount) s) :
    (∀ i c, s.calls[i]? = some c → s.Served i c) ∧
      ∀ seen job n id, SearchWorker.running seen job n id ∈ s.workers →
        ∃ c, s.calls[job]? = some c ∧ c.pc.isActive = true ∧ n = c.n ∧ id < c.n := by
  have hinv := Traces.reachable_invariant (fun _ _ _ => inv_step) (inv_init threadCount) h
  exact ⟨fun i c hcall => hinv.served hcall, fun _ _ _ _ hx => hinv.running_job hx⟩

/-- Two calls, one after the other, on one worker.  The worker throws in the
    first and wakes from the futex by itself before the second. -/
def twoCalls : List (SearchLabel Nat) :=
  let announce (i : Nat) : List (SearchLabel Nat) := List.replicate 10 (.caller i none)
  let finish (i : Nat) : List (SearchLabel Nat) := List.replicate 4 (.caller i none)
  [.call 2, .call 2] ++ announce 0 ++ List.replicate 5 (.worker 0 none) ++
    [.worker 0 (some 7), .worker 0 none, .worker 0 none] ++ finish 0 ++
    List.replicate 5 (.worker 0 none) ++ announce 1 ++ List.replicate 9 (.worker 0 none) ++ finish 1

theorem served_of_reachable_twoCalls :
    ∃ t : SearchPool Nat,
      t.calls.map (fun c => decide (c.n = 2 ∧ c.pc.isOver = true)) = [true, true] ∧
      ∀ i c, t.calls[i]? = some c → t.Served i c := by
  have hruns : (Traces.run step (init 1) twoCalls).any (fun t =>
      decide (t.calls.map (fun c => decide (c.n = 2 ∧ c.pc.isOver = true)) = [true, true])) =
        true := by decide +kernel
  obtain ⟨t, hrun, htest⟩ := Traces.exists_run hruns
  exact ⟨t, of_decide_eq_true htest, (served_of_reachable ⟨_, hrun⟩).1⟩

end SearchPool

end QvCache
