/-
  QvCache.Lib.Locks

  Threads that take locks and give them back.  A lock is held shared or
  exclusively; its capacity says how many may hold it exclusively, one for a
  mutex, more for a pool.  A call is a list of stages, one after the other, each
  of which runs its threads beside each other.  Who of those that wait for a lock
  gets it is up to the lock (`Policy`).

  Threads that take the locks in the order of their levels do not deadlock,
  whatever the policies are (`Ok.exists_step`), and come to an end
  (`Ok.work_lt`).  A lock of the level `⊥` is left out of the order: it is only
  ever taken shared, so nobody waits for it.
-/

import QvCache.Lib.Slots
import QvCache.Lib.Traces
import Mathlib.Algebra.GroupWithZero.Nat
import Mathlib.Data.Finset.Max
import Mathlib.Order.WithBot

namespace Locks

inductive Mode where
  | shared
  | exclusive
deriving DecidableEq

inductive Instr (R : Type) where
  | acquire (r : R) (mode : Mode)
  | release (r : R) (mode : Mode)
deriving DecidableEq

/-- What a thread holds, and what it still has to do. -/
structure Thread (R : Type) where
  held : List (R × Mode)
  todo : List (Instr R)

/-- A call: the threads of its stage, and the stages behind it. -/
structure Team (R : Type) where
  members : List (Thread R)
  later : List (List (List (Instr R)))

variable {R : Type}

def Thread.start (prog : List (Instr R)) : Thread R := ⟨[], prog⟩

def Team.setThread (team : Team R) (i : Nat) (t : Thread R) : Team R :=
  { team with members := team.members.set i t }

/-- All threads there are. -/
def threads (s : List (Team R)) : List (Thread R) := s.flatMap Team.members

def threadAt (s : List (Team R)) (k i : Nat) : Option (Thread R) :=
  s[k]?.bind fun team => team.members[i]?

/-- The next instruction of the thread is to take the lock. -/
def WaitsFor (s : List (Team R)) (k i : Nat) (r : R) (mode : Mode) : Prop :=
  ∃ t rest, threadAt s k i = some t ∧ t.todo = .acquire r mode :: rest

theorem threadAt_eq_some {s : List (Team R)} {k i : Nat} {t : Thread R} :
    threadAt s k i = some t ↔ ∃ team, s[k]? = some team ∧ team.members[i]? = some t :=
  Option.bind_eq_some_iff

theorem mem_threads {s : List (Team R)} {t : Thread R} :
    t ∈ threads s ↔ ∃ k i, threadAt s k i = some t := by
  rw [threads, List.mem_flatMap]
  constructor
  · rintro ⟨team, hteam, ht⟩
    obtain ⟨k, hk⟩ := List.mem_iff_getElem?.mp hteam
    obtain ⟨i, hi⟩ := List.mem_iff_getElem?.mp ht
    exact ⟨k, i, threadAt_eq_some.mpr ⟨team, hk, hi⟩⟩
  · rintro ⟨k, i, hat⟩
    obtain ⟨team, hk, hi⟩ := threadAt_eq_some.mp hat
    exact ⟨team, List.mem_of_getElem? hk, List.mem_of_getElem? hi⟩

section Holders

variable [DecidableEq R]

def Thread.modes (t : Thread R) (r : R) : List Mode :=
  t.held.filterMap fun h => if h.1 = r then some h.2 else none

/-- How the lock is held. -/
def holders (s : List (Team R)) (r : R) : List Mode := (threads s).flatMap fun t => t.modes r

end Holders

/-- A lock that is held so may be taken as well. -/
def Compatible (capacity : Nat) (modes : List Mode) : Mode → Prop
  | .shared => .exclusive ∉ modes
  | .exclusive => modes.length < capacity

instance (capacity : Nat) (modes : List Mode) : ∀ mode, Decidable (Compatible capacity modes mode)
  | .shared => inferInstanceAs (Decidable (.exclusive ∉ modes))
  | .exclusive => inferInstanceAs (Decidable (modes.length < capacity))

/-- Who gets a lock.  Nobody gets one that is held in another way, one who waits
    gets a lock that is free, and nothing but an exclusive use keeps out a shared
    one. -/
structure Policy [DecidableEq R] (capacity : R → Nat) where
  grants : List (Team R) → Nat → Nat → R → Mode → Bool
  compatible : ∀ s k i r mode, grants s k i r mode = true →
    Compatible (capacity r) (holders s r) mode
  some_waiter : ∀ s k i r mode, WaitsFor s k i r mode → holders s r = [] →
    ∃ k' i' mode', WaitsFor s k' i' r mode' ∧ grants s k' i' r mode' = true
  shared_alone : ∀ s k i r, WaitsFor s k i r .shared → .exclusive ∉ holders s r →
    (∀ k' i', ¬ WaitsFor s k' i' r .exclusive) → grants s k i r .shared = true

theorem compatible_nil {capacity : Nat} (hroom : 0 < capacity) (mode : Mode) :
    Compatible capacity [] mode := by
  cases mode with
  | shared => exact List.not_mem_nil
  | exclusive => exact hroom

/-- Whoever may take the lock gets it. -/
def Policy.anyone [DecidableEq R] {capacity : R → Nat} (hroom : ∀ r, 0 < capacity r) :
    Policy capacity where
  grants s _ _ r mode := decide (Compatible (capacity r) (holders s r) mode)
  compatible _ _ _ _ _ h := of_decide_eq_true h
  some_waiter s k i r mode hwaits hfree := by
    refine ⟨k, i, mode, hwaits, decide_eq_true ?_⟩
    rw [hfree]
    exact compatible_nil (hroom r) mode
  shared_alone _ _ _ _ _ hfree _ := decide_eq_true hfree

/-- A new call, the next instruction of a thread, or the next stage of a call. -/
inductive Action (C : Type) where
  | call (c : C)
  | go (k i : Nat)
  | next (k : Nat)

/-- A step of a call that is under way. -/
def Action.Internal {C : Type} : Action C → Prop
  | .call _ => False
  | .go .. | .next _ => True

def Thread.go [DecidableEq R] (t : Thread R) (grants : R → Mode → Bool) : Option (Thread R) :=
  match t.todo with
  | [] => none
  | .acquire r mode :: rest => if grants r mode then some ⟨(r, mode) :: t.held, rest⟩ else none
  | .release r mode :: rest => some ⟨t.held.erase (r, mode), rest⟩

/-- The stage after one whose threads have all come to their ends. -/
def Team.next (team : Team R) : Option (Team R) :=
  if team.members.all fun t => t.todo.isEmpty then
    match team.later with
    | [] => none
    | stage :: later => some ⟨stage.map Thread.start, later⟩
  else none

section Step

variable [DecidableEq R] {C : Type} (program : C → List (List (List (Instr R))))
  {capacity : R → Nat} (P : Policy capacity)

def step (s : List (Team R)) : Action C → Option (List (Team R))
  | .call c => some (s ++ [⟨[], program c⟩])
  | .go k i =>
    s[k]?.bind fun team => team.members[i]?.bind fun t =>
      (t.go (P.grants s k i)).map fun t' => s.set k (team.setThread i t')
  | .next k => s[k]?.bind fun team => team.next.map fun team' => s.set k team'

end Step

/-- There is nothing left to do. -/
def Finished (s : List (Team R)) : Prop :=
  ∀ team ∈ s, team.later = [] ∧ ∀ t ∈ team.members, t.todo = []

/-- What is left to do. -/
def Team.work (team : Team R) : Nat :=
  (team.members.map fun t => t.todo.length).sum +
    (team.later.map fun stage => (stage.map List.length).sum + 1).sum

def work (s : List (Team R)) : Nat := (s.map Team.work).sum

/-! ## Orders of locks -/

section Order

variable {L : Type} [LinearOrder L] [DecidableEq R] (level : R → WithBot L)

/-- From `held` the program leads to `held'`, and takes every lock above all those
    that it holds. -/
inductive Leads : List (R × Mode) → List (Instr R) → List (R × Mode) → Prop
  | nil (held : List (R × Mode)) : Leads held [] held
  | acquire {held held' : List (R × Mode)} {rest : List (Instr R)} {r : R} {mode : Mode}
      (hshared : level r = ⊥ → mode = .shared)
      (habove : level r ≠ ⊥ → ∀ h ∈ held, level h.1 < level r)
      (hrest : Leads ((r, mode) :: held) rest held') :
      Leads held (.acquire r mode :: rest) held'
  | release {held held' : List (R × Mode)} {rest : List (Instr R)} {r : R} {mode : Mode}
      (hheld : (r, mode) ∈ held) (hrest : Leads (held.erase (r, mode)) rest held') :
      Leads held (.release r mode :: rest) held'

variable {level} {held held' held'' : List (R × Mode)} {prog prog' : List (Instr R)}

theorem Leads.append (h : Leads level held prog held') (h' : Leads level held' prog' held'') :
    Leads level held (prog ++ prog') held'' := by
  induction h with
  | nil => exact h'
  | acquire hshared habove _ ih => exact .acquire hshared habove (ih h')
  | release hheld _ ih => exact .release hheld (ih h')

/-- A loop whose body gives back what it takes. -/
theorem Leads.flatMap {α : Type} {f : α → List (Instr R)} {l : List α}
    (h : ∀ a ∈ l, Leads level held (f a) held) : Leads level held (l.flatMap f) held := by
  induction l with
  | nil => exact .nil held
  | cons a rest ih =>
    rw [List.flatMap_cons]
    exact (h a List.mem_cons_self).append (ih fun b hb => h b (List.mem_cons_of_mem a hb))

/-- A thread whose program leads it to its end. -/
structure Thread.Ok (level : R → WithBot L) (t : Thread R) : Prop where
  leads : Leads level t.held t.todo []
  shared : ∀ h ∈ t.held, level h.1 = ⊥ → h.2 = .shared

theorem Thread.Ok.start (h : Leads level [] prog []) : (Thread.start prog).Ok level :=
  ⟨h, fun _ hin => absurd hin List.not_mem_nil⟩

/-- Who has nothing left to do holds nothing. -/
theorem Thread.Ok.held_eq_nil {t : Thread R} (h : t.Ok level) (hdone : t.todo = []) :
    t.held = [] := by
  obtain ⟨held, todo⟩ := t
  obtain rfl := hdone
  cases h.leads
  rfl

theorem Thread.Ok.acquire {t : Thread R} (h : t.Ok level) {r : R} {mode : Mode}
    {rest : List (Instr R)} (htodo : t.todo = .acquire r mode :: rest) :
    (level r = ⊥ → mode = .shared) ∧ (level r ≠ ⊥ → ∀ h ∈ t.held, level h.1 < level r) ∧
      Thread.Ok level ⟨(r, mode) :: t.held, rest⟩ := by
  have hleads := h.leads
  rw [htodo] at hleads
  cases hleads with
  | acquire hshared habove hrest =>
    refine ⟨hshared, habove, hrest, fun x hx hbot => ?_⟩
    rcases List.mem_cons.mp hx with rfl | hx
    · exact hshared hbot
    · exact h.shared x hx hbot

theorem Thread.Ok.release {t : Thread R} (h : t.Ok level) {r : R} {mode : Mode}
    {rest : List (Instr R)} (htodo : t.todo = .release r mode :: rest) :
    Thread.Ok level ⟨t.held.erase (r, mode), rest⟩ := by
  have hleads := h.leads
  rw [htodo] at hleads
  cases hleads with
  | release _ hrest => exact ⟨hrest, fun x hx => h.shared x (List.mem_of_mem_erase hx)⟩

theorem Thread.Ok.go {t t' : Thread R} (h : t.Ok level) {grants : R → Mode → Bool}
    (hgo : t.go grants = some t') : t'.Ok level := by
  rw [Thread.go] at hgo
  split at hgo
  · cases hgo
  · next r mode rest htodo =>
    split_ifs at hgo
    exact Option.some.inj hgo ▸ (h.acquire htodo).2.2
  · next r mode rest htodo => exact Option.some.inj hgo ▸ h.release htodo

end Order

/-! ## One thread among all -/

/-- All threads are one and the others, which a step of the one leaves alone. -/
theorem threads_set {s : List (Team R)} {k i : Nat} {team : Team R} {t : Thread R}
    (hteam : s[k]? = some team) (ht : team.members[i]? = some t) :
    ∃ others, (threads s).Perm (t :: others) ∧
      ∀ t', (threads (s.set k (team.setThread i t'))).Perm (t' :: others) := by
  refine ⟨team.members.eraseIdx i ++ (s.eraseIdx k).flatMap Team.members, ?_, fun t' => ?_⟩
  · refine ((Slots.perm_others hteam).flatMap_right Team.members).trans ?_
    rw [List.flatMap_cons, ← List.cons_append]
    exact (Slots.perm_others ht).append_right _
  · refine ((Slots.set_perm_others hteam _).flatMap_right Team.members).trans ?_
    rw [List.flatMap_cons, ← List.cons_append]
    exact (Slots.set_perm_others ht t').append_right _

theorem threads_set_team {s : List (Team R)} {k : Nat} {team : Team R}
    (hteam : s[k]? = some team) (team' : Team R) :
    ∃ others, (threads s).Perm (team.members ++ others) ∧
      (threads (s.set k team')).Perm (team'.members ++ others) := by
  refine ⟨(s.eraseIdx k).flatMap Team.members, ?_, ?_⟩
  · exact (Slots.perm_others hteam).flatMap_right Team.members
  · exact (Slots.set_perm_others hteam _).flatMap_right Team.members

/-! ## Nobody holds a lock beside an exclusive use of it -/

section Exclusion

variable [DecidableEq R] {s s' : List (Team R)} {r : R}

theorem holders_perm {l : List (Thread R)} (h : (threads s).Perm l) (r : R) :
    (holders s r).Perm (l.flatMap fun t => t.modes r) := h.flatMap_right _

theorem exists_of_mem_holders {mode : Mode} (h : mode ∈ holders s r) :
    ∃ t ∈ threads s, (r, mode) ∈ t.held := by
  obtain ⟨t, ht, hmode⟩ := List.mem_flatMap.mp h
  obtain ⟨⟨r', mode'⟩, hheld, heq⟩ := List.mem_filterMap.mp hmode
  dsimp only at heq
  split_ifs at heq with hr
  obtain rfl := Option.some.inj heq
  exact ⟨t, ht, hr ▸ hheld⟩

theorem Thread.modes_of_held_eq_nil {t : Thread R} (h : t.held = []) (r : R) : t.modes r = [] := by
  rw [Thread.modes, h, List.filterMap_nil]

/-- As many as the lock has room for. -/
def Exclusion (capacity : R → Nat) (s : List (Team R)) : Prop :=
  ∀ r, .exclusive ∈ holders s r → (holders s r).length ≤ capacity r

variable {capacity : R → Nat}

/-- A step after which nothing is held that was not. -/
theorem Exclusion.mono (h : Exclusion capacity s) (hless : ∀ r, (holders s' r).Subperm (holders s r)) :
    Exclusion capacity s' :=
  fun r hin => (hless r).length_le.trans (h r ((hless r).subset hin))

/-- A thread takes a lock that it may take. -/
theorem Exclusion.acquire (h : Exclusion capacity s) {mode : Mode}
    (hfree : Compatible (capacity r) (holders s r) mode)
    (hheld : ∀ r', (holders s' r').Perm (if r = r' then mode :: holders s r' else holders s r')) :
    Exclusion capacity s' := by
  intro r' hin
  have hperm := hheld r'
  rw [hperm.mem_iff] at hin
  rw [hperm.length_eq]
  by_cases hr : r = r'
  · subst hr
    rw [if_pos rfl] at hin ⊢
    cases mode with
    | shared => exact absurd ((List.mem_cons.mp hin).resolve_left Mode.noConfusion) hfree
    | exclusive => exact hfree
  · rw [if_neg hr] at hin ⊢
    exact h r' hin

theorem exclusion_go (h : Exclusion capacity s) (P : Policy capacity) {k i : Nat} {team : Team R}
    {t t' : Thread R} (hteam : s[k]? = some team) (ht : team.members[i]? = some t)
    (hgo : t.go (P.grants s k i) = some t') :
    Exclusion capacity (s.set k (team.setThread i t')) := by
  obtain ⟨others, hbefore, hafter⟩ := threads_set hteam ht
  rw [Thread.go] at hgo
  split at hgo
  · cases hgo
  · next r mode rest htodo =>
    split_ifs at hgo with hgrant
    obtain rfl := Option.some.inj hgo
    -- the one more that holds `r` is this thread
    refine h.acquire (P.compatible s k i r mode hgrant) fun r' => ?_
    have hnow : Thread.modes ⟨(r, mode) :: t.held, rest⟩ r' =
        if r = r' then mode :: t.modes r' else t.modes r' := by
      rw [Thread.modes, List.filterMap_cons]
      split_ifs <;> rfl
    refine (holders_perm (hafter _) r').trans ?_
    rw [List.flatMap_cons, hnow]
    have hold := holders_perm hbefore r'
    rw [List.flatMap_cons] at hold
    split_ifs
    · exact (hold.cons mode).symm
    · exact hold.symm
  · next r mode rest htodo =>
    obtain rfl := Option.some.inj hgo
    -- a thread that gives back a lock holds less than before, the others the same
    refine h.mono fun r' => ?_
    have hless : (Thread.modes ⟨t.held.erase (r, mode), rest⟩ r').Sublist (t.modes r') :=
      List.erase_sublist.filterMap _
    refine (holders_perm (hafter _) r').subperm.trans (List.Subperm.trans ?_
      (holders_perm hbefore r').symm.subperm)
    rw [List.flatMap_cons, List.flatMap_cons]
    exact (hless.append_right _).subperm

/-- Neither the threads of a stage that is over nor those of a new one hold locks. -/
theorem exclusion_set_team (h : Exclusion capacity s) {k : Nat} {team team' : Team R}
    (hteam : s[k]? = some team) (hover : ∀ t ∈ team'.members, t.held = []) :
    Exclusion capacity (s.set k team') := by
  obtain ⟨others, hbefore, hafter⟩ := threads_set_team hteam team'
  refine h.mono fun r => ?_
  have hnone : (team'.members.flatMap fun t => t.modes r) = [] :=
    List.flatMap_eq_nil_iff.mpr fun t ht => Thread.modes_of_held_eq_nil (hover t ht) r
  refine (holders_perm hafter r).subperm.trans (List.Subperm.trans ?_
    (holders_perm hbefore r).symm.subperm)
  rw [List.flatMap_append, List.flatMap_append, hnone, List.nil_append]
  exact (List.sublist_append_right _ _).subperm

end Exclusion

/-! ## The highest lock that is waited for -/

section Highest

variable {L : Type} [LinearOrder L] {s : List (Team R)}

/-- The level of the lock that a thread waits for. -/
def Thread.waitLevel (level : R → WithBot L) (t : Thread R) : Option (WithBot L) :=
  match t.todo with
  | .acquire r _ :: _ => some (level r)
  | _ => none

/-- Of those that wait, one waits for a lock of the highest level. -/
theorem exists_highest (level : R → WithBot L) (hwaits : ∃ k i r mode, WaitsFor s k i r mode) :
    ∃ k i r mode, WaitsFor s k i r mode ∧
      ∀ k' i' r' mode', WaitsFor s k' i' r' mode' → level r' ≤ level r := by
  have hlevel : ∀ {k i r mode}, WaitsFor s k i r mode →
      level r ∈ ((Locks.threads s).filterMap (Thread.waitLevel level)).toFinset := by
    rintro k i r mode ⟨t, rest, hat, htodo⟩
    rw [List.mem_toFinset, List.mem_filterMap]
    refine ⟨t, mem_threads.mpr ⟨k, i, hat⟩, ?_⟩
    rw [Thread.waitLevel, htodo]
  obtain ⟨k, i, r, mode, hfirst⟩ := hwaits
  -- the levels that are waited for are finitely many, and at least this one
  obtain ⟨top, htop, hmax⟩ := Finset.exists_max_image _ id ⟨level r, hlevel hfirst⟩
  obtain ⟨t, ht, heq⟩ := List.mem_filterMap.mp (List.mem_toFinset.mp htop)
  obtain ⟨k', i', hat⟩ := mem_threads.mp ht
  rw [Thread.waitLevel] at heq
  split at heq
  · next r' mode' rest htodo =>
    obtain rfl := Option.some.inj heq
    exact ⟨k', i', r', mode', ⟨t, rest, hat, htodo⟩, fun _ _ _ _ h => hmax _ (hlevel h)⟩
  · cases heq

end Highest

/-! ## What is left to do -/

theorem work_set {s : List (Team R)} {k : Nat} {team team' : Team R} (hteam : s[k]? = some team)
    (hless : team'.work < team.work) : work (s.set k team') < work s := by
  rw [work, work, ((Slots.set_perm_others hteam team').map Team.work).sum_nat,
    ((Slots.perm_others hteam).map Team.work).sum_nat, List.map_cons, List.map_cons, List.sum_cons,
    List.sum_cons]
  omega

theorem Team.work_setThread {team : Team R} {i : Nat} {t t' : Thread R}
    (ht : team.members[i]? = some t) (hless : t'.todo.length < t.todo.length) :
    (team.setThread i t').work < team.work := by
  rw [Team.work, Team.work, Team.setThread]
  dsimp only
  rw [((Slots.set_perm_others ht t').map _).sum_nat, ((Slots.perm_others ht).map _).sum_nat,
    List.map_cons, List.map_cons, List.sum_cons, List.sum_cons]
  omega

theorem Team.work_next {team team' : Team R} (hnext : team.next = some team') :
    team'.work < team.work := by
  rw [Team.next] at hnext
  split_ifs at hnext
  cases hstages : team.later with
  | nil =>
    rw [hstages] at hnext
    cases hnext
  | cons stage later =>
    rw [hstages] at hnext
    obtain rfl := Option.some.inj hnext
    have hstage : ((stage.map Thread.start).map fun t : Thread R => t.todo.length).sum =
        (stage.map List.length).sum := by
      rw [List.map_map]
      rfl
    rw [Team.work, Team.work, hstages]
    dsimp only
    rw [hstage, List.map_cons, List.sum_cons]
    omega

/-! ## Runs -/

section Runs

variable {L : Type} [LinearOrder L] [DecidableEq R] {level : R → WithBot L} {capacity : R → Nat}
  {s s' : List (Team R)}

/-- Every thread keeps to the order of the locks. -/
structure Ok (level : R → WithBot L) (capacity : R → Nat) (s : List (Team R)) : Prop where
  threads : ∀ t ∈ threads s, t.Ok level
  later : ∀ team ∈ s, ∀ stage ∈ team.later, ∀ prog ∈ stage, Leads level [] prog []
  exclusion : Exclusion capacity s

theorem ok_nil (level : R → WithBot L) (capacity : R → Nat) : Ok level capacity [] where
  threads _ ht := absurd ht List.not_mem_nil
  later _ hteam := absurd hteam List.not_mem_nil
  exclusion _ hin := absurd hin List.not_mem_nil

/-- A new call. -/
theorem Ok.call (h : Ok level capacity s) {stages : List (List (List (Instr R)))}
    (hstages : ∀ stage ∈ stages, ∀ prog ∈ stage, Leads level [] prog []) :
    Ok level capacity (s ++ [⟨[], stages⟩]) := by
  have hsame : Locks.threads (s ++ [⟨[], stages⟩]) = Locks.threads s := by
    rw [Locks.threads, List.flatMap_append, List.flatMap_singleton, List.append_nil]
    rfl
  refine ⟨hsame ▸ h.threads, fun team hteam => ?_, h.exclusion.mono fun r => ?_⟩
  · rcases List.mem_append.mp hteam with hteam | hteam
    · exact h.later team hteam
    · exact List.mem_singleton.mp hteam ▸ hstages
  · rw [holders, hsame]
    exact List.Subperm.refl _

theorem Ok.go (h : Ok level capacity s) (P : Policy capacity) {k i : Nat} {team : Team R}
    {t t' : Thread R} (hteam : s[k]? = some team) (ht : team.members[i]? = some t)
    (hgo : t.go (P.grants s k i) = some t') :
    Ok level capacity (s.set k (team.setThread i t')) := by
  obtain ⟨others, hbefore, hafter⟩ := threads_set hteam ht
  have hold : ∀ x ∈ t :: others, x.Ok level := fun x hx => h.threads x (hbefore.mem_iff.mpr hx)
  refine ⟨fun x hx => ?_, ?_, exclusion_go h.exclusion P hteam ht hgo⟩
  · rcases List.mem_cons.mp ((hafter t').mem_iff.mp hx) with rfl | hx
    · exact (hold t List.mem_cons_self).go hgo
    · exact hold x (List.mem_cons_of_mem t hx)
  · exact Slots.forall_mem_set h.later (h.later team (List.mem_of_getElem? hteam))

theorem Ok.next (h : Ok level capacity s) {k : Nat} {team team' : Team R}
    (hteam : s[k]? = some team) (hnext : team.next = some team') :
    Ok level capacity (s.set k team') := by
  have hlater := h.later team (List.mem_of_getElem? hteam)
  rw [Team.next] at hnext
  split_ifs at hnext
  cases hstages : team.later with
  | nil =>
    rw [hstages] at hnext
    cases hnext
  | cons stage later =>
    rw [hstages] at hnext hlater
    obtain rfl := Option.some.inj hnext
    obtain ⟨others, hbefore, hafter⟩ := threads_set_team hteam ⟨stage.map Thread.start, later⟩
    refine ⟨fun x hx => ?_, ?_, exclusion_set_team h.exclusion hteam fun x hx => ?_⟩
    -- the threads of the new stage start with nothing held
    · rcases List.mem_append.mp (hafter.mem_iff.mp hx) with hx | hx
      · obtain ⟨prog, hprog, rfl⟩ := List.mem_map.mp hx
        exact .start (hlater stage List.mem_cons_self prog hprog)
      · exact h.threads x (hbefore.mem_iff.mpr (List.mem_append_right _ hx))
    · exact Slots.forall_mem_set h.later fun st hst => hlater st (List.mem_cons_of_mem stage hst)
    · obtain ⟨prog, -, rfl⟩ := List.mem_map.mp hx
      rfl

variable {C : Type} {program : C → List (List (List (Instr R)))} {P : Policy capacity}

theorem Ok.step (hprogram : ∀ c, ∀ stage ∈ program c, ∀ prog ∈ stage, Leads level [] prog [])
    (h : Ok level capacity s) {a : Action C} (hstep : step program P s a = some s') :
    Ok level capacity s' := by
  cases a with
  | call c => exact Option.some.inj hstep ▸ h.call (hprogram c)
  | go k i =>
    obtain ⟨team, hteam, hrest⟩ := Option.bind_eq_some_iff.mp hstep
    obtain ⟨t, ht, hrest⟩ := Option.bind_eq_some_iff.mp hrest
    obtain ⟨t', hgo, rfl⟩ := Option.map_eq_some_iff.mp hrest
    exact h.go P hteam ht hgo
  | next k =>
    obtain ⟨team, hteam, hrest⟩ := Option.bind_eq_some_iff.mp hstep
    obtain ⟨team', hnext, rfl⟩ := Option.map_eq_some_iff.mp hrest
    exact h.next hteam hnext

/-! ### No deadlock -/

theorem exists_step_of_release (program : C → List (List (List (Instr R)))) (P : Policy capacity)
    {k i : Nat} {t : Thread R} {r : R} {mode : Mode}
    {rest : List (Instr R)} (hat : threadAt s k i = some t)
    (htodo : t.todo = .release r mode :: rest) :
    ∃ s', Locks.step program P s (.go k i) = some s' := by
  obtain ⟨team, hteam, ht⟩ := threadAt_eq_some.mp hat
  refine ⟨s.set k (team.setThread i ⟨t.held.erase (r, mode), rest⟩), ?_⟩
  rw [Locks.step, hteam, Option.bind_some, ht, Option.bind_some, Thread.go, htodo]
  rfl

theorem exists_step_of_grants (program : C → List (List (List (Instr R)))) {k i : Nat} {r : R}
    {mode : Mode} (hwaits : WaitsFor s k i r mode)
    (hgrants : P.grants s k i r mode = true) :
    ∃ s', Locks.step program P s (.go k i) = some s' := by
  obtain ⟨t, rest, hat, htodo⟩ := hwaits
  obtain ⟨team, hteam, ht⟩ := threadAt_eq_some.mp hat
  refine ⟨s.set k (team.setThread i ⟨(r, mode) :: t.held, rest⟩), ?_⟩
  rw [Locks.step, hteam, Option.bind_some, ht, Option.bind_some, Thread.go, htodo]
  dsimp only
  rw [if_pos hgrants]
  rfl

/-- A lock of the level `⊥` is to be had for whoever waits for it. -/
theorem Ok.grants_bottom (h : Ok level capacity s) (P : Policy capacity) {k i : Nat} {r : R}
    {mode : Mode} (hwaits : WaitsFor s k i r mode) (hbottom : level r = ⊥) :
    P.grants s k i r mode = true := by
  have hall : ∀ k' i' mode', WaitsFor s k' i' r mode' → mode' = .shared := by
    rintro k' i' mode' ⟨t, rest, hat, htodo⟩
    exact ((h.threads t (mem_threads.mpr ⟨k', i', hat⟩)).acquire htodo).1 hbottom
  obtain rfl := hall k i mode hwaits
  refine P.shared_alone s k i r hwaits (fun hin => ?_) fun k' i' hwaits' => ?_
  · obtain ⟨t, ht, hheld⟩ := exists_of_mem_holders hin
    exact Mode.noConfusion ((h.threads t ht).shared _ hheld hbottom)
  · exact Mode.noConfusion (hall k' i' .exclusive hwaits')

/-- Nobody has the highest lock that is waited for: who had it would wait for one
    above it. -/
theorem Ok.holders_eq_nil (h : Ok level capacity s)
    (hrelease : ∀ k i t r mode rest, threadAt s k i = some t →
      t.todo ≠ .release r mode :: rest)
    (hbottom : ∀ k i r mode, WaitsFor s k i r mode → level r ≠ ⊥) {r : R}
    (hmax : ∀ k i r' mode, WaitsFor s k i r' mode → level r' ≤ level r) : holders s r = [] := by
  refine List.eq_nil_iff_forall_not_mem.mpr fun mode hin => ?_
  obtain ⟨t, ht, hheld⟩ := exists_of_mem_holders hin
  obtain ⟨k, i, hat⟩ := mem_threads.mp ht
  cases htodo : t.todo with
  | nil =>
    rw [(h.threads t ht).held_eq_nil htodo] at hheld
    cases hheld
  | cons instr rest =>
    cases instr with
    | release r' mode' => exact hrelease k i t r' mode' rest hat htodo
    | acquire r' mode' =>
      have hwaits : WaitsFor s k i r' mode' := ⟨t, rest, hat, htodo⟩
      have habove := ((h.threads t ht).acquire htodo).2.1 (hbottom k i r' mode' hwaits) _ hheld
      exact absurd (hmax k i r' mode' hwaits) (not_le.mpr habove)

/-- All threads have come to their ends, and some call has a stage left. -/
theorem exists_step_of_done (program : C → List (List (List (Instr R)))) (P : Policy capacity)
    (hdone : ∀ t ∈ Locks.threads s, t.todo = []) (hbusy : ¬ Finished s) :
    ∃ k s', Locks.step program P s (.next k) = some s' := by
  have hmembers : ∀ team ∈ s, ∀ t ∈ team.members, t.todo = [] := fun team hteam t ht =>
    hdone t (List.mem_flatMap.mpr ⟨team, hteam, ht⟩)
  obtain ⟨team, hteam, hlater⟩ : ∃ team ∈ s, team.later ≠ [] := by
    by_contra hnone
    refine hbusy fun team hteam => ⟨?_, hmembers team hteam⟩
    by_contra hlater
    exact hnone ⟨team, hteam, hlater⟩
  obtain ⟨stage, later, hstages⟩ := List.exists_cons_of_ne_nil hlater
  obtain ⟨k, hk⟩ := List.mem_iff_getElem?.mp hteam
  refine ⟨k, s.set k ⟨stage.map Thread.start, later⟩, ?_⟩
  have hall : (team.members.all fun t => t.todo.isEmpty) = true :=
    List.all_eq_true.mpr fun t ht => List.isEmpty_iff.mpr (hmembers team hteam t ht)
  rw [Locks.step, hk, Option.bind_some, Team.next, if_pos hall, hstages]
  rfl

/-- As long as there is something left to do, someone can go on. -/
theorem Ok.exists_step (h : Ok level capacity s) (hbusy : ¬ Finished s) :
    ∃ a s', a.Internal ∧ Locks.step program P s a = some s' := by
  -- a release never waits, nor does who wants a lock outside of the order
  by_cases hrelease : ∃ k i t r mode rest, threadAt s k i = some t ∧
      t.todo = .release r mode :: rest
  · obtain ⟨k, i, t, r, mode, rest, hat, htodo⟩ := hrelease
    obtain ⟨s', hstep⟩ := exists_step_of_release program P hat htodo
    exact ⟨.go k i, s', trivial, hstep⟩
  by_cases hbottom : ∃ k i r mode, WaitsFor s k i r mode ∧ level r = ⊥
  · obtain ⟨k, i, r, mode, hwaits, hlevel⟩ := hbottom
    obtain ⟨s', hstep⟩ :=
      exists_step_of_grants program hwaits (h.grants_bottom P hwaits hlevel)
    exact ⟨.go k i, s', trivial, hstep⟩
  by_cases hwait : ∃ k i r mode, WaitsFor s k i r mode
  · obtain ⟨k, i, r, mode, hwaits, hmax⟩ := exists_highest level hwait
    have hfree : holders s r = [] := h.holders_eq_nil
      (fun k i t r mode rest hat htodo => hrelease ⟨k, i, t, r, mode, rest, hat, htodo⟩)
      (fun k i r mode hwaits hlevel => hbottom ⟨k, i, r, mode, hwaits, hlevel⟩) hmax
    obtain ⟨k', i', mode', hwaits', hgrants⟩ := P.some_waiter s k i r mode hwaits hfree
    obtain ⟨s', hstep⟩ := exists_step_of_grants program hwaits' hgrants
    exact ⟨.go k' i', s', trivial, hstep⟩
  -- with nobody at a lock, the threads are all at their ends
  have hdone : ∀ t ∈ Locks.threads s, t.todo = [] := by
    intro t ht
    obtain ⟨k, i, hat⟩ := mem_threads.mp ht
    cases htodo : t.todo with
    | nil => rfl
    | cons instr rest =>
      cases instr with
      | acquire r mode => exact absurd ⟨k, i, r, mode, t, rest, hat, htodo⟩ hwait
      | release r mode => exact absurd ⟨k, i, t, r, mode, rest, hat, htodo⟩ hrelease
  obtain ⟨k, s', hstep⟩ := exists_step_of_done program P hdone hbusy
  exact ⟨.next k, s', trivial, hstep⟩

/-- Each step of a call that is under way leaves less to do. -/
theorem work_lt {a : Action C} (ha : a.Internal) (hstep : Locks.step program P s a = some s') :
    work s' < work s := by
  cases a with
  | call c => exact ha.elim
  | go k i =>
    obtain ⟨team, hteam, hrest⟩ := Option.bind_eq_some_iff.mp hstep
    obtain ⟨t, ht, hrest⟩ := Option.bind_eq_some_iff.mp hrest
    obtain ⟨t', hgo, rfl⟩ := Option.map_eq_some_iff.mp hrest
    refine work_set hteam (Team.work_setThread ht ?_)
    rw [Thread.go] at hgo
    split at hgo
    · cases hgo
    · next r mode rest htodo =>
      split_ifs at hgo
      obtain rfl := Option.some.inj hgo
      rw [htodo]
      exact Nat.lt_succ_self _
    · next r mode rest htodo =>
      obtain rfl := Option.some.inj hgo
      rw [htodo]
      exact Nat.lt_succ_self _
  | next k =>
    obtain ⟨team, hteam, hrest⟩ := Option.bind_eq_some_iff.mp hstep
    obtain ⟨team', hnext, rfl⟩ := Option.map_eq_some_iff.mp hrest
    exact work_set hteam (Team.work_next hnext)

/-- Calls that keep to an order of the locks: at all times of every run nobody holds
    a lock beside an exclusive use of it, someone can go on as long as there is a
    call under way, and after at most `work` steps there is none. -/
theorem ordered_always
    (hprogram : ∀ c, ∀ stage ∈ program c, ∀ prog ∈ stage, Leads level [] prog [])
    (P : Policy capacity) (actions : List (Action C)) :
    Traces.Always (Locks.step program P) (fun s => Exclusion capacity s ∧
      (¬ Finished s → ∃ a t, a.Internal ∧ Locks.step program P s a = some t) ∧
      ∀ rest t, (∀ a ∈ rest, a.Internal) → Traces.run (Locks.step program P) s rest = some t →
        rest.length + work t ≤ work s) [] actions := by
  have hok : Traces.Always (Locks.step program P) (Ok level capacity) [] actions :=
    Traces.always_of_along (P := fun _ _ => True)
      (fun _ _ _ h _ hstep => h.step hprogram hstep) (ok_nil level capacity)
      (Traces.along_true _ actions)
  refine hok.mono fun s h => ⟨h.exclusion, h.exists_step, fun rest t hrest hrun => ?_⟩
  exact Traces.run_length_le (I := fun _ => True) (fun _ _ _ _ _ => trivial)
    (fun _ _ _ _ ha hstep => work_lt ha hstep) trivial hrest hrun

end Runs

end Locks
