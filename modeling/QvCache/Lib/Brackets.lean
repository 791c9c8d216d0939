/-
  QvCache.Lib.Brackets

  Programs that acquire and release a resource by hand.  A program is the trace
  of what it did with the resource and how it ended: with a value, an exception,
  or a crash that no handler sees (`Traced`).

    * `depth` runs a trace: how often the resource is held, `none` once it is
      touched or released without being held;
    * `Balanced` says that a trace ends with every acquisition released;
    * `Holds p thrown` is the contract of a program that runs while the resource
      is held once: it still holds it at the end, and where it throws the depth
      meets `thrown`.

  `balanced_bracket` and `balanced_handover` settle the two ways to put a
  program between an acquisition and a handler that releases.
-/

import Mathlib.Data.List.Basic

namespace Brackets

/-! ## Traced programs -/

inductive Outcome (ε α : Type) where
  | value (a : α)
  | threw (error : ε)
  | crashed

/-- What an event does with the resource. -/
inductive Mark (κ : Type) where
  | acquire
  | release
  | touch (k : κ)
deriving DecidableEq

structure Traced (κ ε α : Type) where
  events : List (Mark κ)
  outcome : Outcome ε α

namespace Traced

variable {κ ε α β : Type}

def bind (p : Traced κ ε α) (f : α → Traced κ ε β) : Traced κ ε β :=
  match p.outcome with
  | .value a => ⟨p.events ++ (f a).events, (f a).outcome⟩
  | .threw error => ⟨p.events, .threw error⟩
  | .crashed => ⟨p.events, .crashed⟩

instance : Monad (Traced κ ε) where
  pure a := ⟨[], .value a⟩
  bind := Traced.bind

/-- `catch (...)`: a crash passes it by. -/
def tryCatch (p : Traced κ ε α) (handler : ε → Traced κ ε α) : Traced κ ε α :=
  match p.outcome with
  | .threw error => ⟨p.events ++ (handler error).events, (handler error).outcome⟩
  | _ => p

instance : MonadExcept ε (Traced κ ε) where
  throw error := ⟨[], .threw error⟩
  tryCatch := Traced.tryCatch

def emit (mark : Mark κ) : Traced κ ε Unit := ⟨[mark], .value ()⟩

def acquire : Traced κ ε Unit := emit .acquire

def release : Traced κ ε Unit := emit .release

def touch (k : κ) : Traced κ ε Unit := emit (.touch k)

def crash : Traced κ ε α := ⟨[], .crashed⟩

/-- Release, then throw what was caught. -/
def releasing (p : Traced κ ε α) : Traced κ ε α :=
  p.tryCatch fun error => do
    release
    throw error

end Traced

/-! ## Depth -/

section

variable {κ : Type}

/-- One event at depth `d`. -/
def next (d : Nat) : Mark κ → Option Nat
  | .acquire => some (d + 1)
  | .release => if 0 < d then some (d - 1) else none
  | .touch _ => if 0 < d then some d else none

def depth (d : Nat) : List (Mark κ) → Option Nat
  | [] => some d
  | mark :: rest => (next d mark).bind fun d' => depth d' rest

/-- Every acquisition is released once, and the resource is not touched after
    that. -/
def Balanced (events : List (Mark κ)) : Prop := depth 0 events = some 0

instance (events : List (Mark κ)) : Decidable (Balanced events) :=
  inferInstanceAs (Decidable (_ = _))

theorem depth_append (d : Nat) (xs ys : List (Mark κ)) :
    depth d (xs ++ ys) = (depth d xs).bind fun d' => depth d' ys := by
  induction xs generalizing d with
  | nil => rfl
  | cons mark rest ih =>
    rw [List.cons_append, depth, depth]
    cases next d mark with
    | none => rfl
    | some d' => exact ih d'

end

/-! ## The contract -/

open Traced

variable {κ ε α β : Type}

/-- Held once before, held once after; and `thrown` of the depth at an
    exception. -/
def Holds (p : Traced κ ε α) (thrown : Option Nat → Prop) : Prop :=
  match p.outcome with
  | .threw _ => thrown (depth 1 p.events)
  | _ => depth 1 p.events = some 1

theorem holds_pure (a : α) (thrown : Option Nat → Prop) :
    Holds (pure a : Traced κ ε α) thrown := rfl

theorem holds_touch (k : κ) (thrown : Option Nat → Prop) :
    Holds (touch k : Traced κ ε Unit) thrown := rfl

theorem holds_crash (thrown : Option Nat → Prop) : Holds (crash : Traced κ ε α) thrown := rfl

theorem Holds.bind {p : Traced κ ε α} {f : α → Traced κ ε β} {thrown : Option Nat → Prop}
    (hp : Holds p thrown) (hf : ∀ a, Holds (f a) thrown) : Holds (p >>= f) thrown := by
  obtain ⟨events, outcome⟩ := p
  cases outcome with
  | value a =>
    have hafter : depth 1 (events ++ (f a).events) = depth 1 (f a).events := by
      rw [depth_append, show depth 1 events = some 1 from hp, Option.bind_some]
    have hfa := hf a
    unfold Holds at hfa ⊢
    show match (f a).outcome with
      | .threw _ => thrown (depth 1 (events ++ (f a).events))
      | _ => depth 1 (events ++ (f a).events) = some 1
    rwa [hafter]
  | threw error => exact hp
  | crashed => exact hp

/-! ## Endings -/

theorem returns_bind {p : Traced κ ε α} {f : α → Traced κ ε β} {b : β} :
    (p >>= f).outcome = .value b ↔ ∃ a, p.outcome = .value a ∧ (f a).outcome = .value b := by
  obtain ⟨events, outcome⟩ := p
  cases outcome with
  | value a =>
    constructor
    · exact fun h => ⟨a, rfl, h⟩
    · rintro ⟨a', ha, h⟩
      obtain rfl := Outcome.value.inj ha
      exact h
  | threw error => exact iff_of_false (fun h => nomatch h) fun ⟨a, ha, _⟩ => nomatch ha
  | crashed => exact iff_of_false (fun h => nomatch h) fun ⟨a, ha, _⟩ => nomatch ha

/-- The program does not crash. -/
def Survives (p : Traced κ ε α) : Prop := p.outcome ≠ .crashed

theorem survives_pure (a : α) : Survives (pure a : Traced κ ε α) := fun h => nomatch h

theorem survives_touch (k : κ) : Survives (touch k : Traced κ ε Unit) := fun h => nomatch h

theorem survives_throw (error : ε) : Survives (throw error : Traced κ ε α) := fun h => nomatch h

theorem survives_bind_iff {p : Traced κ ε α} {f : α → Traced κ ε β} :
    Survives (p >>= f) ↔ Survives p ∧ ∀ a, p.outcome = .value a → Survives (f a) := by
  obtain ⟨events, outcome⟩ := p
  cases outcome with
  | value a =>
    constructor
    · intro h
      refine ⟨fun h => (nomatch h), fun a' ha => ?_⟩
      obtain rfl := Outcome.value.inj ha
      exact h
    · exact fun h => h.2 a rfl
  | threw error =>
    exact iff_of_true (fun h => nomatch h) ⟨fun h => (nomatch h), fun a ha => nomatch ha⟩
  | crashed => exact iff_of_false (fun h => h rfl) fun h => h.1 rfl

theorem Survives.bind {p : Traced κ ε α} {f : α → Traced κ ε β} (hp : Survives p)
    (hf : ∀ a, Survives (f a)) : Survives (p >>= f) :=
  survives_bind_iff.mpr ⟨hp, fun a _ => hf a⟩

/-! ## Between an acquisition and a handler -/

/-- A trace from the acquisition on. -/
theorem depth_acquire (events : List (Mark κ)) :
    depth 0 (.acquire :: events) = depth 1 events := rfl

theorem depth_release {events rest : List (Mark κ)} (h : depth 1 events = some 1) :
    depth 1 (events ++ .release :: rest) = depth 0 rest := by
  rw [depth_append, h]
  rfl

theorem depth_released {d : Nat} : depth d [(.release : Mark κ)] = some 0 ↔ d = 1 := by
  cases d with
  | zero => exact iff_of_false (fun heq => nomatch heq) Nat.zero_ne_one
  | succ d =>
    show some d = some 0 ↔ d + 1 = 1
    rw [Option.some_inj, Nat.add_eq_right]

/-- The handler releases, and so does the code after it: balanced unless the
    program crashes. -/
theorem balanced_bracket {p : Traced κ ε α} (h : Holds p (· = some 1)) :
    Balanced (do
      acquire
      let a ← p.releasing
      release
      pure a : Traced κ ε α).events ↔ p.outcome ≠ .crashed := by
  obtain ⟨events, outcome⟩ := p
  cases outcome with
  | value a =>
    refine iff_of_true ?_ (fun heq => nomatch heq)
    show depth 0 (.acquire :: (events ++ [.release])) = some 0
    rw [depth_acquire, depth_release h]
    rfl
  | threw error =>
    refine iff_of_true ?_ (fun heq => nomatch heq)
    show depth 0 (.acquire :: (events ++ [.release])) = some 0
    rw [depth_acquire, depth_release h]
    rfl
  | crashed =>
    refine iff_of_false ?_ fun hne => hne rfl
    show ¬ depth 0 (.acquire :: events) = some 0
    rw [depth_acquire, show depth 1 events = some 1 from h]
    exact fun heq => absurd (Option.some.inj heq) Nat.one_ne_zero

/-- The program is followed by a release inside the handler's reach, and
    exceptions leave it with the resource already released: balanced only if it
    returns. -/
theorem balanced_handover {p : Traced κ ε α} (h : Holds p (· ≠ some 1)) :
    Balanced (do
      acquire
      releasing (do
        let a ← p
        release
        pure a) : Traced κ ε α).events ↔ ∃ a, p.outcome = .value a := by
  obtain ⟨events, outcome⟩ := p
  cases outcome with
  | value a =>
    refine iff_of_true ?_ ⟨a, rfl⟩
    show depth 0 (.acquire :: (events ++ [.release])) = some 0
    rw [depth_acquire, depth_release h]
    rfl
  | threw error =>
    -- the handler's release is one too many
    refine iff_of_false ?_ fun ⟨a, ha⟩ => nomatch ha
    show ¬ depth 0 (.acquire :: (events ++ [.release])) = some 0
    rw [depth_acquire, depth_append]
    cases hdepth : depth 1 events with
    | none => exact fun heq => nomatch heq
    | some d => exact fun heq => h (depth_released.mp heq ▸ hdepth)
  | crashed =>
    refine iff_of_false ?_ fun ⟨a, ha⟩ => nomatch ha
    show ¬ depth 0 (.acquire :: events) = some 0
    rw [depth_acquire, show depth 1 events = some 1 from h]
    exact fun heq => absurd (Option.some.inj heq) Nat.one_ne_zero

end Brackets
