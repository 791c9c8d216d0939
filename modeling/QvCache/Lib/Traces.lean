/-
  QvCache.Lib.Traces

  Runs of a labelled transition system given by a partial step function.  A
  label carries every choice the environment makes, so `step s l` is the one
  successor of `s` under `l`, or `none` where `l` is not enabled.

    * `run` executes a list of labels;
    * `Along P` says that every step taken meets a condition `P` on the state
      before the step and the label;
    * `Always I` says that `I` holds in every state a run passes through.

  The induction over a run is done here once: `run_invariant` for invariants
  that every step keeps, `run_invariant_along` for invariants that only the
  steps meeting `P` keep, and `always_iff_along` where `P` is exactly the
  condition under which a step keeps the invariant.
-/

import Mathlib.Data.List.Basic

namespace Traces

variable {σ ℓ : Type*} (step : σ → ℓ → Option σ)

/-- Execute the labels in order; `none` as soon as one is not enabled. -/
def run (s : σ) : List ℓ → Option σ
  | [] => some s
  | l :: ls => (step s l).bind fun s' => run s' ls

/-- Every step of the run meets `P`. -/
def Along (P : σ → ℓ → Prop) (s : σ) : List ℓ → Prop
  | [] => True
  | l :: ls => P s l ∧ ∀ s', step s l = some s' → Along P s' ls

/-- `I` holds in every state the run passes through. -/
def Always (I : σ → Prop) (s : σ) : List ℓ → Prop
  | [] => I s
  | l :: ls => I s ∧ ∀ s', step s l = some s' → Always I s' ls

/-- `t` is the end of some run from `s`. -/
def Reachable (s t : σ) : Prop := ∃ ls, run step s ls = some t

variable {step}

instance decidableAlong {P : σ → ℓ → Prop} [∀ s l, Decidable (P s l)] :
    ∀ (s : σ) (ls : List ℓ), Decidable (Along step P s ls)
  | _, [] => isTrue trivial
  | s, l :: ls =>
    match h : step s l with
    | none => decidable_of_iff (P s l) (by simp [Along, h])
    | some s' =>
      have : Decidable (Along step P s' ls) := decidableAlong s' ls
      decidable_of_iff (P s l ∧ Along step P s' ls) (by simp [Along, h])

instance decidableAlways {I : σ → Prop} [∀ s, Decidable (I s)] :
    ∀ (s : σ) (ls : List ℓ), Decidable (Always step I s ls)
  | s, [] => inferInstanceAs (Decidable (I s))
  | s, l :: ls =>
    match h : step s l with
    | none => decidable_of_iff (I s) (by simp [Always, h])
    | some s' =>
      have : Decidable (Always step I s' ls) := decidableAlways s' ls
      decidable_of_iff (I s ∧ Always step I s' ls) (by simp [Always, h])

@[simp] theorem run_nil (s : σ) : run step s ([] : List ℓ) = some s := rfl

theorem run_cons {s t : σ} {l : ℓ} {ls : List ℓ} :
    run step s (l :: ls) = some t ↔ ∃ u, step s l = some u ∧ run step u ls = some t := by
  simp only [run, Option.bind_eq_some_iff]

theorem run_append {s t : σ} {ls₁ ls₂ : List ℓ} :
    run step s (ls₁ ++ ls₂) = some t ↔
      ∃ u, run step s ls₁ = some u ∧ run step u ls₂ = some t := by
  induction ls₁ generalizing s with
  | nil => simp
  | cons l rest ih =>
    simp only [List.cons_append, run_cons, ih]
    constructor
    · rintro ⟨u, hu, v, hv, ht⟩
      exact ⟨v, ⟨u, hu, hv⟩, ht⟩
    · rintro ⟨v, ⟨u, hu, hv⟩, ht⟩
      exact ⟨u, hu, v, hv, ht⟩

theorem run_singleton {s t : σ} {l : ℓ} : run step s [l] = some t ↔ step s l = some t := by
  simp [run]

/-- A run that was executed and whose end was tested. -/
theorem exists_run {s : σ} {ls : List ℓ} {p : σ → Bool} (h : (run step s ls).any p = true) :
    ∃ t, run step s ls = some t ∧ p t = true := by
  simpa [Option.any_eq_true] using h

theorem Reachable.refl (s : σ) : Reachable step s s := ⟨[], rfl⟩

theorem Reachable.trans {s t u : σ} (h : Reachable step s t) (h' : Reachable step t u) :
    Reachable step s u := by
  obtain ⟨ls, hrun⟩ := h
  obtain ⟨ls', hrun'⟩ := h'
  exact ⟨ls ++ ls', run_append.mpr ⟨t, hrun, hrun'⟩⟩

theorem Reachable.of_step {s t : σ} {l : ℓ} (h : step s l = some t) : Reachable step s t :=
  ⟨[l], run_singleton.mpr h⟩

/-! ## What a run puts out -/

/-- What the steps of a run put out, in order. -/
def outputs {ω : Type*} (step : σ → ℓ → Option σ) (out : σ → ℓ → List ω) (s : σ) : List ℓ → List ω
  | [] => []
  | l :: ls => out s l ++ ((step s l).map fun s' => outputs step out s' ls).getD []

/-- A part of the state that every step folds its output into. -/
theorem run_foldl {ω τ : Type*} (out : σ → ℓ → List ω) (part : σ → τ) (f : τ → ω → τ)
    {I : σ → Prop} (hinv : ∀ s l s', I s → step s l = some s' → I s')
    (hstep : ∀ s l s', I s → step s l = some s' → part s' = (out s l).foldl f (part s))
    {s t : σ} {ls : List ℓ} (hs : I s) (hrun : run step s ls = some t) :
    part t = (outputs step out s ls).foldl f (part s) := by
  induction ls generalizing s with
  | nil =>
    obtain rfl := Option.some.inj hrun
    rfl
  | cons l rest ih =>
    obtain ⟨u, hu, hrest⟩ := run_cons.mp hrun
    rw [outputs, hu, Option.map_some, Option.getD_some, List.foldl_append, ← hstep s l u hs hu]
    exact ih (hinv s l u hs hu) hrest

/-- Some run leads from `s` to `t` and puts out `o`. -/
def Puts {ω : Type*} (step : σ → ℓ → Option σ) (out : σ → ℓ → List ω) (s : σ) (o : List ω) (t : σ) :
    Prop :=
  ∃ ls, run step s ls = some t ∧ outputs step out s ls = o

theorem Puts.refl {ω : Type*} (step : σ → ℓ → Option σ) (out : σ → ℓ → List ω) (s : σ) :
    Puts step out s [] s := ⟨[], rfl, rfl⟩

theorem Puts.cons {ω : Type*} {out : σ → ℓ → List ω} {s t u : σ} {l : ℓ} {o : List ω}
    (hstep : step s l = some t) (h : Puts step out t o u) : Puts step out s (out s l ++ o) u := by
  obtain ⟨ls, hrun, hout⟩ := h
  refine ⟨l :: ls, run_cons.mpr ⟨t, hstep, hrun⟩, ?_⟩
  rw [outputs, hstep, Option.map_some, Option.getD_some, hout]

theorem Puts.of_step {ω : Type*} {out : σ → ℓ → List ω} {s t : σ} {l : ℓ} {o : List ω}
    (hstep : step s l = some t) (hout : out s l = o) : Puts step out s o t := by
  have h := Puts.cons hstep (Puts.refl step out t)
  rwa [List.append_nil, hout] at h

theorem Puts.trans {ω : Type*} {out : σ → ℓ → List ω} {s t u : σ} {o o' : List ω}
    (h : Puts step out s o t) (h' : Puts step out t o' u) : Puts step out s (o ++ o') u := by
  obtain ⟨ls, hrun, rfl⟩ := h
  induction ls generalizing s with
  | nil =>
    obtain rfl := Option.some.inj hrun
    exact h'
  | cons l rest ih =>
    obtain ⟨s', hs', hrest⟩ := run_cons.mp hrun
    rw [outputs, hs', Option.map_some, Option.getD_some, List.append_assoc]
    exact Puts.cons hs' (ih hrest)

theorem Puts.invariant {ω : Type*} {out : σ → ℓ → List ω} {I : σ → Prop}
    (hstep : ∀ s l s', I s → step s l = some s' → I s') {s t : σ} {o : List ω} (hs : I s)
    (h : Puts step out s o t) : I t := by
  obtain ⟨ls, hrun, -⟩ := h
  induction ls generalizing s with
  | nil =>
    obtain rfl := Option.some.inj hrun
    exact hs
  | cons l rest ih =>
    obtain ⟨s', hs', hrest⟩ := run_cons.mp hrun
    exact ih (hstep s l s' hs hs') hrest

/-! ## Simulation -/

/-- Two systems with the same labels whose steps stay related: so do their runs,
    each gets stuck where the other does, and they put out the same. -/
theorem run_simulates {τ ω : Type*} {step' : τ → ℓ → Option τ} {out : σ → ℓ → List ω}
    {out' : τ → ℓ → List ω} {R : σ → τ → Prop}
    (hstep : ∀ s t l, R s t → Option.Rel R (step s l) (step' t l))
    (hout : ∀ s t l, R s t → out s l = out' t l) {s : σ} {t : τ} (h : R s t) (ls : List ℓ) :
    Option.Rel R (run step s ls) (run step' t ls) ∧
      outputs step out s ls = outputs step' out' t ls := by
  induction ls generalizing s t with
  | nil => exact ⟨.some h, rfl⟩
  | cons l rest ih =>
    rw [run, run, outputs, outputs, hout s t l h]
    have hrel := hstep s t l h
    generalize step s l = next at hrel ⊢
    generalize step' t l = next' at hrel ⊢
    cases hrel with
    | none => exact ⟨.none, rfl⟩
    | some hnext =>
      obtain ⟨hrun, hsame⟩ := ih hnext
      rw [Option.map_some, Option.map_some, hsame]
      exact ⟨hrun, rfl⟩

/-- A system that can follow every step of another one that meets `P`, and puts out
    the same, follows its runs. -/
theorem run_follows {τ ω : Type*} {step' : τ → ℓ → Option τ} (out : σ → ℓ → List ω)
    (out' : τ → ℓ → List ω) {R : σ → τ → Prop} {P : σ → ℓ → Prop}
    (hstep : ∀ s t l s', R s t → P s l → step s l = some s' →
      ∃ t', step' t l = some t' ∧ R s' t')
    (hout : ∀ s t l s', R s t → step s l = some s' → out s l = out' t l)
    {s u : σ} {t : τ} {ls : List ℓ} (h : R s t) (halong : Along step P s ls)
    (hrun : run step s ls = some u) :
    ∃ v, run step' t ls = some v ∧ R u v ∧ outputs step out s ls = outputs step' out' t ls := by
  induction ls generalizing s t with
  | nil =>
    obtain rfl := Option.some.inj hrun
    exact ⟨t, rfl, h, rfl⟩
  | cons l rest ih =>
    obtain ⟨s', hs', hrest⟩ := run_cons.mp hrun
    obtain ⟨t', ht', hnext⟩ := hstep s t l s' h halong.1 hs'
    obtain ⟨v, hv, hend, hsame⟩ := ih hnext (halong.2 s' hs') hrest
    refine ⟨v, run_cons.mpr ⟨t', ht', hv⟩, hend, ?_⟩
    rw [outputs, outputs, hs', ht', hout s t l s' h hs', Option.map_some, Option.map_some, hsame]

/-- What is related, or stuck on both sides, may be related more weakly. -/
theorem rel_mono {τ : Type*} {R R' : σ → τ → Prop} (h : ∀ s t, R s t → R' s t) {x : Option σ}
    {y : Option τ} (hrel : Option.Rel R x y) : Option.Rel R' x y := by
  cases hrel with
  | none => exact .none
  | some hst => exact .some (h _ _ hst)

/-! ## Invariants -/

/-- An invariant kept by every step holds at the end of every run. -/
theorem run_invariant {I : σ → Prop}
    (hstep : ∀ s l s', I s → step s l = some s' → I s') {s t : σ} {ls : List ℓ}
    (hs : I s) (hrun : run step s ls = some t) : I t := by
  induction ls generalizing s with
  | nil =>
    obtain rfl := Option.some.inj hrun
    exact hs
  | cons l rest ih =>
    obtain ⟨u, hu, hrest⟩ := run_cons.mp hrun
    exact ih (hstep s l u hs hu) hrest

theorem reachable_invariant {I : σ → Prop}
    (hstep : ∀ s l s', I s → step s l = some s' → I s') {s t : σ}
    (hs : I s) (h : Reachable step s t) : I t := by
  obtain ⟨ls, hrun⟩ := h
  exact run_invariant hstep hs hrun

/-- An invariant kept by the steps that meet `P` holds at the end of every run
    whose steps all meet `P`. -/
theorem run_invariant_along {I : σ → Prop} {P : σ → ℓ → Prop}
    (hstep : ∀ s l s', I s → P s l → step s l = some s' → I s') {s t : σ} {ls : List ℓ}
    (hs : I s) (halong : Along step P s ls) (hrun : run step s ls = some t) : I t := by
  induction ls generalizing s with
  | nil =>
    obtain rfl := Option.some.inj hrun
    exact hs
  | cons l rest ih =>
    obtain ⟨u, hu, hrest⟩ := run_cons.mp hrun
    exact ih (hstep s l u hs halong.1 hu) (halong.2 u hu) hrest

/-- It holds all along such a run. -/
theorem always_of_along {I : σ → Prop} {P : σ → ℓ → Prop}
    (hstep : ∀ s l s', I s → P s l → step s l = some s' → I s') {s : σ} {ls : List ℓ}
    (hs : I s) (halong : Along step P s ls) : Always step I s ls := by
  induction ls generalizing s with
  | nil => exact hs
  | cons l rest ih =>
    exact ⟨hs, fun s' hs' => ih (hstep s l s' hs halong.1 hs') (halong.2 s' hs')⟩

/-- Every run of a total step function comes to an end. -/
theorem run_total (htotal : ∀ s l, ∃ s', step s l = some s') (s : σ) (ls : List ℓ) :
    ∃ t, run step s ls = some t := by
  induction ls generalizing s with
  | nil => exact ⟨s, rfl⟩
  | cons l rest ih =>
    obtain ⟨u, hu⟩ := htotal s l
    obtain ⟨t, ht⟩ := ih u
    exact ⟨t, run_cons.mpr ⟨u, hu, ht⟩⟩

/-- So does every run of one that is total on an invariant. -/
theorem run_total_of_invariant {J : σ → Prop} (hkeep : ∀ s l s', J s → step s l = some s' → J s')
    (htotal : ∀ s l, J s → ∃ s', step s l = some s') {s : σ} (hs : J s) (ls : List ℓ) :
    ∃ t, run step s ls = some t := by
  induction ls generalizing s with
  | nil => exact ⟨s, rfl⟩
  | cons l rest ih =>
    obtain ⟨u, hu⟩ := htotal s l hs
    obtain ⟨t, ht⟩ := ih (hkeep s l u hs hu)
    exact ⟨t, run_cons.mpr ⟨u, hu, ht⟩⟩

/-- Where every step meeting `P` makes a measure smaller, a run of such steps is not
    longer than the measure. -/
theorem run_length_le {I : σ → Prop} {P : ℓ → Prop} {μ : σ → ℕ}
    (hkeep : ∀ s l s', I s → step s l = some s' → I s')
    (hlt : ∀ s l s', I s → P l → step s l = some s' → μ s' < μ s) {s t : σ} {ls : List ℓ}
    (hs : I s) (hP : ∀ l ∈ ls, P l) (hrun : run step s ls = some t) :
    ls.length + μ t ≤ μ s := by
  induction ls generalizing s with
  | nil =>
    obtain rfl := Option.some.inj hrun
    exact Nat.le_of_eq (Nat.zero_add _)
  | cons l rest ih =>
    obtain ⟨u, hu, hrest⟩ := run_cons.mp hrun
    have hless := hlt s l u hs (hP l List.mem_cons_self) hu
    have hmore := ih (hkeep s l u hs hu) (fun l' hl' => hP l' (List.mem_cons_of_mem l hl')) hrest
    rw [List.length_cons]
    omega

/-- Where `P` is exactly what a step needs to keep `I`, a run stays in `I` if and
    only if all its steps meet `P`.  `J` is an invariant and `Q` a condition on
    the steps that the argument may rely on. -/
theorem always_iff_along {I J : σ → Prop} {P Q : σ → ℓ → Prop}
    (hkeep : ∀ s l s', J s → Q s l → step s l = some s' → J s')
    (hstep : ∀ s l s', J s → Q s l → I s → step s l = some s' → (I s' ↔ P s l))
    {s t : σ} {ls : List ℓ} (hrun : run step s ls = some t) (hQ : Along step Q s ls)
    (hJ : J s) (hs : I s) : Always step I s ls ↔ Along step P s ls := by
  induction ls generalizing s with
  | nil => simp [Always, Along, hs]
  | cons l rest ih =>
    obtain ⟨u, hu, hrest⟩ := run_cons.mp hrun
    have hJu := hkeep s l u hJ hQ.1 hu
    have hQu := hQ.2 u hu
    simp only [Always, Along, hs, hu, true_and, Option.some.injEq, forall_eq']
    constructor
    · intro hall
      have hIu : I u := by
        cases rest with
        | nil => exact hall
        | cons _ _ => exact hall.1
      exact ⟨(hstep s l u hJ hQ.1 hs hu).mp hIu, (ih hrest hQu hJu hIu).mp hall⟩
    · rintro ⟨hP, halong⟩
      have hIu := (hstep s l u hJ hQ.1 hs hu).mpr hP
      exact (ih hrest hQu hJu hIu).mpr halong

/-- What every step of a run meets anyway. -/
theorem along_true (s : σ) (ls : List ℓ) : Along step (fun _ _ => True) s ls := by
  induction ls generalizing s with
  | nil => trivial
  | cons l rest ih => exact ⟨trivial, fun s' _ => ih s'⟩

/-- A condition on the labels alone. -/
theorem along_of_forall {P : ℓ → Prop} {s : σ} {ls : List ℓ} (h : ∀ l ∈ ls, P l) :
    Along step (fun _ l => P l) s ls := by
  induction ls generalizing s with
  | nil => trivial
  | cons l rest ih =>
    exact ⟨h l List.mem_cons_self, fun s' _ => ih fun l' hl' => h l' (List.mem_cons_of_mem l hl')⟩

/-- All labels of a run that comes to an end meet what its steps meet. -/
theorem forall_of_along {P : ℓ → Prop} {s t : σ} {ls : List ℓ} (hrun : run step s ls = some t)
    (h : Along step (fun _ l => P l) s ls) : ∀ l ∈ ls, P l := by
  induction ls generalizing s with
  | nil => exact fun l hl => absurd hl List.not_mem_nil
  | cons l rest ih =>
    obtain ⟨u, hu, hrest⟩ := run_cons.mp hrun
    intro l' hl'
    rcases List.mem_cons.mp hl' with rfl | hl'
    · exact h.1
    · exact ih hrest (h.2 u hu) l' hl'

theorem Always.mono {I J : σ → Prop} (h : ∀ s, I s → J s) {s : σ} {ls : List ℓ}
    (halways : Always step I s ls) : Always step J s ls := by
  induction ls generalizing s with
  | nil => exact h s halways
  | cons l rest ih => exact ⟨h s halways.1, fun s' hs' => ih (halways.2 s' hs')⟩

theorem Along.mono {P Q : σ → ℓ → Prop} (h : ∀ s l, P s l → Q s l) {s : σ} {ls : List ℓ}
    (halong : Along step P s ls) : Along step Q s ls := by
  induction ls generalizing s with
  | nil => trivial
  | cons l rest ih => exact ⟨h s l halong.1, fun s' hs' => ih (halong.2 s' hs')⟩

theorem Along.and {P Q : σ → ℓ → Prop} {s : σ} {ls : List ℓ} (hP : Along step P s ls)
    (hQ : Along step Q s ls) : Along step (fun s l => P s l ∧ Q s l) s ls := by
  induction ls generalizing s with
  | nil => trivial
  | cons l rest ih => exact ⟨⟨hP.1, hQ.1⟩, fun s' hs' => ih (hP.2 s' hs') (hQ.2 s' hs')⟩

/-- What holds in every state holds before every step. -/
theorem Always.along {I : σ → Prop} {s : σ} {ls : List ℓ} (h : Always step I s ls) :
    Along step (fun s _ => I s) s ls := by
  induction ls generalizing s with
  | nil => trivial
  | cons l rest ih => exact ⟨h.1, fun s' hs' => ih (h.2 s' hs')⟩

/-- A prefix of a run meets what the whole run meets. -/
theorem Along.left {P : σ → ℓ → Prop} {s : σ} {ls₁ ls₂ : List ℓ}
    (h : Along step P s (ls₁ ++ ls₂)) : Along step P s ls₁ := by
  induction ls₁ generalizing s with
  | nil => trivial
  | cons l rest ih => exact ⟨h.1, fun s' hs' => ih (h.2 s' hs')⟩

/-- The part of a run after a prefix meets what the whole run meets. -/
theorem Along.of_append {P : σ → ℓ → Prop} {s t : σ} {ls₁ ls₂ : List ℓ}
    (h : Along step P s (ls₁ ++ ls₂)) (hrun : run step s ls₁ = some t) :
    Along step P t ls₂ := by
  induction ls₁ generalizing s with
  | nil =>
    obtain rfl := Option.some.inj hrun
    exact h
  | cons l rest ih =>
    obtain ⟨u, hu, hrest⟩ := run_cons.mp hrun
    exact ih (h.2 u hu) hrest

end Traces
