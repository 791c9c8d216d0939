/-
  QvCache.Lib.Double

  Double-precision numbers whose finite values are computed with exactly: a
  `double` is a rational number, one of the two infinities or NaN.  The special
  values follow IEEE 754 (`0 * inf` and `inf - inf` are NaN, every comparison
  with NaN is false); finite values neither round nor overflow.
-/

import Mathlib.Algebra.Order.Field.Rat
import Mathlib.Tactic.Linarith
import Mathlib.Tactic.Positivity

/-- A `double` with exact arithmetic on its finite values. -/
inductive Double where
  | nan
  | negInf
  | fin (x : ℚ)
  | posInf
deriving DecidableEq

namespace Double

/-- The product of a finite factor and a `double`. -/
def scale (a : ℚ) : Double → Double
  | nan => nan
  | fin x => fin (a * x)
  | posInf => if a = 0 then nan else if 0 < a then posInf else negInf
  | negInf => if a = 0 then nan else if 0 < a then negInf else posInf

instance : HMul ℚ Double Double := ⟨scale⟩

/-- Addition; NaN absorbs, and infinities of opposite signs give NaN. -/
def add : Double → Double → Double
  | fin x, fin y => fin (x + y)
  | nan, _ => nan
  | _, nan => nan
  | posInf, negInf => nan
  | negInf, posInf => nan
  | posInf, _ => posInf
  | _, posInf => posInf
  | negInf, _ => negInf
  | _, negInf => negInf

instance : Add Double := ⟨add⟩

instance : Zero Double := ⟨fin 0⟩

/-- The comparison `<=`: false as soon as one side is NaN. -/
def le : Double → Double → Bool
  | nan, _ => false
  | _, nan => false
  | negInf, _ => true
  | _, posInf => true
  | fin x, fin y => decide (x ≤ y)
  | _, _ => false

instance : LE Double := ⟨fun a b => le a b = true⟩

instance (a b : Double) : Decidable (a ≤ b) := inferInstanceAs (Decidable (le a b = true))

/-- `std::numeric_limits<double>::max()`. -/
def dblMax : ℚ := 2 ^ 1024 - 2 ^ 971

/-- `std::numeric_limits<float>::max()` widened to `double`. -/
def fltMax : ℚ := 2 ^ 128 - 2 ^ 104

/-! ## Computation rules -/

@[simp] theorem mul_fin (a x : ℚ) : a * fin x = fin (a * x) := rfl

@[simp] theorem mul_nan (a : ℚ) : a * nan = nan := rfl

theorem mul_posInf {a : ℚ} (ha : 0 < a) : a * posInf = posInf := by
  show scale a posInf = posInf
  simp [scale, ha, ha.ne']

theorem mul_negInf {a : ℚ} (ha : 0 < a) : a * negInf = negInf := by
  show scale a negInf = negInf
  simp [scale, ha, ha.ne']

theorem mul_posInf_of_neg {a : ℚ} (ha : a < 0) : a * posInf = negInf := by
  show scale a posInf = negInf
  simp [scale, ha.ne, ha.not_gt]

theorem mul_negInf_of_neg {a : ℚ} (ha : a < 0) : a * negInf = posInf := by
  show scale a negInf = posInf
  simp [scale, ha.ne, ha.not_gt]

@[simp] theorem zero_mul_posInf : (0 : ℚ) * posInf = nan := rfl

@[simp] theorem zero_mul_negInf : (0 : ℚ) * negInf = nan := rfl

@[simp] protected theorem one_mul (x : Double) : (1 : ℚ) * x = x := by
  cases x with
  | nan => rfl
  | negInf => exact mul_negInf one_pos
  | fin x => rw [mul_fin, one_mul]
  | posInf => exact mul_posInf one_pos

theorem zero_def : (0 : Double) = fin 0 := rfl

theorem mul_assoc_of_pos {a b : ℚ} (ha : 0 < a) (hb : 0 < b) (x : Double) :
    a * (b * x) = (a * b) * x := by
  cases x with
  | nan => rfl
  | negInf => rw [mul_negInf hb, mul_negInf ha, mul_negInf (mul_pos ha hb)]
  | fin x => rw [mul_fin, mul_fin, mul_fin, mul_assoc]
  | posInf => rw [mul_posInf hb, mul_posInf ha, mul_posInf (mul_pos ha hb)]

/-- A value that no positive factor changes: zero, an infinity or NaN. -/
def Immovable (x : Double) : Prop := ∀ y, x = fin y → y = 0

theorem immovable_mul {a : ℚ} (ha : 0 < a) {x : Double} : Immovable (a * x) ↔ Immovable x := by
  cases x with
  | nan => rfl
  | negInf => rw [mul_negInf ha]
  | fin x =>
    simp only [Immovable, mul_fin, fin.injEq, forall_eq', mul_eq_zero, ha.ne', false_or]
  | posInf => rw [mul_posInf ha]

/-- Two different positive factors agree on the immovable values only. -/
theorem mul_eq_mul_iff {a b : ℚ} (ha : 0 < a) (hb : 0 < b) {x : Double} :
    a * x = b * x ↔ a = b ∨ Immovable x := by
  cases x with
  | nan => simp [Immovable]
  | negInf => simp [mul_negInf ha, mul_negInf hb, Immovable]
  | fin x => simp [Immovable]
  | posInf => simp [mul_posInf ha, mul_posInf hb, Immovable]

@[simp] theorem fin_add_fin (x y : ℚ) : fin x + fin y = fin (x + y) := rfl

@[simp] theorem nan_add (x : Double) : nan + x = nan := by
  cases x <;> rfl

@[simp] theorem add_nan (x : Double) : x + nan = nan := by
  cases x <;> rfl

@[simp] theorem posInf_add_fin (x : ℚ) : posInf + fin x = posInf := rfl

@[simp] theorem fin_add_posInf (x : ℚ) : fin x + posInf = posInf := rfl

@[simp] theorem fin_add_negInf (x : ℚ) : fin x + negInf = negInf := rfl

@[simp] theorem negInf_add_fin (x : ℚ) : negInf + fin x = negInf := rfl

@[simp] theorem negInf_add_negInf : negInf + negInf = negInf := rfl

@[simp] theorem negInf_add_posInf : negInf + posInf = nan := rfl

@[simp] theorem posInf_add_posInf : posInf + posInf = posInf := rfl

@[simp] theorem posInf_add_negInf : posInf + negInf = nan := rfl

/-! ## Order -/

@[simp] theorem fin_le_fin {x y : ℚ} : fin x ≤ fin y ↔ x ≤ y := decide_eq_true_iff

@[simp] theorem not_nan_le (x : Double) : ¬ nan ≤ x := by
  cases x <;> exact Bool.false_ne_true

@[simp] theorem not_le_nan (x : Double) : ¬ x ≤ nan := by
  cases x <;> exact Bool.false_ne_true

@[simp] theorem not_fin_le_negInf (x : ℚ) : ¬ fin x ≤ negInf := Bool.false_ne_true

@[simp] theorem fin_le_posInf (x : ℚ) : fin x ≤ posInf := rfl

@[simp] theorem negInf_le_fin (x : ℚ) : negInf ≤ fin x := rfl

@[simp] theorem not_posInf_le_fin (x : ℚ) : ¬ posInf ≤ fin x := Bool.false_ne_true

@[simp] theorem negInf_le_negInf : negInf ≤ negInf := rfl

@[simp] theorem posInf_le_posInf : posInf ≤ posInf := rfl

protected theorem le_refl_of_ne_nan {x : Double} (h : x ≠ nan) : x ≤ x := by
  cases x with
  | nan => exact absurd rfl h
  | negInf => rfl
  | fin x => exact fin_le_fin.mpr (le_refl x)
  | posInf => rfl

protected theorem le_trans {a b c : Double} (h₁ : a ≤ b) (h₂ : b ≤ c) : a ≤ c := by
  cases a <;> cases b <;> cases c <;>
    first
    | exact fin_le_fin.mpr (le_trans (fin_le_fin.mp h₁) (fin_le_fin.mp h₂))
    | rfl
    | exact absurd h₁ Bool.false_ne_true
    | exact absurd h₂ Bool.false_ne_true

end Double
