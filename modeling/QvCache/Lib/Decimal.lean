/-
  QvCache.Lib.Decimal

  Decimal text of the C library over exact rationals, in the C locale: `%.<p>f`
  of printf, which rounds to the nearest decimal with `p` places and to the even
  one in the middle, and `strtod`, which reads the longest decimal prefix.

  A printed number is read back as the rounded one, up to any text that cannot
  continue it (`strtod_numeral`, `strtod_printF`).
-/

import Mathlib.Algebra.Order.Field.Rat
import Mathlib.Algebra.Order.Round
import Mathlib.Data.Rat.Lemmas
import Mathlib.Tactic.FieldSimp
import Mathlib.Tactic.Linarith
import Mathlib.Tactic.Positivity
import Mathlib.Tactic.Ring

namespace Decimal

/-! ## Digits -/

/-- The last `places` digits of a number, with zeros in front. -/
def fixed : Nat → Nat → List Char
  | 0, _ => []
  | places + 1, n => fixed places (n / 10) ++ [Nat.digitChar (n % 10)]

@[simp] theorem length_fixed (places n : Nat) : (fixed places n).length = places := by
  induction places generalizing n with
  | zero => rfl
  | succ places ih => rw [fixed, List.length_append, ih, List.length_singleton]

theorem isDigit_digitChar {d : Nat} (h : d < 10) : (Nat.digitChar d).isDigit = true := by
  have hall : ∀ e < 10, (Nat.digitChar e).isDigit = true := by decide
  exact hall d h

theorem isDigit_of_mem_fixed {places n : Nat} {c : Char} (h : c ∈ fixed places n) :
    c.isDigit = true := by
  induction places generalizing n with
  | zero => cases h
  | succ places ih =>
    rcases List.mem_append.mp h with hfront | hlast
    · exact ih hfront
    · rw [List.mem_singleton.mp hlast]
      exact isDigit_digitChar (Nat.mod_lt n (by decide))

theorem ofDigitChars_fixed {places n : Nat} (h : n < 10 ^ places) :
    Nat.ofDigitChars 10 (fixed places n) 0 = n := by
  induction places generalizing n with
  | zero =>
    rw [Nat.pow_zero, Nat.lt_one_iff] at h
    rw [h]
    rfl
  | succ places ih =>
    have hfront : n / 10 < 10 ^ places :=
      Nat.div_lt_of_lt_mul (by rwa [Nat.pow_succ, Nat.mul_comm] at h)
    rw [fixed, Nat.ofDigitChars_append, ih hfront,
      Nat.ofDigitChars_cons_digitChar_of_lt_ten (Nat.mod_lt n (by decide)), Nat.ofDigitChars_nil]
    omega

/-! ## Rounding -/

/-- The nearest natural number to a nonnegative rational, the even one in the
    middle between two. -/
def roundEven (y : ℚ) : Nat :=
  let quotient := y.num.toNat / y.den
  let remainder := y.num.toNat % y.den
  if y.den < 2 * remainder ∨ (2 * remainder = y.den ∧ quotient % 2 = 1) then quotient + 1
  else quotient

theorem abs_roundEven_sub_le {y : ℚ} (hy : 0 ≤ y) : |(roundEven y : ℚ) - y| ≤ 1 / 2 := by
  have hden : (0 : ℚ) < y.den := Nat.cast_pos.mpr y.den_pos
  have hnum : y * y.den = (y.num.toNat : ℚ) := by
    have hnonneg : (y.num.toNat : Int) = y.num := Int.toNat_of_nonneg (Rat.num_nonneg.mpr hy)
    calc y * y.den = (y.num : ℚ) := Rat.mul_den_eq_num y
      _ = ((y.num.toNat : Int) : ℚ) := by rw [hnonneg]
      _ = (y.num.toNat : ℚ) := Int.cast_natCast _
  have hsplit : (y.num.toNat : ℚ) =
      y.den * (y.num.toNat / y.den : Nat) + (y.num.toNat % y.den : Nat) := by
    rw [← Nat.cast_mul, ← Nat.cast_add, Nat.div_add_mod]
  -- the distance, as a multiple of the denominator
  have hscale : ∀ k : ℚ, |k - y| ≤ 1 / 2 ↔ |2 * (k * y.den - y.num.toNat)| ≤ y.den := by
    intro k
    have hfactor : 2 * (k * y.den - y.num.toNat) = 2 * y.den * (k - y) := by
      rw [← hnum]
      ring
    rw [hfactor, abs_mul, abs_of_pos (by linarith : (0 : ℚ) < 2 * y.den)]
    constructor
    · intro h
      calc 2 * (y.den : ℚ) * |k - y| ≤ 2 * y.den * (1 / 2) :=
            mul_le_mul_of_nonneg_left h (by linarith)
        _ = y.den := by ring
    · intro h
      have hbound : 2 * (y.den : ℚ) * |k - y| ≤ 2 * y.den * (1 / 2) := by linarith
      exact le_of_mul_le_mul_left hbound (by linarith)
  have hmod : y.num.toNat % y.den < y.den := Nat.mod_lt _ y.den_pos
  have hmod' : ((y.num.toNat % y.den : Nat) : ℚ) < y.den := Nat.cast_lt.mpr hmod
  have hmod0 : (0 : ℚ) ≤ (y.num.toNat % y.den : Nat) := Nat.cast_nonneg _
  rw [hscale, hsplit, roundEven]
  split_ifs with hup
  · have hhalf : (y.den : ℚ) ≤ 2 * (y.num.toNat % y.den : Nat) := by
      have hnat : y.den ≤ 2 * (y.num.toNat % y.den) := by omega
      exact_mod_cast hnat
    rw [Nat.cast_add, Nat.cast_one, abs_le]
    constructor <;> linarith
  · have hhalf : 2 * ((y.num.toNat % y.den : Nat) : ℚ) ≤ y.den := by
      have hnat : 2 * (y.num.toNat % y.den) ≤ y.den := by omega
      exact_mod_cast hnat
    rw [abs_le]
    constructor <;> linarith

/-- A bound that is a number itself is kept. -/
theorem roundEven_le {y : ℚ} {n : Nat} (hy : 0 ≤ y) (h : y ≤ n) : roundEven y ≤ n := by
  have hnear := (abs_le.mp (abs_roundEven_sub_le hy)).2
  have hlt : (roundEven y : ℚ) < (n + 1 : Nat) := by
    rw [Nat.cast_add, Nat.cast_one]
    linarith
  exact Nat.lt_succ_iff.mp (Nat.cast_lt.mp hlt)

theorem roundEven_natCast (n : Nat) : roundEven n = n := by
  have hnear := abs_le.mp (abs_roundEven_sub_le (Nat.cast_nonneg (α := ℚ) n))
  have hle := roundEven_le (Nat.cast_nonneg (α := ℚ) n) (le_refl (n : ℚ))
  have hge : (n : ℚ) < (roundEven n + 1 : Nat) := by
    rw [Nat.cast_add, Nat.cast_one]
    linarith [hnear.1]
  exact Nat.le_antisymm hle (Nat.lt_succ_iff.mp (Nat.cast_lt.mp hge))

/-- A number rounded to `places` decimals. -/
def rounded (places : Nat) (x : ℚ) : ℚ :=
  (if x < 0 then -1 else 1) * (roundEven (|x| * 10 ^ places) / 10 ^ places)

theorem abs_rounded_sub_le (places : Nat) (x : ℚ) :
    |rounded places x - x| ≤ 1 / 2 / 10 ^ places := by
  have hpos : (0 : ℚ) < 10 ^ places := by positivity
  have hnear := abs_roundEven_sub_le (mul_nonneg (abs_nonneg x) hpos.le)
  have hmagnitude : |(roundEven (|x| * 10 ^ places) : ℚ) / 10 ^ places - (|x|)| ≤
      1 / 2 / 10 ^ places := by
    have hscale : (roundEven (|x| * 10 ^ places) : ℚ) / 10 ^ places - |x| =
        (roundEven (|x| * 10 ^ places) - |x| * 10 ^ places) / 10 ^ places := by
      field_simp
    rw [hscale, abs_div, abs_of_pos hpos]
    exact div_le_div_of_nonneg_right hnear hpos.le
  rw [rounded]
  split_ifs with hneg
  · rw [abs_of_neg hneg] at hmagnitude ⊢
    rw [neg_one_mul, ← abs_neg]
    rwa [show -(-((roundEven (-x * 10 ^ places) : ℚ) / 10 ^ places) - x) =
      (roundEven (-x * 10 ^ places) : ℚ) / 10 ^ places - -x by ring]
  · rw [abs_of_nonneg (not_lt.mp hneg)] at hmagnitude ⊢
    rwa [one_mul]

/-- Whole numbers are not changed. -/
theorem rounded_intCast (places : Nat) (z : Int) : rounded places z = z := by
  have hpos : (10 : ℚ) ^ places ≠ 0 := by positivity
  have habs : |(z : ℚ)| * 10 ^ places = (z.natAbs * 10 ^ places : Nat) := by
    rw [Nat.cast_mul, Nat.cast_natAbs, Int.cast_abs, Nat.cast_pow]
    rfl
  rw [rounded, habs, roundEven_natCast, ← habs, mul_div_cancel_right₀ _ hpos]
  split_ifs with hneg
  · rw [abs_of_neg hneg, neg_one_mul, neg_neg]
  · rw [abs_of_nonneg (not_lt.mp hneg), one_mul]

/-! ## printf -/

/-- A sign, the digits of a number, a point and more digits. -/
def numeral (neg : Bool) (whole : Nat) (frac : List Char) : List Char :=
  (if neg then ['-'] else []) ++ (Nat.toDigits 10 whole ++ '.' :: frac)

/-- `%.<places>f`, for at least one place. -/
def printF (places : Nat) (x : ℚ) : List Char :=
  let n := roundEven (|x| * 10 ^ places)
  numeral (decide (x < 0)) (n / 10 ^ places) (fixed places (n % 10 ^ places))

theorem length_numeral (neg : Bool) (whole : Nat) (frac : List Char) :
    (numeral neg whole frac).length =
      (if neg then 1 else 0) + (Nat.toDigits 10 whole).length + 1 + frac.length := by
  rw [numeral, List.length_append, List.length_append, List.length_cons]
  cases neg
  · show 0 + _ = 0 + _ + _ + _
    omega
  · show 1 + _ = 1 + _ + _ + _
    omega

/-- Cutting the last digit off. -/
theorem numeral_concat (neg : Bool) (whole : Nat) (frac : List Char) (c : Char) :
    numeral neg whole (frac ++ [c]) = numeral neg whole frac ++ [c] := by
  rw [numeral, numeral, ← List.cons_append, List.append_assoc, List.append_assoc]

/-! ## strtod -/

/-- `isspace`. -/
def isSpace (c : Char) : Bool := decide (c.toNat = 32) || decide (9 ≤ c.toNat ∧ c.toNat ≤ 13)

/-- A sign that may be there. -/
def skipSign : List Char → Bool × List Char
  | '-' :: rest => (true, rest)
  | '+' :: rest => (false, rest)
  | p => (false, p)

/-- An exponent that may be there; without digits it is not one. -/
def skipExponent : List Char → Int × List Char
  | [] => (0, [])
  | c :: rest =>
    if c = 'e' ∨ c = 'E' then
      let signed := skipSign rest
      let digits := signed.2.takeWhile Char.isDigit
      if digits = [] then (0, c :: rest)
      else
        let n := Nat.ofDigitChars 10 digits 0
        (if signed.1 then -(n : Int) else n, signed.2.dropWhile Char.isDigit)
    else (0, c :: rest)

/-- The point and the digits after it, if they are there. -/
def skipFraction : List Char → List Char × List Char
  | '.' :: rest => (rest.takeWhile Char.isDigit, rest.dropWhile Char.isDigit)
  | p => ([], p)

/-- `strtod`: the value of the longest decimal prefix and what follows it, or
    `none` where there is no such prefix. -/
def strtod (p : List Char) : Option (ℚ × List Char) :=
  let signed := skipSign (p.dropWhile isSpace)
  let whole := signed.2.takeWhile Char.isDigit
  let fraction := skipFraction (signed.2.dropWhile Char.isDigit)
  if whole = [] ∧ fraction.1 = [] then none
  else
    let exponent := skipExponent fraction.2
    let mantissa := Nat.ofDigitChars 10 (whole ++ fraction.1) 0
    some ((if signed.1 then -1 else 1) * (mantissa / 10 ^ fraction.1.length) * 10 ^ exponent.1,
      exponent.2)

/-- What may follow a number without being part of it. -/
def Stops (rest : List Char) : Prop :=
  ∀ c ∈ rest.head?, c.isDigit = false ∧ c ≠ 'e' ∧ c ≠ 'E'

theorem toNat_of_isDigit {c : Char} (h : c.isDigit = true) : 48 ≤ c.toNat ∧ c.toNat ≤ 57 :=
  Char.isDigit_iff_toNat.mp h

theorem not_isSpace_of_isDigit {c : Char} (h : c.isDigit = true) : isSpace c = false := by
  have hrange := toNat_of_isDigit h
  rw [isSpace, Bool.or_eq_false_iff, decide_eq_false_iff_not, decide_eq_false_iff_not]
  omega

/-- Digits in front of something else. -/
theorem takeWhile_digits {ds rest : List Char} (hds : ∀ c ∈ ds, c.isDigit = true)
    (hrest : ∀ c ∈ rest.head?, c.isDigit = false) :
    (ds ++ rest).takeWhile Char.isDigit = ds ∧ (ds ++ rest).dropWhile Char.isDigit = rest := by
  rw [List.takeWhile_append_of_pos hds, List.dropWhile_append_of_pos hds]
  cases rest with
  | nil => exact ⟨List.append_nil ds, rfl⟩
  | cons c tail =>
    have hc := hrest c rfl
    rw [List.takeWhile_cons, List.dropWhile_cons, hc]
    exact ⟨List.append_nil ds, rfl⟩

theorem skipExponent_of_stops {rest : List Char} (h : Stops rest) :
    skipExponent rest = (0, rest) := by
  cases rest with
  | nil => rfl
  | cons c tail =>
    obtain ⟨-, he, hE⟩ := h c rfl
    rw [skipExponent, if_neg (not_or.mpr ⟨he, hE⟩)]

/-- The sign of a numeral is read, and nothing in front of it is skipped. -/
theorem skipSign_numeral (neg : Bool) (whole : Nat) (frac rest : List Char) :
    skipSign ((numeral neg whole frac ++ rest).dropWhile isSpace) =
      (neg, Nat.toDigits 10 whole ++ '.' :: (frac ++ rest)) := by
  cases neg with
  | true =>
    show skipSign (('-' :: (Nat.toDigits 10 whole ++ '.' :: frac ++ rest)).dropWhile isSpace) = _
    rw [List.dropWhile_cons_of_neg (by decide), List.append_assoc, List.cons_append]
    rfl
  | false =>
    obtain ⟨c, ds, hds⟩ := List.exists_cons_of_ne_nil (Nat.toDigits_ne_nil (b := 10) (n := whole))
    have hdigit : c.isDigit = true :=
      Nat.isDigit_of_mem_toDigits (by decide) (by decide) (hds ▸ List.mem_cons_self)
    have hrange := toNat_of_isDigit hdigit
    rw [numeral, hds]
    show skipSign ((c :: (ds ++ '.' :: frac ++ rest)).dropWhile isSpace) = _
    have hspace : ¬ isSpace c = true := by
      rw [not_isSpace_of_isDigit hdigit]
      exact Bool.false_ne_true
    rw [List.dropWhile_cons_of_neg hspace, List.append_assoc, List.cons_append]
    have hminus : c ≠ '-' := by
      rintro rfl
      exact absurd hrange.1 (by decide)
    have hplus : c ≠ '+' := by
      rintro rfl
      exact absurd hrange.1 (by decide)
    rw [skipSign]
    · rfl
    · exact fun rest heq => hminus (List.cons.inj heq).1
    · exact fun rest heq => hplus (List.cons.inj heq).1

theorem strtod_numeral (neg : Bool) (whole : Nat) {frac rest : List Char}
    (hfrac : ∀ c ∈ frac, c.isDigit = true) (hrest : Stops rest) :
    strtod (numeral neg whole frac ++ rest) =
      some ((if neg then -1 else 1) *
        ((Nat.ofDigitChars 10 frac (whole : Nat) : ℚ) / 10 ^ frac.length), rest) := by
  have hwhole : ∀ c ∈ Nat.toDigits 10 whole, c.isDigit = true := fun c hc =>
    Nat.isDigit_of_mem_toDigits (by decide) (by decide) hc
  have hstop : ∀ c ∈ ('.' :: (frac ++ rest)).head?, c.isDigit = false := by
    intro c hc
    obtain rfl := Option.some.inj hc
    rfl
  have hpoint := takeWhile_digits hwhole hstop
  have hafter := takeWhile_digits hfrac fun c hc => (hrest c hc).1
  rw [strtod]
  simp only [skipSign_numeral, hpoint.1, hpoint.2, skipFraction, hafter.1, hafter.2,
    skipExponent_of_stops hrest]
  rw [if_neg fun h => Nat.toDigits_ne_nil h.1, Nat.ofDigitChars_append,
    Nat.ofDigitChars_ten_toDigits, zpow_zero, mul_one]

/-- The digits of a number in front of the point and behind it. -/
theorem strtod_fixed (neg : Bool) (places n : Nat) {rest : List Char} (hrest : Stops rest) :
    strtod (numeral neg (n / 10 ^ places) (fixed places (n % 10 ^ places)) ++ rest) =
      some ((if neg then -1 else 1) * ((n : ℚ) / 10 ^ places), rest) := by
  have hvalue : Nat.ofDigitChars 10 (fixed places (n % 10 ^ places)) (n / 10 ^ places) = n := by
    rw [Nat.ofDigitChars_eq_ofDigitChars_zero, length_fixed,
      ofDigitChars_fixed (Nat.mod_lt n (by positivity)), Nat.div_add_mod]
  rw [strtod_numeral neg _ (fun c hc => isDigit_of_mem_fixed hc) hrest, hvalue, length_fixed]

/-- A printed number is read back as the rounded one. -/
theorem strtod_printF (places : Nat) (x : ℚ) {rest : List Char} (hrest : Stops rest) :
    strtod (printF places x ++ rest) = some (rounded places x, rest) := by
  rw [printF, strtod_fixed _ places _ hrest, rounded]
  simp only [decide_eq_true_eq]

end Decimal
