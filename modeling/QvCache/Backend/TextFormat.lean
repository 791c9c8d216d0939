/-
  QvCache.Backend.TextFormat

  Vectors as text: `format_vector` and `parse_vector_text` of
  backends/pgvector_backend.h.  Each component is printed with `%.6f` into a
  buffer of 32 bytes.  A magnitude below 10^23 takes at most 31 characters, with
  one exception: a negative number that rounds to -10^23 takes 32, and loses the
  last of six zeros, which changes nothing (`strtod_component`).  So all
  components are read back in their places (`parseVectorText_formatVector`).

  Components are exact rationals here; what PostgreSQL makes of the text between
  the two functions is left open as before.
-/

import QvCache.Backend.PgVector
import QvCache.Lib.Decimal
import Mathlib.Tactic.NormNum

namespace QvCache

open Decimal

namespace TextFormat

/-! ## Components -/

/-- `static_cast<double>` of a component and `static_cast<T>` of a double. -/
structure Component (T : Type) where
  toDouble : T → ℚ
  ofDouble : ℚ → T

/-- Floating-point to integer casts drop the fraction. -/
def truncate (v : ℚ) : Int := v.num.tdiv v.den

def int8 : Component Int8 where
  toDouble x := x.toInt
  ofDouble v := Int8.ofInt (truncate v)

def uint8 : Component UInt8 where
  toDouble x := x.toNat
  ofDouble v := UInt8.ofNat (truncate v).toNat

/-- `float`, without the rounding of the type itself. -/
def real : Component ℚ := ⟨id, id⟩

variable {T : Type} (t : Component T)

/-! ## The two functions -/

/-- `std::snprintf(buf, size, ..)`: what the buffer holds in front of its zero. -/
def snprintf (size : Nat) (text : List Char) : List Char := text.take (size - 1)

def component (x : T) : List Char := snprintf 32 (printF 6 (t.toDouble x))

/-- `format_vector`; a comma goes in front of every component but the first. -/
def formatVector (dim : Nat) (query : List T) : List Char :=
  match query.take dim with
  | [] => ['[', ']']
  | first :: rest =>
    '[' :: (component t first ++ (rest.flatMap (fun x => ',' :: component t x) ++ [']']))

/-- The loop of `parse_vector_text`, from `p` on and for the entries of `out`
    from `i` on. -/
def parseLoop : List Char → List T → List T
  | _, [] => []
  | p, x :: out =>
    if p = [] ∨ p.head? = some ']' then x :: out
    else
      match strtod p with
      | none => x :: out
      | some (v, rest) =>
        t.ofDouble v :: parseLoop (if rest.head? = some ',' then rest.tail else rest) out

/-- `parse_vector_text`; `text` is `none` for a null pointer. -/
def parseVectorText (text : Option (List Char)) (out : List T) : List T :=
  match text with
  | none => out
  | some text => parseLoop t (if text.head? = some '[' then text.tail else text) out

/-- The text functions of a backend. -/
def vectorText (dim : Nat) (zero : T) : VectorText (List T) where
  zeros := List.replicate dim zero
  formatVector query := String.ofList (formatVector t dim query)
  parseVectorText text out := parseVectorText t (some text.toList) out

/-! ## One component -/

variable {t}

/-- What a component of this magnitude is printed from. -/
theorem roundEven_le_of_abs_lt {x : ℚ} (hx : |x| < 10 ^ 23) :
    roundEven (|x| * 10 ^ 6) ≤ 10 ^ 29 := by
  refine roundEven_le (by positivity) ?_
  have hscaled : |x| * 10 ^ 6 ≤ 10 ^ 23 * 10 ^ 6 :=
    mul_le_mul_of_nonneg_right hx.le (by norm_num)
  calc |x| * 10 ^ 6 ≤ 10 ^ 23 * 10 ^ 6 := hscaled
    _ = ((10 ^ 29 : Nat) : ℚ) := by norm_num

/-- Only a negative number that rounds to -10^23 does not fit. -/
theorem printF_fits_or {x : ℚ} (hx : |x| < 10 ^ 23) :
    (printF 6 x).length ≤ 31 ∨ x < 0 ∧ roundEven (|x| * 10 ^ 6) = 10 ^ 29 := by
  have hlen : (printF 6 x).length = _ := length_numeral _ _ _
  rw [length_fixed] at hlen
  rcases Nat.lt_or_eq_of_le (roundEven_le_of_abs_lt hx) with hlt | heq
  · left
    have hdigits : (Nat.toDigits 10 (roundEven (|x| * 10 ^ 6) / 10 ^ 6)).length ≤ 23 := by
      rw [Nat.length_toDigits_le_iff (by decide) (by decide)]
      omega
    split_ifs at hlen <;> omega
  · by_cases hneg : x < 0
    · exact Or.inr ⟨hneg, heq⟩
    · left
      have hdigits : (Nat.toDigits 10 (10 ^ 29 / 10 ^ 6)).length = 24 := by decide
      rw [heq, hdigits, if_neg (by rw [decide_eq_true_eq]; exact hneg)] at hlen
      omega

/-- What 31 characters hold of -10^23: the last zero is cut off. -/
theorem strtod_take_cut {rest : List Char} (hrest : Stops rest) :
    strtod ((numeral true (10 ^ 29 / 10 ^ 6) (fixed 6 (10 ^ 29 % 10 ^ 6))).take 31 ++ rest) =
      some (-(10 ^ 29 / 10 ^ 6), rest) := by
  have hcut : numeral true (10 ^ 29 / 10 ^ 6) (fixed 6 (10 ^ 29 % 10 ^ 6)) =
      numeral true (10 ^ 28 / 10 ^ 5) (fixed 5 (10 ^ 28 % 10 ^ 5)) ++ ['0'] :=
    numeral_concat true _ (fixed 5 0) '0'
  have hfront : (numeral true (10 ^ 28 / 10 ^ 5) (fixed 5 (10 ^ 28 % 10 ^ 5))).length = 31 := by
    have hlen := length_numeral true (10 ^ 28 / 10 ^ 5) (fixed 5 (10 ^ 28 % 10 ^ 5))
    have hdigits : (Nat.toDigits 10 (10 ^ 28 / 10 ^ 5)).length = 24 := by decide
    rwa [length_fixed, hdigits] at hlen
  rw [hcut, List.take_left' hfront, strtod_fixed true 5 _ hrest]
  norm_num

/-- The buffer is long enough for the value of every component. -/
theorem strtod_component {x : T} (hx : |t.toDouble x| < 10 ^ 23) {rest : List Char}
    (hrest : Stops rest) :
    strtod (component t x ++ rest) = some (rounded 6 (t.toDouble x), rest) := by
  rw [component, snprintf]
  rcases printF_fits_or hx with hfits | ⟨hneg, hcut⟩
  · rw [List.take_of_length_le hfits, strtod_printF 6 _ hrest]
  · rw [printF, hcut, decide_eq_true hneg, strtod_take_cut hrest, rounded, hcut, if_pos hneg]
    norm_num

/-- A component does not end the loop. -/
theorem component_head (t : Component T) (x : T) (rest : List Char) :
    component t x ++ rest ≠ [] ∧ (component t x ++ rest).head? ≠ some ']' := by
  obtain ⟨c, text, htext, hc⟩ : ∃ c text, printF 6 (t.toDouble x) = c :: text ∧ c ≠ ']' := by
    rw [printF, numeral]
    split_ifs
    · exact ⟨'-', _, rfl, by decide⟩
    · obtain ⟨c, ds, hds⟩ := List.exists_cons_of_ne_nil (Nat.toDigits_ne_nil (b := 10)
        (n := roundEven (|t.toDouble x| * 10 ^ 6) / 10 ^ 6))
      have hdigit : c.isDigit = true :=
        Nat.isDigit_of_mem_toDigits (by decide) (by decide) (hds ▸ List.mem_cons_self)
      refine ⟨c, _, by rw [hds]; rfl, ?_⟩
      rintro rfl
      exact absurd hdigit (by decide)
  rw [component, snprintf, htext]
  exact ⟨List.cons_ne_nil _ _, fun h => hc (Option.some.inj h)⟩

/-! ## The loop -/

/-- From the start of a component on, the loop reads all that are left. -/
theorem parseLoop_components {x : T} {xs out : List T}
    (hsmall : ∀ y ∈ x :: xs, |t.toDouble y| < 10 ^ 23) (hlen : out.length = (x :: xs).length) :
    parseLoop t (component t x ++ (xs.flatMap (fun y => ',' :: component t y) ++ [']'])) out =
      (x :: xs).map fun y => t.ofDouble (rounded 6 (t.toDouble y)) := by
  induction xs generalizing x out with
  | nil =>
    obtain ⟨o, rfl⟩ := List.length_eq_one_iff.mp hlen
    have hhead := component_head t x [']']
    have hstops : Stops [']'] := by
      intro c hc
      obtain rfl := Option.some.inj hc
      decide
    rw [List.flatMap_nil, List.nil_append, parseLoop, if_neg (not_or.mpr hhead),
      strtod_component (hsmall x List.mem_cons_self) hstops]
    rfl
  | cons y ys ih =>
    cases out with
    | nil => cases hlen
    | cons o out =>
      have hrest := ih (fun z hz => hsmall z (List.mem_cons_of_mem x hz)) (Nat.succ.inj hlen)
      have hstops : Stops ((y :: ys).flatMap (fun z => ',' :: component t z) ++ [']']) := by
        intro c hc
        obtain rfl := Option.some.inj hc
        decide
      rw [parseLoop, if_neg (not_or.mpr (component_head t x _)),
        strtod_component (hsmall x List.mem_cons_self) hstops, List.map_cons]
      refine congrArg (t.ofDouble (rounded 6 (t.toDouble x)) :: ·) ?_
      rw [List.flatMap_cons, List.cons_append, List.cons_append, if_pos (by rfl), List.tail_cons,
        List.append_assoc]
      exact hrest

/-- All components of a vector are read back, each as the rounded one. -/
theorem parseVectorText_formatVector {dim : Nat} {query out : List T} (hquery : query.length = dim)
    (hout : out.length = dim) (hsmall : ∀ x ∈ query, |t.toDouble x| < 10 ^ 23) :
    parseVectorText t (some (formatVector t dim query)) out =
      query.map fun x => t.ofDouble (rounded 6 (t.toDouble x)) := by
  rw [formatVector, List.take_of_length_le hquery.le]
  cases query with
  | nil =>
    obtain rfl := List.eq_nil_of_length_eq_zero (hout.trans hquery.symm)
    rfl
  | cons first rest => exact parseLoop_components hsmall (hout.trans hquery.symm)

/-- A row whose text is that of a vector is fetched as the vector. -/
theorem fetchOneFromDb_formatVector {dim : Nat} {zero : T} {cfg : PgVectorConfig (List T)}
    (htext : cfg.toVectorText = vectorText t dim zero) {s : PgVectorBackend (List T)} {id : UInt32}
    {row : Row (List T)} {vec : List T} (hrow : s.rows.lookup id = some row)
    (hvec : row.text = cfg.formatVector vec) (hlen : vec.length = dim)
    (hsmall : ∀ x ∈ vec, |t.toDouble x| < 10 ^ 23) :
    s.fetchOneFromDb cfg .done id =
      .ok (vec.map fun x => t.ofDouble (rounded 6 (t.toDouble x))) := by
  have hread : cfg.parseVectorText row.text cfg.zeros =
      vec.map fun x => t.ofDouble (rounded 6 (t.toDouble x)) := by
    rw [hvec, htext]
    show parseVectorText t (some (String.ofList (formatVector t dim vec)).toList)
      (List.replicate dim zero) = _
    rw [String.toList_ofList]
    exact parseVectorText_formatVector hlen List.length_replicate hsmall
  rw [PgVectorBackend.fetchOneFromDb, hrow]
  exact congrArg Except.ok hread

/-! ## Element types -/

theorem truncate_intCast (z : Int) : truncate z = z := by
  rw [truncate, Rat.num_intCast, Rat.den_intCast, Nat.cast_one, Int.tdiv_one]

theorem abs_int8_lt (x : Int8) : |int8.toDouble x| < 10 ^ 23 := by
  have hlow : -(2 ^ 7 : Int) ≤ x.toInt := x.le_toInt
  have hhigh : x.toInt < 2 ^ 7 := x.toInt_lt
  have habs : |x.toInt| < 10 ^ 23 := by
    rw [abs_lt]
    omega
  show |((x.toInt : Int) : ℚ)| < 10 ^ 23
  exact_mod_cast habs

theorem abs_uint8_lt (x : UInt8) : |uint8.toDouble x| < 10 ^ 23 := by
  have hlt : x.toNat < 10 ^ 23 := x.toNat_lt.trans (by decide)
  show |((x.toNat : Nat) : ℚ)| < 10 ^ 23
  rw [Nat.abs_cast]
  exact_mod_cast hlt

theorem int8_rounded (x : Int8) : int8.ofDouble (rounded 6 (int8.toDouble x)) = x := by
  show Int8.ofInt (truncate (rounded 6 ((x.toInt : Int) : ℚ))) = x
  rw [rounded_intCast, truncate_intCast, Int8.ofInt_toInt]

theorem uint8_rounded (x : UInt8) : uint8.ofDouble (rounded 6 (uint8.toDouble x)) = x := by
  show UInt8.ofNat (truncate (rounded 6 (((x.toNat : Nat) : Int) : ℚ))).toNat = x
  rw [rounded_intCast, truncate_intCast, Int.toNat_natCast, UInt8.ofNat_toNat]

/-- Vectors survive the text: bytes exactly, and real numbers of less than 23
    digits rounded to six decimals. -/
theorem vectors_survive_text :
    (∀ (dim : Nat) (query out : List Int8), query.length = dim → out.length = dim →
      parseVectorText int8 (some (formatVector int8 dim query)) out = query) ∧
    (∀ (dim : Nat) (query out : List UInt8), query.length = dim → out.length = dim →
      parseVectorText uint8 (some (formatVector uint8 dim query)) out = query) ∧
    ∀ (dim : Nat) (query out : List ℚ), query.length = dim → out.length = dim →
      (∀ x ∈ query, |x| < 10 ^ 23) →
      parseVectorText real (some (formatVector real dim query)) out = query.map (rounded 6) ∧
        ∀ x ∈ query, |rounded 6 x - x| ≤ 5 / 10 ^ 7 := by
  refine ⟨?_, ?_, ?_⟩
  · intro dim query out hquery hout
    rw [parseVectorText_formatVector hquery hout fun x _ => abs_int8_lt x]
    simp only [int8_rounded, List.map_id']
  · intro dim query out hquery hout
    rw [parseVectorText_formatVector hquery hout fun x _ => abs_uint8_lt x]
    simp only [uint8_rounded, List.map_id']
  · intro dim query out hquery hout hsmall
    refine ⟨parseVectorText_formatVector hquery hout hsmall, fun x _ => ?_⟩
    exact (abs_rounded_sub_le 6 x).trans (by norm_num)

/-- The end of the byte range, a byte above 127, and two fractions. -/
theorem vectors_survive_text_pairs :
    parseVectorText int8 (some (formatVector int8 2 [-128, 7])) [0, 0] = [-128, 7] ∧
      parseVectorText uint8 (some (formatVector uint8 2 [200, 0])) [0, 0] = [200, 0] ∧
      parseVectorText real (some (formatVector real 2 [1 / 3, -2])) [0, 0] =
        [1 / 3, -2].map (rounded 6) := by
  refine ⟨vectors_survive_text.1 2 _ _ rfl rfl, vectors_survive_text.2.1 2 _ _ rfl rfl,
    (vectors_survive_text.2.2 2 _ _ rfl rfl fun x hx => ?_).1⟩
  rcases List.mem_pair.mp hx with rfl | rfl <;> norm_num [abs_lt]

end TextFormat

end QvCache
