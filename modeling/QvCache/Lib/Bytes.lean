/-
  QvCache.Lib.Bytes

  Values in memory and in files.  A `Codec` is the representation of a type in a
  fixed number of bytes, in which every string of that length represents a
  value: what is read as raw bytes is always a value of the type.  Numbers are
  little-endian (`le`), and `digit` is one byte of a number.

  `overlay` is a raw read into a buffer: it fills the buffer from the front with
  what the input still has and leaves the rest of the buffer as it was.  Reads
  in a row are one read into the buffers in a row (`overlay_append`).
-/

import Mathlib.Algebra.Group.Nat.Defs
import Mathlib.Data.List.Basic

namespace Bytes

/-! ## Little-endian numbers -/

/-- The low `width` bytes of a number, the lowest first. -/
def le : Nat → Nat → List UInt8
  | 0, _ => []
  | width + 1, n => UInt8.ofNat n :: le width (n / 256)

def ofLe : List UInt8 → Nat
  | [] => 0
  | b :: rest => b.toNat + 256 * ofLe rest

theorem length_le (width n : Nat) : (le width n).length = width := by
  induction width generalizing n with
  | zero => rfl
  | succ width ih => exact congrArg Nat.succ (ih (n / 256))

theorem ofLe_le {width n : Nat} (h : n < 256 ^ width) : ofLe (le width n) = n := by
  induction width generalizing n with
  | zero =>
    rw [Nat.pow_zero, Nat.lt_one_iff] at h
    rw [h]
    rfl
  | succ width ih =>
    have hrest : n / 256 < 256 ^ width :=
      Nat.div_lt_of_lt_mul (by rwa [Nat.pow_succ, Nat.mul_comm] at h)
    rw [le, ofLe, ih hrest, UInt8.toNat_ofNat']
    omega

theorem ofLe_lt (bytes : List UInt8) : ofLe bytes < 256 ^ bytes.length := by
  induction bytes with
  | nil => exact Nat.one_pos
  | cons b rest ih =>
    have hb := b.toNat_lt
    rw [ofLe, List.length_cons, Nat.pow_succ]
    omega

theorem le_ofLe (bytes : List UInt8) : le bytes.length (ofLe bytes) = bytes := by
  induction bytes with
  | nil => rfl
  | cons b rest ih =>
    have hb := b.toNat_lt
    have hlow : UInt8.ofNat (b.toNat + 256 * ofLe rest) = b := by
      refine UInt8.toNat_inj.mp ?_
      rw [UInt8.toNat_ofNat']
      omega
    have hhigh : (b.toNat + 256 * ofLe rest) / 256 = ofLe rest := by omega
    rw [ofLe, List.length_cons, le, hlow, hhigh, ih]

/-- Byte `i` of a number. -/
def digit (n i : Nat) : Nat := n / 256 ^ i % 256

theorem digit_lt (n i : Nat) : digit n i < 256 := Nat.mod_lt _ (by decide)

theorem digit_zero (i : Nat) : digit 0 i = 0 := by
  rw [digit, Nat.zero_div, Nat.zero_mod]

/-- A number has no bytes past its width. -/
theorem digit_of_lt {n width i : Nat} (h : n < 256 ^ width) (hi : width ≤ i) : digit n i = 0 := by
  have hlt : n < 256 ^ i := Nat.lt_of_lt_of_le h (Nat.pow_le_pow_right (by decide) hi)
  rw [digit, Nat.div_eq_of_lt hlt, Nat.zero_mod]

theorem digit_succ (n i : Nat) : digit n (i + 1) = digit (n / 256) i := by
  rw [digit, digit, Nat.pow_succ, Nat.mul_comm, Nat.div_div_eq_div_mul]

theorem eq_zero_of_digits {n width : Nat} (h : n < 256 ^ width)
    (hdigits : ∀ i < width, digit n i = 0) : n = 0 := by
  induction width generalizing n with
  | zero => exact Nat.lt_one_iff.mp h
  | succ width ih =>
    have hhigh : n / 256 = 0 := by
      refine ih (Nat.div_lt_of_lt_mul (by rwa [Nat.pow_succ, Nat.mul_comm] at h)) fun i hi => ?_
      rw [← digit_succ]
      exact hdigits (i + 1) (Nat.succ_lt_succ hi)
    have hlow : n % 256 = 0 := by
      have hzero := hdigits 0 (Nat.succ_pos width)
      rwa [digit, Nat.pow_zero, Nat.div_one] at hzero
    omega

theorem getElem?_le {width i : Nat} (h : i < width) (n : Nat) :
    (le width n)[i]? = some (UInt8.ofNat (digit n i)) := by
  induction width generalizing n i with
  | zero => exact absurd h (Nat.not_lt_zero i)
  | succ width ih =>
    cases i with
    | zero =>
      refine congrArg some (UInt8.toNat_inj.mp ?_)
      rw [UInt8.toNat_ofNat', UInt8.toNat_ofNat', digit, Nat.pow_zero, Nat.div_one, Nat.mod_mod]
    | succ i =>
      rw [digit_succ]
      exact ih (Nat.lt_of_succ_lt_succ h) (n / 256)

/-- The bytes of a list of items of one width. -/
theorem getElem?_flatMap {α β : Type} {width : Nat} {bytes : α → List β}
    (hlen : ∀ a, (bytes a).length = width) (hpos : 0 < width) (items : List α) (p : Nat) :
    (items.flatMap bytes)[p]? = items[p / width]?.bind fun a => (bytes a)[p % width]? := by
  induction items generalizing p with
  | nil => rfl
  | cons a rest ih =>
    rw [List.flatMap_cons]
    by_cases hp : p < width
    · rw [List.getElem?_append_left (by rwa [hlen]), Nat.div_eq_of_lt hp, Nat.mod_eq_of_lt hp]
      rfl
    · have hle := Nat.not_lt.mp hp
      have hdiv : p / width = (p - width) / width + 1 := Nat.div_eq_sub_div hpos hle
      rw [List.getElem?_append_right (by rwa [hlen]), hlen, ih, hdiv, List.getElem?_cons_succ,
        Nat.mod_eq_sub_mod hle]

theorem length_flatMap {α β : Type} {width : Nat} {bytes : α → List β}
    (hlen : ∀ a, (bytes a).length = width) (items : List α) :
    (items.flatMap bytes).length = items.length * width := by
  induction items with
  | nil => rw [List.length_nil, Nat.zero_mul]; rfl
  | cons a rest ih =>
    rw [List.flatMap_cons, List.length_append, hlen, ih, List.length_cons, Nat.succ_mul,
      Nat.add_comm]

/-- Item `i` of the bytes of a list of items. -/
theorem slice_flatMap {α β : Type} {width : Nat} {bytes : α → List β} {items : List α} {i : Nat}
    {a : α} (hlen : ∀ a ∈ items, (bytes a).length = width) (ha : items[i]? = some a) :
    ((items.flatMap bytes).drop (i * width)).take width = bytes a := by
  induction items generalizing i with
  | nil => cases ha
  | cons b rest ih =>
    have hb := hlen b List.mem_cons_self
    rw [List.flatMap_cons]
    cases i with
    | zero =>
      obtain rfl := Option.some.inj ha
      rw [Nat.zero_mul, List.drop_zero, List.take_left' hb]
    | succ i =>
      rw [Nat.succ_mul, Nat.add_comm, ← List.drop_drop, List.drop_left' hb]
      exact ih (fun c hc => hlen c (List.mem_cons_of_mem b hc)) ha

theorem take_eq_take_iff {β : Type} {l l' : List β} {n : Nat} :
    l.take n = l'.take n ↔ ∀ p < n, l[p]? = l'[p]? := by
  constructor
  · intro h p hp
    rw [← List.getElem?_take_of_lt hp, h, List.getElem?_take_of_lt hp]
  · intro h
    refine List.ext_getElem? fun p => ?_
    by_cases hp : p < n
    · rw [List.getElem?_take_of_lt hp, List.getElem?_take_of_lt hp, h p hp]
    · rw [List.getElem?_take_eq_none (Nat.not_lt.mp hp),
        List.getElem?_take_eq_none (Nat.not_lt.mp hp)]

/-! ## Codecs -/

structure Codec (α : Type) where
  width : Nat
  encode : α → List UInt8
  decode : List UInt8 → α
  length_encode : ∀ a, (encode a).length = width
  decode_encode : ∀ a, decode (encode a) = a
  encode_decode : ∀ bytes, bytes.length = width → encode (decode bytes) = bytes

/-- One byte. -/
def byte : Codec UInt8 where
  width := 1
  encode b := [b]
  decode bytes := bytes.headD 0
  length_encode _ := rfl
  decode_encode _ := rfl
  encode_decode
    | [_], _ => rfl

def word32 : Codec UInt32 where
  width := 4
  encode w := le 4 w.toNat
  decode bytes := UInt32.ofNat (ofLe bytes)
  length_encode w := length_le 4 w.toNat
  decode_encode w := by
    rw [ofLe_le (show w.toNat < 256 ^ 4 from w.toNat_lt), UInt32.ofNat_toNat]
  encode_decode bytes hlen := by
    have hlt := ofLe_lt bytes
    rw [hlen] at hlt
    rw [UInt32.toNat_ofNat_of_lt' hlt, ← hlen, le_ofLe]

def word64 : Codec UInt64 where
  width := 8
  encode w := le 8 w.toNat
  decode bytes := UInt64.ofNat (ofLe bytes)
  length_encode w := length_le 8 w.toNat
  decode_encode w := by
    rw [ofLe_le (show w.toNat < 256 ^ 8 from w.toNat_lt), UInt64.ofNat_toNat]
  encode_decode bytes hlen := by
    have hlt := ofLe_lt bytes
    rw [hlen] at hlt
    rw [UInt64.toNat_ofNat_of_lt' hlt, ← hlen, le_ofLe]

namespace Codec

variable {α : Type} (c : Codec α)

theorem encode_inj {a b : α} (h : c.encode a = c.encode b) : a = b := by
  rw [← c.decode_encode a, h, c.decode_encode]

/-- An array of values. -/
def encodeAll (as : List α) : List UInt8 := as.flatMap c.encode

/-- The array of `n` values at these bytes. -/
def decodeAll : Nat → List UInt8 → List α
  | 0, _ => []
  | n + 1, bytes => c.decode (bytes.take c.width) :: decodeAll n (bytes.drop c.width)

theorem length_encodeAll (as : List α) : (c.encodeAll as).length = as.length * c.width :=
  length_flatMap c.length_encode as

theorem decodeAll_encodeAll (as : List α) : c.decodeAll as.length (c.encodeAll as) = as := by
  induction as with
  | nil => rfl
  | cons a rest ih =>
    show c.decode ((c.encode a ++ c.encodeAll rest).take c.width) ::
      c.decodeAll rest.length ((c.encode a ++ c.encodeAll rest).drop c.width) = a :: rest
    rw [List.take_left' (c.length_encode a), List.drop_left' (c.length_encode a), c.decode_encode,
      ih]

theorem length_decodeAll (n : Nat) (bytes : List UInt8) : (c.decodeAll n bytes).length = n := by
  induction n generalizing bytes with
  | zero => rfl
  | succ n ih => exact congrArg Nat.succ (ih _)

theorem getElem?_decodeAll {n j : Nat} (h : j < n) (bytes : List UInt8) :
    (c.decodeAll n bytes)[j]? = some (c.decode ((bytes.drop (j * c.width)).take c.width)) := by
  induction n generalizing j bytes with
  | zero => exact absurd h (Nat.not_lt_zero j)
  | succ n ih =>
    cases j with
    | zero =>
      rw [Nat.zero_mul]
      rfl
    | succ j =>
      rw [decodeAll, List.getElem?_cons_succ, ih (Nat.lt_of_succ_lt_succ h), List.drop_drop,
        Nat.succ_mul, Nat.add_comm]

theorem encodeAll_take {n : Nat} {as : List α} (h : n ≤ as.length) :
    c.encodeAll (as.take n) = (c.encodeAll as).take (n * c.width) := by
  have hsplit : c.encodeAll as = c.encodeAll (as.take n) ++ c.encodeAll (as.drop n) := by
    conv_lhs => rw [← List.take_append_drop n as]
    exact List.flatMap_append
  have hlen : (c.encodeAll (as.take n)).length = n * c.width := by
    rw [c.length_encodeAll, List.length_take, Nat.min_eq_left h]
  rw [hsplit, List.take_left' hlen]

theorem decodeAll_add (m n : Nat) (bytes : List UInt8) :
    c.decodeAll (m + n) bytes =
      c.decodeAll m bytes ++ c.decodeAll n (bytes.drop (m * c.width)) := by
  induction m generalizing bytes with
  | zero => rw [Nat.zero_add, Nat.zero_mul]; rfl
  | succ m ih =>
    rw [Nat.succ_add, decodeAll, decodeAll, ih, List.drop_drop, Nat.succ_mul, Nat.add_comm,
      List.cons_append]

theorem encodeAll_decodeAll {n : Nat} {bytes : List UInt8} (h : n * c.width ≤ bytes.length) :
    c.encodeAll (c.decodeAll n bytes) = bytes.take (n * c.width) := by
  induction n generalizing bytes with
  | zero => rw [Nat.zero_mul]; rfl
  | succ n ih =>
    rw [Nat.succ_mul] at h
    have hfirst : (bytes.take c.width).length = c.width := by
      rw [List.length_take]
      omega
    show c.encode (c.decode (bytes.take c.width)) ++
      c.encodeAll (c.decodeAll n (bytes.drop c.width)) = _
    rw [c.encode_decode _ hfirst, ih (by rw [List.length_drop]; omega), Nat.succ_mul, Nat.add_comm,
      List.take_add]

/-- Reading `n` values gives these if and only if their bytes are there. -/
theorem decodeAll_eq_iff {bytes : List UInt8} {as : List α}
    (h : as.length * c.width ≤ bytes.length) :
    c.decodeAll as.length bytes = as ↔ bytes.take (as.length * c.width) = c.encodeAll as := by
  rw [← c.encodeAll_decodeAll h]
  constructor
  · intro heq
    rw [heq]
  · intro heq
    have hback := congrArg (c.decodeAll as.length) heq
    rw [c.decodeAll_encodeAll] at hback
    have hlen : (c.decodeAll as.length bytes).length = as.length := c.length_decodeAll _ _
    have hself := c.decodeAll_encodeAll (c.decodeAll as.length bytes)
    rw [hlen, hback] at hself
    exact hself.symm

/-- Row `i` of an array of rows of `n` values. -/
theorem row_decodeAll {rows i : Nat} (h : i < rows) (n : Nat) (bytes : List UInt8) :
    ((c.decodeAll (rows * n) bytes).drop (i * n)).take n =
      c.decodeAll n (bytes.drop (i * n * c.width)) := by
  have hsplit : rows * n = i * n + (n + (rows - i - 1) * n) := by
    rw [← Nat.add_assoc, ← Nat.succ_mul, ← Nat.add_mul]
    congr 1
    omega
  rw [hsplit, decodeAll_add, List.drop_left' (c.length_decodeAll _ _), decodeAll_add,
    List.take_left' (c.length_decodeAll _ _)]

/-- The values of an array of rows are those of the rows. -/
theorem mem_decodeAll_rows {rows n : Nat} {bytes : List UInt8} {a : α} :
    a ∈ c.decodeAll (rows * n) bytes ↔
      ∃ i < rows, a ∈ c.decodeAll n (bytes.drop (i * n * c.width)) := by
  induction rows with
  | zero =>
    rw [Nat.zero_mul]
    exact iff_of_false List.not_mem_nil fun h => Nat.not_lt_zero _ h.choose_spec.1
  | succ rows ih =>
    rw [Nat.succ_mul, decodeAll_add, List.mem_append, ih]
    constructor
    · rintro (⟨i, hi, ha⟩ | ha)
      · exact ⟨i, Nat.lt_succ_of_lt hi, ha⟩
      · exact ⟨rows, Nat.lt_succ_self rows, ha⟩
    · rintro ⟨i, hi, ha⟩
      rcases Nat.lt_succ_iff_lt_or_eq.mp hi with hi | rfl
      · exact Or.inl ⟨i, hi, ha⟩
      · exact Or.inr ha

end Codec

/-- An array of bytes is its bytes. -/
theorem byte_decodeAll (bytes : List UInt8) : byte.decodeAll bytes.length bytes = bytes := by
  induction bytes with
  | nil => rfl
  | cons b rest ih => exact congrArg (b :: ·) ih

/-! ## Raw reads -/

/-- What a buffer holds after a read. -/
def overlay (input buffer : List UInt8) : List UInt8 :=
  input.take buffer.length ++ buffer.drop input.length

theorem length_overlay (input buffer : List UInt8) :
    (overlay input buffer).length = buffer.length := by
  rw [overlay, List.length_append, List.length_take, List.length_drop]
  omega

/-- Nothing is left of a buffer that the input fills. -/
theorem overlay_of_le {input buffer : List UInt8} (h : buffer.length ≤ input.length) :
    overlay input buffer = input.take buffer.length := by
  rw [overlay, List.drop_eq_nil_of_le h, List.append_nil]

theorem overlay_of_ge {input buffer : List UInt8} (h : input.length ≤ buffer.length) :
    overlay input buffer = input ++ buffer.drop input.length := by
  rw [overlay, List.take_of_length_le h]

theorem overlay_append_left {front buffer : List UInt8} (rest : List UInt8)
    (h : front.length = buffer.length) : overlay (front ++ rest) buffer = front := by
  rw [overlay_of_le (by rw [List.length_append]; omega), List.take_left' h]

theorem overlay_nil (buffer : List UInt8) : overlay [] buffer = buffer := by
  rw [overlay_of_ge (Nat.zero_le _)]
  rfl

/-- A read of what the buffer begins with leaves it as it was. -/
theorem overlay_eq_self {input buffer : List UInt8}
    (h : input.take buffer.length <+: buffer) : overlay input buffer = buffer := by
  have hdrop : buffer.drop (input.take buffer.length).length = buffer.drop input.length := by
    rw [List.length_take]
    rcases Nat.le_total buffer.length input.length with hle | hle
    · rw [Nat.min_eq_left hle, List.drop_length, List.drop_eq_nil_of_le hle]
    · rw [Nat.min_eq_right hle]
  rw [overlay, ← hdrop]
  exact (List.prefix_iff_eq_append.mp h)

/-- Two reads in a row. -/
theorem overlay_append (input first second : List UInt8) :
    overlay input (first ++ second) =
      overlay input first ++ overlay (input.drop first.length) second := by
  rcases Nat.le_total first.length input.length with h | h
  · -- the first buffer is filled
    rw [overlay_of_le h]
    unfold overlay
    rw [List.length_append, List.take_add, List.append_assoc, List.drop_append,
      List.drop_eq_nil_of_le h, List.nil_append, List.length_drop]
  · -- nothing is left for the second
    have hnone : input.drop first.length = [] := List.drop_eq_nil_of_le h
    rw [overlay_of_ge (by rw [List.length_append]; omega), overlay_of_ge h, hnone, overlay_nil,
      List.drop_append_of_le_length h, List.append_assoc]

end Bytes
