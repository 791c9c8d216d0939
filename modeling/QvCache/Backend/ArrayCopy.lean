/-
  QvCache.Backend.ArrayCopy

  How `PythonBackendWrapper::search` (python/python_backend_wrapper.h) takes the
  two results of the Python method: a list is converted to an array of `uint32`
  or `float32`, and an array is made contiguous and keeps its dtype.  Either way
  the wrapper copies 4 bytes for each result out of the array.  `PythonWrapper`
  has the wrapper for arrays whose items are those 4 bytes (`search_of_copies`).
-/

import QvCache.Lib.Bytes
import QvCache.Backend.PythonWrapper

namespace QvCache

open Bytes

/-! ## What Python returns -/

/-- The byte order of a dtype; a swapped item has its bytes in reverse. -/
inductive ByteOrder where
  | native
  | swapped
deriving DecidableEq

/-- The integer dtypes. -/
inductive IntKind where
  | int8
  | int16
  | int32
  | int64
  | uint8
  | uint16
  | uint32
  | uint64
deriving DecidableEq

def IntKind.itemsize : IntKind → Nat
  | int8 | uint8 => 1
  | int16 | uint16 => 2
  | int32 | uint32 => 4
  | int64 | uint64 => 8

/-- One more than the greatest value. -/
def IntKind.bound : IntKind → Nat
  | int8 => 2 ^ 7
  | int16 => 2 ^ 15
  | int32 => 2 ^ 31
  | int64 => 2 ^ 63
  | uint8 => 2 ^ 8
  | uint16 => 2 ^ 16
  | uint32 => 2 ^ 32
  | uint64 => 2 ^ 64

/-- The floating dtypes. -/
inductive FloatKind where
  | half
  | single
  | double
  | longdouble
deriving DecidableEq

def FloatKind.itemsize : FloatKind → Nat
  | half => 2
  | single => 4
  | double => 8
  | longdouble => 16

def itemBytes (order : ByteOrder) (itemsize n : Nat) : List UInt8 :=
  match order with
  | .native => le itemsize n
  | .swapped => (le itemsize n).reverse

/-- A one-dimensional array of tags that are 32-bit values. -/
structure IntArray where
  kind : IntKind
  order : ByteOrder
  values : List Nat
  fits : ∀ v ∈ values, v < kind.bound ∧ v < 2 ^ 32
  inMemory : values.length < 2 ^ 61

/-- A one-dimensional array of distances, by the bits of its items. -/
structure FloatArray where
  kind : FloatKind
  order : ByteOrder
  bits : List Nat
  fits : ∀ b ∈ bits, b < 256 ^ kind.itemsize
  inMemory : bits.length < 2 ^ 61

/-- `tags_obj`: an array, or a list of numbers below `2 ^ 32`. -/
inductive TagsObject where
  | array (a : IntArray)
  | list (values : List UInt32) (inMemory : values.length < 2 ^ 61)

/-- `dists_obj`: an array, or a list of Python floats, by their bits. -/
inductive DistsObject where
  | array (a : FloatArray)
  | list (bits : List UInt64) (inMemory : bits.length < 2 ^ 61)

/-- How a `float` is made of an item of a floating dtype with these bits. -/
abbrev Rounding : Type := FloatKind → Nat → UInt32

/-! ## The two conversions -/

/-- The data of an array after `PyArray_GETCONTIGUOUS`. -/
def IntArray.data (a : IntArray) : List UInt8 :=
  a.values.flatMap (itemBytes a.order a.kind.itemsize)

def FloatArray.data (a : FloatArray) : List UInt8 :=
  a.bits.flatMap (itemBytes a.order a.kind.itemsize)

namespace TagsObject

/-- The tags as `uint32` values. -/
def values : TagsObject → List UInt32
  | array a => a.values.map UInt32.ofNat
  | list values _ => values

/-- `PyArray_DATA(tags_array)`.  A list has gone through `PyArray_FromAny` with
    `NPY_UINT32`. -/
def data : TagsObject → List UInt8
  | array a => a.data
  | list values _ => word32.encodeAll values

end TagsObject

namespace DistsObject

/-- The distances rounded to `float`. -/
def values (round : Rounding) : DistsObject → List UInt32
  | array a => a.bits.map (round a.kind)
  | list bits _ => bits.map fun b => round .double b.toNat

/-- `PyArray_DATA(dists_array)`.  A list has gone through `PyArray_FromAny` with
    `NPY_FLOAT32`. -/
def data (round : Rounding) : DistsObject → List UInt8
  | array a => a.data
  | list bits _ => word32.encodeAll (bits.map fun b => round .double b.toNat)

end DistsObject

namespace ArrayCopy

/-! ## The wrapper -/

/-- `static_cast<npy_intp>(K)`. -/
def intp (K : UInt64) : Int := K.toBitVec.toInt

/-- `std::vector<uint32_t>::max_size()`. -/
def maxSize : Nat := 2 ^ 61 - 1

/-- A `memcpy` of `n` values of 4 bytes; `none` where it reads past the array. -/
def copyWords (n : Nat) (data : List UInt8) : Option (List UInt32) :=
  if 4 * n ≤ data.length then some (word32.decodeAll n data) else none

/-- `search_impl` from the sizes of the arrays on; `none` where the behaviour is
    undefined. -/
def searchImpl (K : UInt64) (tagsSize distsSize : Nat) (tagsData distsData : List UInt8) :
    Option (Except String (List UInt32 × List UInt32)) :=
  let resultSize := min K.toNat (min tagsSize distsSize)
  if resultSize = 0 then some (.error "Backend returned empty results")
  else
    let resultSize := if intp K ≤ tagsSize ∧ intp K ≤ distsSize then K.toNat else resultSize
    if maxSize < resultSize then
      -- `tags_vec.resize`
      some (.error "vector::_M_default_append")
    else
      match copyWords resultSize tagsData, copyWords resultSize distsData with
      | some tagsVec, some distsVec => some (.ok (tagsVec, distsVec))
      | _, _ => none

/-- What `search` fills a position with: tag 0 and the bits of infinity. -/
def fillWords : UInt32 × UInt32 := (0, 0x7F800000)

/-- `search`, with the bits of the distances. -/
def search (round : Rounding) (K : UInt64) (tags : TagsObject) (dists : DistsObject) :
    Option (Except String (List (UInt32 × UInt32))) :=
  match searchImpl K tags.values.length (dists.values round).length tags.data
      (dists.data round) with
  | none => none
  | some (.error what) => some (.error what)
  | some (.ok (tagsVec, distsVec)) =>
    if tagsVec.length = 0 ∨ distsVec.length = 0 then
      some (.ok (List.replicate K.toNat fillWords))
    else
      let resultSize := min (min tagsVec.length K.toNat) distsVec.length
      some (.ok ((tagsVec.take resultSize).zip (distsVec.take resultSize) ++
        List.replicate (K.toNat - resultSize) fillWords))

/-! ## What is asked of it -/

/-- The number of results. -/
def resultSize (round : Rounding) (K : UInt64) (tags : TagsObject) (dists : DistsObject) : Nat :=
  min K.toNat (min tags.values.length (dists.values round).length)

/-- Each result is written with the value it has, and nothing outside the arrays
    is read. -/
def KeepsValues (round : Rounding) (K : UInt64) (tags : TagsObject) (dists : DistsObject) : Prop :=
  ∀ j < resultSize round K tags dists, ∃ answer,
    search round K tags dists = some (.ok answer) ∧
      answer[j]? = (tags.values.zip (dists.values round))[j]?

/-- A number whose bytes read the same in both orders. -/
def Palindrome (w n : Nat) : Prop := (le w n).reverse = le w n

/-- Word `j` of the data. -/
def wordAt (data : List UInt8) (j : Nat) : UInt32 := word32.decode ((data.drop (4 * j)).take 4)

/-- The first `4 * n` bytes are those of the first `n` tags: always in an array
    of native 4-byte items; else the array must be that long, items in foreign
    order must be palindromes, and of items with another width all but the first
    must be 0. -/
def TagsFit (n : Nat) : TagsObject → Prop
  | .list _ _ => True
  | .array a =>
    4 * n ≤ a.values.length * a.kind.itemsize ∧
    (a.order = .swapped → ∀ j < n, Palindrome a.kind.itemsize (a.values.getD j 0)) ∧
    (a.kind.itemsize ≠ 4 →
      ∀ j, 1 ≤ j → j < max n (4 * n / a.kind.itemsize) → a.values.getD j 0 = 0)

/-- An array of native `float32`, or one whose words happen to be the roundings
    of its items. -/
def DistsFit (round : Rounding) (n : Nat) : DistsObject → Prop
  | .list _ _ => True
  | .array a =>
    (a.kind = .single ∧ a.order = .native) ∨
    (4 * n ≤ a.bits.length * a.kind.itemsize ∧
      ∀ j < n, wordAt a.data j = round a.kind (a.bits.getD j 0))

/-! ## Bytes in fours -/

/-- The place in its item of byte `i` of a number. -/
def place (order : ByteOrder) (itemsize i : Nat) : Nat :=
  match order with
  | .native => i
  | .swapped => itemsize - 1 - i

/-- The bytes of the items, in fours, are those of the numbers. -/
def BytesAgree (order : ByteOrder) (w n : Nat) (v : Nat → Nat) : Prop :=
  ∀ p < 4 * n, digit (v (p / w)) (place order w (p % w)) = digit (v (p / 4)) (p % 4)

section Agree

variable {order : ByteOrder} {w n : Nat} {v : Nat → Nat}

theorem place_lt {i : Nat} (h : i < w) : place order w i < w := by
  cases order
  · exact h
  · show w - 1 - i < w
    omega

theorem place_place {i : Nat} (h : i < w) : place order w (place order w i) = i := by
  cases order
  · rfl
  · show w - 1 - (w - 1 - i) = i
    omega

/-- Narrow items: a group spans two or four of them, and only the first holds a
    byte that is not 0. -/
theorem zero_of_agree_narrow (hw : w = 1 ∨ w = 2) (hwidth : ∀ j, v j < 256 ^ w)
    (h : BytesAgree order w n v) {j : Nat} (hpos : 1 ≤ j) (hj : j < 4 * n / w) : v j = 0 := by
  induction j using Nat.strong_induction_on with
  | _ j ih =>
    refine eq_zero_of_digits (hwidth j) fun i hi => ?_
    have hplace : place order w i < w := place_lt hi
    have hread := h (w * j + place order w i) (by rcases hw with rfl | rfl <;> omega)
    have hitem : (w * j + place order w i) / w = j := by
      rw [Nat.mul_add_div (by omega), Nat.div_eq_of_lt hplace, Nat.add_zero]
    have hbyte : (w * j + place order w i) % w = place order w i := by
      rw [Nat.mul_add_mod, Nat.mod_eq_of_lt hplace]
    rw [hitem, hbyte, place_place hi] at hread
    rw [hread]
    generalize hp : w * j + place order w i = p at *
    have hlt : p / 4 < j := by rcases hw with rfl | rfl <;> omega
    rcases Nat.eq_zero_or_pos (p / 4) with hzero | hmore
    · -- a byte past the first item
      rw [hzero, Nat.mod_eq_of_lt (by omega)]
      exact digit_of_lt (hwidth 0) (by rcases hw with rfl | rfl <;> omega)
    · rw [ih _ hlt hmore (hlt.trans hj), digit_zero]

/-- In a wide swapped item the low half is the high half of the number. -/
theorem zero_first_of_agree_wide (h32 : ∀ j, v j < 256 ^ 4) (h : BytesAgree .swapped 8 n v)
    (hn : 0 < n) : v 0 = 0 := by
  refine eq_zero_of_digits (h32 0) fun i hi => ?_
  have hread := h i (by omega)
  rw [Nat.div_eq_of_lt (show i < 8 by omega), Nat.div_eq_of_lt hi, Nat.mod_eq_of_lt hi,
    Nat.mod_eq_of_lt (show i < 8 by omega)] at hread
  rw [← hread]
  exact digit_of_lt (h32 0) (show 4 ≤ 8 - 1 - i by omega)

/-- Wide items: a group is one half of an item. -/
theorem zero_of_agree_wide (h32 : ∀ j, v j < 256 ^ 4) (h : BytesAgree order 8 n v) {j : Nat}
    (hpos : 1 ≤ j) (hj : j < n) : v j = 0 := by
  induction j using Nat.strong_induction_on with
  | _ j ih =>
    refine eq_zero_of_digits (h32 j) fun i hi => ?_
    have hread := h (4 * j + i) (by omega)
    have hitem : (4 * j + i) / 4 = j := by omega
    have hbyte : (4 * j + i) % 4 = i := by omega
    rw [hitem, hbyte] at hread
    rw [← hread]
    have hlt : (4 * j + i) / 8 < j := by omega
    rcases Nat.eq_zero_or_pos ((4 * j + i) / 8) with hzero | hmore
    · -- the other half of the first item
      rw [hzero]
      cases order with
      | native => exact digit_of_lt (h32 0) (show 4 ≤ (4 * j + i) % 8 by omega)
      | swapped => rw [zero_first_of_agree_wide h32 h (by omega), digit_zero]
    · rw [ih _ hlt hmore (hlt.trans hj), digit_zero]

theorem getElem?_itemBytes (order : ByteOrder) {i : Nat} (h : i < w) (m : Nat) :
    (itemBytes order w m)[i]? = some (UInt8.ofNat (digit m (place order w i))) := by
  cases order with
  | native => exact getElem?_le h m
  | swapped =>
    have hlen := length_le w m
    rw [itemBytes, List.getElem?_reverse (by rwa [hlen]), hlen]
    exact getElem?_le (show w - 1 - i < w by omega) m

theorem ofNat_digit_inj {m m' i i' : Nat} :
    UInt8.ofNat (digit m i) = UInt8.ofNat (digit m' i') ↔ digit m i = digit m' i' := by
  rw [← UInt8.toNat_inj, UInt8.toNat_ofNat_of_lt' (digit_lt m i),
    UInt8.toNat_ofNat_of_lt' (digit_lt m' i')]

theorem palindrome_iff {m : Nat} :
    Palindrome w m ↔ ∀ i < w, digit m (place .swapped w i) = digit m i := by
  have hlen : ∀ order, (itemBytes order w m).length = w := fun order => by
    cases order
    · exact length_le w m
    · rw [itemBytes, List.length_reverse, length_le]
  constructor
  · intro hsame i hi
    have hbyte := congrArg (fun bytes : List UInt8 => bytes[i]?) hsame
    have hswapped := getElem?_itemBytes .swapped hi m
    rw [itemBytes, hbyte.trans (getElem?_le hi m)] at hswapped
    exact (ofNat_digit_inj.mp (Option.some.inj hswapped)).symm
  · intro hdigits
    refine List.ext_getElem? fun i => ?_
    show (itemBytes .swapped w m)[i]? = (itemBytes .native w m)[i]?
    by_cases hi : i < w
    · rw [getElem?_itemBytes .swapped hi, getElem?_itemBytes .native hi, hdigits i hi]
      rfl
    · rw [List.getElem?_eq_none (by rw [hlen]; omega), List.getElem?_eq_none (by rw [hlen]; omega)]

theorem palindrome_zero (w : Nat) : Palindrome w 0 :=
  palindrome_iff.mpr fun i _ => by rw [digit_zero, digit_zero]

/-- In foreign order the items are palindromes. -/
theorem palindrome_of_agree (hw : w = 1 ∨ w = 2 ∨ w = 4 ∨ w = 8) (h32 : ∀ j, v j < 256 ^ 4)
    (hwidth : ∀ j, v j < 256 ^ w) (h : BytesAgree .swapped w n v) {j : Nat} (hj : j < n) :
    Palindrome w (v j) := by
  have hnarrow : (w = 1 ∨ w = 2) → Palindrome w (v j) := by
    intro hlow
    rcases Nat.eq_zero_or_pos j with rfl | hpos
    · refine palindrome_iff.mpr fun i hi => ?_
      have hread := h i (by rcases hlow with rfl | rfl <;> omega)
      have hi4 : i < 4 := by rcases hlow with rfl | rfl <;> omega
      rwa [Nat.div_eq_of_lt hi, Nat.mod_eq_of_lt hi, Nat.div_eq_of_lt hi4,
        Nat.mod_eq_of_lt hi4] at hread
    · rw [zero_of_agree_narrow hlow hwidth h hpos (by rcases hlow with rfl | rfl <;> omega)]
      exact palindrome_zero w
  rcases hw with rfl | rfl | rfl | rfl
  · exact hnarrow (Or.inl rfl)
  · exact hnarrow (Or.inr rfl)
  · refine palindrome_iff.mpr fun i hi => ?_
    have hread := h (4 * j + i) (by omega)
    have hitem : (4 * j + i) / 4 = j := by omega
    have hbyte : (4 * j + i) % 4 = i := by omega
    rwa [hitem, hbyte] at hread
  · rcases Nat.eq_zero_or_pos j with rfl | hpos
    · rw [zero_first_of_agree_wide h32 h hj]
      exact palindrome_zero 8
    · rw [zero_of_agree_wide h32 h hpos hj]
      exact palindrome_zero 8

/-- Items of another width than 4 after the first, as far as they are read or
    asked for, are 0. -/
theorem zero_of_agree (hw : w = 1 ∨ w = 2 ∨ w = 4 ∨ w = 8) (h32 : ∀ j, v j < 256 ^ 4)
    (hwidth : ∀ j, v j < 256 ^ w) (h : BytesAgree order w n v) (hfour : w ≠ 4) {j : Nat}
    (hpos : 1 ≤ j) (hj : j < max n (4 * n / w)) : v j = 0 := by
  rcases hw with rfl | rfl | rfl | rfl
  · exact zero_of_agree_narrow (Or.inl rfl) hwidth h hpos (by omega)
  · exact zero_of_agree_narrow (Or.inr rfl) hwidth h hpos (by omega)
  · exact absurd rfl hfour
  · exact zero_of_agree_wide h32 h hpos (by omega)

/-- Palindromes have one byte order. -/
theorem digit_place (hw : w = 1 ∨ w = 2 ∨ w = 4 ∨ w = 8)
    (hswapped : order = .swapped → ∀ j < n, Palindrome w (v j))
    (hzero : w ≠ 4 → ∀ j, 1 ≤ j → j < max n (4 * n / w) → v j = 0) {p : Nat} (hp : p < 4 * n) :
    digit (v (p / w)) (place order w (p % w)) = digit (v (p / w)) (p % w) := by
  have hbyte : p % w < w := Nat.mod_lt _ (by omega)
  cases order with
  | native => rfl
  | swapped =>
    by_cases hitem : p / w < n
    · exact palindrome_iff.mp (hswapped rfl _ hitem) _ hbyte
    · have hnone : v (p / w) = 0 := by
        refine hzero ?_ _ (by omega) ?_
        · rintro rfl
          omega
        · rcases hw with rfl | rfl | rfl | rfl <;> omega
      rw [hnone, digit_zero, digit_zero]

theorem bytesAgree_iff (hw : w = 1 ∨ w = 2 ∨ w = 4 ∨ w = 8) (h32 : ∀ j, v j < 256 ^ 4)
    (hwidth : ∀ j, v j < 256 ^ w) :
    BytesAgree order w n v ↔
      (order = .swapped → ∀ j < n, Palindrome w (v j)) ∧
      (w ≠ 4 → ∀ j, 1 ≤ j → j < max n (4 * n / w) → v j = 0) := by
  constructor
  · intro h
    refine ⟨?_, fun hfour j => zero_of_agree hw h32 hwidth h hfour⟩
    rintro rfl j
    exact palindrome_of_agree hw h32 hwidth h
  · rintro ⟨hswapped, hzero⟩ p hp
    rw [digit_place hw hswapped hzero hp]
    by_cases hfour : w = 4
    · rw [hfour]
    · have hrest := hzero hfour
      rcases Nat.eq_zero_or_pos (p / w) with hitem | hitem <;>
        rcases Nat.eq_zero_or_pos (p / 4) with hgroup | hgroup
      · -- the first item, in the first group
        have hlow : p < w := (Nat.div_eq_zero_iff.mp hitem).resolve_left (by omega)
        rw [hitem, hgroup, Nat.mod_eq_of_lt hlow, Nat.mod_eq_of_lt (by omega)]
      · have hlow : p < w := (Nat.div_eq_zero_iff.mp hitem).resolve_left (by omega)
        rw [hitem, hrest (p / 4) hgroup (by omega), digit_zero, Nat.mod_eq_of_lt hlow]
        exact digit_of_lt (h32 0) (by omega)
      · have hhigh : w ≤ p := by
          by_contra hlow
          rw [Nat.div_eq_of_lt (Nat.not_le.mp hlow)] at hitem
          exact Nat.lt_irrefl 0 hitem
        rw [hrest (p / w) hitem (by rcases hw with rfl | rfl | rfl | rfl <;> omega), digit_zero,
          hgroup, Nat.mod_eq_of_lt (by omega)]
        exact (digit_of_lt (hwidth 0) hhigh).symm
      · rw [hrest (p / w) hitem (by rcases hw with rfl | rfl | rfl | rfl <;> omega),
          hrest (p / 4) hgroup (by omega), digit_zero, digit_zero]

end Agree

/-! ## The copy -/

/-- The copy of `n` words is of these. -/
def Copies (n : Nat) (data : List UInt8) (values : List UInt32) : Prop :=
  copyWords n data = some (values.take n)

theorem length_of_copyWords {n : Nat} {data : List UInt8} {words : List UInt32}
    (h : copyWords n data = some words) : words.length = n := by
  unfold copyWords at h
  split_ifs at h with hread
  rw [← Option.some.inj h, word32.length_decodeAll]

theorem copies_iff_bytes {n : Nat} {data : List UInt8} {values : List UInt32}
    (hn : n ≤ values.length) :
    Copies n data values ↔
      4 * n ≤ data.length ∧ data.take (4 * n) = word32.encodeAll (values.take n) := by
  have hlen : (values.take n).length = n := by
    rw [List.length_take, Nat.min_eq_left hn]
  have hwidth : (values.take n).length * word32.width = 4 * n := by
    rw [hlen, Nat.mul_comm]
    rfl
  unfold Copies copyWords
  split_ifs with hread
  · have hlong : (values.take n).length * word32.width ≤ data.length := by rwa [hwidth]
    have hiff := word32.decodeAll_eq_iff hlong
    rw [hwidth, hlen] at hiff
    rw [Option.some_inj, hiff]
    exact (and_iff_right hread).symm
  · exact iff_of_false (fun h => nomatch h) fun h => hread h.1

theorem copies_iff_words {n : Nat} {data : List UInt8} {values : List UInt32} :
    Copies n data values ↔
      4 * n ≤ data.length ∧ ∀ j < n, values[j]? = some (wordAt data j) := by
  have hword : ∀ j < n, (word32.decodeAll n data)[j]? = some (wordAt data j) := by
    intro j hj
    rw [word32.getElem?_decodeAll hj, wordAt, Nat.mul_comm]
    rfl
  unfold Copies copyWords
  split_ifs with hread
  · rw [Option.some_inj, and_iff_right hread]
    constructor
    · intro heq j hj
      rw [← hword j hj, heq, List.getElem?_take_of_lt hj]
    · intro hvalues
      refine List.ext_getElem? fun j => ?_
      by_cases hj : j < n
      · rw [hword j hj, List.getElem?_take_of_lt hj, hvalues j hj]
      · rw [List.getElem?_eq_none (by rw [word32.length_decodeAll]; omega),
          List.getElem?_take_eq_none (Nat.not_lt.mp hj)]
  · exact iff_of_false (fun h => nomatch h) fun h => hread h.1

/-- An array of 4-byte values. -/
theorem copies_encodeAll {n : Nat} {values : List UInt32} (hn : n ≤ values.length) :
    Copies n (word32.encodeAll values) values := by
  rw [copies_iff_bytes hn, word32.encodeAll_take hn, word32.length_encodeAll]
  refine ⟨?_, congrArg (List.take · _) (Nat.mul_comm 4 n)⟩
  show 4 * n ≤ values.length * 4
  omega

/-- The native bytes of numbers below `2 ^ 32`. -/
theorem encodeAll_ofNat {ns : List Nat} (h : ∀ v ∈ ns, v < 2 ^ 32) :
    word32.encodeAll (ns.map UInt32.ofNat) = ns.flatMap (le 4) := by
  rw [Codec.encodeAll, List.flatMap_map]
  refine List.flatMap_congr fun v hv => ?_
  show le 4 (UInt32.ofNat v).toNat = le 4 v
  rw [UInt32.toNat_ofNat_of_lt' (h v hv)]

theorem length_itemBytes (order : ByteOrder) (w m : Nat) : (itemBytes order w m).length = w := by
  cases order with
  | native => exact length_le w m
  | swapped => rw [itemBytes, List.length_reverse, length_le]

/-- Byte `p` of an array. -/
theorem getElem?_items (order : ByteOrder) {w : Nat} (hw : 0 < w) {ns : List Nat} {p : Nat}
    (h : p < ns.length * w) :
    (ns.flatMap (itemBytes order w))[p]? =
      some (UInt8.ofNat (digit (ns.getD (p / w) 0) (place order w (p % w)))) := by
  have hitem : p / w < ns.length := (Nat.div_lt_iff_lt_mul hw).mpr h
  rw [getElem?_flatMap (length_itemBytes order w) hw, List.getD_eq_getElem?_getD,
    List.getElem?_eq_getElem hitem]
  exact getElem?_itemBytes order (Nat.mod_lt p hw) _

theorem itemsize_cases (kind : IntKind) :
    kind.itemsize = 1 ∨ kind.itemsize = 2 ∨ kind.itemsize = 4 ∨ kind.itemsize = 8 := by
  cases kind <;> decide

theorem bound_le_pow_itemsize (kind : IntKind) : kind.bound ≤ 256 ^ kind.itemsize := by
  cases kind <;> decide

/-- An array of integers is copied right if and only if its bytes are those of
    native words. -/
theorem copies_iff_bytesAgree {a : IntArray} {n : Nat} (hn : n ≤ a.values.length) :
    Copies n a.data (a.values.map UInt32.ofNat) ↔
      4 * n ≤ a.values.length * a.kind.itemsize ∧
        BytesAgree a.order a.kind.itemsize n fun j => a.values.getD j 0 := by
  have hpos : 0 < a.kind.itemsize := by
    have hcases := itemsize_cases a.kind
    omega
  have hlen : a.data.length = a.values.length * a.kind.itemsize :=
    length_flatMap (length_itemBytes _ _) _
  have hmap : n ≤ (a.values.map UInt32.ofNat).length := by rwa [List.length_map]
  rw [copies_iff_bytes hmap, word32.encodeAll_take hmap,
    encodeAll_ofNat fun v hv => (a.fits v hv).2, hlen]
  refine and_congr_right fun hread => ?_
  rw [Nat.mul_comm n, show word32.width * n = 4 * n from rfl, take_eq_take_iff]
  refine forall₂_congr fun p hp => ?_
  have hword : (a.values.flatMap (le 4))[p]? =
      some (UInt8.ofNat (digit (a.values.getD (p / 4) 0) (p % 4))) :=
    getElem?_items .native (show 0 < 4 by decide) (by omega)
  rw [hword, IntArray.data, getElem?_items a.order hpos (Nat.lt_of_lt_of_le hp hread),
    Option.some_inj, ofNat_digit_inj]

theorem value_lt (a : IntArray) (j : Nat) :
    a.values.getD j 0 < a.kind.bound ∧ a.values.getD j 0 < 2 ^ 32 := by
  rw [List.getD_eq_getElem?_getD]
  cases hget : a.values[j]? with
  | none => exact ⟨by cases a.kind <;> decide, by decide⟩
  | some v => exact a.fits v (List.mem_of_getElem? hget)

/-- An array of integers that is read as words. -/
theorem tags_copies_iff {tags : TagsObject} {n : Nat} (hn : n ≤ tags.values.length) :
    Copies n tags.data tags.values ↔ TagsFit n tags := by
  cases tags with
  | list values inMemory => exact iff_of_true (copies_encodeAll hn) trivial
  | array a =>
    have hlen : n ≤ a.values.length := by rwa [TagsObject.values, List.length_map] at hn
    rw [TagsObject.data, TagsObject.values, copies_iff_bytesAgree hlen,
      bytesAgree_iff (itemsize_cases a.kind) (fun j => (value_lt a j).2)
        fun j => Nat.lt_of_lt_of_le (value_lt a j).1 (bound_le_pow_itemsize a.kind)]
    rfl

theorem dists_copies_iff {round : Rounding}
    (hround : ∀ b < 2 ^ 32, round .single b = UInt32.ofNat b) {dists : DistsObject} {n : Nat}
    (hn : n ≤ (dists.values round).length) :
    Copies n (dists.data round) (dists.values round) ↔ DistsFit round n dists := by
  cases dists with
  | list bits inMemory => exact iff_of_true (copies_encodeAll hn) trivial
  | array a =>
    have hlen : n ≤ a.bits.length := by rwa [DistsObject.values, List.length_map] at hn
    have hdata : a.data.length = a.bits.length * a.kind.itemsize :=
      length_flatMap (length_itemBytes _ _) _
    have hvalue : ∀ j < n, (a.bits.map (round a.kind))[j]? =
        some (round a.kind (a.bits.getD j 0)) := by
      intro j hj
      have hget := List.getElem?_eq_getElem (Nat.lt_of_lt_of_le hj hlen)
      rw [List.getElem?_map, List.getD_eq_getElem?_getD, hget]
      rfl
    have hwords : Copies n a.data (a.bits.map (round a.kind)) ↔
        4 * n ≤ a.bits.length * a.kind.itemsize ∧
          ∀ j < n, wordAt a.data j = round a.kind (a.bits.getD j 0) := by
      rw [copies_iff_words, hdata]
      refine and_congr_right fun _ => forall₂_congr fun j hj => ?_
      rw [hvalue j hj, Option.some_inj]
      exact eq_comm
    refine hwords.trans ⟨Or.inr, ?_⟩
    rintro (⟨hkind, horder⟩ | hwordsFit)
    · -- native `float32`: the items are the words
      rw [← hwords]
      have hfits : ∀ b ∈ a.bits, b < 2 ^ 32 := fun b hb => by
        have hb32 := a.fits b hb
        rwa [hkind] at hb32
      have hsingle : a.bits.map (round a.kind) = a.bits.map UInt32.ofNat := by
        rw [hkind]
        exact List.map_congr_left fun b hb => hround b (hfits b hb)
      have hbytes : a.data = word32.encodeAll (a.bits.map UInt32.ofNat) := by
        rw [encodeAll_ofNat hfits, FloatArray.data, hkind, horder]
        rfl
      rw [hsingle, hbytes]
      exact copies_encodeAll (by rwa [List.length_map])
    · exact hwordsFit

/-! ## The search -/

section Search

variable {round : Rounding} {K : UInt64} {tags : TagsObject} {dists : DistsObject}

theorem intp_of_lt (h : K.toNat < 2 ^ 63) : intp K = K.toNat :=
  BitVec.toInt_eq_toNat_of_lt (show 2 * K.toNat < 2 ^ 64 by omega)

theorem intp_of_ge (h : 2 ^ 63 ≤ K.toNat) : intp K < 0 := by
  have hlt := K.toNat_lt
  have hcast : intp K = (K.toNat : Int) - 2 ^ 64 :=
    BitVec.toInt_eq_toNat_cond K.toBitVec |>.trans (if_neg (show ¬ 2 * K.toNat < 2 ^ 64 by omega))
  omega

theorem resultSize_le_maxSize : resultSize round K tags dists ≤ maxSize := by
  have htags : tags.values.length < 2 ^ 61 := by
    cases tags with
    | array a =>
      rw [TagsObject.values, List.length_map]
      exact a.inMemory
    | list values inMemory => exact inMemory
  unfold resultSize maxSize
  omega

theorem resultSize_eq : min K.toNat (min tags.values.length (dists.values round).length) =
    resultSize round K tags dists := by
  rw [resultSize]

theorem resultSize_le_tags : resultSize round K tags dists ≤ tags.values.length :=
  (Nat.min_le_right _ _).trans (Nat.min_le_left _ _)

theorem resultSize_le_dists : resultSize round K tags dists ≤ (dists.values round).length :=
  (Nat.min_le_right _ _).trans (Nat.min_le_right _ _)

theorem searchImpl_eq (hK : K.toNat < 2 ^ 63) (hsome : resultSize round K tags dists ≠ 0) :
    searchImpl K tags.values.length (dists.values round).length tags.data (dists.data round) =
      match copyWords (resultSize round K tags dists) tags.data,
        copyWords (resultSize round K tags dists) (dists.data round) with
      | some tagsVec, some distsVec => some (.ok (tagsVec, distsVec))
      | _, _ => none := by
  have hsize : (if intp K ≤ tags.values.length ∧ intp K ≤ (dists.values round).length
      then K.toNat else resultSize round K tags dists) = resultSize round K tags dists := by
    split_ifs with hfull
    · rw [intp_of_lt hK] at hfull
      rw [← resultSize_eq]
      omega
    · rfl
  have hmax : ¬ maxSize < resultSize round K tags dists := Nat.not_lt.mpr resultSize_le_maxSize
  simp only [searchImpl, resultSize_eq, if_neg hsome, hsize, if_neg hmax]

/-- A search that finds results and reads nothing outside the arrays. -/
theorem search_eq {tagsVec distsVec : List UInt32} (hK : K.toNat < 2 ^ 63)
    (hsome : resultSize round K tags dists ≠ 0)
    (htags : copyWords (resultSize round K tags dists) tags.data = some tagsVec)
    (hdists : copyWords (resultSize round K tags dists) (dists.data round) = some distsVec) :
    search round K tags dists = some (.ok (tagsVec.zip distsVec ++
      List.replicate (K.toNat - resultSize round K tags dists) fillWords)) := by
  have hle : resultSize round K tags dists ≤ K.toNat := Nat.min_le_left _ _
  have htagsLen := length_of_copyWords htags
  have hdistsLen := length_of_copyWords hdists
  have hsize : min (min (resultSize round K tags dists) K.toNat) (resultSize round K tags dists) =
      resultSize round K tags dists := by omega
  rw [search, searchImpl_eq hK hsome, htags, hdists]
  simp only [htagsLen, hdistsLen, or_self, if_neg hsome, hsize]
  rw [List.take_of_length_le htagsLen.le, List.take_of_length_le hdistsLen.le]

/-- `K` that is negative as an `npy_intp` is a size that no vector has. -/
theorem search_of_ge (hK : 2 ^ 63 ≤ K.toNat) (hsome : resultSize round K tags dists ≠ 0) :
    search round K tags dists = some (.error "vector::_M_default_append") := by
  have hneg := intp_of_ge hK
  have hfull : intp K ≤ tags.values.length ∧ intp K ≤ (dists.values round).length := by omega
  have hmax : maxSize < K.toNat := by
    unfold maxSize
    omega
  rw [search]
  simp only [searchImpl, resultSize_eq, if_neg hsome, if_pos hfull, if_pos hmax]

/-- A copy past one of the arrays. -/
theorem search_of_overrun (hK : K.toNat < 2 ^ 63) (hsome : resultSize round K tags dists ≠ 0)
    (hshort : copyWords (resultSize round K tags dists) tags.data = none ∨
      copyWords (resultSize round K tags dists) (dists.data round) = none) :
    search round K tags dists = none := by
  rw [search, searchImpl_eq hK hsome]
  rcases hshort with htags | hdists
  · rw [htags]
  · rw [hdists]
    cases copyWords (resultSize round K tags dists) tags.data <;> rfl

theorem zip_values_iff {n : Nat} {tagsVec distsVec tags dists : List UInt32}
    {fill : List (UInt32 × UInt32)} (htagsVec : tagsVec.length = n)
    (hdistsVec : distsVec.length = n) (htags : n ≤ tags.length) (hdists : n ≤ dists.length) :
    (∀ j < n, (tagsVec.zip distsVec ++ fill)[j]? = (tags.zip dists)[j]?) ↔
      tagsVec = tags.take n ∧ distsVec = dists.take n := by
  have hlen : (tagsVec.zip distsVec).length = n := by
    rw [List.length_zip]
    omega
  have htagsTake : (tags.take n).length = n := by rw [List.length_take, Nat.min_eq_left htags]
  have hdistsTake : (dists.take n).length = n := by rw [List.length_take, Nat.min_eq_left hdists]
  rw [← take_eq_take_iff, List.take_left' hlen, List.zip_eq_zipWith, List.zip_eq_zipWith,
    List.take_zipWith, ← List.zip_eq_zipWith, ← List.zip_eq_zipWith]
  constructor
  · intro heq
    have hfst := congrArg (List.map Prod.fst) heq
    have hsnd := congrArg (List.map Prod.snd) heq
    rw [List.map_fst_zip (by omega), List.map_fst_zip (by omega)] at hfst
    rw [List.map_snd_zip (by omega), List.map_snd_zip (by omega)] at hsnd
    exact ⟨hfst, hsnd⟩
  · rintro ⟨rfl, rfl⟩
    rfl

/-- A search without an answer keeps nothing. -/
theorem answer_of_keepsValues (hsome : resultSize round K tags dists ≠ 0)
    (h : KeepsValues round K tags dists) :
    ∃ answer, search round K tags dists = some (.ok answer) := by
  obtain ⟨answer, hanswer, -⟩ := h 0 (Nat.pos_of_ne_zero hsome)
  exact ⟨answer, hanswer⟩

theorem keepsValues_of_answer {answer : List (UInt32 × UInt32)}
    (hanswer : search round K tags dists = some (.ok answer)) :
    KeepsValues round K tags dists ↔
      ∀ j < resultSize round K tags dists,
        answer[j]? = (tags.values.zip (dists.values round))[j]? := by
  constructor
  · intro hkeeps j hj
    obtain ⟨answer', hanswer', hvalue⟩ := hkeeps j hj
    rw [hanswer] at hanswer'
    rw [← hvalue, ← Except.ok.inj (Option.some.inj hanswer')]
  · intro hvalues j hj
    exact ⟨answer, hanswer, hvalues j hj⟩

/-- Each result is kept if and only if both arrays are copied right. -/
theorem keepsValues_iff_copies (hsome : resultSize round K tags dists ≠ 0) :
    KeepsValues round K tags dists ↔
      K.toNat < 2 ^ 63 ∧ Copies (resultSize round K tags dists) tags.data tags.values ∧
        Copies (resultSize round K tags dists) (dists.data round) (dists.values round) := by
  by_cases hK : K.toNat < 2 ^ 63
  · rw [and_iff_right hK]
    cases htags : copyWords (resultSize round K tags dists) tags.data with
    | none =>
      refine iff_of_false (fun hkeeps => ?_) fun hcopies => nomatch htags.symm.trans hcopies.1
      obtain ⟨answer, hanswer⟩ := answer_of_keepsValues hsome hkeeps
      rw [search_of_overrun hK hsome (Or.inl htags)] at hanswer
      cases hanswer
    | some tagsVec =>
      cases hdists : copyWords (resultSize round K tags dists) (dists.data round) with
      | none =>
        refine iff_of_false (fun hkeeps => ?_) fun hcopies => nomatch hdists.symm.trans hcopies.2
        obtain ⟨answer, hanswer⟩ := answer_of_keepsValues hsome hkeeps
        rw [search_of_overrun hK hsome (Or.inr hdists)] at hanswer
        cases hanswer
      | some distsVec =>
        -- both copies are there: the answer begins with them
        rw [keepsValues_of_answer (search_eq hK hsome htags hdists), Copies, Copies, htags, hdists,
          Option.some_inj, Option.some_inj]
        exact zip_values_iff (length_of_copyWords htags) (length_of_copyWords hdists)
          resultSize_le_tags resultSize_le_dists
  · refine iff_of_false (fun hkeeps => ?_) fun hcopies => hK hcopies.1
    obtain ⟨answer, hanswer⟩ := answer_of_keepsValues hsome hkeeps
    rw [search_of_ge (Nat.not_lt.mp hK) hsome] at hanswer
    cases Option.some.inj hanswer

/-- Arrays that are copied right are those of `PythonBackendWrapper.search`. -/
theorem search_of_copies {value : UInt32 → Double} (hinf : value fillWords.2 = .posInf)
    (hK : K.toNat < 2 ^ 63)
    (htags : Copies (resultSize round K tags dists) tags.data tags.values)
    (hdists : Copies (resultSize round K tags dists) (dists.data round) (dists.values round)) :
    (search round K tags dists).map (Except.map (List.map (Prod.map id value))) =
      some (PythonBackendWrapper.search K.toNat
        (some ⟨tags.values, (dists.values round).map value⟩)) := by
  have hfound := PythonBackendWrapper.length_found K.toNat
    ⟨tags.values, (dists.values round).map value⟩
  have hzip := PythonBackendWrapper.zip_take_found K.toNat
    ⟨tags.values, (dists.values round).map value⟩
  rw [PythonBackendWrapper.search_eq]
  rw [List.length_map] at hfound
  change _ = resultSize round K tags dists at hfound
  rw [hfound] at hzip ⊢
  by_cases hsome : resultSize round K tags dists = 0
  · rw [if_pos hsome, search]
    simp only [searchImpl, resultSize_eq, if_pos hsome]
    rfl
  · have hanswer := search_eq hK hsome htags hdists
    rw [if_neg hsome, hanswer, paddedAnswer, hfound, ← hzip]
    show some (Except.ok (List.map _ _)) = some (Except.ok (List.zip (tags.values.take _)
      (((dists.values round).map value).take _) ++ _))
    rw [List.map_append, List.map_replicate, ← List.map_take, List.zip_map_right, Prod.map, hinf]
    rfl

end Search

/-- The wrapper keeps the results there are if and only if `K` is one as an
    `npy_intp` and each of the two is a list, an array of native 4-byte items of
    its kind, or one whose bytes happen to be those of such an array. -/
theorem keepsValues_iff (round : Rounding) (hround : ∀ b < 2 ^ 32, round .single b = UInt32.ofNat b)
    (K : UInt64) (tags : TagsObject) (dists : DistsObject) :
    KeepsValues round K tags dists ↔
      resultSize round K tags dists = 0 ∨
      (K.toNat < 2 ^ 63 ∧ TagsFit (resultSize round K tags dists) tags ∧
        DistsFit round (resultSize round K tags dists) dists) := by
  by_cases hsome : resultSize round K tags dists = 0
  · refine iff_of_true (fun j hj => ?_) (Or.inl hsome)
    rw [hsome] at hj
    exact absurd hj (Nat.not_lt_zero j)
  · rw [keepsValues_iff_copies hsome, tags_copies_iff resultSize_le_tags,
      dists_copies_iff hround resultSize_le_dists, or_iff_right hsome]

/-- A rounding for arrays of `float32`. -/
def singleRounding : Rounding
  | .single, b => UInt32.ofNat b
  | _, _ => 0

/-- The distances 1.0 and 2.0. -/
def twoDists : DistsObject :=
  .array ⟨.single, .native, [0x3F800000, 0x40000000], by decide, by decide⟩

theorem keepsValues_uint32 :
    KeepsValues singleRounding 2 (.array ⟨.uint32, .native, [7, 9], by decide, by decide⟩)
      twoDists :=
  (keepsValues_iff singleRounding (fun _ _ => rfl) 2 _ _).mpr
    (Or.inr ⟨by decide, ⟨by decide, nofun, fun h => absurd rfl h⟩, Or.inl ⟨rfl, rfl⟩⟩)

/-- `np.array([7, 9])`: the second tag is the high half of the first.  Tags of 2
    bytes are read past their end. -/
theorem int64_tags_halved :
    search singleRounding 2 (.array ⟨.int64, .native, [7, 9], by decide, by decide⟩) twoDists =
      some (.ok [(7, 0x3F800000), (0, 0x40000000)]) ∧
    search singleRounding 2 (.array ⟨.int16, .native, [7, 9], by decide, by decide⟩) twoDists =
      none ∧
    ¬ KeepsValues singleRounding 2 (.array ⟨.int64, .native, [7, 9], by decide, by decide⟩)
      twoDists := by
  have hsearch : search singleRounding 2
      (.array ⟨.int64, .native, [7, 9], by decide, by decide⟩) twoDists =
        some (.ok [(7, 0x3F800000), (0, 0x40000000)]) := rfl
  refine ⟨hsearch, rfl, fun hkeeps => ?_⟩
  obtain ⟨answer, hanswer, hvalue⟩ := hkeeps 1 (by decide)
  rw [hsearch] at hanswer
  rw [← Except.ok.inj (Option.some.inj hanswer)] at hvalue
  exact absurd hvalue (by decide)

end ArrayCopy

end QvCache
