/-
  QvCache.Theta.PcaFile

  The PCA file of `PCAUtils`: `save_pca_to_file` and `load_pca_from_file`.  The
  file holds the three sizes and then, as raw memory, the mean, the components
  (column by column, as Eigen stores them), the minima and the maxima, either of
  the members of type `T` or of the float members.

  A file that was saved loads as the members that were saved (`load_save`); the
  writes are taken to succeed.  The reads are not checked: a file that ends early
  is loaded with whatever the variables and buffers held before.
-/

import QvCache.Lib.Bytes
import QvCache.Theta.RegionKeys

namespace QvCache

open Bytes

/-! ## The object -/

/-- The sizes of a `PCAUtils` that was constructed. -/
structure PcaSizes where
  dim : UInt64
  pcaDim : UInt64
  bucketsPerDim : UInt64
  fits : pcaDim.toNat ≤ regionKeyCap

def PcaSizes.shape (sz : PcaSizes) : PcaShape where
  pcaDim := sz.pcaDim.toNat
  bucketsPerDim := sz.bucketsPerDim.toNat
  fits := sz.fits

/-- The learned members, in the order of their memory. -/
structure PcaMembers (α : Type) where
  mean : List α
  components : List α
  pcaMin : List α
  pcaMax : List α

/-- The members have the sizes of the object. -/
structure PcaMembers.Sized {α : Type} (sz : PcaSizes) (m : PcaMembers α) : Prop where
  mean : m.mean.length = sz.dim.toNat
  components : m.components.length = sz.dim.toNat * sz.pcaDim.toNat
  pcaMin : m.pcaMin.length = sz.pcaDim.toNat
  pcaMax : m.pcaMax.length = sz.pcaDim.toNat

/-- The members of type `T` and the float members. -/
structure PcaTables (α β : Type) where
  own : PcaMembers α
  float : PcaMembers β

namespace PcaFile

variable {α β : Type}

/-! ## Saving -/

/-- The three sizes as they stand in the file. -/
def header (dim pcaDim bucketsPerDim : UInt64) : List UInt8 :=
  word64.encode dim ++ (word64.encode pcaDim ++ word64.encode bucketsPerDim)

def writeMembers (c : Codec α) (sz : PcaSizes) (m : PcaMembers α) : List UInt8 :=
  c.encodeAll (m.mean.take sz.dim.toNat) ++
    (c.encodeAll (m.components.take (sz.dim.toNat * sz.pcaDim.toNat)) ++
      (c.encodeAll (m.pcaMin.take sz.pcaDim.toNat) ++
        c.encodeAll (m.pcaMax.take sz.pcaDim.toNat)))

def savePcaToFile (t : Codec α) (f : Codec β) (sz : PcaSizes) (tables : PcaTables α β)
    (isFloat : Bool) : List UInt8 :=
  header sz.dim sz.pcaDim sz.bucketsPerDim ++
    if isFloat then writeMembers f sz tables.float else writeMembers t sz tables.own

/-! ## Loading -/

/-- What the variables and the buffers hold before they are read into. -/
structure Uninitialized where
  fileDim : UInt64
  filePcaDim : UInt64
  fileBucketsPerDim : UInt64
  mean : Nat → UInt8
  components : Nat → UInt8
  pcaMin : Nat → UInt8
  pcaMax : Nat → UInt8

/-- The value of a word after a read into it. -/
def readWord (input : List UInt8) (w : UInt64) : UInt64 :=
  word64.decode (overlay input (word64.encode w))

/-- The values of an array of `n` after a read into it. -/
def readArray (c : Codec α) (n : Nat) (before : Nat → UInt8) (input : List UInt8) : List α :=
  c.decodeAll n (overlay input ((List.range (n * c.width)).map before))

def readMembers (c : Codec α) (sz : PcaSizes) (u : Uninitialized) (input : List UInt8) :
    PcaMembers α :=
  let dim := sz.dim.toNat
  let pcaDim := sz.pcaDim.toNat
  let afterMean := input.drop (dim * c.width)
  let afterComponents := afterMean.drop (dim * pcaDim * c.width)
  let afterMin := afterComponents.drop (pcaDim * c.width)
  { mean := readArray c dim u.mean input
    components := readArray c (dim * pcaDim) u.components afterMean
    pcaMin := readArray c pcaDim u.pcaMin afterComponents
    pcaMax := readArray c pcaDim u.pcaMax afterMin }

/-- `file` is `none` where it cannot be opened. -/
def loadPcaFromFile (t : Codec α) (f : Codec β) (sz : PcaSizes) (tables : PcaTables α β)
    (u : Uninitialized) (isFloat : Bool) (file : Option (List UInt8)) : PcaTables α β × Bool :=
  match file with
  | none => (tables, false)
  | some input =>
    let fileDim := readWord input u.fileDim
    let filePcaDim := readWord (input.drop 8) u.filePcaDim
    let fileBucketsPerDim := readWord (input.drop 16) u.fileBucketsPerDim
    if fileDim ≠ sz.dim ∨ filePcaDim ≠ sz.pcaDim ∨ fileBucketsPerDim ≠ sz.bucketsPerDim then
      (tables, false)
    else if isFloat then ({ tables with float := readMembers f sz u (input.drop 24) }, true)
    else ({ tables with own := readMembers t sz u (input.drop 24) }, true)

/-! ## The region key -/

/-- What the key uses of an element type.  `dot` is a row times a column, summed
    in the order of Eigen; `buckets` is `static_cast<size_t>(norm * BUCKETS_PER_DIM)`. -/
structure Arith (α : Type) where
  zero : α
  one : α
  sub : α → α → α
  div : α → α → α
  lt : α → α → Bool
  eq : α → α → Bool
  dot : List α → List α → α
  buckets : α → UInt64 → UInt64

/-- `key[i]`. -/
def Arith.keyByte (a : Arith α) (bucketsPerDim : UInt64) (minv maxv val : α) : UInt8 :=
  if a.eq maxv minv then 0
  else
    let norm := a.div (a.sub val minv) (a.sub maxv minv)
    let norm := if a.lt norm a.zero then a.zero else norm
    let norm := if a.lt a.one norm then a.one else norm
    -- `std::min<size_t>`
    let bucket := a.buckets norm bucketsPerDim
    (if bucket < bucketsPerDim - 1 then bucket else bucketsPerDim - 1).toUInt8

/-- Column `i` of the components. -/
def column (sz : PcaSizes) (m : PcaMembers α) (i : Nat) : List α :=
  (m.components.drop (i * sz.dim.toNat)).take sz.dim.toNat

/-- The loop over the axes. -/
def memberKey (a : Arith α) (sz : PcaSizes) (m : PcaMembers α) (vec : List α) : RegionKey :=
  (List.range sz.pcaDim.toNat).map fun i =>
    a.keyByte sz.bucketsPerDim (m.pcaMin.getD i a.zero) (m.pcaMax.getD i a.zero)
      (a.dot (List.zipWith a.sub vec m.mean) (column sz m i))

/-- `compute_region_key`; `isFloating` is `std::is_floating_point<T>`, `cast` the
    cast of an element to a float. -/
def computeRegionKey (t : Arith α) (f : Arith β) (cast : α → β) (sz : PcaSizes)
    (isFloating : Bool) (tables : PcaTables α β) (vec : List α) : RegionKey :=
  if isFloating then memberKey t sz tables.own vec
  else memberKey f sz tables.float (vec.map cast)

/-! ## The key in exact arithmetic -/

def exactArith : Arith ℚ where
  zero := 0
  one := 1
  sub := (· - ·)
  div := (· / ·)
  lt x y := decide (x < y)
  eq x y := decide (x = y)
  dot row col := (List.zipWith (· * ·) row col).sum
  buckets norm n := UInt64.ofNat ⌊norm * n.toNat⌋₊

/-- The members that hold these axes and ranges. -/
def membersOf {sz : PcaSizes} (axes : PcaAxes sz.dim.toNat sz.shape) (r : PcaRanges sz.shape) :
    PcaMembers ℚ where
  mean := List.ofFn axes.pcaMean
  components := (List.ofFn fun i => List.ofFn fun j => axes.pcaComponents j i).flatten
  pcaMin := List.ofFn r.pcaMin
  pcaMax := List.ofFn r.pcaMax

theorem clampNorm_le_one (norm : ℚ) : clampNorm norm ≤ 1 := by
  rw [clampNorm_eq]
  exact max_le zero_le_one (min_le_right _ _)

/-- `std::min<size_t>(n - 1, b)`, for an index of at most `n`. -/
theorem toNat_min_pred {n b : UInt64} (h : b ≤ n) :
    (if b < n - 1 then b else n - 1).toNat = min (n.toNat - 1) b.toNat := by
  by_cases hz : n = 0
  · have hb : b = 0 := UInt64.le_zero_iff.mp (hz ▸ h)
    rw [hz, hb]
    rfl
  · have hne : n.toNat ≠ 0 := fun h => hz (UInt64.toNat_inj.mp h)
    have hpos : 1 ≤ n := UInt64.le_iff_toNat_le.mpr (Nat.one_le_iff_ne_zero.mpr hne)
    have hpred : (n - 1).toNat = n.toNat - 1 := UInt64.toNat_sub_of_le n 1 hpos
    split_ifs with hlt
    · rw [UInt64.lt_iff_toNat_lt, hpred] at hlt
      exact (Nat.min_eq_right hlt.le).symm
    · rw [UInt64.lt_iff_toNat_lt, hpred, Nat.not_lt] at hlt
      rw [hpred, Nat.min_eq_left hlt]

/-- No bucket index overflows a `size_t`. -/
theorem keyByte_exactArith (n : UInt64) (minv maxv val : ℚ) :
    exactArith.keyByte n minv maxv val = QvCache.keyByte n.toNat minv maxv val := by
  have hfloor : ⌊clampNorm ((val - minv) / (maxv - minv)) * n.toNat⌋₊ ≤ n.toNat :=
    Nat.floor_le_of_le (mul_le_of_le_one_left (Nat.cast_nonneg _) (clampNorm_le_one _))
  have htoNat := UInt64.toNat_ofNat_of_lt' (hfloor.trans_lt n.toNat_lt)
  simp only [Arith.keyByte, exactArith, decide_eq_true_eq]
  rw [QvCache.keyByte, bucketOf]
  refine if_congr Iff.rfl rfl (UInt8.toNat_inj.mp ?_)
  rw [UInt64.toNat_toUInt8, UInt8.toNat_ofNat', ← clampNorm,
    toNat_min_pred (UInt64.le_iff_toNat_le.mpr (htoNat.trans_le hfloor)), htoNat]

theorem take_drop_flatten {n : Nat} (cols : List (List α)) (h : ∀ c ∈ cols, c.length = n)
    (i : Nat) : (cols.flatten.drop (i * n)).take n = cols.getD i [] := by
  induction cols generalizing i with
  | nil => rw [List.flatten_nil, List.drop_nil, List.take_nil, List.getD_nil]
  | cons c rest ih =>
    have hc := h c List.mem_cons_self
    cases i with
    | zero =>
      rw [Nat.zero_mul, List.flatten_cons, List.drop_zero, List.take_left' hc,
        List.getD_cons_zero]
    | succ i =>
      rw [List.flatten_cons, Nat.succ_mul, Nat.add_comm, ← List.drop_drop, List.drop_left' hc,
        ih (fun c hc => h c (List.mem_cons_of_mem _ hc)), List.getD_cons_succ]

theorem column_membersOf {sz : PcaSizes} (axes : PcaAxes sz.dim.toNat sz.shape)
    (r : PcaRanges sz.shape) (i : Fin sz.shape.pcaDim) :
    column sz (membersOf axes r) i = List.ofFn fun j => axes.pcaComponents j i := by
  have hcols : ∀ c ∈ List.ofFn fun i => List.ofFn fun j => axes.pcaComponents j i,
      c.length = sz.dim.toNat := by
    intro c hc
    obtain ⟨i, rfl⟩ := List.mem_ofFn.mp hc
    exact List.length_ofFn
  rw [column, membersOf, take_drop_flatten _ hcols, List.getD_eq_getElem?_getD,
    List.getElem?_ofFn, dif_pos i.isLt]
  rfl

theorem zipWith_ofFn {γ : Type} {n : Nat} (g : α → β → γ) (xs : Fin n → α) (ys : Fin n → β) :
    List.zipWith g (List.ofFn xs) (List.ofFn ys) = List.ofFn fun i => g (xs i) (ys i) := by
  refine List.ext_getElem ?_ fun i hi hi' => ?_
  · rw [List.length_zipWith, List.length_ofFn, List.length_ofFn, List.length_ofFn, Nat.min_self]
  · rw [List.getElem_zipWith, List.getElem_ofFn, List.getElem_ofFn, List.getElem_ofFn]

/-- In exact arithmetic the key is the key of `PcaRanges`. -/
theorem memberKey_membersOf {sz : PcaSizes} (axes : PcaAxes sz.dim.toNat sz.shape)
    (r : PcaRanges sz.shape) (vec : Fin sz.dim.toNat → ℚ) :
    memberKey exactArith sz (membersOf axes r) (List.ofFn vec) = r.computeRegionKey axes vec := by
  refine List.ext_getElem ?_ fun i hi hi' => ?_
  · rw [memberKey, PcaRanges.computeRegionKey, PcaRanges.length_bucketCodes, List.length_map,
      List.length_range]
    rfl
  · rw [PcaRanges.computeRegionKey, PcaRanges.length_bucketCodes] at hi'
    have hproj : exactArith.dot
        (List.zipWith exactArith.sub (List.ofFn vec) (membersOf axes r).mean)
        (column sz (membersOf axes r) i) = axes.project vec ⟨i, hi'⟩ := by
      rw [column_membersOf axes r ⟨i, hi'⟩]
      show (List.zipWith _ (List.zipWith _ _ (List.ofFn axes.pcaMean)) _).sum = _
      rw [zipWith_ofFn, zipWith_ofFn, List.sum_ofFn]
      rfl
    have hget : ∀ g : Fin sz.shape.pcaDim → ℚ,
        (List.ofFn g).getD i exactArith.zero = g ⟨i, hi'⟩ := by
      intro g
      rw [List.getD_eq_getElem?_getD, List.getElem?_ofFn, dif_pos hi']
      rfl
    have hmin : (membersOf axes r).pcaMin.getD i exactArith.zero = r.pcaMin ⟨i, hi'⟩ := hget _
    have hmax : (membersOf axes r).pcaMax.getD i exactArith.zero = r.pcaMax ⟨i, hi'⟩ := hget _
    simp only [memberKey, PcaRanges.computeRegionKey, PcaRanges.bucketCodes]
    rw [List.getElem_map, List.getElem_range, List.getElem_ofFn, keyByte_exactArith, hproj, hmin,
      hmax]
    rfl

/-! ## The header -/

theorem length_header (dim pcaDim bucketsPerDim : UInt64) :
    (header dim pcaDim bucketsPerDim).length = 24 := rfl

theorem drop_header (dim pcaDim buckets : UInt64) (rest : List UInt8) :
    (header dim pcaDim buckets ++ rest).drop 24 = rest :=
  List.drop_left' (length_header dim pcaDim buckets)

/-- A read of a whole header. -/
theorem overlay_header (dim pcaDim buckets dim' pcaDim' buckets' : UInt64) (rest : List UInt8) :
    overlay (header dim pcaDim buckets ++ rest) (header dim' pcaDim' buckets') =
      header dim pcaDim buckets :=
  overlay_append_left rest ((length_header _ _ _).trans (length_header _ _ _).symm)

theorem readWord_eq_iff {input : List UInt8} {w v : UInt64} :
    readWord input w = v ↔ overlay input (word64.encode w) = word64.encode v := by
  constructor
  · rintro rfl
    exact (word64.encode_decode _ (length_overlay _ _)).symm
  · intro h
    rw [readWord, h, word64.decode_encode]

/-- The three words agree if and only if the 24 bytes do. -/
theorem header_read_iff (input : List UInt8) (u : Uninitialized) (dim pcaDim buckets : UInt64) :
    (readWord input u.fileDim = dim ∧ readWord (input.drop 8) u.filePcaDim = pcaDim ∧
        readWord (input.drop 16) u.fileBucketsPerDim = buckets) ↔
      overlay input (header u.fileDim u.filePcaDim u.fileBucketsPerDim) =
        header dim pcaDim buckets := by
  have hlen : ∀ w : UInt64, (word64.encode w).length = 8 := word64.length_encode
  rw [readWord_eq_iff, readWord_eq_iff, readWord_eq_iff, header, header, overlay_append,
    overlay_append, List.drop_drop, hlen, hlen]
  constructor
  · rintro ⟨h₁, h₂, h₃⟩
    rw [h₁, h₂, h₃]
  · intro h
    obtain ⟨h₁, hrest⟩ := List.append_inj h (by rw [length_overlay, hlen, hlen])
    obtain ⟨h₂, h₃⟩ := List.append_inj hrest (by rw [length_overlay, hlen, hlen])
    exact ⟨h₁, h₂, h₃⟩

theorem header_inj {dim pcaDim buckets dim' pcaDim' buckets' : UInt64}
    (h : header dim pcaDim buckets = header dim' pcaDim' buckets') :
    (dim, pcaDim, buckets) = (dim', pcaDim', buckets') := by
  have hlen : ∀ w v : UInt64, (word64.encode w).length = (word64.encode v).length := fun w v => by
    rw [word64.length_encode, word64.length_encode]
  obtain ⟨h₁, hrest⟩ := List.append_inj h (hlen _ _)
  obtain ⟨h₂, h₃⟩ := List.append_inj hrest (hlen _ _)
  rw [word64.encode_inj h₁, word64.encode_inj h₂, word64.encode_inj h₃]

/-- A load past the header. -/
theorem load_of_header {t : Codec α} {f : Codec β} {sz : PcaSizes} {tables : PcaTables α β}
    {u : Uninitialized} {isFloat : Bool} {input : List UInt8}
    (h : overlay input (header u.fileDim u.filePcaDim u.fileBucketsPerDim) =
      header sz.dim sz.pcaDim sz.bucketsPerDim) :
    loadPcaFromFile t f sz tables u isFloat (some input) =
      (if isFloat then { tables with float := readMembers f sz u (input.drop 24) }
        else { tables with own := readMembers t sz u (input.drop 24) }, true) := by
  obtain ⟨h₁, h₂, h₃⟩ := (header_read_iff input u _ _ _).mpr h
  rw [loadPcaFromFile, if_neg (by rw [h₁, h₂, h₃]; simp)]
  cases isFloat <;> rfl

theorem load_of_other_header {t : Codec α} {f : Codec β} {sz : PcaSizes} {tables : PcaTables α β}
    {u : Uninitialized} {isFloat : Bool} {input : List UInt8}
    (h : overlay input (header u.fileDim u.filePcaDim u.fileBucketsPerDim) ≠
      header sz.dim sz.pcaDim sz.bucketsPerDim) :
    loadPcaFromFile t f sz tables u isFloat (some input) = (tables, false) := by
  rw [loadPcaFromFile]
  refine if_pos ?_
  by_contra hnone
  rw [not_or, not_or, not_not, not_not, not_not] at hnone
  exact h ((header_read_iff input u _ _ _).mp hnone)

/-! ## Round trip -/

theorem readArray_encodeAll (c : Codec α) {n : Nat} {as : List α} (h : as.length = n)
    (before : Nat → UInt8) (rest : List UInt8) :
    readArray c n before (c.encodeAll as ++ rest) = as := by
  have hlen : (c.encodeAll as).length = ((List.range (n * c.width)).map before).length := by
    rw [c.length_encodeAll, List.length_map, List.length_range, h]
  rw [readArray, overlay_append_left rest hlen, ← h, c.decodeAll_encodeAll]

theorem drop_encodeAll (c : Codec α) {n : Nat} {as : List α} (h : as.length = n)
    (rest : List UInt8) : (c.encodeAll as ++ rest).drop (n * c.width) = rest :=
  List.drop_left' (by rw [c.length_encodeAll, h])

/-- Members of the right sizes are read as they were written. -/
theorem readMembers_writeMembers (c : Codec α) {sz : PcaSizes} {m : PcaMembers α}
    (h : m.Sized sz) (u : Uninitialized) : readMembers c sz u (writeMembers c sz m) = m := by
  have hmax := readArray_encodeAll c h.pcaMax u.pcaMax []
  rw [List.append_nil] at hmax
  rw [readMembers, writeMembers, List.take_of_length_le h.mean.le,
    List.take_of_length_le h.components.le, List.take_of_length_le h.pcaMin.le,
    List.take_of_length_le h.pcaMax.le,
    drop_encodeAll c h.mean, drop_encodeAll c h.components, drop_encodeAll c h.pcaMin,
    readArray_encodeAll c h.mean, readArray_encodeAll c h.components,
    readArray_encodeAll c h.pcaMin, hmax]

/-- Sized members that the flag selects. -/
def Saves (sz : PcaSizes) (tables : PcaTables α β) (isFloat : Bool) : Prop :=
  if isFloat then tables.float.Sized sz else tables.own.Sized sz

theorem load_save (t : Codec α) (f : Codec β) {sz : PcaSizes} {saved : PcaTables α β}
    {isFloat : Bool} (h : Saves sz saved isFloat) (fresh : PcaTables α β) (u : Uninitialized) :
    loadPcaFromFile t f sz fresh u isFloat (some (savePcaToFile t f sz saved isFloat)) =
      (if isFloat then { fresh with float := saved.float }
        else { fresh with own := saved.own }, true) := by
  unfold Saves at h
  rw [savePcaToFile, load_of_header (overlay_header _ _ _ _ _ _ _), drop_header]
  cases isFloat with
  | false =>
    rw [if_neg Bool.false_ne_true] at h
    simp only [Bool.false_eq_true, if_false, readMembers_writeMembers t h]
  | true =>
    rw [if_pos rfl] at h
    simp only [if_true, readMembers_writeMembers f h]

/-- A file that was saved loads as the members that were saved, with the same
    region keys, in an object of the same sizes, and in no other. -/
theorem pca_round_trip (t : Codec α) (f : Codec β) (sz : PcaSizes) (saved : PcaTables α β)
    (isFloat : Bool) (h : Saves sz saved isFloat) :
    (∀ fresh u, loadPcaFromFile t f sz fresh u isFloat
        (some (savePcaToFile t f sz saved isFloat)) =
      (if isFloat then { fresh with float := saved.float }
        else { fresh with own := saved.own }, true)) ∧
    (∀ fresh u ta fa cast vec,
      computeRegionKey ta fa cast sz (!isFloat)
          (loadPcaFromFile t f sz fresh u isFloat
            (some (savePcaToFile t f sz saved isFloat))).1 vec =
        computeRegionKey ta fa cast sz (!isFloat) saved vec) ∧
    ∀ (sz' : PcaSizes) fresh u,
      (sz'.dim, sz'.pcaDim, sz'.bucketsPerDim) ≠ (sz.dim, sz.pcaDim, sz.bucketsPerDim) →
      loadPcaFromFile t f sz' fresh u isFloat (some (savePcaToFile t f sz saved isFloat)) =
        (fresh, false) := by
  refine ⟨load_save t f h, fun fresh u ta fa cast vec => ?_, fun sz' fresh u hsizes => ?_⟩
  · rw [load_save t f h]
    cases isFloat <;> rfl
  · refine load_of_other_header fun heq => hsizes ?_
    -- the header that is read is the one that was written
    have hread : header sz.dim sz.pcaDim sz.bucketsPerDim =
        header sz'.dim sz'.pcaDim sz'.bucketsPerDim := by
      rw [← heq]
      exact (overlay_header _ _ _ _ _ _ _).symm
    exact (header_inj hread).symm

/-- Sizes with one component and one axis. -/
def unitSizes (bucketsPerDim : UInt64) : PcaSizes := ⟨1, 1, bucketsPerDim, by decide⟩

/-- A mean of 1.0, the axis 1.0 and the range from 0.0 to 2.0. -/
def unitTables : PcaTables UInt8 UInt32 where
  own := ⟨[], [], [], []⟩
  float := ⟨[0x3F800000], [0x3F800000], [0], [0x40000000]⟩

def noTables : PcaTables UInt8 UInt32 := ⟨⟨[], [], [], []⟩, ⟨[], [], [], []⟩⟩

def zeroMemory : Uninitialized := ⟨0, 0, 0, fun _ => 0, fun _ => 0, fun _ => 0, fun _ => 0⟩

/-- Sizes with three components and two axes. -/
def planeSizes (bucketsPerDim : UInt64) : PcaSizes := ⟨3, 2, bucketsPerDim, by decide⟩

/-- The mean (1, 2, 3), the first and the third axis, and ranges from -1 to 2 and from
    -2 to 4. -/
def planeTables : PcaTables UInt8 UInt32 where
  own := ⟨[], [], [], []⟩
  float := ⟨[0x3F800000, 0x40000000, 0x40400000],
    [0x3F800000, 0, 0, 0, 0, 0x3F800000],
    [0xBF800000, 0xC0000000], [0x40000000, 0x40800000]⟩

theorem pca_round_trip_plane :
    loadPcaFromFile byte word32 (planeSizes 4) noTables zeroMemory true
        (some (savePcaToFile byte word32 (planeSizes 4) planeTables true)) = (planeTables, true) ∧
    loadPcaFromFile byte word32 (planeSizes 8) noTables zeroMemory true
        (some (savePcaToFile byte word32 (planeSizes 4) planeTables true)) = (noTables, false) :=
  have hsaves : Saves (planeSizes 4) planeTables true := ⟨rfl, rfl, rfl, rfl⟩
  have hround := pca_round_trip byte word32 (planeSizes 4) planeTables true hsaves
  ⟨hround.1 noTables zeroMemory, hround.2.2 (planeSizes 8) noTables zeroMemory (by decide)⟩

/-! ## Damaged files -/

/-- The size of the arrays in the file. -/
def payloadLength (width : Nat) (sz : PcaSizes) : Nat :=
  (sz.dim.toNat + sz.dim.toNat * sz.pcaDim.toNat + sz.pcaDim.toNat + sz.pcaDim.toNat) * width

/-- The file has the header for these sizes and all of the arrays. -/
def Complete (t : Codec α) (f : Codec β) (sz : PcaSizes) (isFloat : Bool) (input : List UInt8) :
    Prop :=
  header sz.dim sz.pcaDim sz.bucketsPerDim <+: input ∧
    24 + payloadLength (if isFloat then f.width else t.width) sz ≤ input.length

/-- Only a complete file is loaded, and a file that is not loaded changes
    nothing. -/
def RejectsDamage (t : Codec α) (f : Codec β) (sz : PcaSizes) (isFloat : Bool)
    (input : List UInt8) : Prop :=
  ∀ tables u,
    ((loadPcaFromFile t f sz tables u isFloat (some input)).2 = true →
      Complete t f sz isFloat input) ∧
    ((loadPcaFromFile t f sz tables u isFloat (some input)).2 = false →
      (loadPcaFromFile t f sz tables u isFloat (some input)).1 = tables)

/-- The load is safe with the files that are long enough and with those whose
    first 24 bytes, or all of them if there are fewer, are not those of the
    header for these sizes. -/
theorem rejectsDamage_iff (t : Codec α) (f : Codec β) (sz : PcaSizes) (isFloat : Bool)
    (input : List UInt8) :
    RejectsDamage t f sz isFloat input ↔
      24 + payloadLength (if isFloat then f.width else t.width) sz ≤ input.length ∨
        ¬ input.take 24 <+: header sz.dim sz.pcaDim sz.bucketsPerDim := by
  constructor
  · intro hsafe
    by_cases hprefix : input.take 24 <+: header sz.dim sz.pcaDim sz.bucketsPerDim
    · -- the variables hold what the end of the header would have written
      let u : Uninitialized :=
        { fileDim := sz.dim, filePcaDim := sz.pcaDim, fileBucketsPerDim := sz.bucketsPerDim
          mean := fun _ => 0, components := fun _ => 0, pcaMin := fun _ => 0, pcaMax := fun _ => 0 }
      have hload : (loadPcaFromFile t f sz ⟨⟨[], [], [], []⟩, ⟨[], [], [], []⟩⟩ u isFloat
          (some input)).2 = true := by
        rw [load_of_header (overlay_eq_self (by rw [length_header]; exact hprefix))]
      exact Or.inl ((hsafe _ u).1 hload).2
    · exact Or.inr hprefix
  · intro hinput tables u
    by_cases hread : overlay input (header u.fileDim u.filePcaDim u.fileBucketsPerDim) =
        header sz.dim sz.pcaDim sz.bucketsPerDim
    · -- a load that succeeds has read a part of the header
      have hprefix : input.take 24 <+: header sz.dim sz.pcaDim sz.bucketsPerDim :=
        ⟨_, hread⟩
      have hlong := hinput.resolve_right (not_not.mpr hprefix)
      have heq := hprefix.eq_of_length (by rw [List.length_take, length_header]; omega)
      rw [load_of_header hread]
      exact ⟨fun _ => ⟨heq ▸ List.take_prefix 24 input, hlong⟩, fun h => nomatch h⟩
    · rw [load_of_other_header hread]
      exact ⟨fun h => absurd h Bool.false_ne_true, fun _ => rfl⟩

/-- The first 24 bytes of a saved file are loaded: the members are what the
    memory held. -/
theorem header_alone_loads :
    header 1 1 4 <+: savePcaToFile byte word32 (unitSizes 4) unitTables true ∧
    (header 1 1 4).length < (savePcaToFile byte word32 (unitSizes 4) unitTables true).length ∧
    loadPcaFromFile byte word32 (unitSizes 4) noTables zeroMemory true (some (header 1 1 4)) =
      ({ noTables with float := ⟨[0], [0], [0], [0]⟩ }, true) ∧
    ¬ RejectsDamage byte word32 (unitSizes 4) true (header 1 1 4) := by
  have hload : loadPcaFromFile byte word32 (unitSizes 4) noTables zeroMemory true
      (some (header 1 1 4)) = ({ noTables with float := ⟨[0], [0], [0], [0]⟩ }, true) := by
    rw [load_of_header rfl]
    rfl
  refine ⟨List.prefix_append _ _, by decide, hload, fun hsafe => ?_⟩
  have hcomplete := (hsafe noTables zeroMemory).1 (by rw [hload])
  exact absurd hcomplete.2 (by decide)

end PcaFile

end QvCache
