/-
  QvCache.Theta.RegionKeys

  `compute_region_key` (include/qvcache/pca_utils.h) in exact arithmetic: the
  projection of a vector on the principal axes, the bucket of each coordinate,
  and the byte that the key keeps of it.  Every bucket index fits its byte when
  `BUCKETS_PER_DIM` is at most 256, which the constructor does not check.
-/

import QvCache.Theta.WriteRadius
import Mathlib.Data.Rat.Floor
import Mathlib.Algebra.BigOperators.Fin
import Mathlib.Algebra.Order.Floor.Semiring

namespace QvCache

/-! ## The constructor -/

/-- `RegionKey::cap`. -/
def regionKeyCap : Nat := 32

/-- The sizes of a `PCAUtils` that its keys depend on. -/
structure PcaShape where
  pcaDim : Nat
  bucketsPerDim : Nat
  fits : pcaDim ≤ regionKeyCap

/-- The constructor, which checks `pca_dim` and nothing else. -/
def newPcaUtils (pcaDim bucketsPerDim : Nat) : Except String PcaShape :=
  if fits : pcaDim ≤ regionKeyCap then .ok ⟨pcaDim, bucketsPerDim, fits⟩
  else .error "pca_dim exceeds inline region-key capacity"

/-- The axes of `construct_pca_from_data`, for vectors of `dim` components. -/
structure PcaAxes (dim : Nat) (sh : PcaShape) where
  pcaMean : Fin dim → ℚ
  pcaComponents : Fin dim → Fin sh.pcaDim → ℚ

/-- The least and the greatest projection of the sampled rows on each axis. -/
structure PcaRanges (sh : PcaShape) where
  pcaMin : Fin sh.pcaDim → ℚ
  pcaMax : Fin sh.pcaDim → ℚ
  ordered : ∀ i, pcaMin i ≤ pcaMax i

/-! ## From a projected value to a byte -/

/-- The two guards on `norm`. -/
def clampNorm (norm : ℚ) : ℚ :=
  let norm := if norm < 0 then 0 else norm
  if 1 < norm then 1 else norm

/-- `bucket`, before it is stored. -/
def bucketOf (bucketsPerDim : Nat) (minv maxv val : ℚ) : Nat :=
  min (bucketsPerDim - 1) ⌊clampNorm ((val - minv) / (maxv - minv)) * bucketsPerDim⌋₊

/-- `key[i]`.  The float and the integer branch run the same formula. -/
def keyByte (bucketsPerDim : Nat) (minv maxv val : ℚ) : UInt8 :=
  if maxv = minv then 0 else UInt8.ofNat (bucketOf bucketsPerDim minv maxv val)

variable {dim : Nat} {sh : PcaShape}

/-- `(v - pca_mean) * pca_components.leftCols(PCA_DIM)`. -/
def PcaAxes.project (axes : PcaAxes dim sh) (vec : Fin dim → ℚ) (i : Fin sh.pcaDim) : ℚ :=
  ∑ j, (vec j - axes.pcaMean j) * axes.pcaComponents j i

namespace PcaRanges

/-- The loop over the axes. -/
def bucketCodes (r : PcaRanges sh) (proj : Fin sh.pcaDim → ℚ) : RegionKey :=
  List.ofFn fun i => keyByte sh.bucketsPerDim (r.pcaMin i) (r.pcaMax i) (proj i)

def computeRegionKey (r : PcaRanges sh) (axes : PcaAxes dim sh) (vec : Fin dim → ℚ) : RegionKey :=
  r.bucketCodes (axes.project vec)

/-- The configuration of the threshold store over these vectors. -/
def toConfig (r : PcaRanges sh) (axes : PcaAxes dim sh) (metric : Metric) (maxRegions : Nat) :
    PcaConfig (Fin dim → ℚ) where
  metric := metric
  bucketsPerDim := sh.bucketsPerDim
  maxRegions := maxRegions
  computeRegionKey := r.computeRegionKey axes

end PcaRanges

/-! ## What a key stands for -/

/-- The bucket of a value: its place in `[minv, maxv]` on a scale of
    `bucketsPerDim`, the upper edge in the last bucket. -/
def bucketIndex (bucketsPerDim : Nat) (minv maxv val : ℚ) : Nat :=
  if maxv = minv then 0
  else min (bucketsPerDim - 1) ⌊(bucketsPerDim : ℚ) * max 0 (min ((val - minv) / (maxv - minv)) 1)⌋₊

/-- Component `i` of a key. -/
def component (key : RegionKey) (i : Nat) : Nat := (key.getD i 0).toNat

namespace PcaRanges

/-- The bucket of a projection on axis `i`. -/
def bucket (r : PcaRanges sh) (proj : Fin sh.pcaDim → ℚ) (i : Fin sh.pcaDim) : Nat :=
  bucketIndex sh.bucketsPerDim (r.pcaMin i) (r.pcaMax i) (proj i)

/-- Component `i` of a key is the bucket on axis `i`. -/
def KeysAreBuckets (r : PcaRanges sh) : Prop :=
  ∀ (dim : Nat) (axes : PcaAxes dim sh) (vec : Fin dim → ℚ),
    (r.computeRegionKey axes vec).length = sh.pcaDim ∧
    ∀ i : Fin sh.pcaDim, component (r.computeRegionKey axes vec) i = r.bucket (axes.project vec) i

def KeysAreMonotone (r : PcaRanges sh) : Prop :=
  ∀ (dim : Nat) (axes : PcaAxes dim sh) (vec vec' : Fin dim → ℚ) (i : Fin sh.pcaDim),
    axes.project vec i ≤ axes.project vec' i →
    component (r.computeRegionKey axes vec) i ≤ component (r.computeRegionKey axes vec') i

/-- Two vectors have one key when they share every bucket, and only then. -/
def KeysSeparate (r : PcaRanges sh) : Prop :=
  ∀ (dim : Nat) (axes : PcaAxes dim sh) (vec vec' : Fin dim → ℚ),
    r.computeRegionKey axes vec = r.computeRegionKey axes vec' ↔
      ∀ i, r.bucket (axes.project vec) i = r.bucket (axes.project vec') i

/-- A byte holds every bucket index that a value can have. -/
def BytesSuffice (r : PcaRanges sh) : Prop :=
  sh.bucketsPerDim ≤ 256 ∨ ∀ i, r.pcaMax i = r.pcaMin i

end PcaRanges

/-! ## Buckets -/

theorem clampNorm_eq (norm : ℚ) : clampNorm norm = max 0 (min norm 1) := by
  unfold clampNorm
  by_cases hneg : norm < 0
  · rw [if_pos hneg, if_neg (by norm_num), min_eq_left (by linarith), max_eq_left hneg.le]
  · rw [if_neg hneg]
    by_cases hone : 1 < norm
    · rw [if_pos hone, min_eq_right hone.le, max_eq_right zero_le_one]
    · rw [if_neg hone, min_eq_left (not_lt.mp hone), max_eq_right (not_lt.mp hneg)]

theorem bucketOf_eq {B : Nat} {minv maxv : ℚ} (h : maxv ≠ minv) (val : ℚ) :
    bucketOf B minv maxv val = bucketIndex B minv maxv val := by
  rw [bucketOf, bucketIndex, if_neg h, clampNorm_eq, mul_comm]

/-- A key keeps the low byte of the bucket index. -/
theorem toNat_keyByte (B : Nat) (minv maxv val : ℚ) :
    (keyByte B minv maxv val).toNat = bucketIndex B minv maxv val % 256 := by
  unfold keyByte
  by_cases h : maxv = minv
  · rw [if_pos h, bucketIndex, if_pos h]
    rfl
  · rw [if_neg h, bucketOf_eq h]
    rfl

theorem bucketIndex_lt {B : Nat} (hB : 1 ≤ B) (minv maxv val : ℚ) :
    bucketIndex B minv maxv val < B := by
  unfold bucketIndex
  split_ifs
  · omega
  · have hmin := min_le_left (B - 1) ⌊(B : ℚ) * max 0 (min ((val - minv) / (maxv - minv)) 1)⌋₊
    omega

theorem bucketIndex_mono {B : Nat} {minv maxv val val' : ℚ} (hle : minv ≤ maxv) (h : val ≤ val') :
    bucketIndex B minv maxv val ≤ bucketIndex B minv maxv val' := by
  unfold bucketIndex
  split_ifs with heq
  · exact le_refl 0
  · have hwidth : 0 < maxv - minv := sub_pos.mpr (lt_of_le_of_ne hle (Ne.symm heq))
    have hnorm : (val - minv) / (maxv - minv) ≤ (val' - minv) / (maxv - minv) :=
      (div_le_div_iff_of_pos_right hwidth).mpr (by linarith)
    have hclamp := max_le_max_left (0 : ℚ) (min_le_min_right (1 : ℚ) hnorm)
    exact min_le_min_left _ (Nat.floor_mono (mul_le_mul_of_nonneg_left hclamp (Nat.cast_nonneg B)))

/-- Every index is taken: the one at the lower edge of bucket `k` is `k`. -/
theorem bucketIndex_edge {B k : Nat} {minv maxv : ℚ} (hlt : minv < maxv) (hk : k < B) :
    bucketIndex B minv maxv (minv + k / B * (maxv - minv)) = k := by
  have hwidth : maxv - minv ≠ 0 := (sub_pos.mpr hlt).ne'
  have hB : (0 : ℚ) < B := by exact_mod_cast Nat.lt_of_le_of_lt (Nat.zero_le k) hk
  have hnorm : (minv + k / B * (maxv - minv) - minv) / (maxv - minv) = (k / B : ℚ) := by
    rw [add_sub_cancel_left, mul_div_assoc, div_self hwidth, mul_one]
  have hone : (k / B : ℚ) ≤ 1 := (div_le_one hB).mpr (by exact_mod_cast hk.le)
  have hpos : (0 : ℚ) ≤ k / B := div_nonneg (Nat.cast_nonneg k) hB.le
  rw [bucketIndex, if_neg hlt.ne', hnorm, min_eq_left hone, max_eq_right hpos,
    mul_div_cancel₀ _ hB.ne', Nat.floor_natCast]
  omega

namespace PcaRanges

variable {r : PcaRanges sh}

/-! ## Keys -/

theorem length_bucketCodes (proj : Fin sh.pcaDim → ℚ) : (r.bucketCodes proj).length = sh.pcaDim :=
  List.length_ofFn

/-- Component `i` is what a byte holds of the bucket. -/
theorem component_bucketCodes (proj : Fin sh.pcaDim → ℚ) (i : Fin sh.pcaDim) :
    component (r.bucketCodes proj) i = r.bucket proj i % 256 := by
  have hget : (r.bucketCodes proj)[i.val]? =
      some (keyByte sh.bucketsPerDim (r.pcaMin i) (r.pcaMax i) (proj i)) := by
    rw [bucketCodes, List.getElem?_ofFn, dif_pos i.isLt]
  rw [component, List.getD_eq_getElem?_getD, hget]
  exact toNat_keyByte _ _ _ _

theorem bucketCodes_eq_iff (proj proj' : Fin sh.pcaDim → ℚ) :
    r.bucketCodes proj = r.bucketCodes proj' ↔
      ∀ i, r.bucket proj i % 256 = r.bucket proj' i % 256 := by
  constructor
  · intro h i
    rw [← component_bucketCodes, ← component_bucketCodes, h]
  · intro h
    refine congrArg List.ofFn (funext fun i => UInt8.toNat_inj.mp ?_)
    rw [toNat_keyByte, toNat_keyByte]
    exact h i

/-- A key always lies on the grid of its buckets. -/
theorem lt_of_mem_bucketCodes (hB : 1 ≤ sh.bucketsPerDim) {proj : Fin sh.pcaDim → ℚ} {code : UInt8}
    (h : code ∈ r.bucketCodes proj) : code.toNat < sh.bucketsPerDim := by
  obtain ⟨i, rfl⟩ := List.mem_ofFn.mp h
  rw [toNat_keyByte]
  exact Nat.lt_of_le_of_lt (Nat.mod_le _ _) (bucketIndex_lt hB _ _ _)

/-- The walk around a key is one within the grid, for every count of buckets
    that is an `int`. -/
theorem inGrid_computeRegionKey (hB : 1 ≤ sh.bucketsPerDim) (hint : sh.bucketsPerDim < 2 ^ 31)
    (axes : PcaAxes dim sh) (metric : Metric) (maxRegions : Nat) (vec : Fin dim → ℚ) :
    PcaUtils.InGrid (r.toConfig axes metric maxRegions) (r.computeRegionKey axes vec) := by
  intro code hcode
  have hlt := lt_of_mem_bucketCodes hB hcode
  show (code.toNat : Int) < PcaUtils.toInt sh.bucketsPerDim
  rw [PcaUtils.toInt_of_lt hint]
  exact_mod_cast hlt

/-! ## When a byte is enough -/

theorem bucket_mod_of_bytesSuffice (h : r.BytesSuffice) (proj : Fin sh.pcaDim → ℚ)
    (i : Fin sh.pcaDim) :
    r.bucket proj i % 256 = r.bucket proj i := by
  rcases h with hfew | hflat
  · rcases Nat.eq_zero_or_pos sh.bucketsPerDim with hzero | hpos
    · have hbucket : r.bucket proj i = 0 := by
        unfold bucket bucketIndex
        rw [hzero]
        split_ifs <;> simp
      rw [hbucket]
    · exact Nat.mod_eq_of_lt (Nat.lt_of_lt_of_le (bucketIndex_lt hpos _ _ _) hfew)
  · have hbucket : r.bucket proj i = 0 := if_pos (hflat i)
    rw [hbucket]

/-- The projection at the lower edge of bucket `k` of every axis. -/
def edge (r : PcaRanges sh) (k : Nat) (i : Fin sh.pcaDim) : ℚ :=
  r.pcaMin i + k / sh.bucketsPerDim * (r.pcaMax i - r.pcaMin i)

theorem edge_mono {k k' : Nat} (h : k ≤ k') (i : Fin sh.pcaDim) : r.edge k i ≤ r.edge k' i := by
  have hwidth : 0 ≤ r.pcaMax i - r.pcaMin i := sub_nonneg.mpr (r.ordered i)
  have hfrac : (k : ℚ) / sh.bucketsPerDim ≤ k' / sh.bucketsPerDim :=
    div_le_div_of_nonneg_right (by exact_mod_cast h) (Nat.cast_nonneg _)
  exact add_le_add_right (mul_le_mul_of_nonneg_right hfrac hwidth) _

theorem bucket_edge {k : Nat} (hk : k < sh.bucketsPerDim) {i : Fin sh.pcaDim}
    (hi : r.pcaMax i ≠ r.pcaMin i) : r.bucket (r.edge k) i = k :=
  bucketIndex_edge (lt_of_le_of_ne (r.ordered i) (Ne.symm hi)) hk

theorem bucket_edge_or {k : Nat} (hk : k < sh.bucketsPerDim) (i : Fin sh.pcaDim) :
    r.bucket (r.edge k) i = 0 ∨ r.bucket (r.edge k) i = k := by
  by_cases hi : r.pcaMax i = r.pcaMin i
  · exact Or.inl (if_pos hi)
  · exact Or.inr (bucket_edge hk hi)

/-- Otherwise bucket 256 of some axis is stored as 0. -/
theorem wraps_of_not_bytesSuffice (h : ¬ r.BytesSuffice) :
    ∃ i, r.bucket (r.edge 256) i = 256 ∧ r.bucket (r.edge 255) i = 255 ∧
      r.bucket (r.edge 0) i = 0 := by
  unfold BytesSuffice at h
  push Not at h
  obtain ⟨hmany, i, hi⟩ := h
  exact ⟨i, bucket_edge hmany hi, bucket_edge (by omega) hi, bucket_edge (by omega) hi⟩

/-- The coordinate axes, on which every projection is some vector's. -/
def coordinateAxes (sh : PcaShape) : PcaAxes sh.pcaDim sh where
  pcaMean _ := 0
  pcaComponents j i := if j = i then 1 else 0

@[simp] theorem project_coordinateAxes (vec : Fin sh.pcaDim → ℚ) :
    (coordinateAxes sh).project vec = vec := by
  funext i
  unfold PcaAxes.project coordinateAxes
  simp

theorem computeRegionKey_coordinateAxes (vec : Fin sh.pcaDim → ℚ) :
    r.computeRegionKey (coordinateAxes sh) vec = r.bucketCodes vec := by
  rw [computeRegionKey, project_coordinateAxes]

/-! ## The three laws -/

theorem keysAreBuckets_iff : r.KeysAreBuckets ↔ r.BytesSuffice := by
  constructor
  · intro h
    by_contra hnot
    obtain ⟨i, hlast, _, _⟩ := wraps_of_not_bytesSuffice hnot
    have hcomp := (h _ (coordinateAxes sh) (r.edge 256)).2 i
    rw [computeRegionKey_coordinateAxes, component_bucketCodes, project_coordinateAxes, hlast] at hcomp
    exact absurd hcomp (by decide)
  · intro h dim axes vec
    refine ⟨length_bucketCodes _, fun i => ?_⟩
    rw [computeRegionKey, component_bucketCodes, bucket_mod_of_bytesSuffice h]

theorem keysAreMonotone_iff : r.KeysAreMonotone ↔ r.BytesSuffice := by
  constructor
  · intro h
    by_contra hnot
    obtain ⟨i, hlast, hprev, _⟩ := wraps_of_not_bytesSuffice hnot
    -- a value in bucket 256 gets a smaller byte than one in bucket 255
    have hle : r.edge 255 i ≤ r.edge 256 i := edge_mono (by decide) i
    have hcomp := h _ (coordinateAxes sh) (r.edge 255) (r.edge 256) i (by simpa using hle)
    rw [computeRegionKey_coordinateAxes, computeRegionKey_coordinateAxes, component_bucketCodes,
      component_bucketCodes, hlast, hprev] at hcomp
    exact absurd hcomp (by decide)
  · intro h dim axes vec vec' i hle
    rw [computeRegionKey, computeRegionKey, component_bucketCodes, component_bucketCodes,
      bucket_mod_of_bytesSuffice h, bucket_mod_of_bytesSuffice h]
    exact bucketIndex_mono (r.ordered i) hle

theorem keysSeparate_iff : r.KeysSeparate ↔ r.BytesSuffice := by
  constructor
  · intro h
    by_contra hnot
    obtain ⟨i, hlast, _, hfirst⟩ := wraps_of_not_bytesSuffice hnot
    have hmany : 256 < sh.bucketsPerDim := not_le.mp fun hfew => hnot (Or.inl hfew)
    -- on every axis the two values get the same byte, also where they are 256 buckets apart
    have hsame : r.bucketCodes (r.edge 0) = r.bucketCodes (r.edge 256) := by
      refine (bucketCodes_eq_iff _ _).mpr fun j => ?_
      have hzero : r.bucket (r.edge 0) j = 0 := or_self_iff.mp (bucket_edge_or (by omega) j)
      rcases bucket_edge_or hmany j with hj | hj
      · rw [hzero, hj]
      · rw [hzero, hj]
    have hbuckets := (h _ (coordinateAxes sh) (r.edge 0) (r.edge 256)).mp (by
      rw [computeRegionKey_coordinateAxes, computeRegionKey_coordinateAxes]
      exact hsame)
    have hi := hbuckets i
    rw [project_coordinateAxes, project_coordinateAxes, hfirst, hlast] at hi
    exact absurd hi (by decide)
  · intro h dim axes vec vec'
    refine (bucketCodes_eq_iff _ _).trans (forall_congr' fun i => ?_)
    rw [bucket_mod_of_bytesSuffice h, bucket_mod_of_bytesSuffice h]

/-- The three laws hold when a byte is enough for every bucket, and each of
    them fails otherwise. -/
theorem faithfulKeys_iff (sh : PcaShape) (r : PcaRanges sh) :
    (r.KeysAreBuckets ∧ r.KeysAreMonotone ∧ r.KeysSeparate ↔ r.BytesSuffice) ∧
      (¬ r.BytesSuffice → ¬ r.KeysAreBuckets ∧ ¬ r.KeysAreMonotone ∧ ¬ r.KeysSeparate) := by
  rw [keysAreBuckets_iff, keysAreMonotone_iff, keysSeparate_iff, and_self, and_self]
  exact ⟨Iff.rfl, fun h => ⟨h, h, h⟩⟩

/-- One axis from 0 to 1 in 300 buckets. -/
def wideShape : PcaShape := ⟨1, 300, by decide⟩

def wideRanges : PcaRanges wideShape where
  pcaMin _ := 0
  pcaMax _ := 1
  ordered _ := zero_le_one

def wideAxis : Fin wideShape.pcaDim := ⟨0, Nat.one_pos⟩

/-- The constructor takes 300 buckets, and the values 0 and 256/300 share a key. -/
theorem bucket256_is_bucket0 :
    newPcaUtils 1 300 = .ok wideShape ∧
      wideRanges.computeRegionKey (coordinateAxes wideShape) (fun _ => 0) =
        wideRanges.computeRegionKey (coordinateAxes wideShape) (fun _ => 256 / 300) ∧
      wideRanges.bucket (fun _ => 0) wideAxis = 0 ∧
      wideRanges.bucket (fun _ => 256 / 300) wideAxis = 256 ∧
      ¬ (wideRanges.KeysAreBuckets ∧ wideRanges.KeysAreMonotone ∧ wideRanges.KeysSeparate) := by
  have hhigh : wideRanges.bucket (fun _ => 256 / 300) wideAxis = 256 := by decide +kernel
  refine ⟨rfl, ?_, by decide +kernel, hhigh, ?_⟩
  · rw [computeRegionKey_coordinateAxes, computeRegionKey_coordinateAxes]
    decide +kernel
  · rintro ⟨hbuckets, _⟩
    have hcomp := (hbuckets _ (coordinateAxes wideShape) (fun _ => 256 / 300)).2 wideAxis
    rw [computeRegionKey_coordinateAxes, component_bucketCodes, project_coordinateAxes, hhigh] at hcomp
    exact absurd hcomp (by decide)

end PcaRanges

end QvCache
