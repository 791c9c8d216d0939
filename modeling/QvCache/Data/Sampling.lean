/-
  QvCache.Data.Sampling

  `load_sampled_data` (include/qvcache/qvcache.h): one sequential pass over a
  `.bin` file that copies out a random sample of its rows.  After each row the
  pass seeks over `aligned_dim - dim` elements of padding, which the files of
  this repository do not have.

  Positions are counted in elements of `T` from the end of the 8-byte header;
  every read and every seek of the source is a whole number of elements.
-/

import Mathlib.Data.Finset.Sort
import Mathlib.Data.UInt

namespace QvCache

/-- `ROUND_UP`. -/
def roundUp (x y : Nat) : Nat := (x / y + if x % y ≠ 0 then 1 else 0) * y

/-! ## The file -/

/-- A `.bin` file: the two header words and the elements after them. -/
structure BinFile (T : Type) where
  numPoints : Nat
  dim : Nat
  payload : List T
  size : payload.length = numPoints * dim
  pos : 1 ≤ dim

namespace BinFile

variable {T : Type}

/-- `write_bin_vectors`. -/
def writeBinVectors {dim : Nat} (pos : 1 ≤ dim) (rows : List (Vector T dim)) : BinFile T where
  numPoints := rows.length
  dim := dim
  payload := rows.flatMap Vector.toList
  size := by simp [List.length_flatMap]
  pos := pos

/-- The vector that a backend which has run `load_vectors_from_file` serves
    under `id`. -/
def row (file : BinFile T) (id : Nat) : List T := (file.payload.drop (id * file.dim)).take file.dim

def alignedDim (file : BinFile T) : Nat := roundUp file.dim 8

/-- A row as `construct_pca_from_data` expects it. -/
def padded [Zero T] (file : BinFile T) (vec : List T) : List T :=
  vec ++ List.replicate (file.alignedDim - file.dim) 0

end BinFile

/-- `sampled_indices`: the loop that draws them ends at `total / sample_rate`
    different ones. -/
structure Sample (totalNumPoints sampleRate : Nat) where
  indices : Finset Nat
  below : ∀ i ∈ indices, i < totalNumPoints
  size : indices.card = totalNumPoints / sampleRate

/-! ## The stream -/

/-- `reader`: the get position and the fail bit. -/
structure Reader where
  pos : Nat
  failed : Bool

namespace Reader

variable {T : Type}

/-- `reader.read`: a failed stream reads nothing, and a read that meets the end
    of the file keeps what there was and fails. -/
def read (r : Reader) (payload : List T) (n : Nat) (buffer : List T) : Reader × List T :=
  if r.failed then (r, buffer)
  else
    let got := (payload.drop r.pos).take n
    (⟨r.pos + got.length, decide (got.length < n)⟩, got ++ buffer.drop got.length)

/-- `reader.seekg(offset, std::ios::cur)`, which a failed stream ignores. -/
def seekCur (r : Reader) (offset : Nat) : Reader :=
  if r.failed then r else { r with pos := r.pos + offset }

end Reader

/-! ## The pass -/

namespace BinFile

variable {T : Type} [Zero T]

/-- The stream and `buffer`. -/
structure Scan (T : Type) where
  reader : Reader
  buffer : List T

/-- One row: the read, and the seek over the padding. -/
def scanRow (file : BinFile T) (sc : Scan T) : Scan T :=
  let (reader, buffer) := sc.reader.read file.payload file.dim sc.buffer
  ⟨reader.seekCur (file.alignedDim - file.dim), buffer⟩

/-- The loop over the points from `i` on; `out` holds the `sampled_index` rows
    of `sampled_data` that are filled. -/
def sampleLoop (file : BinFile T) (indices : Finset Nat) :
    (remaining i : Nat) → Scan T → (out : List (List T)) → List (List T)
  | 0, _, _, out => out
  | remaining + 1, i, sc, out =>
    let sc := file.scanRow sc
    let out := if i ∈ indices then out ++ [file.padded (sc.buffer.take file.dim)] else out
    if indices.card ≤ out.length then out else sampleLoop file indices remaining (i + 1) sc out

/-- `load_sampled_data`; `junk` is what `new T[aligned_dim]` holds at first. -/
def loadSampledData (file : BinFile T) {sampleRate : Nat}
    (sample : Sample file.numPoints sampleRate) (junk : List T) : List (List T) :=
  file.sampleLoop sample.indices file.numPoints 0 ⟨⟨0, false⟩, junk⟩ []

/-! ## What the sample should be -/

/-- The sampled rows in the order of the file, each padded with zeros. -/
def ReadsTrueRows (file : BinFile T) {sampleRate : Nat} (sample : Sample file.numPoints sampleRate)
    (junk : List T) : Prop :=
  file.loadSampledData sample junk = sample.indices.sort.map fun i => file.padded (file.row i)

/-- The reads that a file has room for at a distance of `aligned_dim`. -/
def fullReads (file : BinFile T) : Nat := (file.payload.length - file.dim) / file.alignedDim + 1

/-- The element of the file that ends up as element `j` of row `i`: one of the
    read at `i * aligned_dim`, or, past the end of the file, what the last reads
    have left in the buffer. -/
def landsAt (file : BinFile T) (i j : Nat) : Nat :=
  let last := min i file.fullReads
  if last * file.alignedDim + j < file.payload.length then last * file.alignedDim + j
  else (last - 1) * file.alignedDim + j

/-! ## The file -/

theorem le_roundUp (x y : Nat) (hy : 1 ≤ y) : x ≤ roundUp x y := by
  unfold roundUp
  have hdiv := Nat.div_add_mod x y
  have hmod := Nat.mod_lt x hy
  rw [Nat.add_mul, Nat.mul_comm]
  split_ifs with h
  · omega
  · omega

theorem roundUp_eq_of_dvd {x y : Nat} (h : y ∣ x) : roundUp x y = x := by
  unfold roundUp
  rw [if_neg (not_not.mpr (Nat.mod_eq_zero_of_dvd h)), Nat.add_zero, Nat.div_mul_cancel h]

omit [Zero T] in
theorem dim_le_alignedDim (file : BinFile T) : file.dim ≤ file.alignedDim :=
  le_roundUp _ _ (by decide)

omit [Zero T] in
/-- The rows are the ones that were written. -/
theorem row_writeBinVectors {dim : Nat} (pos : 1 ≤ dim) (rows : List (Vector T dim)) (id : Nat) :
    (writeBinVectors pos rows).row id = (rows[id]?.map Vector.toList).getD [] := by
  show ((rows.flatMap Vector.toList).drop (id * dim)).take dim = _
  induction rows generalizing id with
  | nil => simp
  | cons first rest ih =>
    have hlen : first.toList.length = dim := first.length_toList
    cases id with
    | zero =>
      rw [Nat.zero_mul, List.drop_zero, List.flatMap_cons, List.take_append_of_le_length (by omega),
        List.take_of_length_le (by omega)]
      rfl
    | succ id =>
      have hpast : first.toList.length ≤ (id + 1) * dim := by
        rw [hlen]
        exact Nat.le_mul_of_pos_left _ (Nat.succ_pos id)
      rw [List.flatMap_cons, List.drop_append, List.drop_of_length_le hpast, List.nil_append, hlen,
        Nat.succ_mul, Nat.add_sub_cancel, ih, List.getElem?_cons_succ]

omit [Zero T] in
theorem getElem?_row (file : BinFile T) (i : Nat) {j : Nat} (hj : j < file.dim) :
    (file.row i)[j]? = file.payload[i * file.dim + j]? := by
  rw [row, List.getElem?_take_of_lt hj, List.getElem?_drop]

/-! ## The pass in closed form -/

/-- The stream and the buffer after `k` rows. -/
def scanned (file : BinFile T) (junk : List T) : Nat → Scan T
  | 0 => ⟨⟨0, false⟩, junk⟩
  | k + 1 => file.scanRow (file.scanned junk k)

omit [Zero T] in
/-- The reads that succeed are those that lie inside the file. -/
theorem lt_fullReads_iff (file : BinFile T) (hsome : 1 ≤ file.numPoints) (i : Nat) :
    i < file.fullReads ↔ i * file.alignedDim + file.dim ≤ file.payload.length := by
  have hfirst : file.dim ≤ file.payload.length := by
    rw [file.size]
    exact Nat.le_mul_of_pos_left _ hsome
  have halign : 0 < file.alignedDim := Nat.lt_of_lt_of_le file.pos file.dim_le_alignedDim
  rw [fullReads, Nat.lt_succ_iff, Nat.le_div_iff_mul_le halign]
  omega

section Scan

omit [Zero T]

variable (file : BinFile T) {sc : Scan T} {p : Nat}

theorem scanRow_of_failed (h : sc.reader.failed = true) : file.scanRow sc = sc := by
  unfold scanRow Reader.read Reader.seekCur
  simp [h]

theorem scanRow_of_fits (h : sc.reader = ⟨p, false⟩) (hfits : p + file.dim ≤ file.payload.length) :
    file.scanRow sc = ⟨⟨p + file.alignedDim, false⟩,
      (file.payload.drop p).take file.dim ++ sc.buffer.drop file.dim⟩ := by
  have hlen : ((file.payload.drop p).take file.dim).length = file.dim := by
    rw [List.length_take, List.length_drop]
    omega
  have hdim := file.dim_le_alignedDim
  unfold scanRow Reader.read Reader.seekCur
  simp only [h, Bool.false_eq_true, if_false, hlen, Nat.lt_irrefl, decide_false, Scan.mk.injEq,
    Reader.mk.injEq, and_true]
  omega

theorem scanRow_of_short (h : sc.reader = ⟨p, false⟩) (hshort : file.payload.length < p + file.dim) :
    (file.scanRow sc).reader.failed = true ∧ (file.scanRow sc).buffer =
      file.payload.drop p ++ sc.buffer.drop (file.payload.length - p) := by
  have htake : (file.payload.drop p).take file.dim = file.payload.drop p := by
    refine List.take_of_length_le ?_
    rw [List.length_drop]
    omega
  have hless : file.payload.length - p < file.dim := by
    have hpos := file.pos
    omega
  unfold scanRow Reader.read Reader.seekCur
  simp [h, htake, hless]

theorem landsAt_of_lt (hsome : 1 ≤ file.numPoints) {i j : Nat} (hi : i < file.fullReads)
    (hj : j < file.dim) : file.landsAt i j = i * file.alignedDim + j := by
  have hfits := (file.lt_fullReads_iff hsome i).mp hi
  unfold landsAt
  rw [Nat.min_eq_left hi.le, if_pos (by omega)]

theorem landsAt_of_le {i j : Nat} (hi : file.fullReads ≤ i) :
    file.landsAt i j = file.landsAt file.fullReads j := by
  unfold landsAt
  rw [Nat.min_eq_right hi, Nat.min_self]

/-- A read inside the file fills the buffer with what lies there. -/
theorem scanRow_inside (hsome : 1 ≤ file.numPoints) {i : Nat} (hi : i < file.fullReads)
    (h : sc.reader = ⟨i * file.alignedDim, false⟩) :
    (file.scanRow sc).reader = ⟨(i + 1) * file.alignedDim, false⟩ ∧
      ∀ j < file.dim, (file.scanRow sc).buffer[j]? = file.payload[file.landsAt i j]? := by
  have hfits := (file.lt_fullReads_iff hsome i).mp hi
  rw [file.scanRow_of_fits h hfits]
  refine ⟨by rw [Nat.succ_mul], fun j hj => ?_⟩
  have hlen : j < ((file.payload.drop (i * file.alignedDim)).take file.dim).length := by
    rw [List.length_take, List.length_drop]
    omega
  rw [List.getElem?_append_left hlen, List.getElem?_take_of_lt hj, List.getElem?_drop,
    file.landsAt_of_lt hsome hi hj]

/-- The first read that meets the end of the file keeps the tail of the row
    before it. -/
theorem scanRow_end (hsome : 1 ≤ file.numPoints) {i : Nat} (hi : i + 1 = file.fullReads)
    (h : sc.reader = ⟨(i + 1) * file.alignedDim, false⟩)
    (hprev : ∀ j < file.dim, sc.buffer[j]? = file.payload[file.landsAt i j]?) :
    (file.scanRow sc).reader.failed = true ∧
      ∀ j < file.dim, (file.scanRow sc).buffer[j]? = file.payload[file.landsAt (i + 1) j]? := by
  have hshort : file.payload.length < (i + 1) * file.alignedDim + file.dim :=
    not_le.mp fun hle => hi.not_lt ((file.lt_fullReads_iff hsome _).mpr hle)
  obtain ⟨hfailed, hbuffer⟩ := file.scanRow_of_short h hshort
  refine ⟨hfailed, fun j hj => ?_⟩
  have hlands : file.landsAt (i + 1) j =
      if (i + 1) * file.alignedDim + j < file.payload.length then (i + 1) * file.alignedDim + j
      else i * file.alignedDim + j := by
    unfold landsAt
    rw [Nat.min_eq_left hi.le]
    rfl
  rw [hbuffer, hlands]
  split_ifs with hin
  · rw [List.getElem?_append_left (by rw [List.length_drop]; omega), List.getElem?_drop]
  · have hpast : (file.payload.drop ((i + 1) * file.alignedDim)).length ≤ j := by
      rw [List.length_drop]
      omega
    rw [List.getElem?_append_right hpast, List.getElem?_drop, List.length_drop,
      Nat.add_sub_cancel' (by omega), hprev j hj, file.landsAt_of_lt hsome (by omega) hj]

/-- Up to the first short read the stream is at the padded rows; from then on
    it has failed, and the buffer does not change any more. -/
theorem scanned_succ (hsome : 1 ≤ file.numPoints) (junk : List T) (i : Nat) :
    (i < file.fullReads → (file.scanned junk (i + 1)).reader = ⟨(i + 1) * file.alignedDim, false⟩) ∧
      (file.fullReads ≤ i → (file.scanned junk (i + 1)).reader.failed = true) ∧
      ∀ j < file.dim, (file.scanned junk (i + 1)).buffer[j]? = file.payload[file.landsAt i j]? := by
  induction i with
  | zero =>
    have hfirst : 0 < file.fullReads := Nat.succ_pos _
    have hstart : (file.scanned junk 0).reader = ⟨0 * file.alignedDim, false⟩ := by
      rw [Nat.zero_mul]
      rfl
    obtain ⟨hreader, hbuffer⟩ := file.scanRow_inside hsome hfirst hstart
    exact ⟨fun _ => hreader, fun h => absurd h (not_le.mpr hfirst), hbuffer⟩
  | succ i ih =>
    obtain ⟨hin, hout, hbuffer⟩ := ih
    rcases Nat.lt_trichotomy (i + 1) file.fullReads with hlt | heq | hgt
    · obtain ⟨hreader, hnext⟩ := file.scanRow_inside hsome hlt (hin (by omega))
      exact ⟨fun _ => hreader, fun h => absurd h (not_le.mpr hlt), hnext⟩
    · obtain ⟨hfailed, hnext⟩ := file.scanRow_end hsome heq (hin (by omega)) hbuffer
      exact ⟨fun h => absurd heq h.ne, fun _ => hfailed, hnext⟩
    · have hstays : file.scanned junk (i + 1 + 1) = file.scanned junk (i + 1) :=
        file.scanRow_of_failed (hout (by omega))
      rw [hstays]
      refine ⟨fun h => absurd h (by omega), fun _ => hout (by omega), fun j hj => ?_⟩
      rw [hbuffer j hj, file.landsAt_of_le (by omega : file.fullReads ≤ i), file.landsAt_of_le hgt.le]

end Scan

/-- The early exit loses nothing: it is taken once every sampled row is out. -/
theorem sampleLoop_eq (file : BinFile T) (indices : Finset Nat) (junk : List T) (remaining i : Nat)
    (out : List (List T))
    (h : out.length + ((List.range' i remaining).filter (· ∈ indices)).length ≤ indices.card) :
    file.sampleLoop indices remaining i (file.scanned junk i) out =
      out ++ ((List.range' i remaining).filter (· ∈ indices)).map fun s =>
        file.padded ((file.scanned junk (s + 1)).buffer.take file.dim) := by
  induction remaining generalizing i out with
  | zero => simp [sampleLoop]
  | succ remaining ih =>
    -- the rest of the loop from an output that does not overshoot
    have hrest : ∀ out' : List (List T),
        out'.length + ((List.range' (i + 1) remaining).filter (· ∈ indices)).length ≤ indices.card →
        (if indices.card ≤ out'.length then out'
          else file.sampleLoop indices remaining (i + 1) (file.scanned junk (i + 1)) out') =
          out' ++ ((List.range' (i + 1) remaining).filter (· ∈ indices)).map fun s =>
            file.padded ((file.scanned junk (s + 1)).buffer.take file.dim) := by
      intro out' hout
      split_ifs with hfull
      · have hnone : (List.range' (i + 1) remaining).filter (· ∈ indices) = [] :=
          List.eq_nil_of_length_eq_zero (by omega)
        rw [hnone, List.map_nil, List.append_nil]
      · exact ih (i + 1) out' hout
    rw [List.range'_succ] at h ⊢
    by_cases hi : i ∈ indices
    · rw [List.filter_cons_of_pos (by simpa using hi)] at h ⊢
      rw [List.map_cons, ← List.singleton_append, ← List.append_assoc, sampleLoop]
      simp only [if_pos hi]
      refine hrest _ ?_
      rw [List.length_append]
      simp only [List.length_cons, List.length_nil] at h ⊢
      omega
    · rw [List.filter_cons_of_neg (by simpa using hi)] at h ⊢
      rw [sampleLoop]
      simp only [if_neg hi]
      exact hrest _ h

omit [Zero T] in
/-- The points of the sample in the order the loop meets them. -/
theorem range_filter_eq_sort {n rate : Nat} (sample : Sample n rate) :
    (List.range n).filter (· ∈ sample.indices) = sample.indices.sort := by
  have hnodup : ((List.range n).filter (· ∈ sample.indices)).Nodup := List.nodup_range.filter _
  have hsorted : ((List.range n).filter (· ∈ sample.indices)).Pairwise (· ≤ ·) :=
    (List.pairwise_lt_range.imp fun h => h.le).filter _
  have hset : ((List.range n).filter (· ∈ sample.indices)).toFinset = sample.indices := by
    ext s
    have hbelow := sample.below s
    simp only [List.mem_toFinset, List.mem_filter, List.mem_range, decide_eq_true_eq,
      and_iff_right_iff_imp]
    exact hbelow
  have hsort := (List.toFinset_sort (· ≤ ·) hnodup).mpr hsorted
  rw [hset] at hsort
  exact hsort.symm

theorem loadSampledData_eq (file : BinFile T) {rate : Nat} (sample : Sample file.numPoints rate)
    (junk : List T) : file.loadSampledData sample junk =
      sample.indices.sort.map fun s =>
        file.padded ((file.scanned junk (s + 1)).buffer.take file.dim) := by
  have hrange : List.range' 0 file.numPoints = List.range file.numPoints := List.range_eq_range'.symm
  have hcount : ((List.range' 0 file.numPoints).filter (· ∈ sample.indices)).length =
      sample.indices.card := by
    rw [hrange, range_filter_eq_sort, Finset.length_sort]
  have hloop := file.sampleLoop_eq sample.indices junk file.numPoints 0 [] (by simp [hcount])
  rw [hrange, range_filter_eq_sort, List.nil_append] at hloop
  exact hloop

/-! ## When the rows are true -/

/-- Every element of a sampled row lies where the pass looks for it. -/
def LandsOnRows (file : BinFile T) {rate : Nat} (sample : Sample file.numPoints rate) : Prop :=
  ∀ i ∈ sample.indices, ∀ j < file.dim,
    file.payload[file.landsAt i j]? = file.payload[i * file.dim + j]?

omit [Zero T] in
/-- Two rows of `dim` elements are compared element by element. -/
theorem take_eq_row_iff (file : BinFile T) (buffer : List T) (i : Nat) :
    buffer.take file.dim = file.row i ↔
      ∀ j < file.dim, buffer[j]? = file.payload[i * file.dim + j]? := by
  constructor
  · intro h j hj
    rw [← file.getElem?_row i hj, ← h, List.getElem?_take_of_lt hj]
  · intro h
    refine List.ext_getElem? fun j => ?_
    by_cases hj : j < file.dim
    · rw [List.getElem?_take_of_lt hj, file.getElem?_row i hj, h j hj]
    · rw [row, List.getElem?_take_eq_none (not_lt.mp hj), List.getElem?_take_eq_none (not_lt.mp hj)]

theorem readsTrueRows_iff_lands (file : BinFile T) {rate : Nat} (sample : Sample file.numPoints rate)
    (junk : List T) : file.ReadsTrueRows sample junk ↔ file.LandsOnRows sample := by
  unfold ReadsTrueRows LandsOnRows
  rw [loadSampledData_eq, List.map_inj_left]
  refine forall_congr' fun i => ?_
  rw [Finset.mem_sort]
  refine imp_congr_right fun hi => ?_
  have hsome : 1 ≤ file.numPoints := Nat.lt_of_le_of_lt (Nat.zero_le i) (sample.below i hi)
  obtain ⟨_, _, hbuffer⟩ := file.scanned_succ hsome junk i
  rw [padded, padded, List.append_left_inj, take_eq_row_iff]
  exact forall₂_congr fun j hj => by rw [hbuffer j hj]

omit [Zero T] in
/-- Rows of a multiple of eight elements lie where the pass looks for them. -/
theorem landsAt_of_dvd (file : BinFile T) (hdim : 8 ∣ file.dim) {i j : Nat}
    (hi : i < file.numPoints) (hj : j < file.dim) : file.landsAt i j = i * file.dim + j := by
  have halign : file.alignedDim = file.dim := roundUp_eq_of_dvd hdim
  have hsome : 1 ≤ file.numPoints := Nat.lt_of_le_of_lt (Nat.zero_le i) hi
  have hfits : i * file.alignedDim + file.dim ≤ file.payload.length := by
    rw [halign, file.size, ← Nat.succ_mul]
    exact Nat.mul_le_mul_right _ hi
  rw [file.landsAt_of_lt hsome ((file.lt_fullReads_iff hsome i).mpr hfits) hj, halign]

/-- The pass returns the sampled rows when `dim` is a multiple of eight, or when
    the file happens to hold the same elements where the pass looks for them. -/
theorem readsTrueRows_iff (file : BinFile T) {rate : Nat} (sample : Sample file.numPoints rate)
    (junk : List T) : file.ReadsTrueRows sample junk ↔
      8 ∣ file.dim ∨ ∀ i ∈ sample.indices, ∀ j < file.dim,
        file.payload[file.landsAt i j]? = file.payload[i * file.dim + j]? := by
  rw [readsTrueRows_iff_lands]
  refine ⟨Or.inr, ?_⟩
  rintro (hdim | hlands)
  · intro i hi j hj
    rw [file.landsAt_of_dvd hdim (sample.below i hi) hj]
  · exact hlands

/-- A file of a thousand points of one byte, counting up. -/
def countingFile : BinFile UInt8 where
  numPoints := 1000
  dim := 1
  payload := (List.range 1000).map UInt8.ofNat
  size := by rw [List.length_map, List.length_range]
  pos := Nat.one_pos

/-- The default rate takes one of its points. -/
def secondPoint : Sample countingFile.numPoints 1000 where
  indices := {1}
  below := by decide
  size := by decide

/-- The sample of row 1 holds row 8. -/
theorem row8_for_row1 : ¬ countingFile.ReadsTrueRows secondPoint (List.replicate 8 0) := by
  rw [readsTrueRows_iff_lands]
  intro h
  have hfirst := h 1 (Finset.mem_singleton_self 1) 0 Nat.one_pos
  have hlands : countingFile.landsAt 1 0 = 8 := by decide +kernel
  have hread : ∀ i < 1000, countingFile.payload[i]? = some (UInt8.ofNat i) := by
    intro i hi
    rw [countingFile, List.getElem?_map, List.getElem?_range hi, Option.map_some]
  have htrue : 1 * countingFile.dim + 0 = 1 := rfl
  rw [hlands, htrue, hread 8 (by decide), hread 1 (by decide)] at hfirst
  exact absurd hfirst (by decide)

end BinFile

end QvCache
