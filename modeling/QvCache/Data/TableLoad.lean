/-
  QvCache.Data.TableLoad

  One `.bin` file and its two readers: `_load_data_from_file` of
  python/backends/pgvector_backend.py, which fills the table, and
  `load_vectors_from_file` of backends/pgvector_backend.h, whose vectors the
  cache computes distances with.  The second is told the element type; the first
  infers it from the size of the file, which does not tell `uint8` from `int8`,
  nor a short file of floats from one of bytes.
-/

import QvCache.Backend.PgVector
import QvCache.Data.Sampling
import QvCache.Lib.Bytes
import Mathlib.Algebra.Order.Field.Rat
import Mathlib.Algebra.Order.Ring.Int
import Mathlib.Tactic.NormNum
import Mathlib.Tactic.Positivity
import Mathlib.Tactic.Ring

namespace QvCache

open Bytes

/-! ## Elements -/

/-- The value of a `float` with these bits; infinities and NaN have none. -/
def float32Value (bits : UInt32) : Option ℚ :=
  let sign : ℚ := if bits.toNat < 2 ^ 31 then 1 else -1
  let exponent : Nat := bits.toNat / 2 ^ 23 % 256
  let fraction : Nat := bits.toNat % 2 ^ 23
  if exponent = 255 then none
  else if exponent = 0 then some (sign * fraction / 2 ^ 149)
  else some (sign * (2 ^ 23 + fraction) * 2 ^ exponent / 2 ^ 150)

def int8Value (b : UInt8) : ℚ := if b.toNat < 128 then b.toNat else b.toNat - 256

/-- The types that the C++ side is instantiated for. -/
inductive ElementType where
  | float32
  | int8
  | uint8
deriving DecidableEq

namespace ElementType

@[reducible] def Carrier : ElementType → Type
  | float32 => UInt32
  | int8 => UInt8
  | uint8 => UInt8

def codec : (t : ElementType) → Codec t.Carrier
  | float32 => word32
  | int8 => byte
  | uint8 => byte

def value : (t : ElementType) → t.Carrier → Option ℚ
  | float32, bits => float32Value bits
  | int8, b => some (int8Value b)
  | uint8, b => some b.toNat

/-- `sizeof(T)`, and the `itemsize` of a dtype. -/
def size (t : ElementType) : Nat := t.codec.width

end ElementType

namespace TableLoad

/-- A `.bin` file. -/
def binFile (npts dim : UInt32) (payload : List UInt8) : List UInt8 :=
  word32.encode npts ++ (word32.encode dim ++ payload)

/-! ## The C++ side -/

/-- `load_vectors_from_file`; `none` where the file cannot be opened. -/
def loadVectorsFromFile {α : Type} (c : Codec α) (path : String) :
    Option (List UInt8) → Except String (List (List α))
  | none => .error ("Failed to open " ++ path)
  | some file =>
    if file.length < 8 then .error ("Failed to read DiskANN header from " ++ path)
    else
      let npts := (word32.decode (file.take 4)).toNat
      let dim := (word32.decode ((file.drop 4).take 4)).toNat
      let payload := file.drop 8
      if payload.length < npts * dim * c.width then
        .error ("Failed to read vectors from " ++ path)
      else .ok ((List.range npts).map fun i => c.decodeAll dim (payload.drop (i * dim * c.width)))

/-! ## The Python side -/

/-- `elem_size` to `np_dtype`. -/
def npDtype : Nat → Option ElementType
  | 1 => some .int8
  | 4 => some .float32
  | _ => none

/-- The items of an array, as Python floats. -/
def readItems (t : ElementType) (count : Nat) (bytes : List UInt8) : List (Option ℚ) :=
  (t.codec.decodeAll count bytes).map t.value

/-- What the load leaves in the table, and how it ends. -/
structure LoadRun where
  rows : List (Nat × List ℚ)
  outcome : Except String Unit

/-- The database: what the vector column keeps of a list of floats, and how
    `_create_hnsw_index` comes out. -/
structure Database where
  store : List (Option ℚ) → Except String (List ℚ)
  createHnswIndex : Except String Unit

/-- `execute_values` with a page for the whole batch: one statement, which
    inserts all of the rows or none. -/
def Database.insertRows (db : Database) :
    List (Nat × List (Option ℚ)) → Except String (List (Nat × List ℚ))
  | [] => .ok []
  | (id, row) :: rest =>
    match db.store row with
    | .error what => .error what
    | .ok values =>
      match db.insertRows rest with
      | .error what => .error what
      | .ok rows => .ok ((id, values) :: rows)

/-- `rows` of a batch. -/
def batchRows (np : ElementType) (dim loaded n : Nat) (bytes : List UInt8) :
    List (Nat × List (Option ℚ)) :=
  (List.range n).map fun j =>
    (loaded + j, ((readItems np (n * dim) bytes).drop (j * dim)).take dim)

/-- The loop over the batches; `bytes` is what the file still has. -/
def loadLoop (db : Database) (path : String) (np : ElementType) (dim batchSize : Nat)
    (hbatch : 0 < batchSize) (loaded remaining : Nat) (bytes : List UInt8) : LoadRun :=
  if _ : remaining = 0 then ⟨[], db.createHnswIndex⟩
  else
    let n := min batchSize remaining
    let got := bytes.length / np.size
    if got < n * dim then
      ⟨[], .error s!"Truncated DiskANN payload in {path}: expected {n * dim} elements, got {got}"⟩
    else
      match db.insertRows (batchRows np dim loaded n bytes) with
      | .error what => ⟨[], .error what⟩
      | .ok rows =>
        let rest := loadLoop db path np dim batchSize hbatch (loaded + n) (remaining - n)
          (bytes.drop (n * dim * np.size))
        ⟨rows ++ rest.rows, rest.outcome⟩
termination_by remaining

/-- `_load_data_from_file`, into an empty table. -/
def loadDataFromFile (db : Database) (path : String) (selfDim batchSize : Nat)
    (hbatch : 0 < batchSize) (file : List UInt8) : LoadRun :=
  if file.length < 8 then
    -- `np.frombuffer(f.read(4), dtype=np.uint32)[0]`
    if file.length % 4 = 0 then ⟨[], .error "index 0 is out of bounds for axis 0 with size 0"⟩
    else ⟨[], .error "buffer size must be a multiple of element size"⟩
  else
    let numVectors := (word32.decode (file.take 4)).toNat
    let dim := (word32.decode ((file.drop 4).take 4)).toNat
    if dim ≠ selfDim then ⟨[], .error s!"Dimension mismatch: expected {selfDim}, got {dim}"⟩
    else
      let payload := file.length - 8
      if numVectors * dim = 0 then ⟨[], .error "integer division or modulo by zero"⟩
      else
        match npDtype (payload / (numVectors * dim)) with
        | none => ⟨[], .error (s!"Cannot infer DiskANN element size from {path}: " ++
            s!"payload={payload} npts={numVectors} dim={dim}")⟩
        | some np => loadLoop db path np dim batchSize hbatch 0 numVectors (file.drop 8)

/-! ## The header -/

theorem length_binFile (npts dim : UInt32) (payload : List UInt8) :
    (binFile npts dim payload).length = payload.length + 8 := by
  rw [binFile, List.length_append, List.length_append, word32.length_encode,
    word32.length_encode]
  show 4 + (4 + payload.length) = _
  omega

theorem drop_four_binFile (npts dim : UInt32) (payload : List UInt8) :
    (binFile npts dim payload).drop 4 = word32.encode dim ++ payload :=
  List.drop_left' (word32.length_encode npts)

theorem drop_binFile (npts dim : UInt32) (payload : List UInt8) :
    (binFile npts dim payload).drop 8 = payload := by
  show (binFile npts dim payload).drop (4 + 4) = payload
  rw [← List.drop_drop, drop_four_binFile]
  exact List.drop_left' (word32.length_encode dim)

theorem first_word_binFile (npts dim : UInt32) (payload : List UInt8) :
    word32.decode ((binFile npts dim payload).take 4) = npts := by
  have hlen : (word32.encode npts).length = 4 := word32.length_encode npts
  rw [binFile, List.take_left' hlen, word32.decode_encode]

theorem second_word_binFile (npts dim : UInt32) (payload : List UInt8) :
    word32.decode (((binFile npts dim payload).drop 4).take 4) = dim := by
  have hlen : (word32.encode dim).length = 4 := word32.length_encode dim
  rw [drop_four_binFile, List.take_left' hlen, word32.decode_encode]

section Files

variable {npts dim : UInt32} {payload : List UInt8}

theorem loadVectorsFromFile_binFile {α : Type} (c : Codec α) (path : String)
    (h : npts.toNat * dim.toNat * c.width ≤ payload.length) :
    loadVectorsFromFile c path (some (binFile npts dim payload)) =
      .ok ((List.range npts.toNat).map fun i =>
        c.decodeAll dim.toNat (payload.drop (i * dim.toNat * c.width))) := by
  have hlong : ¬ (binFile npts dim payload).length < 8 := by
    rw [length_binFile]
    omega
  simp only [loadVectorsFromFile, if_neg hlong, first_word_binFile, second_word_binFile,
    drop_binFile, if_neg (Nat.not_lt.mpr h)]

/-- The bytes of a `BinFile` load as its rows. -/
theorem loadVectorsFromFile_of_binFile {α : Type} (c : Codec α) (path : String) (file : BinFile α)
    (hpoints : file.numPoints < 2 ^ 32) (hdim : file.dim < 2 ^ 32) :
    loadVectorsFromFile c path (some (binFile (UInt32.ofNat file.numPoints) (UInt32.ofNat file.dim)
        (c.encodeAll file.payload))) =
      .ok ((List.range file.numPoints).map file.row) := by
  have hlen : (c.encodeAll file.payload).length = file.numPoints * file.dim * c.width := by
    rw [c.length_encodeAll, file.size]
  have hall : c.decodeAll (file.numPoints * file.dim) (c.encodeAll file.payload) = file.payload := by
    rw [← file.size, c.decodeAll_encodeAll]
  rw [loadVectorsFromFile_binFile c path (by
    rw [UInt32.toNat_ofNat_of_lt' hpoints, UInt32.toNat_ofNat_of_lt' hdim, hlen])]
  rw [UInt32.toNat_ofNat_of_lt' hpoints, UInt32.toNat_ofNat_of_lt' hdim]
  refine congrArg Except.ok (List.map_congr_left fun i hi => ?_)
  rw [← c.row_decodeAll (List.mem_range.mp hi), hall]
  rfl

theorem loadDataFromFile_binFile (db : Database) (path : String) {batchSize : Nat}
    (hbatch : 0 < batchSize) (hnpts : 0 < npts) (hdim : 0 < dim) :
    loadDataFromFile db path dim.toNat batchSize hbatch (binFile npts dim payload) =
      match npDtype (payload.length / (npts.toNat * dim.toNat)) with
      | none => ⟨[], .error (s!"Cannot infer DiskANN element size from {path}: " ++
          s!"payload={payload.length} npts={npts.toNat} dim={dim.toNat}")⟩
      | some np => loadLoop db path np dim.toNat batchSize hbatch 0 npts.toNat payload := by
  have hlong : ¬ (binFile npts dim payload).length < 8 := by
    rw [length_binFile]
    omega
  have hpos : npts.toNat * dim.toNat ≠ 0 := (Nat.mul_pos hnpts hdim).ne'
  rw [loadDataFromFile, if_neg hlong]
  simp only [first_word_binFile, second_word_binFile, ne_eq, not_true_eq_false, if_false,
    if_neg hpos, length_binFile, Nat.add_sub_cancel, drop_binFile]

end Files

/-! ## One batch -/

section Loop

variable {db : Database} {path : String} {np : ElementType} {dim batchSize : Nat}
  {hbatch : 0 < batchSize}

theorem length_readItems (t : ElementType) (count : Nat) (bytes : List UInt8) :
    (readItems t count bytes).length = count := by
  rw [readItems, List.length_map, Codec.length_decodeAll]

/-- Row `j` of what is left in the file. -/
def rowAt (t : ElementType) (dim j : Nat) (bytes : List UInt8) : List (Option ℚ) :=
  readItems t dim (bytes.drop (j * dim * t.size))

theorem batchRows_eq (np : ElementType) (dim loaded n : Nat) (bytes : List UInt8) :
    batchRows np dim loaded n bytes =
      (List.range n).map fun j => (loaded + j, rowAt np dim j bytes) := by
  refine List.map_congr_left fun j hj => ?_
  rw [readItems, ← List.map_drop, ← List.map_take, Codec.row_decodeAll _ (List.mem_range.mp hj)]
  rfl

theorem mem_insertRows {batch : List (Nat × List (Option ℚ))} {rows : List (Nat × List ℚ)}
    (h : db.insertRows batch = .ok rows) {r : Nat × List ℚ} (hr : r ∈ rows) :
    ∃ row, (r.1, row) ∈ batch ∧ db.store row = .ok r.2 := by
  induction batch generalizing rows with
  | nil =>
    cases h
    cases hr
  | cons first batch ih =>
    rw [Database.insertRows] at h
    cases hstore : db.store first.2 with
    | error what =>
      rw [hstore] at h
      cases h
    | ok values =>
      cases hrest : db.insertRows batch with
      | error what =>
        simp only [hstore, hrest] at h
        cases h
      | ok others =>
        simp only [hstore, hrest] at h
        cases h
        rcases List.mem_cons.mp hr with rfl | hr
        · exact ⟨first.2, List.mem_cons_self, hstore⟩
        · obtain ⟨row, hrow, hkept⟩ := ih hrest hr
          exact ⟨row, List.mem_cons_of_mem _ hrow, hkept⟩

theorem insertRows_map {ids : List Nat} {id : Nat → Nat} {row : Nat → List (Option ℚ)}
    {values : Nat → List ℚ} (h : ∀ j ∈ ids, db.store (row j) = .ok (values j)) :
    db.insertRows (ids.map fun j => (id j, row j)) = .ok (ids.map fun j => (id j, values j)) := by
  induction ids with
  | nil => rfl
  | cons j ids ih =>
    rw [List.map_cons, Database.insertRows, h j List.mem_cons_self,
      ih fun j hj => h j (List.mem_cons_of_mem _ hj), List.map_cons]

/-! ## All of the batches -/

theorem size_pos (t : ElementType) : 0 < t.size := by
  cases t <;> decide

theorem rowAt_drop (t : ElementType) (dim n j : Nat) (bytes : List UInt8) :
    rowAt t dim j (bytes.drop (n * dim * t.size)) = rowAt t dim (n + j) bytes := by
  rw [rowAt, rowAt, List.drop_drop, ← Nat.add_mul, ← Nat.add_mul]

/-- One turn of the loop: it raises and inserts nothing, or it inserts the next
    batch and goes on. -/
theorem loadLoop_cases (db : Database) (path : String) (np : ElementType) (dim : Nat)
    {batchSize : Nat} (hbatch : 0 < batchSize) (loaded : Nat) {remaining : Nat}
    (hmore : remaining ≠ 0) (bytes : List UInt8) :
    let n := min batchSize remaining
    let batch := (List.range n).map fun j => (loaded + j, rowAt np dim j bytes)
    (∃ what, loadLoop db path np dim batchSize hbatch loaded remaining bytes = ⟨[], .error what⟩ ∧
      (n * dim * np.size ≤ bytes.length → db.insertRows batch = .error what)) ∨
    ∃ rows rest, n * dim * np.size ≤ bytes.length ∧ db.insertRows batch = .ok rows ∧
      rest = loadLoop db path np dim batchSize hbatch (loaded + n) (remaining - n)
        (bytes.drop (n * dim * np.size)) ∧
      loadLoop db path np dim batchSize hbatch loaded remaining bytes =
        ⟨rows ++ rest.rows, rest.outcome⟩ := by
  intro n batch
  have hbatchRows : batchRows np dim loaded n bytes = batch := batchRows_eq np dim loaded n bytes
  rw [loadLoop, dif_neg hmore]
  by_cases hshort : bytes.length / np.size < n * dim
  · refine Or.inl ⟨_, if_pos hshort, fun hlong => ?_⟩
    exact absurd ((Nat.le_div_iff_mul_le (size_pos np)).mpr hlong) (Nat.not_le.mpr hshort)
  · have hlong := (Nat.le_div_iff_mul_le (size_pos np)).mp (Nat.not_lt.mp hshort)
    cases hinsert : db.insertRows batch with
    | error what =>
      refine Or.inl ⟨what, ?_, fun _ => rfl⟩
      simp only [n] at hshort hbatchRows
      simp only [if_neg hshort, hbatchRows, hinsert]
    | ok rows =>
      refine Or.inr ⟨rows, _, hlong, rfl, rfl, ?_⟩
      simp only [n] at hshort hbatchRows
      simp only [if_neg hshort, hbatchRows, hinsert, n]

/-- Every row of the table is a row of the file, under its number. -/
theorem mem_loadLoop {loaded remaining : Nat} {bytes : List UInt8} {r : Nat × List ℚ}
    (h : r ∈ (loadLoop db path np dim batchSize hbatch loaded remaining bytes).rows) :
    ∃ j < remaining, r.1 = loaded + j ∧ db.store (rowAt np dim j bytes) = .ok r.2 := by
  induction remaining using Nat.strong_induction_on generalizing loaded bytes with
  | _ remaining ih =>
    by_cases hdone : remaining = 0
    · rw [loadLoop, dif_pos hdone] at h
      cases h
    · have hle : min batchSize remaining ≤ remaining := Nat.min_le_right _ _
      have hpos : 0 < min batchSize remaining := Nat.lt_min.mpr ⟨hbatch, Nat.pos_of_ne_zero hdone⟩
      rcases loadLoop_cases db path np dim hbatch loaded hdone bytes with
        ⟨what, hrun, -⟩ | ⟨rows, rest, -, hinsert, hrest, hrun⟩
      · rw [hrun] at h
        cases h
      · rw [hrun] at h
        rcases List.mem_append.mp h with hr | hr
        · -- a row of this batch
          obtain ⟨row, hrow, hkept⟩ := mem_insertRows hinsert hr
          obtain ⟨j, hj, heq⟩ := List.mem_map.mp hrow
          obtain ⟨hid, rfl⟩ := Prod.mk.inj heq
          exact ⟨j, Nat.lt_of_lt_of_le (List.mem_range.mp hj) hle, hid.symm, hkept⟩
        · rw [hrest] at hr
          obtain ⟨j, hj, hid, hkept⟩ := ih _ (Nat.sub_lt (Nat.pos_of_ne_zero hdone) hpos) hr
          rw [rowAt_drop] at hkept
          exact ⟨_, by omega, by rw [hid, Nat.add_assoc], hkept⟩

/-- A file with all of the rows, where the database keeps each of them. -/
theorem loadLoop_complete (values : Nat → List ℚ) {loaded remaining : Nat} {bytes : List UInt8}
    (hlen : remaining * dim * np.size ≤ bytes.length)
    (hstore : ∀ j < remaining, db.store (rowAt np dim j bytes) = .ok (values (loaded + j))) :
    loadLoop db path np dim batchSize hbatch loaded remaining bytes =
      ⟨(List.range remaining).map fun j => (loaded + j, values (loaded + j)),
        db.createHnswIndex⟩ := by
  induction remaining using Nat.strong_induction_on generalizing loaded bytes with
  | _ remaining ih =>
    by_cases hdone : remaining = 0
    · rw [loadLoop, dif_pos hdone, hdone]
      rfl
    · have hle : min batchSize remaining ≤ remaining := Nat.min_le_right _ _
      have hpos : 0 < min batchSize remaining := Nat.lt_min.mpr ⟨hbatch, Nat.pos_of_ne_zero hdone⟩
      have hcases := loadLoop_cases db path np dim hbatch loaded hdone bytes
      generalize min batchSize remaining = n at hle hpos hcases
      have hread : n * dim * np.size ≤ bytes.length :=
        (Nat.mul_le_mul_right _ (Nat.mul_le_mul_right _ hle)).trans hlen
      have hbatchOk : db.insertRows
          ((List.range n).map fun j => (loaded + j, rowAt np dim j bytes)) =
            .ok ((List.range n).map fun j => (loaded + j, values (loaded + j))) :=
        insertRows_map fun j hj => hstore j (Nat.lt_of_lt_of_le (List.mem_range.mp hj) hle)
      rcases hcases with ⟨what, -, hrefused⟩ | ⟨rows, rest, -, hinsert, hrest, hrun⟩
      · rw [hrefused hread] at hbatchOk
        cases hbatchOk
      · rw [hinsert] at hbatchOk
        rw [ih (remaining - n) (Nat.sub_lt (Nat.pos_of_ne_zero hdone) hpos)] at hrest
        · rw [hrun, hrest, Except.ok.inj hbatchOk]
          have hsplit : List.range remaining =
              List.range n ++ (List.range (remaining - n)).map (n + ·) := by
            rw [← List.range_add, Nat.add_sub_cancel' hle]
          rw [hsplit, List.map_append, List.map_map]
          congr 2
          refine List.map_congr_left fun j _ => ?_
          rw [Function.comp_apply, Nat.add_assoc]
        · rw [List.length_drop, Nat.sub_mul, Nat.sub_mul]
          exact Nat.sub_le_sub_right hlen _
        · intro j hj
          rw [rowAt_drop, Nat.add_assoc]
          exact hstore (n + j) (by omega)

end Loop

/-! ## What the column keeps -/

/-- The finite values of a `float`. -/
def Float32Number (q : ℚ) : Prop :=
  ∃ (m : ℤ) (e : Nat), |m| < 2 ^ 24 ∧ e ≤ 253 ∧ q = m * 2 ^ e / 2 ^ 149

/-- A vector column of `dim` components keeps a row of finite `float` values as
    it is and refuses one with an infinity or NaN. -/
def StoresVectors (dim : Nat) (store : List (Option ℚ) → Except String (List ℚ)) : Prop :=
  (∀ values : List ℚ, values.length = dim → (∀ v ∈ values, Float32Number v) →
    store (values.map some) = .ok values) ∧
  ∀ row, none ∈ row → ∃ what, store row = .error what

theorem float32Number_of_float32Value {bits : UInt32} {q : ℚ} (h : float32Value bits = some q) :
    Float32Number q := by
  have hfraction : bits.toNat % 2 ^ 23 < 2 ^ 23 := Nat.mod_lt _ (by decide)
  have hexponent : bits.toNat / 2 ^ 23 % 256 < 256 := Nat.mod_lt _ (by decide)
  unfold float32Value at h
  simp only at h
  generalize bits.toNat % 2 ^ 23 = fraction at h hfraction
  generalize bits.toNat / 2 ^ 23 % 256 = exponent at h hexponent
  have hsign : ∃ s : ℤ, |s| = 1 ∧ (if bits.toNat < 2 ^ 31 then (1 : ℚ) else -1) = s := by
    split_ifs
    · exact ⟨1, rfl, by norm_num⟩
    · exact ⟨-1, rfl, by norm_num⟩
  obtain ⟨s, hs, hcast⟩ := hsign
  rw [hcast] at h
  split_ifs at h with hinf hzero
  · -- subnormal
    refine ⟨s * fraction, 0, ?_, Nat.zero_le _, ?_⟩
    · rw [abs_mul, hs, one_mul, Nat.abs_cast]
      exact_mod_cast hfraction.trans (by decide)
    · rw [← Option.some.inj h]
      push_cast
      ring
  · refine ⟨s * (2 ^ 23 + fraction), exponent - 1, ?_, by omega, ?_⟩
    · rw [abs_mul, hs, one_mul, abs_of_nonneg (by positivity)]
      have hsum : 2 ^ 23 + fraction < 2 ^ 24 := by omega
      exact_mod_cast hsum
    · obtain ⟨k, rfl⟩ := Nat.exists_eq_add_one_of_ne_zero hzero
      rw [← Option.some.inj h, Nat.add_sub_cancel]
      push_cast
      ring

theorem float32Number_of_int {m : ℤ} (h : |m| < 2 ^ 24) : Float32Number m :=
  ⟨m, 149, h, by decide, by rw [mul_div_cancel_right₀ _ (by positivity)]⟩

theorem float32Number_of_value {t : ElementType} {a : t.Carrier} {q : ℚ}
    (h : t.value a = some q) : Float32Number q := by
  cases t with
  | float32 => exact float32Number_of_float32Value h
  | int8 =>
    have hlt := UInt8.toNat_lt a
    rw [← Option.some.inj h, int8Value]
    split_ifs with hsmall
    · have habs : |((UInt8.toNat a : Nat) : ℤ)| < 2 ^ 24 := by
        rw [Nat.abs_cast]
        omega
      exact_mod_cast float32Number_of_int habs
    · have habs : |((UInt8.toNat a : Nat) : ℤ) - 256| < 2 ^ 24 := by
        rw [abs_lt]
        omega
      exact_mod_cast float32Number_of_int habs
  | uint8 =>
    have hlt := UInt8.toNat_lt a
    have habs : |((UInt8.toNat a : Nat) : ℤ)| < 2 ^ 24 := by
      rw [Nat.abs_cast]
      omega
    rw [← Option.some.inj h]
    exact_mod_cast float32Number_of_int habs

theorem map_some_filterMap {row : List (Option ℚ)} (h : none ∉ row) :
    (row.filterMap id).map some = row := by
  induction row with
  | nil => rfl
  | cons value rest ih =>
    cases value with
    | none => exact absurd List.mem_cons_self h
    | some q =>
      exact congrArg (some q :: ·) (ih fun hrest => h (List.mem_cons_of_mem _ hrest))

/-- A row of numbers is kept. -/
theorem store_rowAt {dim : Nat} {store : List (Option ℚ) → Except String (List ℚ)}
    (hstore : StoresVectors dim store) {np : ElementType} {j : Nat} {bytes : List UInt8}
    (h : none ∉ rowAt np dim j bytes) :
    store (rowAt np dim j bytes) = .ok ((rowAt np dim j bytes).filterMap id) := by
  have hrow := map_some_filterMap h
  have hlen : ((rowAt np dim j bytes).filterMap id).length = dim := by
    rw [← List.length_map some, hrow, rowAt, length_readItems]
  have hnumbers : ∀ v ∈ (rowAt np dim j bytes).filterMap id, Float32Number v := by
    intro v hv
    obtain ⟨value, hvalue, hsome⟩ := List.mem_filterMap.mp hv
    obtain ⟨a, -, ha⟩ := List.mem_map.mp hvalue
    exact float32Number_of_value (ha.trans hsome)
  have hkept := hstore.1 _ hlen hnumbers
  rwa [hrow] at hkept

/-! ## The table and the cache -/

/-- The table has one row for each vector, in the order of the file, and the row
    of an id has the values of the vector that the backend serves for the id. -/
def SameVectors (t : ElementType) (npts dim : UInt32) (run : LoadRun)
    (vectors : List (List t.Carrier)) : Prop :=
  run.rows.map Prod.fst = List.range npts.toNat ∧
  ∀ id < npts, ∀ cfg : PgVectorConfig (List t.Carrier), cfg.vectorData = vectors →
    ∀ table reply, ∃ vec values,
      (PgVectorBackend.start table).fetchVectorsByIds cfg [(id, reply)] = .ok [vec] ∧
      vec.length = dim.toNat ∧ (id.toNat, values) ∈ run.rows ∧
      vec.map t.value = values.map some

/-- A file of all of its vectors is loaded alike on both sides, and a shorter one
    is refused.  A file with more is not a `.bin` file. -/
def LoadsAlike (store : List (Option ℚ) → Except String (List ℚ)) (t : ElementType)
    (npts dim : UInt32) (batchSize : Nat) (hbatch : 0 < batchSize) (payload : List UInt8) : Prop :=
  ∀ (createHnswIndex : Except String Unit) (path : String),
    let file := binFile npts dim payload
    let run := loadDataFromFile ⟨store, createHnswIndex⟩ path dim.toNat batchSize hbatch file
    (payload.length = npts.toNat * dim.toNat * t.size →
      ∃ vectors, loadVectorsFromFile t.codec path (some file) = .ok vectors ∧
        SameVectors t npts dim run vectors) ∧
    (payload.length < npts.toNat * dim.toNat * t.size → ∃ what, run.outcome = .error what)

/-- The files that both sides load alike. -/
def FileFits (npts dim : UInt32) (payload : List UInt8) : ElementType → Prop
  | .int8 => True
  | .uint8 => payload.length = npts.toNat * dim.toNat → ∀ b ∈ payload, b < 128
  | .float32 =>
    (payload.length = npts.toNat * dim.toNat * 4 →
      ∀ bits ∈ word32.decodeAll (npts.toNat * dim.toNat) payload, (float32Value bits).isSome) ∧
    (payload.length < npts.toNat * dim.toNat * 4 →
      payload.length < npts.toNat * dim.toNat ∨ 2 * (npts.toNat * dim.toNat) ≤ payload.length)

section Alike

variable {db : Database} {path : String} {t np : ElementType} {npts dim : UInt32}
  {batchSize : Nat} {hbatch : 0 < batchSize} {payload : List UInt8}

theorem fetch_start {V : Type} {cfg : PgVectorConfig V} {id : UInt32} {vec : V}
    (h : cfg.vectorData[id.toNat]? = some vec) (table : Table UInt32 (Row V)) (reply : SqlReply) :
    (PgVectorBackend.start table).fetchVectorsByIds cfg [(id, reply)] = .ok [vec] := by
  have hfetch : (PgVectorBackend.start table).fetchOne cfg reply id = .ok vec := by
    have hremoved : id ∉ (PgVectorBackend.start table : PgVectorBackend V).removedIds :=
      Finset.notMem_empty id
    have hoverlay : (PgVectorBackend.start table : PgVectorBackend V).overlay.lookup id = none :=
      AList.lookup_empty id
    rw [PgVectorBackend.fetchOne, if_neg hremoved, hoverlay, h]
  rw [PgVectorBackend.fetchVectorsByIds, hfetch]
  rfl

/-- The vectors of the C++ side. -/
def vectorsOf (t : ElementType) (npts dim : UInt32) (payload : List UInt8) :
    List (List t.Carrier) :=
  (List.range npts.toNat).map fun i =>
    t.codec.decodeAll dim.toNat (payload.drop (i * dim.toNat * t.size))

theorem getElem?_vectorsOf {id : UInt32} (h : id < npts) :
    (vectorsOf t npts dim payload)[id.toNat]? =
      some (t.codec.decodeAll dim.toNat (payload.drop (id.toNat * dim.toNat * t.size))) := by
  rw [vectorsOf, List.getElem?_map, List.getElem?_range (UInt32.lt_iff_toNat_lt.mp h)]
  rfl

/-- The rows of a file that is loaded alike, read as elements of type `np`. -/
theorem rows_of_sameVectors (hstore : StoresVectors dim.toNat db.store)
    (hsame : SameVectors t npts dim
      (loadLoop db path np dim.toNat batchSize hbatch 0 npts.toNat payload)
      (vectorsOf t npts dim payload)) {i : Nat} (hi : i < npts.toNat) :
    rowAt np dim.toNat i payload = rowAt t dim.toNat i payload ∧
      none ∉ rowAt t dim.toNat i payload := by
  have hid : (UInt32.ofNat i).toNat = i := UInt32.toNat_ofNat_of_lt' (hi.trans npts.toNat_lt)
  have hlt : UInt32.ofNat i < npts := UInt32.lt_iff_toNat_lt.mpr (by rwa [hid])
  let cfg : PgVectorConfig (List t.Carrier) :=
    { zeros := [], formatVector := fun _ => "", parseVectorText := fun _ _ => []
      vectorData := vectorsOf t npts dim payload, stored := id }
  obtain ⟨vec, values, hfetch, -, hmem, hvalues⟩ := hsame.2 _ hlt cfg rfl ∅ .done
  rw [fetch_start (getElem?_vectorsOf hlt)] at hfetch
  rw [← (List.cons.inj (Except.ok.inj hfetch)).1, hid] at hvalues
  rw [hid] at hmem
  obtain ⟨j, -, heq, hkept⟩ := mem_loadLoop hmem
  rw [Nat.zero_add] at heq
  subst heq
  have hrow : rowAt t dim.toNat i payload = values.map some := hvalues
  have hnumbers : none ∉ rowAt np dim.toNat i payload := by
    intro hnone
    obtain ⟨what, hrefused⟩ := hstore.2 _ hnone
    rw [hrefused] at hkept
    cases hkept
  rw [store_rowAt hstore hnumbers] at hkept
  have hvals : (rowAt np dim.toNat i payload).filterMap id = values := Except.ok.inj hkept
  rw [hrow, ← hvals, map_some_filterMap hnumbers]
  exact ⟨rfl, hnumbers⟩

/-- A complete file whose rows are numbers and the same in both types. -/
theorem sameVectors_of_rows (hstore : StoresVectors dim.toNat db.store) (hsize : np.size = t.size)
    (hlen : payload.length = npts.toNat * dim.toNat * t.size)
    (hrows : ∀ i < npts.toNat, rowAt np dim.toNat i payload = rowAt t dim.toNat i payload ∧
      none ∉ rowAt t dim.toNat i payload) :
    SameVectors t npts dim (loadLoop db path np dim.toNat batchSize hbatch 0 npts.toNat payload)
      (vectorsOf t npts dim payload) := by
  have hrun : loadLoop db path np dim.toNat batchSize hbatch 0 npts.toNat payload =
      ⟨(List.range npts.toNat).map fun j =>
        (0 + j, (rowAt np dim.toNat (0 + j) payload).filterMap id), db.createHnswIndex⟩ := by
    refine loadLoop_complete (fun j => (rowAt np dim.toNat j payload).filterMap id)
      (by rw [hlen, hsize]) fun j hj => ?_
    obtain ⟨heq, hnumbers⟩ := hrows j hj
    rw [Nat.zero_add]
    exact store_rowAt hstore (heq ▸ hnumbers)
  refine ⟨?_, fun tag htag cfg hcfg table reply => ?_⟩
  · rw [hrun, List.map_map]
    exact (List.map_congr_left fun j _ => Nat.zero_add j).trans (List.map_id' _)
  · have hlt := UInt32.lt_iff_toNat_lt.mp htag
    obtain ⟨heq, hnumbers⟩ := hrows tag.toNat hlt
    refine ⟨_, (rowAt np dim.toNat tag.toNat payload).filterMap id,
      fetch_start (hcfg ▸ getElem?_vectorsOf htag) table reply,
      Codec.length_decodeAll _ _ _, ?_, ?_⟩
    · rw [hrun]
      refine List.mem_map.mpr ⟨tag.toNat, List.mem_range.mpr hlt, ?_⟩
      rw [Nat.zero_add]
    · rw [map_some_filterMap (heq ▸ hnumbers), heq]
      rfl

theorem sameVectors_iff (hstore : StoresVectors dim.toNat db.store) (hsize : np.size = t.size)
    (hlen : payload.length = npts.toNat * dim.toNat * t.size) :
    SameVectors t npts dim (loadLoop db path np dim.toNat batchSize hbatch 0 npts.toNat payload)
        (vectorsOf t npts dim payload) ↔
      ∀ i < npts.toNat, rowAt np dim.toNat i payload = rowAt t dim.toNat i payload ∧
        none ∉ rowAt t dim.toNat i payload :=
  ⟨fun hsame _ => rows_of_sameVectors hstore hsame, sameVectors_of_rows hstore hsize hlen⟩

/-- A row of floats that are numbers. -/
theorem none_not_mem_float32_iff {dim j : Nat} {bytes : List UInt8} :
    none ∉ rowAt .float32 dim j bytes ↔
      ∀ bits ∈ word32.decodeAll dim (bytes.drop (j * dim * 4)), (float32Value bits).isSome := by
  constructor
  · intro hnumbers bits hbits
    rw [Option.isSome_iff_ne_none]
    intro hnone
    exact hnumbers (List.mem_map.mpr ⟨bits, hbits, hnone⟩)
  · intro hbits hnone
    obtain ⟨bits, hmem, hvalue⟩ := List.mem_map.mp hnone
    have hsome := hbits bits hmem
    rw [show float32Value bits = none from hvalue] at hsome
    cases hsome

theorem none_not_mem_bytes {t : ElementType} (ht : t ≠ .float32) {dim j : Nat}
    {bytes : List UInt8} : none ∉ rowAt t dim j bytes := by
  intro hnone
  obtain ⟨a, -, ha⟩ := List.mem_map.mp hnone
  cases t with
  | float32 => exact ht rfl
  | int8 => cases ha
  | uint8 => cases ha

theorem int8Value_eq_iff {b : UInt8} : int8Value b = b.toNat ↔ b < 128 := by
  rw [int8Value, UInt8.lt_iff_toNat_lt]
  split_ifs with h
  · exact iff_of_true rfl h
  · refine iff_of_false (fun heq => ?_) h
    exact absurd (sub_eq_self.mp heq) (by norm_num)

/-- The bytes of a row that are one number in both types. -/
theorem rowAt_int8_eq_iff {dim j : Nat} {bytes : List UInt8} :
    rowAt .int8 dim j bytes = rowAt .uint8 dim j bytes ↔
      ∀ b ∈ byte.decodeAll dim (bytes.drop (j * dim * 1)), b < 128 := by
  refine List.map_inj_left.trans (forall₂_congr fun b _ => ?_)
  rw [← int8Value_eq_iff]
  exact Option.some_inj

/-- A file that the loader takes for one of elements of type `np`. -/
theorem loadDataFromFile_of_dtype (hnpts : 0 < npts) (hdim : 0 < dim)
    (h : npDtype (payload.length / (npts.toNat * dim.toNat)) = some np) :
    loadDataFromFile db path dim.toNat batchSize hbatch (binFile npts dim payload) =
      loadLoop db path np dim.toNat batchSize hbatch 0 npts.toNat payload := by
  rw [loadDataFromFile_binFile db path hbatch hnpts hdim, h]

theorem loadDataFromFile_of_no_dtype (hnpts : 0 < npts) (hdim : 0 < dim)
    (h : npDtype (payload.length / (npts.toNat * dim.toNat)) = none) :
    ∃ what, (loadDataFromFile db path dim.toNat batchSize hbatch
      (binFile npts dim payload)).outcome = .error what := by
  rw [loadDataFromFile_binFile db path hbatch hnpts hdim, h]
  exact ⟨_, rfl⟩

theorem complete_iff (hnpts : 0 < npts) (hdim : 0 < dim)
    (hstore : StoresVectors dim.toNat db.store) (hsize : np.size = t.size)
    (hnp : npDtype t.size = some np)
    (hlen : payload.length = npts.toNat * dim.toNat * t.size) :
    (∃ vectors, loadVectorsFromFile t.codec path (some (binFile npts dim payload)) = .ok vectors ∧
        SameVectors t npts dim
          (loadDataFromFile db path dim.toNat batchSize hbatch (binFile npts dim payload))
          vectors) ↔
      ∀ i < npts.toNat, rowAt np dim.toNat i payload = rowAt t dim.toNat i payload ∧
        none ∉ rowAt t dim.toNat i payload := by
  have hpos : 0 < npts.toNat * dim.toNat := Nat.mul_pos hnpts hdim
  have hdtype : npDtype (payload.length / (npts.toNat * dim.toNat)) = some np := by
    rw [hlen, Nat.mul_div_cancel_left _ hpos, hnp]
  rw [loadDataFromFile_of_dtype hnpts hdim hdtype, loadVectorsFromFile_binFile _ _ hlen.ge,
    ← sameVectors_iff hstore hsize hlen]
  constructor
  · rintro ⟨vectors, hload, hsame⟩
    cases hload
    exact hsame
  · exact fun hsame => ⟨_, rfl, hsame⟩

/-- The two parts, for the type that the loader infers from a complete file. -/
theorem loadsAlike_iff_parts (t np : ElementType)
    {store : List (Option ℚ) → Except String (List ℚ)} (hnpts : 0 < npts) (hdim : 0 < dim)
    (hstore : StoresVectors dim.toNat store) (hsize : np.size = t.size)
    (hnp : npDtype t.size = some np) :
    LoadsAlike store t npts dim batchSize hbatch payload ↔
      (payload.length = npts.toNat * dim.toNat * t.size → ∀ i < npts.toNat,
        rowAt np dim.toNat i payload = rowAt t dim.toNat i payload ∧
          none ∉ rowAt t dim.toNat i payload) ∧
      (payload.length < npts.toNat * dim.toNat * t.size →
        ∀ (createHnswIndex : Except String Unit) (path : String), ∃ what,
          (loadDataFromFile ⟨store, createHnswIndex⟩ path dim.toNat batchSize hbatch
            (binFile npts dim payload)).outcome = .error what) := by
  constructor
  · intro halike
    refine ⟨fun hlen => ?_, fun hshort createHnswIndex path => ?_⟩
    · exact (complete_iff hnpts hdim hstore hsize hnp hlen).mp ((halike (.ok ()) "").1 hlen)
    · exact (halike createHnswIndex path).2 hshort
  · rintro ⟨hcomplete, hshort⟩ createHnswIndex path
    refine ⟨fun hlen => ?_, fun hlen => hshort hlen createHnswIndex path⟩
    exact (complete_iff hnpts hdim hstore hsize hnp hlen).mpr (hcomplete hlen)

/-- A short file of bytes has no element size. -/
theorem short_bytes_raises (hnpts : 0 < npts) (hdim : 0 < dim)
    (hshort : payload.length < npts.toNat * dim.toNat * 1) :
    ∃ what, (loadDataFromFile db path dim.toNat batchSize hbatch
      (binFile npts dim payload)).outcome = .error what := by
  rw [Nat.mul_one] at hshort
  refine loadDataFromFile_of_no_dtype hnpts hdim ?_
  rw [Nat.div_eq_of_lt hshort]
  rfl

theorem npDtype_eq_none {n : Nat} (h : n < 4) (hne : n ≠ 1) : npDtype n = none := by
  have hcases : n = 0 ∨ n = 2 ∨ n = 3 := by omega
  rcases hcases with rfl | rfl | rfl <;> rfl

/-- A short file of floats is loaded as one of bytes where it has a byte for
    each element. -/
theorem short_floats_raise_iff {store : List (Option ℚ) → Except String (List ℚ)}
    (hnpts : 0 < npts) (hdim : 0 < dim) (hstore : StoresVectors dim.toNat store)
    (hshort : payload.length < npts.toNat * dim.toNat * 4) :
    (∀ (createHnswIndex : Except String Unit) (path : String), ∃ what,
        (loadDataFromFile ⟨store, createHnswIndex⟩ path dim.toNat batchSize hbatch
          (binFile npts dim payload)).outcome = .error what) ↔
      payload.length < npts.toNat * dim.toNat ∨
        2 * (npts.toNat * dim.toNat) ≤ payload.length := by
  have hpos : 0 < npts.toNat * dim.toNat := Nat.mul_pos hnpts hdim
  have hone : payload.length / (npts.toNat * dim.toNat) = 1 ↔
      npts.toNat * dim.toNat ≤ payload.length ∧
        payload.length < 2 * (npts.toNat * dim.toNat) := by
    rw [Nat.div_eq_iff hpos]
    omega
  constructor
  · intro hraises
    by_contra hbetween
    rw [not_or, Nat.not_lt, Nat.not_le] at hbetween
    -- the loader reads a byte for each element and finishes
    obtain ⟨what, hraise⟩ := hraises (.ok ()) ""
    have hint8 : npDtype (payload.length / (npts.toNat * dim.toNat)) = some .int8 := by
      rw [hone.mpr hbetween]
      rfl
    rw [loadDataFromFile_of_dtype hnpts hdim hint8,
      loadLoop_complete (fun j => (rowAt .int8 dim.toNat j payload).filterMap id)
        ((Nat.mul_one _).trans_le hbetween.1) fun j _ => ?_] at hraise
    · cases hraise
    · rw [Nat.zero_add]
      exact store_rowAt hstore (none_not_mem_bytes (by decide))
  · intro hout createHnswIndex path
    refine loadDataFromFile_of_no_dtype hnpts hdim (npDtype_eq_none ?_ fun heq => ?_)
    · exact Nat.div_lt_of_lt_mul hshort
    · have hbetween := hone.mp heq
      omega

end Alike

/-- A column without rounding. -/
def exactColumn (row : List (Option ℚ)) : Except String (List ℚ) :=
  if row.any Option.isNone then .error "NaN not allowed in vector" else .ok (row.filterMap id)

theorem storesVectors_exactColumn (dim : Nat) : StoresVectors dim exactColumn := by
  refine ⟨fun values _ _ => ?_, fun row hnone => ⟨_, if_pos ?_⟩⟩
  · have hsome : ¬ (values.map some).any Option.isNone = true := by
      rw [List.any_map, List.any_eq_true]
      rintro ⟨q, -, hq⟩
      cases hq
    rw [exactColumn, if_neg hsome, List.filterMap_map]
    exact congrArg Except.ok List.filterMap_some
  · exact List.any_eq_true.mpr ⟨none, hnone, rfl⟩

/-- The two sides load a file of 1-byte integers alike unless a `uint8` is 128
    or more, and a file of floats unless one is not a number or the file is
    short and has between one and two bytes an element. -/
theorem loadsAlike_iff {store : List (Option ℚ) → Except String (List ℚ)} {npts dim : UInt32}
    (hnpts : 0 < npts) (hdim : 0 < dim) (hstore : StoresVectors dim.toNat store)
    (t : ElementType) {batchSize : Nat} (hbatch : 0 < batchSize) (payload : List UInt8) :
    LoadsAlike store t npts dim batchSize hbatch payload ↔ FileFits npts dim payload t := by
  cases t with
  | float32 =>
    rw [loadsAlike_iff_parts .float32 .float32 hnpts hdim hstore rfl rfl]
    refine and_congr (imp_congr_right fun _ => ?_) (imp_congr_right fun hshort =>
      short_floats_raise_iff hnpts hdim hstore hshort)
    -- the floats of the file are those of its rows
    constructor
    · intro hrows bits hbits
      obtain ⟨i, hi, hmem⟩ := word32.mem_decodeAll_rows.mp hbits
      exact none_not_mem_float32_iff.mp (hrows i hi).2 bits hmem
    · intro hbits i hi
      exact ⟨rfl, none_not_mem_float32_iff.mpr fun bits hmem =>
        hbits bits (word32.mem_decodeAll_rows.mpr ⟨i, hi, hmem⟩)⟩
  | int8 =>
    rw [loadsAlike_iff_parts .int8 .int8 hnpts hdim hstore rfl rfl]
    refine iff_of_true ⟨fun _ i _ => ⟨rfl, none_not_mem_bytes (by decide)⟩, ?_⟩ trivial
    exact fun hshort createHnswIndex path => short_bytes_raises hnpts hdim hshort
  | uint8 =>
    rw [loadsAlike_iff_parts .uint8 .int8 hnpts hdim hstore rfl rfl]
    constructor
    · intro hparts hlen b hb
      have hmem : b ∈ byte.decodeAll (npts.toNat * dim.toNat) payload := by
        rwa [← hlen, byte_decodeAll]
      obtain ⟨i, hi, hrow⟩ := byte.mem_decodeAll_rows.mp hmem
      have hrows := hparts.1 (hlen.trans (Nat.mul_one _).symm)
      exact rowAt_int8_eq_iff.mp (hrows i hi).1 b hrow
    · intro hsmall
      refine ⟨fun hlen i hi => ⟨?_, none_not_mem_bytes (by decide)⟩, fun hshort _ _ =>
        short_bytes_raises hnpts hdim hshort⟩
      have hbytes : payload.length = npts.toNat * dim.toNat := hlen.trans (Nat.mul_one _)
      refine rowAt_int8_eq_iff.mpr fun b hb => hsmall hbytes b ?_
      rw [← byte_decodeAll payload, hbytes]
      exact byte.mem_decodeAll_rows.mpr ⟨i, hi, hb⟩

/-- Three rows of two bytes, and three of one float, in batches of two rows. -/
theorem loadsAlike_iff_batches :
    LoadsAlike exactColumn .uint8 3 2 2 Nat.two_pos [7, 0, 127, 1, 2, 3] ∧
    LoadsAlike exactColumn .float32 3 1 2 Nat.two_pos
      [0, 0, 128, 63, 0, 0, 0, 64, 0, 0, 128, 191] := by
  have hthree : (0 : UInt32) < 3 := by decide
  have htwo : (0 : UInt32) < 2 := by decide
  have hone : (0 : UInt32) < 1 := by decide
  have hsmall : [7, 0, 127, 1, 2, 3].all (fun b : UInt8 => decide (b < 128)) = true := by
    decide +kernel
  have hnumbers : (word32.decodeAll ((3 : UInt32).toNat * (1 : UInt32).toNat)
      [0, 0, 128, 63, 0, 0, 0, 64, 0, 0, 128, 191]).all
        (fun bits => (float32Value bits).isSome) = true := by decide +kernel
  constructor
  · refine (loadsAlike_iff hthree htwo (storesVectors_exactColumn _) .uint8 Nat.two_pos
      [7, 0, 127, 1, 2, 3]).mpr fun _ b hb => ?_
    exact of_decide_eq_true (List.all_eq_true.mp hsmall b hb)
  · refine (loadsAlike_iff hthree hone (storesVectors_exactColumn _) .float32 Nat.two_pos
      [0, 0, 128, 63, 0, 0, 0, 64, 0, 0, 128, 191]).mpr ⟨fun _ => ?_, fun hshort => ?_⟩
    · exact List.all_eq_true.mp hnumbers
    · exact absurd hshort (by decide)

/-- A `uint8` of 200 is the row -56, and one byte of a float is loaded as an
    `int8`. -/
theorem bytes_are_signed :
    ¬ LoadsAlike exactColumn .uint8 1 1 1 Nat.one_pos [200] ∧
    ¬ LoadsAlike exactColumn .float32 1 1 1 Nat.one_pos [0] := by
  have hone : (0 : UInt32) < 1 := by decide
  have hstore := storesVectors_exactColumn (UInt32.toNat 1)
  constructor
  · rw [loadsAlike_iff_parts .uint8 .int8 hone hone hstore rfl rfl]
    intro hparts
    have hsmall := rowAt_int8_eq_iff.mp (hparts.1 rfl 0 (by decide)).1 200 List.mem_cons_self
    exact absurd hsmall (by decide)
  · rw [loadsAlike_iff_parts .float32 .float32 hone hone hstore rfl rfl]
    intro hparts
    have hraises := (short_floats_raise_iff hone hone hstore (by decide)).mp
      (hparts.2 (by decide))
    exact absurd hraises (by decide)

end TableLoad

end QvCache
