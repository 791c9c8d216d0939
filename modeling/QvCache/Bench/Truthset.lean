/-
  QvCache.Bench.Truthset

  Truthset files: two `int32` counts, a block of ids and a block of distances,
  each in rows of one width.  Two programs write them, `save_groundtruth` of
  benchmarks/workload/compute_groundtruth.cpp and `save_live_groundtruth` of
  benchmarks/pgvector/refresh_common.h, and `load_live_groundtruth` reads them.

  What the first program writes is read back for every part of the table, and
  no truncation of it is accepted (`load_saveGroundtruth`).  The second pads
  the lists that are shorter than K with the pair of id 0 and distance 0, which
  the reader cannot tell from a neighbor: only full lists survive
  (`load_saveLiveGroundtruth_iff`).
-/

import QvCache.Bench.LiveTruth
import QvCache.Lib.Bytes
import Mathlib.Order.Basic

namespace QvCache.Refresh

open Bytes

/-- The `int32_t` with these bits. -/
def int32 (w : UInt32) : Int := w.toInt32.toInt

theorem int32_of_lt {w : UInt32} (h : w.toNat < 2 ^ 31) : int32 w = w.toNat := by
  refine BitVec.toInt_eq_toNat_of_lt ?_
  show 2 * w.toNat < 2 ^ 32
  omega

theorem int32_neg_of_ge {w : UInt32} (h : 2 ^ 31 ≤ w.toNat) : int32 w < 0 := by
  have hlt := w.toNat_lt
  have hcond : int32 w =
      if 2 * w.toNat < 2 ^ 32 then (w.toNat : Int) else w.toNat - (2 ^ 32 : Nat) :=
    BitVec.toInt_eq_toNat_cond w.toBitVec
  rw [hcond, if_neg (by omega)]
  omega

theorem int32_lt (w : UInt32) : int32 w < 2 ^ 31 := Int32.toInt_lt w.toInt32

/-! ## Writing -/

/-- The file of two tables in rows of `k`. -/
def truthset (npts k : UInt32) (ids dists : List (List UInt32)) : List UInt8 :=
  word32.encode npts ++ (word32.encode k ++
    (ids.flatMap word32.encodeAll ++ dists.flatMap word32.encodeAll))

/-- `save_groundtruth`, the content of the file. -/
def saveGroundtruth (opens : Bool) (filename : String) (allIds allDistances : List (List UInt32))
    (nQueries k : Nat) : Except String (List UInt8) :=
  if opens = false then .error ("Failed to open file for writing: " ++ filename)
  else
    .ok (word32.encode (UInt32.ofNat nQueries) ++ (word32.encode (UInt32.ofNat k) ++
      (((List.range nQueries).flatMap fun q => word32.encodeAll ((allIds.getD q []).take k)) ++
        (List.range nQueries).flatMap fun q => word32.encodeAll ((allDistances.getD q []).take k))))

/-- The buffer of `k` zeros with the first entries overwritten by `xs`. -/
def fillRow (k : Nat) (xs : List UInt32) : List UInt32 :=
  xs.take k ++ (List.replicate k 0).drop (min xs.length k)

/-- What a save leaves of the file, and how it ends. -/
structure SaveRun where
  file : Option (List UInt8)
  outcome : Except String Unit

/-- `save_live_groundtruth`; `file` is what the path leads to before. -/
def saveLiveGroundtruth (opens : Bool) (path : String) (gt : LiveGroundtruth UInt32)
    (file : Option (List UInt8)) : SaveRun :=
  if path = "" then ⟨file, .ok ()⟩
  else if opens = false then ⟨file, .error ("Failed to write live groundtruth: " ++ path)⟩
  else
    let npts := UInt32.ofNat gt.lists.length
    let k := int32 gt.K
    -- the size of the buffers is `static_cast<size_t>(k)`
    if k < 0 then
      ⟨some (word32.encode npts ++ word32.encode gt.K),
        .error "cannot create std::vector larger than max_size()"⟩
    else
      ⟨some (truthset npts gt.K (gt.lists.map fun lst => fillRow k.toNat (lst.map Neighbor.id))
        (gt.lists.map fun lst => fillRow k.toNat (lst.map Neighbor.dist))), .ok ()⟩

/-! ## Reading -/

section Rows

variable {σ : Type} (k : Nat) (store : Nat → List UInt32 → σ → σ)

/-- The loop `for (int32_t q = 0; q < npts; ++q)` over rows of `k` words: whether
    all were there, what the file has after them, and what was stored. -/
def readRows : Nat → Nat → List UInt8 → σ → Bool × List UInt8 × σ
  | 0, _, bytes, s => (true, bytes, s)
  | n + 1, q, bytes, s =>
    if bytes.length < k * 4 then (false, [], s)
    else
      readRows n (q + 1) (bytes.drop (k * 4)) (store q (word32.decodeAll k (bytes.take (k * 4))) s)

/-- Storing rows one after the other. -/
def storeAll : Nat → List (List UInt32) → σ → σ
  | _, [], s => s
  | q, row :: rest, s => storeAll (q + 1) rest (store q row s)

variable {k}

/-- Rows that were written are read, whatever follows them. -/
theorem readRows_flatMap {rows : List (List UInt32)} (hrows : ∀ row ∈ rows, row.length = k)
    (rest : List UInt8) (q : Nat) (s : σ) :
    readRows k store rows.length q (rows.flatMap word32.encodeAll ++ rest) s =
      (true, rest, storeAll store q rows s) := by
  induction rows generalizing q s with
  | nil => rfl
  | cons row tail ih =>
    have hlen : (word32.encodeAll row).length = k * 4 := by
      rw [word32.length_encodeAll, hrows row List.mem_cons_self]
      rfl
    have hread : word32.decodeAll k (word32.encodeAll row) = row := by
      rw [← hrows row List.mem_cons_self, word32.decodeAll_encodeAll]
    rw [List.flatMap_cons, List.append_assoc, List.length_cons, readRows, if_neg (by
        rw [List.length_append, hlen]
        omega), List.take_left' hlen, List.drop_left' hlen, hread]
    exact ih (fun r hr => hrows r (List.mem_cons_of_mem row hr)) (q + 1) _

end Rows

/-- `if (static_cast<size_t>(q) < n_eval)`, list `q` is changed by its row. -/
def storeAt (nEval : Nat) (f : List UInt32 → List (Neighbor UInt32) → List (Neighbor UInt32))
    (q : Nat) (row : List UInt32) (lists : List (List (Neighbor UInt32))) :
    List (List (Neighbor UInt32)) :=
  if q < nEval then lists.modify q (f row) else lists

/-- The ids of a row, with distance 0 for now. -/
def pushIds (K : Nat) (ids : List UInt32) (list : List (Neighbor UInt32)) :
    List (Neighbor UInt32) :=
  list ++ (ids.take K).map fun id => ⟨id, 0⟩

/-- The distances of a row, into the first `K` entries. -/
def setDists (K : Nat) (dists : List UInt32) (list : List (Neighbor UInt32)) :
    List (Neighbor UInt32) :=
  list.mapIdx fun j n => if j < K then ⟨n.id, dists.getD j 0⟩ else n

/-- `load_live_groundtruth`: what it returns, and `out` after it. -/
def loadLiveGroundtruth (path : String) (file : Option (List UInt8)) (nEval : Nat) (K : UInt32)
    (out : LiveGroundtruth UInt32) : Bool × LiveGroundtruth UInt32 :=
  if path = "" ∨ nEval = 0 ∨ K = 0 then (false, out)
  else
    match file with
    | none => (false, out)
    | some bytes =>
      let npts := int32 (word32.decode (bytes.take 4))
      let k := int32 (word32.decode ((bytes.drop 4).take 4))
      if bytes.length < 8 ∨ npts ≤ 0 ∨ k ≤ 0 then (false, out)
      else if npts.toNat < nEval ∨ k.toNat < K.toNat then (false, out)
      -- `expected` is a `uint64_t`, compared as a `std::streamoff`
      else if (bytes.length : Int) < (Int64.ofNat (8 + 2 * npts.toNat * k.toNat * 4)).toInt then
        (false, out)
      else
        let ids := readRows k.toNat (storeAt nEval (pushIds K.toNat)) npts.toNat 0 (bytes.drop 8)
          (List.replicate nEval [])
        if ids.1 = false then (false, ⟨K, ids.2.2⟩)
        else
          let dists :=
            readRows k.toNat (storeAt nEval (setDists K.toNat)) npts.toNat 0 ids.2.1 ids.2.2
          (dists.1, ⟨K, dists.2.2⟩)

/-- `require_search_only_gt`. -/
def requireSearchOnlyGt (path : String) (file : Option (List UInt8)) (nQueries : Nat)
    (K : UInt32) : Except String (LiveGroundtruth UInt32) :=
  let run := loadLiveGroundtruth path file nQueries K ⟨10, []⟩
  if run.1 = false then
    .error ("warmup groundtruth missing or incomplete (not computed): " ++ path)
  else .ok run.2

/-! ## The stored rows -/

section Store

variable {f : List UInt32 → List (Neighbor UInt32) → List (Neighbor UInt32)}

theorem modify_append {α : Type} (g : α → α) (front : List α) (a : α) (rest : List α) :
    (front ++ a :: rest).modify front.length g = front ++ g a :: rest := by
  induction front with
  | nil => rfl
  | cons b front ih => exact congrArg (b :: ·) ih

/-- Rows from `n_eval` on are read and not stored. -/
theorem storeAll_of_le {nEval q : Nat} (h : nEval ≤ q) (rows : List (List UInt32))
    (lists : List (List (Neighbor UInt32))) :
    storeAll (storeAt nEval f) q rows lists = lists := by
  induction rows generalizing q with
  | nil => rfl
  | cons row rest ih =>
    rw [storeAll, storeAt, if_neg (Nat.not_lt.mpr h)]
    exact ih (Nat.le_succ_of_le h)

/-- The lists in front are done; the others take one row each. -/
theorem storeAll_append {rows : List (List UInt32)} (done : List (List (Neighbor UInt32)))
    {rest : List (List (Neighbor UInt32))} (h : rest.length ≤ rows.length) :
    storeAll (storeAt (done.length + rest.length) f) done.length rows (done ++ rest) =
      done ++ List.zipWith f rows rest := by
  induction rows generalizing done rest with
  | nil =>
    obtain rfl := List.eq_nil_of_length_eq_zero (Nat.le_zero.mp h)
    rfl
  | cons row tail ih =>
    cases rest with
    | nil => exact storeAll_of_le (Nat.le_refl _) (row :: tail) _
    | cons list rest =>
      have hlen : (done ++ [f row list]).length = done.length + 1 := List.length_append
      have hnext := ih (done ++ [f row list]) (Nat.le_of_succ_le_succ h)
      rw [hlen, List.append_assoc, List.append_assoc] at hnext
      rw [storeAll, storeAt, if_pos (by rw [List.length_cons]; omega), modify_append,
        List.length_cons, Nat.add_comm rest.length, ← Nat.add_assoc]
      exact hnext

theorem storeAll_eq {nEval : Nat} {rows : List (List UInt32)}
    {lists : List (List (Neighbor UInt32))} (hlists : lists.length = nEval)
    (h : nEval ≤ rows.length) :
    storeAll (storeAt nEval f) 0 rows lists = List.zipWith f rows lists := by
  have hall := storeAll_append (f := f) [] (hlists ▸ h : lists.length ≤ rows.length)
  rwa [List.length_nil, Nat.zero_add, hlists] at hall

/-- The first `K` pairs of a row of ids and one of distances. -/
theorem setDists_pushIds {K : Nat} {ids dists : List UInt32} (hK : K ≤ ids.length)
    (hlen : dists.length = ids.length) :
    setDists K dists (pushIds K ids []) = (List.zipWith Neighbor.mk ids dists).take K := by
  refine List.ext_getElem? fun j => ?_
  rw [setDists, pushIds, List.nil_append, List.getElem?_mapIdx, List.getElem?_map]
  by_cases hj : j < K
  · rw [List.getElem?_take_of_lt hj, List.getElem?_take_of_lt hj, List.getElem?_zipWith,
      List.getElem?_eq_getElem (hj.trans_le hK), List.getElem?_eq_getElem (by omega),
      Option.map_some, Option.map_some, if_pos hj, List.getD_eq_getElem?_getD,
      List.getElem?_eq_getElem (by omega)]
    rfl
  · have hpast := Nat.not_lt.mp hj
    rw [List.getElem?_take_eq_none hpast, List.getElem?_take_eq_none hpast]
    rfl

/-- What both loops leave: the first `K` pairs of the first `n_eval` rows. -/
theorem zipWith_setDists_pushIds {nEval K k : Nat} {ids dists : List (List UInt32)}
    (hids : ∀ row ∈ ids, row.length = k) (hdists : ∀ row ∈ dists, row.length = k)
    (hlen : dists.length = ids.length) (hK : K ≤ k) :
    List.zipWith (setDists K) dists (List.zipWith (pushIds K) ids (List.replicate nEval [])) =
      (List.zipWith (fun i d => (List.zipWith Neighbor.mk i d).take K) ids dists).take nEval := by
  refine List.ext_getElem? fun i => ?_
  rw [List.getElem?_zipWith, List.getElem?_zipWith, List.getElem?_take]
  by_cases hi : i < nEval
  · rw [if_pos hi, List.getElem?_zipWith, List.getElem?_replicate_of_lt hi]
    by_cases hrow : i < ids.length
    · have hrow' : i < dists.length := hlen ▸ hrow
      have hwidth := hids _ (List.getElem_mem hrow)
      have hwidth' := hdists _ (List.getElem_mem hrow')
      rw [List.getElem?_eq_getElem hrow, List.getElem?_eq_getElem hrow']
      exact congrArg some (setDists_pushIds (hwidth ▸ hK) (hwidth'.trans hwidth.symm))
    · rw [List.getElem?_eq_none (Nat.not_lt.mp hrow),
        List.getElem?_eq_none (hlen ▸ Nat.not_lt.mp hrow)]
  · have hnone : (List.replicate nEval ([] : List (Neighbor UInt32)))[i]? = none :=
      List.getElem?_eq_none (by rw [List.length_replicate]; omega)
    rw [if_neg hi, hnone]
    cases ids[i]? <;> cases dists[i]? <;> rfl

end Store

/-! ## The reader on a truthset file -/

section Load

variable {path : String} {npts k : UInt32} {ids dists : List (List UInt32)} {nEval : Nat}
  {K : UInt32} {out : LiveGroundtruth UInt32}

theorem take_four_truthset :
    word32.decode ((truthset npts k ids dists).take 4) = npts := by
  have hlen : (word32.encode npts).length = 4 := word32.length_encode npts
  rw [truthset, List.take_left' hlen, word32.decode_encode]

theorem drop_four_truthset :
    word32.decode (((truthset npts k ids dists).drop 4).take 4) = k := by
  have hlen : (word32.encode npts).length = 4 := word32.length_encode npts
  have hlen' : (word32.encode k).length = 4 := word32.length_encode k
  rw [truthset, List.drop_left' hlen, List.take_left' hlen', word32.decode_encode]

theorem drop_eight_truthset :
    (truthset npts k ids dists).drop 8 =
      ids.flatMap word32.encodeAll ++ dists.flatMap word32.encodeAll := by
  have hlen : (word32.encode npts).length = 4 := word32.length_encode npts
  have hlen' : (word32.encode k).length = 4 := word32.length_encode k
  show (truthset npts k ids dists).drop (4 + 4) = _
  rw [truthset, ← List.drop_drop, List.drop_left' hlen, List.drop_left' hlen']

theorem length_flatMap_rows {rows : List (List UInt32)} {width : Nat}
    (hrows : ∀ row ∈ rows, row.length = width) :
    (rows.flatMap word32.encodeAll).length = rows.length * (width * 4) := by
  induction rows with
  | nil => rw [List.length_nil, Nat.zero_mul]; rfl
  | cons row rest ih =>
    have hrow : (word32.encodeAll row).length = width * 4 := by
      rw [word32.length_encodeAll, hrows row List.mem_cons_self]
      rfl
    rw [List.flatMap_cons, List.length_append, hrow,
      ih fun r hr => hrows r (List.mem_cons_of_mem row hr), List.length_cons, Nat.succ_mul,
      Nat.add_comm]

theorem length_truthset (npts : UInt32) (hids : ∀ row ∈ ids, row.length = k.toNat)
    (hdists : ∀ row ∈ dists, row.length = k.toNat) (hlen : dists.length = ids.length) :
    (truthset npts k ids dists).length = 8 + 2 * ids.length * k.toNat * 4 := by
  have hrows : ids.length * (k.toNat * 4) + ids.length * (k.toNat * 4) =
      2 * ids.length * k.toNat * 4 := by
    rw [← Nat.two_mul, Nat.mul_assoc, Nat.mul_assoc]
  rw [truthset, List.length_append, List.length_append, List.length_append, word32.length_encode,
    word32.length_encode, length_flatMap_rows hids, length_flatMap_rows hdists, hlen, hrows]
  show 4 + (4 + _) = _
  omega

/-- The expected size, as a signed number, is at most what it should be. -/
theorem int64_ofNat_le (n : Nat) : (Int64.ofNat n).toInt ≤ n := by
  have hsize : Int64.size = 2 ^ 64 := rfl
  rw [Int64.toInt_ofNat', Int.bmod_def, hsize]
  split_ifs <;> omega

/-- A whole file of rows is read for every part of it. -/
theorem load_truthset (hpath : path ≠ "") (hnpts : npts.toNat < 2 ^ 31) (hk : k.toNat < 2 ^ 31)
    (hrows : ids.length = npts.toNat) (hlen : dists.length = ids.length)
    (hids : ∀ row ∈ ids, row.length = k.toNat) (hdists : ∀ row ∈ dists, row.length = k.toNat)
    (hn : 1 ≤ nEval) (hn' : nEval ≤ npts.toNat) (hK : 1 ≤ K.toNat) (hK' : K.toNat ≤ k.toNat) :
    loadLiveGroundtruth path (some (truthset npts k ids dists)) nEval K out =
      (true, ⟨K, (List.zipWith (fun i d => (List.zipWith Neighbor.mk i d).take K.toNat)
        ids dists).take nEval⟩) := by
  have hK0 : K ≠ 0 := by
    rintro rfl
    exact absurd hK (by decide)
  have hsize := length_truthset npts hids hdists hlen
  have hexpected := int64_ofNat_le (8 + 2 * npts.toNat * k.toNat * 4)
  have hread := readRows_flatMap (storeAt nEval (pushIds K.toNat)) hids
    (dists.flatMap word32.encodeAll) 0 (List.replicate nEval [])
  have hread' := readRows_flatMap (storeAt nEval (setDists K.toNat)) hdists [] 0
    (List.zipWith (pushIds K.toNat) ids (List.replicate nEval []))
  rw [storeAll_eq List.length_replicate (by omega)] at hread
  rw [storeAll_eq (by rw [List.length_zipWith, List.length_replicate]; omega) (by omega),
    List.append_nil, hlen, zipWith_setDists_pushIds hids hdists hlen hK'] at hread'
  rw [hrows] at hread hread' hsize
  simp only [loadLiveGroundtruth, take_four_truthset, drop_four_truthset, drop_eight_truthset,
    int32_of_lt hnpts, int32_of_lt hk, Int.toNat_natCast]
  rw [if_neg (by simp only [hpath, hK0, or_false, false_or]; omega), if_neg (by omega),
    if_neg (by omega), if_neg (by omega), hread]
  simp only [Bool.true_eq_false, if_false, hread']

/-- What a file is like that the reader accepts. -/
theorem of_load_eq_true {file : Option (List UInt8)}
    (h : (loadLiveGroundtruth path file nEval K out).1 = true) :
    path ≠ "" ∧ 1 ≤ nEval ∧ ∃ bytes, file = some bytes ∧ 8 ≤ bytes.length ∧
      nEval ≤ (int32 (word32.decode (bytes.take 4))).toNat ∧
      K.toNat ≤ (int32 (word32.decode ((bytes.drop 4).take 4))).toNat ∧
      (Int64.ofNat (8 + 2 * (int32 (word32.decode (bytes.take 4))).toNat *
        (int32 (word32.decode ((bytes.drop 4).take 4))).toNat * 4)).toInt ≤ bytes.length := by
  unfold loadLiveGroundtruth at h
  split_ifs at h with hargs
  rw [not_or, not_or] at hargs
  cases file with
  | none => cases h
  | some bytes =>
    dsimp only at h
    split_ifs at h with hheader hshape hsize
    all_goals exact ⟨hargs.1, Nat.one_le_iff_ne_zero.mpr hargs.2.1, bytes, rfl, by omega, by omega,
      by omega, by omega⟩

theorem int64_ofNat {n : Nat} (h : n < 2 ^ 63) : (Int64.ofNat n).toInt = n := by
  have hsize : Int64.size = 2 ^ 64 := rfl
  rw [Int64.toInt_ofNat', Int.bmod_def, hsize]
  split_ifs <;> omega

/-- A file that ends before its rows do is not accepted. -/
theorem load_take_truthset (hnpts : npts.toNat < 2 ^ 31) (hk : k.toNat < 2 ^ 31)
    (hfits : 8 + 2 * npts.toNat * k.toNat * 4 < 2 ^ 63) {m : Nat}
    (hm : m < 8 + 2 * npts.toNat * k.toNat * 4) :
    (loadLiveGroundtruth path (some ((truthset npts k ids dists).take m)) nEval K out).1 =
      false := by
  rw [← Bool.not_eq_true]
  intro haccept
  obtain ⟨-, -, bytes, hbytes, hlong, -, -, hsize⟩ := of_load_eq_true haccept
  obtain rfl := Option.some.inj hbytes
  have hle : ((truthset npts k ids dists).take m).length ≤ m := by
    rw [List.length_take]
    exact Nat.min_le_left _ _
  rw [List.take_take, Nat.min_eq_left (by omega), List.drop_take, List.take_take,
    Nat.min_eq_left (by omega), take_four_truthset, drop_four_truthset, int32_of_lt hnpts,
    int32_of_lt hk, Int.toNat_natCast, Int.toNat_natCast, int64_ofNat hfits] at hsize
  omega

end Load

/-! ## What `compute_groundtruth` writes -/

/-- A table of `n` rows of `k` words. -/
structure TruthTable (n k : Nat) where
  rows : List (List UInt32)
  length_rows : rows.length = n
  length_row : ∀ row ∈ rows, row.length = k

theorem TruthTable.flatMap_range {n k : Nat} (t : TruthTable n k) :
    ((List.range n).flatMap fun q => word32.encodeAll ((t.rows.getD q []).take k)) =
      t.rows.flatMap word32.encodeAll := by
  have hrows : (List.range n).map (fun q => (t.rows.getD q []).take k) = t.rows := by
    refine List.ext_getElem? fun q => ?_
    rw [List.getElem?_map]
    by_cases hq : q < n
    · have hq' : q < t.rows.length := t.length_rows.symm ▸ hq
      have hwidth := t.length_row _ (List.getElem_mem hq')
      rw [List.getElem?_range hq, Option.map_some, List.getD_eq_getElem?_getD,
        List.getElem?_eq_getElem hq', Option.getD_some, List.take_of_length_le hwidth.le]
    · rw [List.getElem?_eq_none (by rwa [List.length_range, ← Nat.not_lt]),
        List.getElem?_eq_none (by rwa [t.length_rows, ← Nat.not_lt])]
      rfl
  conv_rhs => rw [← hrows, List.flatMap_map]

theorem saveGroundtruth_eq {n k : Nat} (filename : String) (ids dists : TruthTable n k) :
    saveGroundtruth true filename ids.rows dists.rows n k =
      .ok (truthset (UInt32.ofNat n) (UInt32.ofNat k) ids.rows dists.rows) := by
  rw [saveGroundtruth, ids.flatMap_range, dists.flatMap_range]
  rfl

/-- The file of one program is what the other one reads: every part of its
    tables, nothing beyond them, and no truncation of it. -/
theorem load_saveGroundtruth {n k : Nat} (hn : n < 2 ^ 31) (hk : k < 2 ^ 31)
    (hfits : 8 + 8 * n * k < 2 ^ 63) (ids dists : TruthTable n k) {filename : String}
    (hname : filename ≠ "") (out : LiveGroundtruth UInt32) :
    ∃ file, saveGroundtruth true filename ids.rows dists.rows n k = .ok file ∧
      (∀ (nEval : Nat) (K : UInt32), 1 ≤ nEval → nEval ≤ n → 1 ≤ K.toNat → K.toNat ≤ k →
        loadLiveGroundtruth filename (some file) nEval K out =
          (true, ⟨K, (List.zipWith (fun i d => (List.zipWith Neighbor.mk i d).take K.toNat)
            ids.rows dists.rows).take nEval⟩)) ∧
      (∀ front, front <+: file → front ≠ file → ∀ (nEval : Nat) (K : UInt32),
        (loadLiveGroundtruth filename (some front) nEval K out).1 = false) ∧
      ∀ (nEval : Nat) (K : UInt32), n < nEval ∨ k < K.toNat →
        (loadLiveGroundtruth filename (some file) nEval K out).1 = false := by
  have hn' : (UInt32.ofNat n).toNat = n := UInt32.toNat_ofNat_of_lt' (hn.trans (by decide))
  have hk' : (UInt32.ofNat k).toNat = k := UInt32.toNat_ofNat_of_lt' (hk.trans (by decide))
  have hnint : (UInt32.ofNat n).toNat < 2 ^ 31 := by rwa [hn']
  have hkint : (UInt32.ofNat k).toNat < 2 ^ 31 := by rwa [hk']
  have hids : ∀ row ∈ ids.rows, row.length = (UInt32.ofNat k).toNat := by
    rw [hk']
    exact ids.length_row
  have hdists : ∀ row ∈ dists.rows, row.length = (UInt32.ofNat k).toNat := by
    rw [hk']
    exact dists.length_row
  have hlen : dists.rows.length = ids.rows.length := dists.length_rows.trans ids.length_rows.symm
  have hexpected : 8 + 2 * n * k * 4 = 8 + 8 * n * k := by
    rw [Nat.mul_assoc 2, Nat.mul_assoc 8]
    omega
  refine ⟨_, saveGroundtruth_eq filename ids dists, ?_, ?_, ?_⟩
  · intro nEval K hpos hle hK hK'
    exact load_truthset hname hnint hkint (by rw [hn', ids.length_rows]) hlen hids hdists hpos
      (by rwa [hn']) hK (by rwa [hk'])
  · intro front hfront hne nEval K
    have hshort : front.length < 8 + 2 * n * k * 4 := by
      have hfull := length_truthset (UInt32.ofNat n) hids hdists hlen
      rw [ids.length_rows, hk'] at hfull
      rw [← hfull]
      refine Nat.lt_of_le_of_ne hfront.length_le fun heq => hne ?_
      exact hfront.eq_of_length heq
    rw [List.prefix_iff_eq_take.mp hfront]
    exact load_take_truthset hnint hkint (by rw [hn', hk', hexpected]; exact hfits)
      (by rw [hn', hk']; exact hshort)
  · intro nEval K hbeyond
    rw [← Bool.not_eq_true]
    intro haccept
    obtain ⟨-, -, bytes, hbytes, -, hevals, hKs, -⟩ := of_load_eq_true haccept
    obtain rfl := Option.some.inj hbytes
    rw [take_four_truthset, int32_of_lt hnint, Int.toNat_natCast, hn'] at hevals
    rw [drop_four_truthset, int32_of_lt hkint, Int.toNat_natCast, hk'] at hKs
    omega

/-- Two rows of two. -/
def twoRows : TruthTable 2 2 := ⟨[[3, 1], [2, 5]], rfl, by decide⟩

theorem load_saveGroundtruth_twoRows :
    ∃ file, saveGroundtruth true "gt.bin" twoRows.rows twoRows.rows 2 2 = .ok file ∧
      loadLiveGroundtruth "gt.bin" (some file) 2 1 ⟨10, []⟩ =
        (true, ⟨1, [[⟨3, 3⟩], [⟨2, 2⟩]]⟩) := by
  obtain ⟨file, hsave, hload, -⟩ := load_saveGroundtruth (by decide) (by decide) (by decide)
    twoRows twoRows (show "gt.bin" ≠ "" by decide) ⟨10, []⟩
  exact ⟨file, hsave, hload 2 1 (by decide) (by decide) (by decide) (by decide)⟩

/-- Warm-up runs take the whole table from such a file. -/
theorem requireSearchOnlyGt_saveGroundtruth {n k : Nat} (hn : n < 2 ^ 31) (hk : k < 2 ^ 31)
    (hfits : 8 + 8 * n * k < 2 ^ 63) (ids dists : TruthTable n k) {path : String}
    (hname : path ≠ "") {K : UInt32} (hpos : 1 ≤ n) (hK : 1 ≤ K.toNat) (hK' : K.toNat ≤ k) :
    ∃ file, saveGroundtruth true path ids.rows dists.rows n k = .ok file ∧
      requireSearchOnlyGt path (some file) n K =
        .ok ⟨K, List.zipWith (fun i d => (List.zipWith Neighbor.mk i d).take K.toNat)
          ids.rows dists.rows⟩ := by
  obtain ⟨file, hsave, hload, -⟩ := load_saveGroundtruth hn hk hfits ids dists hname ⟨10, []⟩
  have hall : (List.zipWith (fun i d => (List.zipWith Neighbor.mk i d).take K.toNat)
      ids.rows dists.rows).length ≤ n := by
    rw [List.length_zipWith, ids.length_rows]
    exact Nat.min_le_left _ _
  refine ⟨file, hsave, ?_⟩
  rw [requireSearchOnlyGt, hload n K hpos (Nat.le_refl n) hK hK', List.take_of_length_le hall]
  rfl

/-! ## What a refresh run writes -/

theorem length_fillRow {k : Nat} (xs : List UInt32) : (fillRow k xs).length = k := by
  rw [fillRow, List.length_append, List.length_take, List.length_drop, List.length_replicate]
  omega

theorem fillRow_of_length {k : Nat} {xs : List UInt32} (h : xs.length = k) :
    fillRow k xs = xs := by
  rw [fillRow, h, Nat.min_self, List.take_of_length_le h.le, List.drop_eq_nil_of_le
    (List.length_replicate (n := k)).le, List.append_nil]

/-- A short row of ids continues with 0. -/
theorem fillRow_of_lt {k : Nat} {xs : List UInt32} (h : xs.length < k) :
    fillRow k xs = xs ++ List.replicate (k - xs.length) 0 := by
  rw [fillRow, Nat.min_eq_left h.le, List.take_of_length_le h.le, List.drop_replicate]

section Save

variable {path : String} {gt out : LiveGroundtruth UInt32} {file : Option (List UInt8)}

/-- The rows of a save. -/
def savedIds (gt : LiveGroundtruth UInt32) : List (List UInt32) :=
  gt.lists.map fun lst => fillRow gt.K.toNat (lst.map Neighbor.id)

def savedDists (gt : LiveGroundtruth UInt32) : List (List UInt32) :=
  gt.lists.map fun lst => fillRow gt.K.toNat (lst.map Neighbor.dist)

theorem saveLiveGroundtruth_eq (hpath : path ≠ "") (hK : gt.K.toNat < 2 ^ 31) :
    saveLiveGroundtruth true path gt file =
      ⟨some (truthset (UInt32.ofNat gt.lists.length) gt.K (savedIds gt) (savedDists gt)),
        .ok ()⟩ := by
  have hint := int32_of_lt hK
  rw [saveLiveGroundtruth, if_neg hpath, if_neg Bool.noConfusion]
  simp only [hint, Int.toNat_natCast]
  rw [if_neg (by omega)]
  rfl

/-- The list that comes back, filled up to `K` pairs. -/
def filledList (K : Nat) (lst : List (Neighbor UInt32)) : List (Neighbor UInt32) :=
  List.zipWith Neighbor.mk (fillRow K (lst.map Neighbor.id)) (fillRow K (lst.map Neighbor.dist))

def filled (gt : LiveGroundtruth UInt32) : LiveGroundtruth UInt32 where
  K := gt.K
  lists := gt.lists.map (filledList gt.K.toNat)

theorem length_filledList (K : Nat) (lst : List (Neighbor UInt32)) :
    (filledList K lst).length = K := by
  rw [filledList, List.length_zipWith, length_fillRow, length_fillRow, Nat.min_self]

/-- A full list comes back as it was. -/
theorem filledList_of_length {K : Nat} {lst : List (Neighbor UInt32)} (h : lst.length = K) :
    filledList K lst = lst := by
  rw [filledList, fillRow_of_length (by rwa [List.length_map]),
    fillRow_of_length (by rwa [List.length_map]), List.zipWith_map, List.zipWith_self]
  exact List.map_id lst

theorem load_saveLiveGroundtruth (hpath : path ≠ "") (hK : 1 ≤ gt.K.toNat)
    (hKint : gt.K.toNat < 2 ^ 31) (hpos : 1 ≤ gt.lists.length) (hlists : gt.lists.length < 2 ^ 31) :
    loadLiveGroundtruth path (saveLiveGroundtruth true path gt file).file gt.lists.length gt.K out =
      (true, filled gt) := by
  have hn : (UInt32.ofNat gt.lists.length).toNat = gt.lists.length :=
    UInt32.toNat_ofNat_of_lt' (hlists.trans (by decide))
  have hids : ∀ row ∈ savedIds gt, row.length = gt.K.toNat := by
    intro row hrow
    obtain ⟨lst, -, rfl⟩ := List.mem_map.mp hrow
    exact length_fillRow _
  have hdists : ∀ row ∈ savedDists gt, row.length = gt.K.toNat := by
    intro row hrow
    obtain ⟨lst, -, rfl⟩ := List.mem_map.mp hrow
    exact length_fillRow _
  rw [saveLiveGroundtruth_eq hpath hKint, load_truthset hpath (by rwa [hn]) hKint
    (by rw [hn]; exact List.length_map _)
    (by rw [savedIds, savedDists, List.length_map, List.length_map])
    hids hdists hpos hn.ge hK (Nat.le_refl _), savedIds, savedDists, List.zipWith_map,
    List.zipWith_self, List.take_of_length_le (List.length_map _).le]
  refine congrArg (fun lists => (true, LiveGroundtruth.mk gt.K lists)) ?_
  exact List.map_congr_left fun lst _ => List.take_of_length_le (length_filledList _ lst).le

theorem filled_eq_iff :
    (filled gt).lists = gt.lists ↔ ∀ lst ∈ gt.lists, lst.length = gt.K.toNat := by
  have hself : (filled gt).lists = gt.lists ↔
      gt.lists.map (filledList gt.K.toNat) = gt.lists.map id := by
    rw [List.map_id]
    rfl
  rw [hself, List.map_inj_left]
  constructor
  · intro hsame lst hlst
    have hlen := length_filledList gt.K.toNat lst
    rw [hsame lst hlst] at hlen
    exact hlen
  · exact fun hfull lst hlst => filledList_of_length (hfull lst hlst)

theorem map_id_zipWith {ids dists : List UInt32} (h : ids.length ≤ dists.length) :
    (List.zipWith Neighbor.mk ids dists).map Neighbor.id = ids :=
  calc (List.zipWith Neighbor.mk ids dists).map Neighbor.id
    _ = (ids.zip dists).map Prod.fst := by rw [List.zip, List.map_zipWith, List.map_zipWith]
    _ = ids := List.map_fst_zip h

/-- In the top K of a list that was short, id 0 is one more neighbor. -/
theorem topk_filled {q : Nat} {lst : List (Neighbor UInt32)} (hq : gt.lists[q]? = some lst)
    (hshort : lst.length < gt.K.toNat) : (filled gt).topk q = insert 0 (gt.topk q) := by
  have hids : (lst.map Neighbor.id).length < gt.K.toNat := by rwa [List.length_map]
  have hwidth : (fillRow gt.K.toNat (lst.map Neighbor.id)).length ≤
      (fillRow gt.K.toNat (lst.map Neighbor.dist)).length := by
    rw [length_fillRow, length_fillRow]
  have hfilled : (filledList gt.K.toNat lst).map Neighbor.id =
      lst.map Neighbor.id ++ List.replicate (gt.K.toNat - (lst.map Neighbor.id).length) 0 := by
    rw [filledList, map_id_zipWith hwidth, fillRow_of_lt hids]
  have hrow : (filled gt).lists[q]? = some (filledList gt.K.toNat lst) := by
    rw [filled, List.getElem?_map, hq]
    rfl
  rw [LiveGroundtruth.topk, LiveGroundtruth.topk, hrow, hq]
  dsimp only
  rw [length_filledList, show (filled gt).K = gt.K from rfl, Nat.min_self,
    List.take_of_length_le (length_filledList _ lst).le, hfilled, Nat.min_eq_right hshort.le,
    List.take_length]
  ext id
  rw [Finset.mem_insert, List.mem_toFinset, List.mem_toFinset, List.mem_append, List.mem_replicate]
  constructor
  · rintro (hmem | ⟨-, rfl⟩)
    · exact Or.inr hmem
    · exact Or.inl rfl
  · rintro (rfl | hmem)
    · exact Or.inr ⟨by omega, rfl⟩
    · exact Or.inl hmem

/-- A load after a save returns what was saved. -/
structure Survives (path : String) (gt : LiveGroundtruth UInt32) (file : Option (List UInt8))
    (out : LiveGroundtruth UInt32) : Prop where
  saved : (saveLiveGroundtruth true path gt file).outcome = .ok ()
  loaded : ∃ got, loadLiveGroundtruth path (saveLiveGroundtruth true path gt file).file
      gt.lists.length gt.K out = (true, got) ∧
    (∀ q, got.topk q = gt.topk q) ∧ got.lists = gt.lists

/-- A ground truth survives its file if and only if the file has a name, both
    counts fit an `int32_t`, there is a list, and every list is full. -/
theorem load_saveLiveGroundtruth_iff (hK : 1 ≤ gt.K.toNat)
    (hshort : ∀ lst ∈ gt.lists, lst.length ≤ gt.K.toNat) :
    Survives path gt file out ↔
      path ≠ "" ∧ (1 ≤ gt.lists.length ∧ gt.lists.length < 2 ^ 31) ∧ gt.K.toNat < 2 ^ 31 ∧
        ∀ lst ∈ gt.lists, gt.K.toNat ≤ lst.length := by
  constructor
  · rintro ⟨hsaved, got, hload, -, hlists⟩
    obtain ⟨hpath, hpos, bytes, hbytes, -, hevals, -⟩ :=
      of_load_eq_true (congrArg Prod.fst hload)
    have hKint : gt.K.toNat < 2 ^ 31 := by
      by_contra hbig
      have hneg := int32_neg_of_ge (Nat.not_lt.mp hbig)
      rw [saveLiveGroundtruth, if_neg hpath, if_neg Bool.noConfusion] at hsaved
      simp only [hneg, if_true] at hsaved
      cases hsaved
    have hcount : gt.lists.length < 2 ^ 31 := by
      have hlt := int32_lt (word32.decode (bytes.take 4))
      omega
    rw [load_saveLiveGroundtruth hpath hK hKint hpos hcount] at hload
    obtain rfl := (Prod.mk.inj hload).2
    exact ⟨hpath, ⟨hpos, hcount⟩, hKint, fun lst hlst => (filled_eq_iff.mp hlists lst hlst).ge⟩
  · rintro ⟨hpath, ⟨hpos, hcount⟩, hKint, hfull⟩
    have hlists : (filled gt).lists = gt.lists := filled_eq_iff.mpr fun lst hlst =>
      Nat.le_antisymm (hshort lst hlst) (hfull lst hlst)
    refine ⟨?_, filled gt, load_saveLiveGroundtruth hpath hK hKint hpos hcount, fun q => ?_, hlists⟩
    · rw [saveLiveGroundtruth_eq hpath hKint]
    · rw [show filled gt = gt from congrArg (LiveGroundtruth.mk gt.K) hlists]

end Save

/-- One query with one live neighbor, at distance 1. -/
def oneNeighbor (K : UInt32) : LiveGroundtruth UInt32 := ⟨K, [[⟨7, 0x3F800000⟩]]⟩

theorem survives_oneNeighbor : Survives "gt.bin" (oneNeighbor 1) none ⟨10, []⟩ :=
  (load_saveLiveGroundtruth_iff (by decide) (by decide)).mpr
    ⟨by decide, by decide, by decide, by decide⟩

/-- With `K = 2` the list comes back with the base vector 0 in it. -/
theorem not_survives_oneNeighbor : ¬ Survives "gt.bin" (oneNeighbor 2) none ⟨10, []⟩ := by
  rintro ⟨-, got, hload, htopk, -⟩
  have hback : loadLiveGroundtruth "gt.bin"
      (saveLiveGroundtruth true "gt.bin" (oneNeighbor 2) none).file (oneNeighbor 2).lists.length
      (oneNeighbor 2).K ⟨10, []⟩ = (true, filled (oneNeighbor 2)) :=
    load_saveLiveGroundtruth (by decide) (by decide) (by decide) (by decide) (by decide)
  obtain rfl := (Prod.mk.inj (hback.symm.trans hload)).2
  exact absurd (htopk 0) (by decide)

end QvCache.Refresh
