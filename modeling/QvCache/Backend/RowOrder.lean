/-
  QvCache.Backend.RowOrder

  `PgVectorBackend::search` and the K-th distance that a miss takes from its
  answer.  The answer lists the rows in the order in which the database returns
  them, and `handle_backend_miss` takes the K-th position for the largest
  distance.  The statement asks for an order, but the session of `conn` lets an
  index scan relax it.
-/

import QvCache.Backend.PgVector
import QvCache.Theta.Thresholds

namespace QvCache

namespace PgVectorBackend

/-- `metric_`; the constructor refuses all others. -/
inductive Distance where
  | l2
  | cosine
deriving DecidableEq

/-- What `strtoul` and `strtof` read of the two columns of a row. -/
structure SearchRow where
  id : UInt32
  distance : Double

/-- The rows of a result; `PQntuples` is an `int`. -/
structure Tuples where
  rows : List SearchRow
  fits : rows.length < 2 ^ 31

/-- How the query comes out. -/
inductive SearchReply where
  | noConnection (what : String)
  | failed (err : String)
  | tuples (res : Tuples)

/-- The product of a `float` with itself; `round` is the rounding of the
    product of two finite ones. -/
def square (round : ℚ → Double) : Double → Double
  | .fin x => round (x * x)
  | .nan => .nan
  | _ => .posInf

/-- The value of `result_distances[i]` for a row. -/
def resultDistance (round : ℚ → Double) (metric : Distance) (row : SearchRow) : Double :=
  if metric = .cosine then row.distance else square round row.distance

/-- `static_cast<int>(K)`. -/
def intOfK (K : Nat) : Int := (BitVec.ofNat 32 K).toInt

/-- The position without a row. -/
def unfilled : UInt32 × Double := (0xFFFFFFFF, .posInf)

def search (round : ℚ → Double) (metric : Distance) (K : Nat) :
    SearchReply → Except String BackendAnswer
  | .noConnection what => .error what
  | .failed err => .error ("pgvector search failed: " ++ err)
  | .tuples res =>
    let n := min (res.rows.length : Int) (intOfK K)
    .ok ((List.range K).map fun (i : Nat) =>
      if (i : Int) < n then
        (res.rows[i]?.map fun row => (row.id, resultDistance round metric row)).getD unfilled
      else unfilled)

/-! ## What theta is trained with -/

/-- The distances that the caller of `search` gets on a miss; of the answer,
    `handle_backend_miss` only changes the tags. -/
def missDistances (answer : BackendAnswer) : List Double := answer.map Prod.snd

/-- One of the values, and none is larger. -/
def IsLargest (d : Double) (ds : List Double) : Prop := d ∈ ds ∧ ∀ d' ∈ ds, d' = d ∨ d' ≤ d

/-- The distances come back in order, and the K-th one is the largest. -/
structure TrainsWithKth (K : Nat) (answer : BackendAnswer) : Prop where
  nondecreasing : (missDistances answer).Pairwise (· ≤ ·)
  largest : 0 < K → IsLargest (missKthDistance K answer) (missDistances answer)

variable {round : ℚ → Double} {metric : Distance}

theorem intOfK_eq {K : Nat} (h : K < 2 ^ 31) : intOfK K = K := by
  unfold intOfK
  rw [BitVec.toInt_eq_toNat_of_lt (by rw [BitVec.toNat_ofNat]; omega), BitVec.toNat_ofNat]
  omega

/-- As many rows as were asked for fill the answer, in their order. -/
theorem search_tuples (round : ℚ → Double) (metric : Distance) (res : Tuples) :
    search round metric res.rows.length (.tuples res) =
      .ok (res.rows.map fun row => (row.id, resultDistance round metric row)) := by
  rw [search, intOfK_eq res.fits, min_self]
  refine congrArg Except.ok (List.ext_getElem (by simp) fun i hi hi' => ?_)
  have hlt : i < res.rows.length := by simpa using hi'
  rw [List.getElem_map, List.getElem_map, List.getElem_range, if_pos (Int.ofNat_lt.mpr hlt),
    List.getElem?_eq_getElem hlt, Option.map_some, Option.getD_some]

/-- The last value of a nondecreasing list is the largest. -/
theorem isLargest_last {ds : List Double} (hsorted : ds.Pairwise (· ≤ ·)) (hne : 0 < ds.length) :
    IsLargest (ds.getD (ds.length - 1) .nan) ds := by
  obtain ⟨front, last, rfl⟩ : ∃ front last, ds = front ++ [last] :=
    ⟨ds.dropLast, ds.getLast (List.length_pos_iff.mp hne),
      (List.dropLast_append_getLast (List.length_pos_iff.mp hne)).symm⟩
  have hlast : (front ++ [last]).getD ((front ++ [last]).length - 1) .nan = last := by
    rw [List.length_append, List.length_singleton, Nat.add_sub_cancel, List.getD_eq_getElem?_getD,
      List.getElem?_concat_length, Option.getD_some]
  rw [hlast]
  refine ⟨List.mem_append_right _ (List.mem_singleton_self last), fun d hd => ?_⟩
  rcases List.mem_append.mp hd with hfront | hsame
  · exact Or.inr ((List.pairwise_append.mp hsorted).2.2 d hfront last (List.mem_singleton_self last))
  · exact Or.inl (List.mem_singleton.mp hsame)

/-- With as many rows as were asked for, the K-th distance is the largest and
    the distances are in order if and only if the database returned the rows in
    order. -/
theorem trainsWithKth_iff (round : ℚ → Double) (metric : Distance) (res : Tuples) :
    (∃ answer, search round metric res.rows.length (.tuples res) = .ok answer ∧
        TrainsWithKth res.rows.length answer) ↔
      res.rows.Pairwise fun a b =>
        resultDistance round metric a ≤ resultDistance round metric b := by
  have hdistances : missDistances (res.rows.map fun row =>
      (row.id, resultDistance round metric row)) = res.rows.map (resultDistance round metric) := by
    rw [missDistances, List.map_map]
    rfl
  rw [search_tuples]
  constructor
  · rintro ⟨answer, hanswer, h⟩
    obtain rfl := Except.ok.inj hanswer
    have hsorted := h.nondecreasing
    rwa [hdistances, List.pairwise_map] at hsorted
  · intro h
    refine ⟨_, rfl, ?_, fun hK => ?_⟩
    · rwa [hdistances, List.pairwise_map]
    · rw [missKthDistance, if_pos hK, PcaUtils.kthDistance]
      rw [missDistances] at hdistances
      rw [missDistances, hdistances]
      have hlargest := isLargest_last (List.pairwise_map.mpr h)
        (by rwa [List.length_map])
      rwa [List.length_map] at hlargest

/-- Two rows out of order, as a relaxed scan may return them: the caller gets
    the distances 4 and 1, and theta is trained with 1. -/
theorem relaxed_rows_train_low :
    search .fin .l2 2 (.tuples ⟨[⟨7, .fin 2⟩, ⟨9, .fin 1⟩], by decide⟩) =
        .ok [(7, .fin 4), (9, .fin 1)] ∧
      missKthDistance 2 [(7, .fin 4), (9, .fin 1)] = .fin 1 ∧
      ¬ TrainsWithKth 2 [(7, .fin 4), (9, .fin 1)] := by
  refine ⟨?_, rfl, fun h => ?_⟩
  · refine (search_tuples .fin .l2 ⟨[⟨7, .fin 2⟩, ⟨9, .fin 1⟩], by decide⟩).trans ?_
    have hmetric : Distance.l2 ≠ .cosine := Distance.noConfusion
    norm_num [resultDistance, square, hmetric]
  · have hfirst : (.fin 4 : Double) ≤ .fin 1 :=
      (List.pairwise_cons.mp h.nondecreasing).1 _ (List.mem_singleton_self _)
    exact absurd (Double.fin_le_fin.mp hfirst) (by norm_num)

end PgVectorBackend

end QvCache
