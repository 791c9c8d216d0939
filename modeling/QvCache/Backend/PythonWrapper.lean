/-
  QvCache.Backend.PythonWrapper

  `PythonBackendWrapper::search` (python/python_backend_wrapper.h) and what
  `handle_backend_miss` makes of the positions it fills.  The wrapper marks a
  position without a result by id 0, which is a valid id; the cache leaves out
  `UINT32_MAX` only, as the shipped Python backend does.
-/

import QvCache.System.Shelf
import QvCache.Theta.Padding

namespace QvCache

namespace PythonBackendWrapper

/-- The two arrays in the tuple that the Python method returns. -/
structure SearchResult where
  tags : List UInt32
  dists : List Double

/-! ## The wrapper -/

/-- `search_impl`; `none` for a method call that failed. -/
def searchImpl (K : Nat) : Option SearchResult → Except String (List UInt32 × List Double)
  | none => .error "Python search method call failed"
  | some r =>
    let resultSize := min K (min r.tags.length r.dists.length)
    if resultSize = 0 then .error "Backend returned empty results"
    else
      let resultSize := if K ≤ r.tags.length ∧ K ≤ r.dists.length then K else resultSize
      .ok (r.tags.take resultSize, r.dists.take resultSize)

/-- What `search` fills a position with. -/
def fill : Padding := ⟨0, .posInf⟩

def search (K : Nat) (result : Option SearchResult) : Except String BackendAnswer := do
  let (tagsVec, distsVec) ← searchImpl K result
  if tagsVec.length = 0 ∨ distsVec.length = 0 then
    return List.replicate K (fill.id, fill.distance)
  let resultSize := min (min tagsVec.length K) distsVec.length
  return (tagsVec.take resultSize).zip (distsVec.take resultSize) ++
    List.replicate (K - resultSize) (fill.id, fill.distance)

/-- The results that the wrapper copies. -/
def found (K : Nat) (r : SearchResult) : BackendAnswer := (r.tags.zip r.dists).take K

theorem length_found (K : Nat) (r : SearchResult) :
    (found K r).length = min K (min r.tags.length r.dists.length) := by
  rw [found, List.length_take, List.length_zip]

theorem searchImpl_eq (K : Nat) (r : SearchResult) :
    searchImpl K (some r) =
      if (found K r).length = 0 then .error "Backend returned empty results"
      else .ok (r.tags.take (found K r).length, r.dists.take (found K r).length) := by
  have hfull : (if K ≤ r.tags.length ∧ K ≤ r.dists.length then K else (found K r).length) =
      (found K r).length := by
    rw [length_found]
    split_ifs
    · omega
    · rfl
  simp only [searchImpl, ← length_found, hfull]

theorem zip_take_found (K : Nat) (r : SearchResult) :
    (r.tags.take (found K r).length).zip (r.dists.take (found K r).length) = found K r := by
  rw [List.zip_eq_zipWith, ← List.take_zipWith, ← List.zip_eq_zipWith, length_found,
    ← List.length_zip, found]
  rcases Nat.le_total K (r.tags.zip r.dists).length with h | h
  · rw [Nat.min_eq_left h]
  · rw [Nat.min_eq_right h, List.take_length, List.take_of_length_le h]

/-- An empty result is an exception; any other is copied and filled up. -/
theorem search_eq (K : Nat) (r : SearchResult) :
    search K (some r) =
      if (found K r).length = 0 then .error "Backend returned empty results"
      else .ok (paddedAnswer (found K r) K fill) := by
  have hlen := length_found K r
  have htags : (r.tags.take (found K r).length).length = (found K r).length := by
    rw [List.length_take]
    omega
  have hdists : (r.dists.take (found K r).length).length = (found K r).length := by
    rw [List.length_take]
    omega
  have hsize : min (min (found K r).length K) (found K r).length = (found K r).length := by omega
  rw [search, searchImpl_eq]
  by_cases hzero : (found K r).length = 0
  · rw [if_pos hzero, if_pos hzero]
    rfl
  · rw [if_neg hzero, if_neg hzero]
    show (if _ ∨ _ then _ else _) = _
    rw [htags, hdists, if_neg (by rw [or_self_iff]; exact hzero), hsize, List.take_take,
      List.take_take, Nat.min_self, zip_take_found]
    rfl

/-! ## What becomes of the filled positions -/

variable {V β : Type}

/-- `handle_backend_miss` collects nothing from the positions past the results. -/
def FillNotSubmitted (s : Sys V β) (K : Nat) (r : SearchResult) : Prop :=
  ∀ answer, search K (some r) = .ok answer → s.tagsToInsert (answer.drop (found K r).length) = []

/-- The tags that the caller finds there decode to ids of the results. -/
def FillDecodesToFound (query : V) (K : Nat) (r : SearchResult) : Prop :=
  ∀ answer, search K (some r) = .ok answer →
    ∀ written, (Call.missReturned query K answer).written = some written →
      ∀ td ∈ written.drop (found K r).length, td.1 - 1 ∈ (found K r).map Prod.fst

/-- The positions that the wrapper fills are never taken for an id. -/
structure FillIsNoId (s : Sys V β) (query : V) (K : Nat) (r : SearchResult) : Prop where
  submitted : FillNotSubmitted s K r
  returned : FillDecodesToFound query K r

theorem search_ok_iff {K : Nat} {r : SearchResult} {answer : BackendAnswer} :
    search K (some r) = .ok answer ↔
      0 < (found K r).length ∧ answer = paddedAnswer (found K r) K fill := by
  rw [search_eq]
  split_ifs with hzero
  · simp [hzero]
  · rw [Except.ok.injEq, eq_comm]
    exact (and_iff_right (Nat.pos_of_ne_zero hzero)).symm

theorem drop_paddedAnswer (found : BackendAnswer) (K : Nat) (pad : Padding) :
    (paddedAnswer found K pad).drop found.length =
      List.replicate (K - found.length) (pad.id, pad.distance) := by
  rw [paddedAnswer, List.drop_left]

theorem fillNotSubmitted_iff {s : Sys V β} {K : Nat} {r : SearchResult} :
    FillNotSubmitted s K r ↔
      (found K r).length = 0 ∨ K ≤ (found K r).length ∨ 0 ∈ s.cache.deletedIds := by
  unfold FillNotSubmitted
  constructor
  · intro h
    by_contra hnot
    push Not at hnot
    obtain ⟨hsome, hshort, hlive⟩ := hnot
    have hnone := h _ (search_ok_iff.mpr ⟨Nat.pos_of_ne_zero hsome, rfl⟩)
    -- id 0 passes both tests of the loop
    obtain ⟨k, hk⟩ := Nat.exists_eq_succ_of_ne_zero (Nat.sub_ne_zero_of_lt hshort)
    rw [drop_paddedAnswer, hk] at hnone
    have hmem : (0 : UInt32) ∈ s.tagsToInsert (List.replicate (k + 1) (fill.id, fill.distance)) := by
      unfold Sys.tagsToInsert
      simp [fill, Cache.isDeletedId, hlive]
    rw [hnone] at hmem
    exact absurd hmem List.not_mem_nil
  · intro h answer hanswer
    obtain ⟨hpos, rfl⟩ := search_ok_iff.mp hanswer
    rw [drop_paddedAnswer]
    rcases h with hzero | hfull | hdeleted
    · exact absurd hzero hpos.ne'
    · rw [Nat.sub_eq_zero_of_le hfull]
      rfl
    · unfold Sys.tagsToInsert
      simp [fill, Cache.isDeletedId, hdeleted]

theorem fillDecodesToFound_iff {query : V} {K : Nat} {r : SearchResult} :
    FillDecodesToFound query K r ↔
      (found K r).length = 0 ∨ K ≤ (found K r).length ∨ 0 ∈ (found K r).map Prod.fst := by
  have hdrop : ((paddedAnswer (found K r) K fill).map fun td => (td.1 + 1, td.2)).drop
      (found K r).length = List.replicate (K - (found K r).length) (1, .posInf) := by
    rw [← List.map_drop, drop_paddedAnswer, List.map_replicate]
    rfl
  constructor
  · intro h
    by_contra hnot
    push Not at hnot
    obtain ⟨hsome, hshort, hmissing⟩ := hnot
    have hdecodes := h _ (search_ok_iff.mpr ⟨Nat.pos_of_ne_zero hsome, rfl⟩) _ rfl (1, .posInf)
    rw [hdrop] at hdecodes
    exact hmissing (hdecodes (List.mem_replicate.mpr ⟨Nat.sub_ne_zero_of_lt hshort, rfl⟩))
  · rintro h answer hanswer written hwritten td htd
    obtain ⟨hpos, rfl⟩ := search_ok_iff.mp hanswer
    cases hwritten
    rw [hdrop] at htd
    obtain ⟨hroom, rfl⟩ := List.mem_replicate.mp htd
    rcases h with hzero | hfull | hzero
    · exact absurd hzero hpos.ne'
    · exact absurd (Nat.sub_eq_zero_of_le hfull) hroom
    · exact hzero

/-- A filled position stands for id 0 in both directions, so it does no harm
    only where id 0 is a result and is not admitted either way. -/
theorem fillIsNoId_iff (s : Sys V β) (query : V) (K : Nat) (r : SearchResult) :
    FillIsNoId s query K r ↔
      (found K r).length = 0 ∨ K ≤ (found K r).length ∨
        0 ∈ s.cache.deletedIds ∧ 0 ∈ (found K r).map Prod.fst := by
  have hparts : FillIsNoId s query K r ↔ FillNotSubmitted s K r ∧ FillDecodesToFound query K r :=
    ⟨fun h => ⟨h.submitted, h.returned⟩, fun h => ⟨h.1, h.2⟩⟩
  rw [hparts, fillNotSubmitted_iff, fillDecodesToFound_iff, ← or_and_left, ← or_and_left]

/-- One result for `K = 2`. -/
def oneOfTwo : SearchResult := ⟨[7], [.fin 3]⟩

/-- Nothing is deleted, the backend finds id 7 only: id 0 is submitted for
    admission, and the caller is told its tag. -/
theorem id0_submitted_and_returned :
    search 2 (some oneOfTwo) = .ok [(7, .fin 3), (0, .posInf)] ∧
      (shelfStart (lineSystem 1 (by decide) false false) []).tagsToInsert [(7, .fin 3), (0, .posInf)] =
        [7, 0] ∧
      (Call.missReturned 4 2 [(7, .fin 3), (0, .posInf)]).written =
        some [((8 : Tag), .fin 3), (1, .posInf)] ∧
      ¬ FillIsNoId (shelfStart (lineSystem 1 (by decide) false false) []) 4 2 oneOfTwo := by
  refine ⟨by decide +kernel, by decide +kernel, by decide +kernel, fun h => ?_⟩
  rcases fillDecodesToFound_iff.mp h.returned with hzero | hfull | hzero
  · exact absurd hzero (by decide)
  · exact absurd hfull (by decide)
  · exact absurd hzero (by decide)

/-! ## The shipped Python backend -/

/-- The end of `PgVectorBackend.search` (python/backends/pgvector_backend.py),
    which fills up by `UINT32_MAX` itself: "0 might be a valid vector ID". -/
def pgVectorPad (K : Nat) (tags : List UInt32) (dists : List Double) : SearchResult :=
  if tags.length < K then
    ⟨tags ++ List.replicate (K - tags.length) 0xFFFFFFFF,
      dists ++ List.replicate (K - dists.length) (.fin Double.fltMax)⟩
  else if K < tags.length then ⟨tags.take K, dists.take K⟩
  else ⟨tags, dists⟩

/-- It leaves no position to the wrapper. -/
theorem length_found_pgVectorPad {K : Nat} {tags : List UInt32} {dists : List Double}
    (hlen : dists.length = tags.length) : (found K (pgVectorPad K tags dists)).length = K := by
  rw [length_found, pgVectorPad]
  split_ifs
  · simp only [List.length_append, List.length_replicate]
    omega
  · simp only [List.length_take]
    omega
  · simp only
    omega

theorem fillIsNoId_pgVectorPad (s : Sys V β) (query : V) {K : Nat} {tags : List UInt32}
    {dists : List Double} (hlen : dists.length = tags.length) :
    FillIsNoId s query K (pgVectorPad K tags dists) :=
  ⟨fillNotSubmitted_iff.mpr (Or.inr (Or.inl (length_found_pgVectorPad hlen).ge)),
    fillDecodesToFound_iff.mpr (Or.inr (Or.inl (length_found_pgVectorPad hlen).ge))⟩

/-- The filter of `handle_backend_miss` leaves its positions out. -/
theorem tagsToInsert_max (s : Sys V β) (n : Nat) (d : Double) :
    s.tagsToInsert (List.replicate n (0xFFFFFFFF, d)) = [] := by
  unfold Sys.tagsToInsert
  simp

end PythonBackendWrapper

end QvCache
