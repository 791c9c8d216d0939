/-
  QvCache.Cache.Merge

  `merge_and_rerank_results`: one entry for each tag, with the smallest
  distance any shard reported for it, sorted by distance and cut after K; and
  the order in which the contributing shards are touched afterwards.

  The iteration order of the hash maps and the treatment of ties by `std::sort`
  are unspecified.  Both are covered by the `Sorter`s that the functions take.
-/

import QvCache.Cache.MiniIndex

namespace QvCache

/-- The tags and distances a shard reports, nearest first. -/
abbrev Report := List (Tag × ℚ)

/-- `MergedResult`; the vector pointer is null on every path. -/
structure MergedResult where
  tag : Tag
  distance : ℚ
  sourceIndexId : Nat
deriving DecidableEq

/-- The two calls of `std::sort`. -/
structure Sorters where
  byDistance : Sorter MergedResult.distance
  byCount : Sorter (Prod.snd : Nat × Nat → Nat)

/-- The value of `tag_to_best`: best distance and the shard it came from. -/
abbrev TagToBest := Table Tag (ℚ × Nat)

/-- The body of the merge loop, for one result of shard `indexId`. -/
def mergeResult (best : TagToBest) (entry : Nat × Tag × ℚ) : TagToBest :=
  match best.lookup entry.2.1 with
  | none => best.insert entry.2.1 (entry.2.2, entry.1)
  | some existing =>
    if entry.2.2 < existing.1 then best.insert entry.2.1 (entry.2.2, entry.1) else best

/-- The results the merge loop runs through, shard after shard. -/
def allResults (reports : List (Nat × Report)) : List (Nat × Tag × ℚ) :=
  reports.flatMap fun ir => ir.2.map fun td => (ir.1, td)

def tagToBest (reports : List (Nat × Report)) : TagToBest :=
  (allResults reports).foldl mergeResult ∅

/-- `merged_candidates` before the sort. -/
def mergedCandidates (reports : List (Nat × Report)) : List MergedResult :=
  (tagToBest reports).entries.map fun e => ⟨e.1, e.2.1, e.2.2⟩

/-- The merged top K. -/
def mergeAndRerank (s : Sorters) (reports : List (Nat × Report)) (K : Nat) : List MergedResult :=
  (s.byDistance.run (mergedCandidates reports)).take K

/-- `contribution_counts`. -/
def contributionCounts (merged : List MergedResult) : Table Nat Nat :=
  merged.foldl (fun counts m =>
    counts.insert m.sourceIndexId ((counts.lookup m.sourceIndexId).getD 0 + 1)) ∅

/-- `contributing_indices_ordered`: least to most contributing. -/
def contributingIndicesOrdered (s : Sorters) (merged : List MergedResult) : List Nat :=
  (s.byCount.run ((contributionCounts merged).entries.map fun e => (e.1, e.2))).map Prod.fst

def MergedResult.result (m : MergedResult) : Tag × ℚ := (m.tag, m.distance)

/-- The merged tags and distances. -/
def mergedReport (s : Sorters) (reports : List (Nat × Report)) (K : Nat) : Report :=
  (mergeAndRerank s reports K).map MergedResult.result

/-! ## One best entry for each tag -/

/-- `best` holds, for each tag of `entries`, a smallest distance. -/
def HoldsBest (best : TagToBest) (entries : List (Nat × Tag × ℚ)) : Prop :=
  ∀ tag, match best.lookup tag with
    | none => ∀ e ∈ entries, e.2.1 ≠ tag
    | some b => (b.2, tag, b.1) ∈ entries ∧ ∀ e ∈ entries, e.2.1 = tag → b.1 ≤ e.2.2

theorem holdsBest_mergeResult {best : TagToBest} {entries : List (Nat × Tag × ℚ)}
    (h : HoldsBest best entries) (entry : Nat × Tag × ℚ) :
    HoldsBest (mergeResult best entry) (entries ++ [entry]) := by
  obtain ⟨i, t, d⟩ := entry
  intro tag
  have htag := h tag
  have hentry := h t
  unfold mergeResult
  dsimp only
  by_cases ht : tag = t
  · subst ht
    cases hlook : best.lookup tag with
    | none =>
      rw [hlook] at hentry
      simp only [Table.lookup_insert_eq, if_true]
      refine ⟨by simp, fun e he hetag => ?_⟩
      rcases List.mem_append.mp he with hold | hnew
      · exact absurd hetag (hentry e hold)
      · rw [List.mem_singleton.mp hnew]
    | some b =>
      rw [hlook] at hentry
      dsimp only
      -- the new result replaces the best only if it is strictly nearer
      split_ifs with hlt
      · simp only [Table.lookup_insert_eq, if_true]
        refine ⟨by simp, fun e he hetag => ?_⟩
        rcases List.mem_append.mp he with hold | hnew
        · exact (le_of_lt hlt).trans (hentry.2 e hold hetag)
        · rw [List.mem_singleton.mp hnew]
      · rw [hlook]
        refine ⟨List.mem_append_left _ hentry.1, fun e he hetag => ?_⟩
        rcases List.mem_append.mp he with hold | hnew
        · exact hentry.2 e hold hetag
        · rw [List.mem_singleton.mp hnew]
          exact not_lt.mp hlt
  · -- another tag: its entry and its results are the old ones
    have hsame : (match best.lookup t with
        | none => best.insert t (d, i)
        | some existing => if d < existing.1 then best.insert t (d, i) else best).lookup tag =
        best.lookup tag := by
      cases best.lookup t with
      | none => rw [Table.lookup_insert_eq, if_neg ht]
      | some b =>
        dsimp only
        split_ifs
        · rw [Table.lookup_insert_eq, if_neg ht]
        · rfl
    rw [hsame]
    cases hlook : best.lookup tag with
    | none =>
      rw [hlook] at htag
      intro e he
      rcases List.mem_append.mp he with hold | hnew
      · exact htag e hold
      · rw [List.mem_singleton.mp hnew]
        exact Ne.symm ht
    | some b =>
      rw [hlook] at htag
      refine ⟨List.mem_append_left _ htag.1, fun e he hetag => ?_⟩
      rcases List.mem_append.mp he with hold | hnew
      · exact htag.2 e hold hetag
      · rw [List.mem_singleton.mp hnew] at hetag
        exact absurd hetag.symm ht

theorem holdsBest_foldl {best : TagToBest} {done entries : List (Nat × Tag × ℚ)}
    (h : HoldsBest best done) : HoldsBest (entries.foldl mergeResult best) (done ++ entries) := by
  induction entries generalizing best done with
  | nil => simpa using h
  | cons e rest ih =>
    have hstep := ih (holdsBest_mergeResult h e)
    rwa [List.append_assoc] at hstep

theorem holdsBest_tagToBest (reports : List (Nat × Report)) :
    HoldsBest (tagToBest reports) (allResults reports) := by
  have hempty : HoldsBest (∅ : TagToBest) [] := fun tag => by simp
  exact holdsBest_foldl hempty

theorem mem_allResults {reports : List (Nat × Report)} {i : Nat} {td : Tag × ℚ} :
    (i, td) ∈ allResults reports ↔ ∃ r, (i, r) ∈ reports ∧ td ∈ r := by
  unfold allResults
  simp only [List.mem_flatMap, List.mem_map]
  constructor
  · rintro ⟨⟨i', r⟩, hmem, td', htd, heq⟩
    obtain ⟨rfl, rfl⟩ := Prod.mk.inj heq
    exact ⟨r, hmem, htd⟩
  · rintro ⟨r, hmem, htd⟩
    exact ⟨(i, r), hmem, td, htd, rfl⟩

/-- A candidate is a result some shard reported, at the smallest distance that
    was reported for its tag. -/
theorem mem_mergedCandidates {reports : List (Nat × Report)} {m : MergedResult} :
    m ∈ mergedCandidates reports ↔
      (tagToBest reports).lookup m.tag = some (m.distance, m.sourceIndexId) := by
  unfold mergedCandidates
  rw [List.mem_map]
  constructor
  · rintro ⟨⟨tag, b⟩, hentry, rfl⟩
    exact (List.mem_dlookup_iff (tagToBest reports).nodupKeys).mpr hentry
  · intro h
    exact ⟨⟨m.tag, m.distance, m.sourceIndexId⟩,
      (List.mem_dlookup_iff (tagToBest reports).nodupKeys).mp h, rfl⟩

theorem nodup_tags_mergedCandidates (reports : List (Nat × Report)) :
    ((mergedCandidates reports).map MergedResult.tag).Nodup := by
  -- the candidates are the entries of the map, one for each key
  have hkeys : (mergedCandidates reports).map MergedResult.tag = (tagToBest reports).keys := by
    simp [mergedCandidates, AList.keys, List.keys]
  exact hkeys ▸ (tagToBest reports).keys_nodup

/-- Every result is covered by a candidate with its tag that is no farther. -/
theorem exists_candidate {reports : List (Nat × Report)} {i : Nat} {r : Report} {td : Tag × ℚ}
    (hr : (i, r) ∈ reports) (htd : td ∈ r) :
    ∃ m ∈ mergedCandidates reports, m.tag = td.1 ∧ m.distance ≤ td.2 := by
  have hmem := mem_allResults.mpr ⟨r, hr, htd⟩
  have hbest := holdsBest_tagToBest reports td.1
  cases hlook : (tagToBest reports).lookup td.1 with
  | none =>
    rw [hlook] at hbest
    exact absurd rfl (hbest _ hmem)
  | some b =>
    rw [hlook] at hbest
    exact ⟨⟨td.1, b.1, b.2⟩, mem_mergedCandidates.mpr hlook, rfl, hbest.2 _ hmem rfl⟩

/-- Every candidate is the result of some shard. -/
theorem candidate_reported {reports : List (Nat × Report)} {m : MergedResult}
    (hm : m ∈ mergedCandidates reports) :
    ∃ r, (m.sourceIndexId, r) ∈ reports ∧ m.result ∈ r := by
  have hlook := mem_mergedCandidates.mp hm
  have hbest := holdsBest_tagToBest reports m.tag
  rw [hlook] at hbest
  exact mem_allResults.mp hbest.1

/-- The candidates as tags and distances. -/
theorem mem_results_iff {reports : List (Nat × Report)} {td : Tag × ℚ} :
    td ∈ (mergedCandidates reports).map MergedResult.result ↔
      (∃ ir ∈ reports, td ∈ ir.2) ∧
        ∀ ir ∈ reports, ∀ td' ∈ ir.2, td'.1 = td.1 → td.2 ≤ td'.2 := by
  constructor
  · intro htd
    obtain ⟨m, hm, rfl⟩ := List.mem_map.mp htd
    obtain ⟨r, hr, hmem⟩ := candidate_reported hm
    refine ⟨⟨_, hr, hmem⟩, fun ir hir td' htd' htag => ?_⟩
    have hbest := holdsBest_tagToBest reports m.tag
    rw [mem_mergedCandidates.mp hm] at hbest
    exact hbest.2 (ir.1, td') (mem_allResults.mpr ⟨ir.2, hir, htd'⟩) htag
  · rintro ⟨⟨ir, hir, hmem⟩, hbest⟩
    obtain ⟨m, hm, htag, hle⟩ := exists_candidate hir hmem
    obtain ⟨r, hr, hreported⟩ := candidate_reported hm
    -- the candidate that covers it was itself reported, so the distances agree
    have hge := hbest _ hr m.result hreported htag
    exact List.mem_map.mpr ⟨m, hm, Prod.ext htag (le_antisymm hle hge)⟩

theorem nodup_results (reports : List (Nat × Report)) :
    (((mergedCandidates reports).map MergedResult.result).map Prod.fst).Nodup := by
  rw [List.map_map]
  exact nodup_tags_mergedCandidates reports

/-- Different tags reported up to a distance are as many candidates up to it. -/
theorem length_le_countP {reports : List (Nat × Report)} {d : ℚ} {tds : List (Tag × ℚ)}
    (hsub : ∀ td ∈ tds, (∃ ir ∈ reports, td ∈ ir.2) ∧ td.2 ≤ d)
    (hnodup : (tds.map Prod.fst).Nodup) :
    tds.length ≤ (mergedCandidates reports).countP fun m => decide (m.distance ≤ d) := by
  rw [List.countP_eq_length_filter]
  set near := (mergedCandidates reports).filter fun m => decide (m.distance ≤ d) with hnear
  have hsubset : tds.map Prod.fst ⊆ near.map MergedResult.tag := by
    intro tag htag
    obtain ⟨td, htd, rfl⟩ := List.mem_map.mp htag
    obtain ⟨⟨ir, hir, hmem⟩, hle⟩ := hsub td htd
    obtain ⟨m, hm, heq, hdist⟩ := exists_candidate (i := ir.1) hir hmem
    refine List.mem_map.mpr ⟨m, ?_, heq⟩
    rw [hnear, List.mem_filter]
    exact ⟨hm, decide_eq_true (hdist.trans hle)⟩
  have hle := (List.subperm_of_subset hnodup hsubset).length_le
  rwa [List.length_map, List.length_map] at hle

/-- A single report without repeated tags is its own list of candidates. -/
theorem results_perm_single {i : Nat} {report : Report} (hnodup : (report.map Prod.fst).Nodup) :
    ((mergedCandidates [(i, report)]).map MergedResult.result).Perm report := by
  refine (List.perm_ext_iff_of_nodup (nodup_results _).of_map hnodup.of_map).mpr fun td => ?_
  rw [mem_results_iff]
  simp only [List.mem_singleton, exists_eq_left, forall_eq]
  refine ⟨And.left, fun hmem => ⟨hmem, fun td' hmem' htag => ?_⟩⟩
  rw [List.inj_on_of_nodup_map hnodup hmem' hmem htag]

/-! ## The merged report -/

theorem mem_of_mem_mergeAndRerank {s : Sorters} {reports : List (Nat × Report)} {K : Nat}
    {m : MergedResult} (h : m ∈ mergeAndRerank s reports K) : m ∈ mergedCandidates reports :=
  (s.byDistance.perm _).mem_iff.mp (List.mem_of_mem_take h)

theorem nodup_mergedReport (s : Sorters) (reports : List (Nat × Report)) (K : Nat) :
    ((mergedReport s reports K).map Prod.fst).Nodup := by
  have hmap : (mergedReport s reports K).map Prod.fst =
      ((s.byDistance.run (mergedCandidates reports)).take K).map MergedResult.tag := by
    rw [mergedReport, List.map_map]
    rfl
  rw [hmap]
  refine List.Nodup.sublist ((List.take_sublist _ _).map _) ?_
  exact (((s.byDistance.perm _).map _).nodup_iff).mpr (nodup_tags_mergedCandidates reports)

theorem sorted_mergedReport (s : Sorters) (reports : List (Nat × Report)) (K : Nat) :
    (mergedReport s reports K).Pairwise fun a b => a.2 ≤ b.2 := by
  rw [mergedReport, List.pairwise_map]
  exact (s.byDistance.sorted _).sublist (List.take_sublist _ _)

/-- A merged report is already cut after K. -/
theorem mergedReport_take_self (s : Sorters) (reports : List (Nat × Report)) (K : Nat) :
    (mergedReport s reports K).take K = mergedReport s reports K := by
  rw [mergedReport, mergeAndRerank, List.map_take, List.take_take, Nat.min_self]

/-- Every merged result is one that a shard reported. -/
theorem mergedReport_reported {s : Sorters} {reports : List (Nat × Report)} {K : Nat}
    {td : Tag × ℚ} (h : td ∈ mergedReport s reports K) : ∃ i r, (i, r) ∈ reports ∧ td ∈ r := by
  obtain ⟨m, hm, rfl⟩ := List.mem_map.mp h
  obtain ⟨r, hr, htd⟩ := candidate_reported (mem_of_mem_mergeAndRerank hm)
  exact ⟨m.sourceIndexId, r, hr, htd⟩

/-! ## Contributing shards -/

/-- Every key of the contribution counts is the source of a merged result. -/
theorem source_of_counted {merged : List MergedResult} {counts : Table Nat Nat} {i : Nat}
    (h : ((merged.foldl (fun counts m => counts.insert m.sourceIndexId
      ((counts.lookup m.sourceIndexId).getD 0 + 1)) counts).lookup i).isSome) :
    (counts.lookup i).isSome ∨ ∃ m ∈ merged, m.sourceIndexId = i := by
  induction merged generalizing counts with
  | nil => exact Or.inl h
  | cons m rest ih =>
    rcases ih h with hcounted | ⟨m', hm', hsrc⟩
    · rw [Table.lookup_insert_eq] at hcounted
      split_ifs at hcounted with him
      · exact Or.inr ⟨m, List.mem_cons_self, him.symm⟩
      · exact Or.inl hcounted
    · exact Or.inr ⟨m', List.mem_cons_of_mem m hm', hsrc⟩

/-- The shards that a merge touches are among those it merged. -/
theorem mem_contributingIndicesOrdered {s : Sorters} {merged : List MergedResult} {i : Nat}
    (h : i ∈ contributingIndicesOrdered s merged) : ∃ m ∈ merged, m.sourceIndexId = i := by
  unfold contributingIndicesOrdered at h
  obtain ⟨⟨k, count⟩, hmem, rfl⟩ := List.mem_map.mp h
  obtain ⟨e, hentry, heq⟩ := List.mem_map.mp ((s.byCount.perm _).mem_iff.mp hmem)
  obtain ⟨rfl, _⟩ := Prod.mk.inj heq
  have hlook : (contributionCounts merged).lookup e.1 = some e.2 :=
    (List.mem_dlookup_iff (contributionCounts merged).nodupKeys).mpr hentry
  -- counting starts from the empty map
  rcases source_of_counted (Option.isSome_of_eq_some hlook) with hempty | hsource
  · simp at hempty
  · exact hsource

end QvCache
