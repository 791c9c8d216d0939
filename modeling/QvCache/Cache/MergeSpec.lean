/-
  QvCache.Cache.MergeSpec

  What `merge_and_rerank_results` computes, for any family of shard results:
  the K tags with the smallest best distances, each once, each credited to a
  shard that reported that distance, and the credited shards from the least to
  the most contributing.
-/

import QvCache.Cache.Merge
import Mathlib.Data.List.Dedup

namespace QvCache

/-! ## The call -/

/-- The results of the shards `indexIds` in the arrays of the caller; `allRes` is
    the size of the third one, whose pointers are not followed.  Ids beyond any of
    the arrays are skipped, and of two lists of different lengths only the common
    part counts. -/
def shardReports (allTags : List (List Tag)) (allDists : List (List ℚ)) (allRes : Nat)
    (indexIds : List Nat) : List (Nat × Report) :=
  indexIds.filterMap fun indexId =>
    if allTags.length ≤ indexId ∨ allDists.length ≤ indexId ∨ allRes ≤ indexId then none
    else some (indexId, (allTags.getD indexId []).zip (allDists.getD indexId []))

/-- `merge_and_rerank_results`: the merged entries and
    `contributing_indices_ordered`. -/
def mergeAndRerankResults (s : Sorters) (allTags : List (List Tag)) (allDists : List (List ℚ))
    (allRes : Nat) (indexIds : List Nat) (K : Nat) : List MergedResult × List Nat :=
  let merged := mergeAndRerank s (shardReports allTags allDists allRes indexIds) K
  (merged, contributingIndicesOrdered s merged)

/-! ## The specification -/

/-- Shard `i` reported `tag` at distance `d`. -/
def ReportedBy (reports : List (Nat × Report)) (i : Nat) (tag : Tag) (d : ℚ) : Prop :=
  ∃ r, (i, r) ∈ reports ∧ (tag, d) ∈ r

/-- The distinct tags of all lists. -/
def reportedTags (reports : List (Nat × Report)) : List Tag :=
  ((allResults reports).map fun e => e.2.1).dedup

/-- The number of merged entries that are credited to shard `i`. -/
def creditedEntries (merged : List MergedResult) (i : Nat) : Nat :=
  merged.countP fun m => decide (m.sourceIndexId = i)

/-- The merge of `reports` for K, and the order in which its shards are touched. -/
structure IsMerge (reports : List (Nat × Report)) (K : Nat) (merged : List MergedResult)
    (ordered : List Nat) : Prop where
  length : merged.length = min K (reportedTags reports).length
  nodup : (merged.map MergedResult.tag).Nodup
  sorted : merged.Pairwise fun a b => a.distance ≤ b.distance
  /-- An entry carries the smallest distance of its tag and a shard that reported it. -/
  best : ∀ m ∈ merged, ReportedBy reports m.sourceIndexId m.tag m.distance ∧
    ∀ i d, ReportedBy reports i m.tag d → m.distance ≤ d
  /-- A tag that is left out is reported nowhere below an entry. -/
  omitted : ∀ m ∈ merged, ∀ tag ∉ merged.map MergedResult.tag,
    ∀ i d, ReportedBy reports i tag d → m.distance ≤ d
  credited : ∀ i, i ∈ ordered ↔ ∃ m ∈ merged, m.sourceIndexId = i
  once : ordered.Nodup
  byCredit : ordered.Pairwise fun i j => creditedEntries merged i ≤ creditedEntries merged j
  /-- The merged K-th distance is within the K-th distance of every sorted list
      whose first K tags are distinct. -/
  kth : 1 ≤ K → ∀ i r, (i, r) ∈ reports → r.Pairwise (fun a b => a.2 ≤ b.2) →
    K ≤ r.length → ((r.take K).map Prod.fst).Nodup →
    ∃ d d', (merged.map MergedResult.distance)[K - 1]? = some d ∧
      (r.map Prod.snd)[K - 1]? = some d' ∧ d ≤ d'

/-! ## Candidates -/

variable {reports : List (Nat × Report)} {s : Sorters} {K : Nat}

theorem reportedBy_iff_mem {i : Nat} {tag : Tag} {d : ℚ} :
    ReportedBy reports i tag d ↔ (i, tag, d) ∈ allResults reports :=
  mem_allResults.symm

/-- There is a candidate for each reported tag and no other. -/
theorem tags_mergedCandidates_perm :
    ((mergedCandidates reports).map MergedResult.tag).Perm (reportedTags reports) := by
  refine (List.perm_ext_iff_of_nodup (nodup_tags_mergedCandidates reports)
    (List.nodup_dedup _)).mpr fun tag => ?_
  rw [List.mem_dedup, List.mem_map, List.mem_map]
  constructor
  · rintro ⟨m, hm, rfl⟩
    obtain ⟨r, hr, hmem⟩ := candidate_reported hm
    exact ⟨(m.sourceIndexId, m.result), mem_allResults.mpr ⟨r, hr, hmem⟩, rfl⟩
  · rintro ⟨⟨i, td⟩, he, rfl⟩
    obtain ⟨r, hr, htd⟩ := mem_allResults.mp he
    obtain ⟨m, hm, htag, _⟩ := exists_candidate hr htd
    exact ⟨m, hm, htag⟩

theorem length_mergedCandidates :
    (mergedCandidates reports).length = (reportedTags reports).length := by
  rw [← tags_mergedCandidates_perm.length_eq, List.length_map]

/-- A candidate is within every distance that was reported for its tag. -/
theorem candidate_le {m : MergedResult} (hm : m ∈ mergedCandidates reports) {i : Nat} {d : ℚ}
    (h : ReportedBy reports i m.tag d) : m.distance ≤ d := by
  obtain ⟨r, hr, hmem⟩ := h
  have hresult : m.result ∈ (mergedCandidates reports).map MergedResult.result :=
    List.mem_map.mpr ⟨m, hm, rfl⟩
  exact (mem_results_iff.mp hresult).2 (i, r) hr (m.tag, d) hmem rfl

/-! ## Merged entries -/

theorem length_mergeAndRerank :
    (mergeAndRerank s reports K).length = min K (reportedTags reports).length := by
  rw [mergeAndRerank, List.length_take, (s.byDistance.perm _).length_eq, length_mergedCandidates]

theorem nodup_mergeAndRerank : ((mergeAndRerank s reports K).map MergedResult.tag).Nodup := by
  have hnodup := nodup_mergedReport s reports K
  rwa [mergedReport, List.map_map] at hnodup

theorem sorted_mergeAndRerank :
    (mergeAndRerank s reports K).Pairwise fun a b => a.distance ≤ b.distance :=
  (s.byDistance.sorted _).sublist (List.take_sublist _ _)

/-- The candidate of a tag that is left out was sorted behind every entry. -/
theorem le_of_omitted {m : MergedResult} (hm : m ∈ mergeAndRerank s reports K) {tag : Tag}
    (htag : tag ∉ (mergeAndRerank s reports K).map MergedResult.tag) {i : Nat} {d : ℚ}
    (h : ReportedBy reports i tag d) : m.distance ≤ d := by
  obtain ⟨r, hr, hmem⟩ := h
  obtain ⟨m', hm', rfl, hle⟩ := exists_candidate hr hmem
  have hsorted : m' ∈ (s.byDistance.run (mergedCandidates reports)) :=
    (s.byDistance.perm _).mem_iff.mpr hm'
  rw [← List.take_append_drop K (s.byDistance.run _), List.mem_append] at hsorted
  rcases hsorted with htake | hdrop
  · exact absurd (List.mem_map.mpr ⟨m', htake, rfl⟩) htag
  · have hpairs := s.byDistance.sorted (mergedCandidates reports)
    rw [← List.take_append_drop K (s.byDistance.run _), List.pairwise_append] at hpairs
    exact (hpairs.2.2 m hm m' hdrop).trans hle

/-! ## Contributions -/

/-- One more entry counts for its shard only. -/
theorem creditedEntries_cons (m : MergedResult) (rest : List MergedResult) (i : Nat) :
    creditedEntries (m :: rest) i =
      (if m.sourceIndexId = i then 1 else 0) + creditedEntries rest i := by
  unfold creditedEntries
  rw [List.countP_cons, Nat.add_comm]
  simp

/-- The loop adds the credited entries to the counts it starts from. -/
theorem lookup_contributions (merged : List MergedResult) (counts : Table Nat Nat) (i : Nat) :
    ((merged.foldl (fun counts m => counts.insert m.sourceIndexId
        ((counts.lookup m.sourceIndexId).getD 0 + 1)) counts).lookup i).getD 0 =
      (counts.lookup i).getD 0 + creditedEntries merged i := by
  induction merged generalizing counts with
  | nil => rfl
  | cons m rest ih =>
    rw [List.foldl_cons, ih, Table.lookup_insert_eq, creditedEntries_cons]
    by_cases hi : i = m.sourceIndexId
    · rw [if_pos hi, if_pos hi.symm, hi, Option.getD_some, Nat.add_assoc]
    · rw [if_neg hi, if_neg (Ne.symm hi), Nat.zero_add]

theorem lookup_contributionCounts (merged : List MergedResult) (i : Nat) :
    ((contributionCounts merged).lookup i).getD 0 = creditedEntries merged i := by
  have hcounts := lookup_contributions merged ∅ i
  rw [AList.lookup_empty, Option.getD_none, Nat.zero_add] at hcounts
  exact hcounts

/-- A shard that an entry is credited to has been counted. -/
theorem counted_of_source {merged : List MergedResult} {m : MergedResult} (hm : m ∈ merged) :
    m.sourceIndexId ∈ contributionCounts merged := by
  rw [← AList.lookup_isSome]
  by_contra hnone
  have hzero := lookup_contributionCounts merged m.sourceIndexId
  rw [Option.not_isSome_iff_eq_none.mp hnone, Option.getD_none] at hzero
  have hcount := List.countP_eq_zero.mp hzero.symm m hm
  exact hcount (decide_eq_true rfl)

/-- The pairs that are sorted: a shard and the number of its entries. -/
theorem mem_contributions {merged : List MergedResult} {p : Nat × Nat} :
    p ∈ (contributionCounts merged).entries.map (fun e => (e.1, e.2)) ↔
      (contributionCounts merged).lookup p.1 = some p.2 := by
  rw [List.mem_map]
  constructor
  · rintro ⟨e, he, rfl⟩
    exact (List.mem_dlookup_iff (contributionCounts merged).nodupKeys).mpr he
  · intro h
    exact ⟨⟨p.1, p.2⟩, (List.mem_dlookup_iff (contributionCounts merged).nodupKeys).mp h, rfl⟩

theorem nodup_contributingIndicesOrdered (merged : List MergedResult) :
    (contributingIndicesOrdered s merged).Nodup := by
  have hkeys : ((contributionCounts merged).entries.map fun e => (e.1, e.2)).map Prod.fst =
      (contributionCounts merged).keys := by
    rw [List.map_map]
    rfl
  have hperm := (s.byCount.perm ((contributionCounts merged).entries.map fun e => (e.1, e.2))).map
    Prod.fst
  rw [contributingIndicesOrdered, hperm.nodup_iff, hkeys]
  exact (contributionCounts merged).keys_nodup

theorem mem_ordered_of_source {merged : List MergedResult} {m : MergedResult} (hm : m ∈ merged) :
    m.sourceIndexId ∈ contributingIndicesOrdered s merged := by
  obtain ⟨count, hcount⟩ := Option.isSome_iff_exists.mp
    (AList.lookup_isSome.mpr (counted_of_source hm))
  rw [contributingIndicesOrdered, List.mem_map]
  exact ⟨(m.sourceIndexId, count), (s.byCount.perm _).mem_iff.mpr (mem_contributions.mpr hcount),
    rfl⟩

theorem sorted_contributingIndicesOrdered (merged : List MergedResult) :
    (contributingIndicesOrdered s merged).Pairwise fun i j =>
      creditedEntries merged i ≤ creditedEntries merged j := by
  rw [contributingIndicesOrdered, List.pairwise_map]
  refine (s.byCount.sorted _).imp_of_mem ?_
  intro p q hp hq hle
  -- the sort key of a pair is the credit of its shard
  have hkey : ∀ r ∈ s.byCount.run ((contributionCounts merged).entries.map fun e => (e.1, e.2)),
      r.2 = creditedEntries merged r.1 := by
    intro r hr
    have hlook := mem_contributions.mp ((s.byCount.perm _).mem_iff.mp hr)
    rw [← lookup_contributionCounts, hlook, Option.getD_some]
  rw [← hkey p hp, ← hkey q hq]
  exact hle

/-! ## The K-th distance -/

/-- The K-th distance of a sorted list bounds its first K entries. -/
theorem le_kth_of_mem_take {r : Report} {d : ℚ} (hsorted : r.Pairwise fun a b => a.2 ≤ b.2)
    (hkth : (r.map Prod.snd)[K - 1]? = some d) {td : Tag × ℚ} (h : td ∈ r.take K) : td.2 ≤ d :=
  key_le_of_mem_take hsorted hkth h

theorem kth_merged_le (hK : 1 ≤ K) {i : Nat} {r : Report} (hr : (i, r) ∈ reports)
    (hsorted : r.Pairwise fun a b => a.2 ≤ b.2) (hlen : K ≤ r.length)
    (hnodup : ((r.take K).map Prod.fst).Nodup) :
    ∃ d d', ((mergeAndRerank s reports K).map MergedResult.distance)[K - 1]? = some d ∧
      (r.map Prod.snd)[K - 1]? = some d' ∧ d ≤ d' := by
  have hlt : K - 1 < (r.map Prod.snd).length := by
    rw [List.length_map]
    omega
  have hkth : (r.map Prod.snd)[K - 1]? = some (r.map Prod.snd)[K - 1] :=
    List.getElem?_eq_getElem hlt
  have hcount := length_le_countP (d := (r.map Prod.snd)[K - 1])
    (fun td htd => ⟨⟨(i, r), hr, List.mem_of_mem_take htd⟩, le_kth_of_mem_take hsorted hkth htd⟩)
    hnodup
  rw [List.length_take, Nat.min_eq_left hlen] at hcount
  -- so the sorted candidates reach place K, and their K-th distance is in range
  have hcand : K ≤ (s.byDistance.run (mergedCandidates reports)).length := by
    rw [(s.byDistance.perm _).length_eq]
    exact hcount.trans List.countP_le_length
  have hrun : K - 1 < ((s.byDistance.run (mergedCandidates reports)).map
      MergedResult.distance).length := by
    rw [List.length_map]
    omega
  rw [← (s.byDistance.perm _).countP_eq] at hcount
  refine ⟨_, _, ?_, hkth, kth_le_of_countP (s.byDistance.sorted _)
    (List.getElem?_eq_getElem hrun) hK hcount⟩
  rw [mergeAndRerank, List.map_take, List.getElem?_take, if_pos (by omega),
    List.getElem?_eq_getElem hrun]

/-! ## Correctness -/

end QvCache
