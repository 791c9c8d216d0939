/-
  QvCache.Cache.Orientation

  The merge under each metric.  `search_with_tags` (external/DiskANN/src/
  index.cpp) writes the distance of a node for L2 and COSINE, and for
  INNER_PRODUCT the product itself, of which a larger one is better.  The merge
  keeps the smallest value of a tag and sorts upwards under every metric.

  `BestFirst` says what a caller is owed under the metric.  A merge of inner
  products provides it only where the smallest products are also the largest
  ones (`AscendingIsBest`).  The report of a single shard, which `search` falls
  back on when the merge misses (`MergeCanMiss`), provides it only where the
  other shards report nothing better (`BestAlone`).
-/

import QvCache.Cache.Agreement
import QvCache.Cache.MergeSpec
import QvCache.Theta.Padding
import Mathlib.Data.Finset.Max

namespace QvCache

/-! ## The output of one shard -/

/-- `best_L_nodes` of one search: the nodes found, with their tags where they
    have one, by increasing distance.  No two nodes share a tag. -/
structure BestLNodes where
  nodes : List (Option Tag × ℚ)
  sorted : nodes.Pairwise fun a b => a.2 ≤ b.2
  nodup : (nodes.filterMap Prod.fst).Nodup

/-- The value `search_with_tags` writes for the distance of a node. -/
def writtenDistance (metric : Metric) (distance : ℚ) : ℚ :=
  if metric = .innerProduct then -1 * distance else distance

/-- The output loop of `search_with_tags` from position `pos` on. -/
def searchWithTags (metric : Metric) (K resSize : Nat) : Nat → List (Option Tag × ℚ) → Report
  | _, [] => []
  | pos, (none, _) :: rest => searchWithTags metric K resSize pos rest
  | pos, (some tag, distance) :: rest =>
    (tag, writtenDistance metric distance) ::
      -- without result vectors the size is 0 and never reached
      if pos + 1 = K ∨ pos + 1 = resSize then []
      else searchWithTags metric K resSize (pos + 1) rest

/-! ## The best results under a metric -/

/-- A key of which a smaller one is better, whatever the metric. -/
def orientedKey (metric : Metric) (d : ℚ) : ℚ := if metric = .innerProduct then -d else d

/-- `k` is the key of the best result for `tag` in any of the lists. -/
def IsBestKey (metric : Metric) (reports : List (Nat × Report)) (tag : Tag) (k : ℚ) : Prop :=
  (∃ i d, ReportedBy reports i tag d ∧ orientedKey metric d = k) ∧
    ∀ i d, ReportedBy reports i tag d → k ≤ orientedKey metric d

/-- The tags of `out` are the K best distinct tags of the lists, best first. -/
structure BestFirst (metric : Metric) (reports : List (Nat × Report)) (K : Nat) (out : Report) :
    Prop where
  length : out.length = K
  nodup : (out.map Prod.fst).Nodup
  reported : ∀ tag ∈ out.map Prod.fst, ∃ i d, ReportedBy reports i tag d
  order : (out.map Prod.fst).Pairwise fun a b =>
    ∀ k k', IsBestKey metric reports a k → IsBestKey metric reports b k' → k ≤ k'
  omitted : ∀ a ∈ out.map Prod.fst, ∀ b ∉ out.map Prod.fst,
    ∀ k k', IsBestKey metric reports a k → IsBestKey metric reports b k' → k ≤ k'

/-! ## Distinct tags -/

/-- The distinct tags with a result that satisfies `p`. -/
def tagsWhere (reports : List (Nat × Report)) (p : Tag → ℚ → Bool) : List Tag :=
  (((allResults reports).filter fun e => p e.2.1 e.2.2).map fun e => e.2.1).dedup

/-- A tag that a hit may return, with the tombstones `dead`. -/
def Servable (dead : Finset UInt32) (tag : Tag) : Prop :=
  tag ≠ 0 ∧ tag ≠ 0xFFFFFFFF ∧ tag - 1 ∉ dead

instance (dead : Finset UInt32) (tag : Tag) : Decidable (Servable dead tag) :=
  inferInstanceAs (Decidable (_ ∧ _))

/-- K servable tags have their smallest values within that of every other tag:
    some order of equal distances puts only servable tags among the first K. -/
def RoomForHit (dead : Finset UInt32) (reports : List (Nat × Report)) (K : Nat) : Prop :=
  K ≤ (tagsWhere reports fun tag _ => decide (Servable dead tag)).length ∧
    ∀ i tag d, ReportedBy reports i tag d → ¬ Servable dead tag →
      K ≤ (tagsWhere reports fun tag d' => decide (Servable dead tag) && decide (d' ≤ d)).length

/-- `d` is the smallest value that is reported for `tag`. -/
def IsSmallest (reports : List (Nat × Report)) (tag : Tag) (d : ℚ) : Prop :=
  (∃ i, ReportedBy reports i tag d) ∧ ∀ i d', ReportedBy reports i tag d' → d ≤ d'

/-- Of two tags, the one with the smaller smallest value also has the larger
    largest one, where it can be among the first K. -/
def AscendingIsBest (dead : Finset UInt32) (reports : List (Nat × Report)) (K : Nat) : Prop :=
  ∀ a b da db, Servable dead a → a ≠ b → IsSmallest reports a da → IsSmallest reports b db →
    da ≤ db → (tagsWhere reports fun _ d => decide (d < da)).length < K →
    ∀ i d, ReportedBy reports i b d → ∃ i' d', ReportedBy reports i' a d' ∧ d ≤ d'

/-- Every result for `b` is matched by one for `a` that is as good. -/
def Outranks (metric : Metric) (reports : List (Nat × Report)) (a b : Tag) : Prop :=
  ∀ i d, ReportedBy reports i b d →
    ∃ i' d', ReportedBy reports i' a d' ∧ orientedKey metric d' ≤ orientedKey metric d

/-- The merge may miss where `report` hits: a tag that is not servable can be among
    its first K, or its K-th value is above that of `report`. -/
def MergeCanMiss (dead : Finset UInt32) (reports : List (Nat × Report)) (K : Nat)
    (report : Report) : Prop :=
  (∃ tag d, ¬ Servable dead tag ∧ IsSmallest reports tag d ∧
    (tagsWhere reports fun _ d' => decide (d' < d)).length < K) ∨
  ∃ d, (report.map Prod.snd)[K - 1]? = some d ∧
    (tagsWhere reports fun _ d' => decide (d' ≤ d)).length < K

/-- Wherever they come from, no results are better than those that `report` has
    among its first K. -/
structure BestAlone (metric : Metric) (reports : List (Nat × Report)) (K : Nat)
    (report : Report) : Prop where
  order : ((report.take K).map Prod.fst).Pairwise (Outranks metric reports)
  omitted : ∀ a ∈ (report.take K).map Prod.fst, ∀ i b d, ReportedBy reports i b d →
    b ∉ (report.take K).map Prod.fst → Outranks metric reports a b

/-! ## Results and candidates -/

variable {metric : Metric} {reports : List (Nat × Report)} {s : Sorters} {K : Nat}
  {dead : Finset UInt32}

theorem candidate_isSmallest {m : MergedResult} (hm : m ∈ mergedCandidates reports) :
    IsSmallest reports m.tag m.distance := by
  obtain ⟨r, hr, hmem⟩ := candidate_reported hm
  exact ⟨⟨m.sourceIndexId, r, hr, hmem⟩, fun _ _ h => candidate_le hm h⟩

theorem IsSmallest.unique {tag : Tag} {d d' : ℚ} (h : IsSmallest reports tag d)
    (h' : IsSmallest reports tag d') : d = d' := by
  obtain ⟨⟨i, hi⟩, hle⟩ := h
  obtain ⟨⟨i', hi'⟩, hle'⟩ := h'
  exact le_antisymm (hle i' d' hi') (hle' i d hi)

theorem exists_candidate_of_reported {i : Nat} {tag : Tag} {d : ℚ}
    (h : ReportedBy reports i tag d) : ∃ m ∈ mergedCandidates reports, m.tag = tag := by
  obtain ⟨r, hr, hmem⟩ := h
  obtain ⟨m, hm, htag, _⟩ := exists_candidate hr hmem
  exact ⟨m, hm, htag⟩

/-- A tag with a result that satisfies a condition on small values is one whose
    candidate does. -/
theorem length_tagsWhere {p : Tag → ℚ → Bool}
    (hp : ∀ tag d d', d' ≤ d → p tag d = true → p tag d' = true) :
    (tagsWhere reports p).length =
      (mergedCandidates reports).countP fun m => p m.tag m.distance := by
  have hperm : (((mergedCandidates reports).filter fun m => p m.tag m.distance).map
      MergedResult.tag).Perm (tagsWhere reports p) := by
    refine (List.perm_ext_iff_of_nodup (List.Nodup.sublist ((List.filter_sublist).map _)
      (nodup_tags_mergedCandidates reports)) (List.nodup_dedup _)).mpr fun tag => ?_
    rw [List.mem_dedup, List.mem_map, List.mem_map]
    constructor
    · rintro ⟨m, hm, rfl⟩
      obtain ⟨hcand, hpm⟩ := List.mem_filter.mp hm
      obtain ⟨r, hr, hmem⟩ := candidate_reported hcand
      exact ⟨(m.sourceIndexId, m.result), List.mem_filter.mpr
        ⟨mem_allResults.mpr ⟨r, hr, hmem⟩, hpm⟩, rfl⟩
    · rintro ⟨⟨i, td⟩, he, rfl⟩
      obtain ⟨hall, hpe⟩ := List.mem_filter.mp he
      obtain ⟨r, hr, htd⟩ := mem_allResults.mp hall
      obtain ⟨m, hm, htag, hle⟩ := exists_candidate hr htd
      refine ⟨m, List.mem_filter.mpr ⟨hm, ?_⟩, htag⟩
      rw [htag]
      exact hp _ _ _ hle hpe
  rw [← hperm.length_eq, List.length_map, List.countP_eq_length_filter]

theorem exists_isBestKey (metric : Metric) {i : Nat} {tag : Tag} {d : ℚ}
    (h : ReportedBy reports i tag d) : ∃ k, IsBestKey metric reports tag k := by
  -- the best of the finitely many results for the tag
  set own := ((allResults reports).filter fun e => decide (e.2.1 = tag)).toFinset with hown
  have hmem : ∀ i d, (i, tag, d) ∈ own ↔ ReportedBy reports i tag d := by
    intro i d
    simp [hown, reportedBy_iff_mem]
  obtain ⟨⟨i₀, t₀, d₀⟩, h₀, hbest⟩ := own.exists_min_image
    (fun e => orientedKey metric e.2.2) ⟨_, (hmem i d).mpr h⟩
  have ht₀ : t₀ = tag := by
    have hfilter := (List.mem_filter.mp (List.mem_toFinset.mp h₀)).2
    exact of_decide_eq_true hfilter
  subst ht₀
  exact ⟨orientedKey metric d₀, ⟨i₀, d₀, (hmem i₀ d₀).mp h₀, rfl⟩,
    fun i d h => hbest (i, t₀, d) ((hmem i d).mpr h)⟩

theorem outranks_iff {a b : Tag} {i j : Nat} {d d' : ℚ} (ha : ReportedBy reports i a d)
    (hb : ReportedBy reports j b d') :
    Outranks metric reports a b ↔
      ∀ k k', IsBestKey metric reports a k → IsBestKey metric reports b k' → k ≤ k' := by
  constructor
  · rintro h k k' ⟨_, hk⟩ ⟨⟨j', e, he, rfl⟩, _⟩
    obtain ⟨i', e', he', hle⟩ := h j' e he
    exact (hk i' e' he').trans hle
  · intro h j' e he
    obtain ⟨k, hk⟩ := exists_isBestKey metric ha
    obtain ⟨k', hk'⟩ := exists_isBestKey metric hb
    obtain ⟨i', e', he', heq⟩ := hk.1
    exact ⟨i', e', he', heq.le.trans ((h k k' hk hk').trans (hk'.2 j' e he))⟩

/-! ## The same results in other lists -/

/-- Every shard has the same results in both, in whatever order the shards stand and
    whether or not one with an empty report is there. -/
def SameResults (reports reports' : List (Nat × Report)) : Prop :=
  ∀ i tag d, ReportedBy reports i tag d ↔ ReportedBy reports' i tag d

namespace SameResults

variable {reports' : List (Nat × Report)} (h : SameResults reports reports')

include h

theorem length_tagsWhere (p : Tag → ℚ → Bool) :
    (tagsWhere reports p).length = (tagsWhere reports' p).length := by
  refine List.Perm.length_eq ((List.perm_ext_iff_of_nodup (List.nodup_dedup _)
    (List.nodup_dedup _)).mpr fun tag => ?_)
  rw [List.mem_dedup, List.mem_dedup, List.mem_map, List.mem_map]
  refine exists_congr fun e => and_congr_left fun _ => ?_
  rw [List.mem_filter, List.mem_filter]
  exact and_congr_left fun _ =>
    reportedBy_iff_mem.symm.trans ((h e.1 e.2.1 e.2.2).trans reportedBy_iff_mem)

theorem length_reportedTags : (reportedTags reports).length = (reportedTags reports').length := by
  simpa [tagsWhere, reportedTags] using h.length_tagsWhere fun _ _ => true

theorem isBestKey {tag : Tag} {k : ℚ} :
    IsBestKey metric reports tag k ↔ IsBestKey metric reports' tag k := by
  simp only [IsBestKey, h _ _ _]

theorem isSmallest {tag : Tag} {d : ℚ} :
    IsSmallest reports tag d ↔ IsSmallest reports' tag d := by
  simp only [IsSmallest, h _ _ _]

theorem bestFirst {out : Report} :
    BestFirst metric reports K out ↔ BestFirst metric reports' K out := by
  constructor
  · rintro ⟨hlen, hnodup, hreported, horder, homitted⟩
    simp only [h _ _ _, h.isBestKey] at hreported horder homitted
    exact ⟨hlen, hnodup, hreported, horder, homitted⟩
  · rintro ⟨hlen, hnodup, hreported, horder, homitted⟩
    simp only [← h _ _ _, ← h.isBestKey] at hreported horder homitted
    exact ⟨hlen, hnodup, hreported, horder, homitted⟩

theorem roomForHit : RoomForHit dead reports K ↔ RoomForHit dead reports' K := by
  simp only [RoomForHit, h _ _ _, h.length_tagsWhere]

theorem ascendingIsBest : AscendingIsBest dead reports K ↔ AscendingIsBest dead reports' K := by
  simp only [AscendingIsBest, h _ _ _, h.isSmallest, h.length_tagsWhere]

theorem mergeCanMiss {report : Report} :
    MergeCanMiss dead reports K report ↔ MergeCanMiss dead reports' K report := by
  simp only [MergeCanMiss, h.isSmallest, h.length_tagsWhere]

end SameResults

/-! ## The merged report -/

theorem map_fst_mergedReport :
    (mergedReport s reports K).map Prod.fst = (mergeAndRerank s reports K).map MergedResult.tag := by
  rw [mergedReport, List.map_map]
  rfl

/-- The merge is best first as soon as its order by value is right. -/
theorem bestFirst_mergedReport (hlen : (mergedReport s reports K).length = K)
    (hrank : ∀ m ∈ mergeAndRerank s reports K, ∀ m' ∈ mergedCandidates reports,
      m.tag ≠ m'.tag → m.distance ≤ m'.distance → Outranks metric reports m.tag m'.tag) :
    BestFirst metric reports K (mergedReport s reports K) where
  length := hlen
  nodup := nodup_mergedReport s reports K
  reported tag htag := by
    rw [map_fst_mergedReport] at htag
    obtain ⟨m, hm, rfl⟩ := List.mem_map.mp htag
    obtain ⟨r, hr, hmem⟩ := candidate_reported (mem_of_mem_mergeAndRerank hm)
    exact ⟨_, _, r, hr, hmem⟩
  order := by
    rw [map_fst_mergedReport, List.pairwise_map]
    have hnodup : ((mergeAndRerank s reports K).map MergedResult.tag).Nodup := nodup_mergeAndRerank
    have hne := List.pairwise_map.mp hnodup
    refine (sorted_mergeAndRerank.and hne).imp_of_mem ?_
    rintro m m' hm hm' ⟨hle, htag⟩
    have hcand := mem_of_mem_mergeAndRerank hm'
    obtain ⟨⟨i, hi⟩, _⟩ := candidate_isSmallest (mem_of_mem_mergeAndRerank hm)
    obtain ⟨⟨j, hj⟩, _⟩ := candidate_isSmallest hcand
    exact (outranks_iff hi hj).mp (hrank m hm m' hcand htag hle)
  omitted := by
    intro a ha b hb k k' hk hk'
    rw [map_fst_mergedReport] at ha hb
    obtain ⟨m, hm, rfl⟩ := List.mem_map.mp ha
    obtain ⟨⟨j, d, hj, _⟩, _⟩ := id hk'
    obtain ⟨m', hm', rfl⟩ := exists_candidate_of_reported hj
    obtain ⟨⟨i, hi⟩, _⟩ := candidate_isSmallest (mem_of_mem_mergeAndRerank hm)
    obtain ⟨⟨i', hi'⟩, _⟩ := candidate_isSmallest hm'
    have htag : m.tag ≠ m'.tag := fun heq => hb (heq ▸ List.mem_map_of_mem hm)
    exact (outranks_iff hi hi').mp (hrank m hm m' hm' htag (le_of_omitted hm hb hi')) k k' hk hk'

/-- Where a smaller value is better, the order by value is right. -/
theorem outranks_of_le (hmetric : metric ≠ .innerProduct) {m m' : MergedResult}
    (hm : m ∈ mergedCandidates reports) (hm' : m' ∈ mergedCandidates reports)
    (hle : m.distance ≤ m'.distance) : Outranks metric reports m.tag m'.tag := by
  intro i d h
  obtain ⟨⟨j, hj⟩, _⟩ := candidate_isSmallest hm
  refine ⟨j, m.distance, hj, ?_⟩
  rw [orientedKey, orientedKey, if_neg hmetric, if_neg hmetric]
  exact hle.trans (candidate_le hm' h)

/-- The entries that are reported below an entry do not fill the first K. -/
theorem tagsBelow_lt {m : MergedResult} (hm : m ∈ mergeAndRerank s reports K) :
    (tagsWhere reports fun _ d => decide (d < m.distance)).length < K := by
  rw [length_tagsWhere fun _ d d' hle h => decide_eq_true (hle.trans_lt (of_decide_eq_true h)),
    ← (s.byDistance.perm _).countP_eq]
  exact countP_lt_of_mem_take (s.byDistance.sorted _) hm

theorem outranks_of_ascendingIsBest (hbest : AscendingIsBest dead reports K) {m m' : MergedResult}
    (hm : m ∈ mergeAndRerank s reports K) (hservable : Servable dead m.tag)
    (hm' : m' ∈ mergedCandidates reports) (htag : m.tag ≠ m'.tag)
    (hle : m.distance ≤ m'.distance) : Outranks .innerProduct reports m.tag m'.tag := by
  intro i d h
  obtain ⟨i', d', h', hge⟩ := hbest m.tag m'.tag m.distance m'.distance hservable htag
    (candidate_isSmallest (mem_of_mem_mergeAndRerank hm)) (candidate_isSmallest hm') hle
    (tagsBelow_lt hm) i d h
  exact ⟨i', d', h', neg_le_neg hge⟩

/-! ## A single report -/

/-- What the output loop writes for a node. -/
def writtenEntry (metric : Metric) (node : Option Tag × ℚ) : Option (Tag × ℚ) :=
  node.1.map fun tag => (tag, writtenDistance metric node.2)

/-- The output loop writes the first of the nodes with tags, in their order. -/
theorem searchWithTags_starts (metric : Metric) (K resSize pos : Nat)
    (nodes : List (Option Tag × ℚ)) :
    searchWithTags metric K resSize pos nodes <+: nodes.filterMap (writtenEntry metric) := by
  induction nodes generalizing pos with
  | nil => exact List.prefix_refl _
  | cons node rest ih =>
    obtain ⟨tag, d⟩ := node
    cases tag with
    | none => exact ih pos
    | some tag =>
      have hfirst : ((some tag, d) :: rest).filterMap (writtenEntry metric) =
          (tag, writtenDistance metric d) :: rest.filterMap (writtenEntry metric) := rfl
      rw [searchWithTags, hfirst, List.prefix_cons_inj]
      split_ifs
      · exact List.nil_prefix
      · exact ih (pos + 1)

theorem map_fst_written (metric : Metric) (nodes : List (Option Tag × ℚ)) :
    (nodes.filterMap (writtenEntry metric)).map Prod.fst = nodes.filterMap Prod.fst := by
  rw [List.map_filterMap]
  refine congrArg (List.filterMap · nodes) (funext fun node => ?_)
  rw [writtenEntry, Option.map_map]
  exact Option.map_id'

theorem nodup_written (metric : Metric) {nodes : List (Option Tag × ℚ)}
    (h : (nodes.filterMap Prod.fst).Nodup) :
    ((nodes.filterMap (writtenEntry metric)).map Prod.fst).Nodup := by
  rwa [map_fst_written]

theorem tags_searchWithTags_sublist (metric : Metric) (K resSize pos : Nat)
    (nodes : List (Option Tag × ℚ)) :
    ((searchWithTags metric K resSize pos nodes).map Prod.fst).Sublist
      (nodes.filterMap Prod.fst) := by
  rw [← map_fst_written metric nodes]
  exact (searchWithTags_starts metric K resSize pos nodes).sublist.map Prod.fst

theorem orientedKey_written (metric : Metric) (d : ℚ) :
    orientedKey metric (writtenDistance metric d) = d := by
  unfold orientedKey writtenDistance
  split_ifs
  · rw [neg_mul, one_mul, neg_neg]
  · rfl

theorem sorted_written (metric : Metric) {nodes : List (Option Tag × ℚ)}
    (h : nodes.Pairwise fun a b => a.2 ≤ b.2) :
    (nodes.filterMap (writtenEntry metric)).Pairwise fun a b =>
      orientedKey metric a.2 ≤ orientedKey metric b.2 := by
  refine h.filterMap (writtenEntry metric) ?_
  intro a b hle td htd td' htd'
  obtain ⟨tag, _, rfl⟩ := Option.map_eq_some_iff.mp htd
  obtain ⟨tag', _, rfl⟩ := Option.map_eq_some_iff.mp htd'
  rwa [orientedKey_written, orientedKey_written]

/-- A shard reports its results best first. -/
theorem searchWithTags_bestFirst {K resSize pos : Nat} {nodes : List (Option Tag × ℚ)}
    (hsorted : nodes.Pairwise fun a b => a.2 ≤ b.2) :
    (searchWithTags metric K resSize pos nodes).Pairwise fun a b =>
      orientedKey metric a.2 ≤ orientedKey metric b.2 :=
  (sorted_written metric hsorted).sublist
    (searchWithTags_starts metric K resSize pos nodes).sublist

/-- The output loop writes the first `K` nodes with tags, and no more than there
    are result vectors if there are any. -/
theorem searchWithTags_eq_take (metric : Metric) {K resSize pos : Nat} (hK : pos < K)
    (hres : resSize = 0 ∨ pos < resSize) (nodes : List (Option Tag × ℚ)) :
    searchWithTags metric K resSize pos nodes = (nodes.filterMap (writtenEntry metric)).take
      ((if resSize = 0 then K else min K resSize) - pos) := by
  induction nodes generalizing pos with
  | nil => exact List.take_nil.symm
  | cons node rest ih =>
    obtain ⟨tag, d⟩ := node
    cases tag with
    | none => exact ih hK hres
    | some tag =>
      have hfirst : ((some tag, d) :: rest).filterMap (writtenEntry metric) =
          (tag, writtenDistance metric d) :: rest.filterMap (writtenEntry metric) := rfl
      rw [searchWithTags, hfirst]
      by_cases hstop : pos + 1 = K ∨ pos + 1 = resSize
      · have hone : (if resSize = 0 then K else min K resSize) - pos = 1 := by
          split_ifs <;> omega
        rw [if_pos hstop, hone]
        rfl
      · have hmore : (if resSize = 0 then K else min K resSize) - pos =
            (if resSize = 0 then K else min K resSize) - (pos + 1) + 1 := by
          split_ifs <;> omega
        have hnext : resSize = 0 ∨ pos + 1 < resSize := by omega
        rw [if_neg hstop, hmore, List.take_succ_cons, ih (by omega) hnext]

theorem length_searchWithTags_le {K resSize pos : Nat} (hpos : pos < K)
    (nodes : List (Option Tag × ℚ)) :
    (searchWithTags metric K resSize pos nodes).length ≤ K - pos := by
  induction nodes generalizing pos with
  | nil => exact Nat.zero_le _
  | cons node rest ih =>
    obtain ⟨tag, d⟩ := node
    cases tag with
    | none => exact ih hpos
    | some tag =>
      rw [searchWithTags, List.length_cons]
      split_ifs with hstop
      · rw [List.length_nil]
        omega
      · have hnext : pos + 1 < K := by omega
        have hle := ih hnext
        omega

/-- The results of one shard alone are best first. -/
theorem bestFirst_single {i : Nat} {r : Report} (hnodup : (r.map Prod.fst).Nodup)
    (hsorted : r.Pairwise fun a b => orientedKey metric a.2 ≤ orientedKey metric b.2)
    (hlen : r.length = K) : BestFirst metric [(i, r)] K r := by
  have hown : ∀ {j : Nat} {tag : Tag} {d : ℚ}, ReportedBy [(i, r)] j tag d ↔ j = i ∧ (tag, d) ∈ r := by
    intro j tag d
    simp [ReportedBy]
  have hkey : ∀ td ∈ r, ∀ k, IsBestKey metric [(i, r)] td.1 k → k = orientedKey metric td.2 := by
    rintro td htd k ⟨⟨j, d, hd, rfl⟩, _⟩
    rw [← List.inj_on_of_nodup_map hnodup (hown.mp hd).2 htd rfl]
  refine ⟨hlen, hnodup, ?_, ?_, ?_⟩
  · intro tag htag
    obtain ⟨td, htd, rfl⟩ := List.mem_map.mp htag
    exact ⟨i, td.2, hown.mpr ⟨rfl, htd⟩⟩
  · rw [List.pairwise_map]
    refine hsorted.imp_of_mem ?_
    intro a b ha hb hle k k' hk hk'
    rwa [hkey a ha k hk, hkey b hb k' hk']
  · rintro a _ b hb k k' _ ⟨⟨j, d, hd, _⟩, _⟩
    exact absurd (List.mem_map_of_mem (f := Prod.fst) (hown.mp hd).2) hb

/-- So are the first K of several, where no other shard has better ones. -/
theorem bestFirst_iff_bestAlone {i : Nat} {r : Report} (hr : (i, r) ∈ reports)
    (hnodup : (r.map Prod.fst).Nodup) (hlen : K ≤ r.length) :
    BestFirst metric reports K (r.take K) ↔ BestAlone metric reports K r := by
  have hreported : ∀ tag ∈ (r.take K).map Prod.fst, ∃ i d, ReportedBy reports i tag d := by
    intro tag htag
    obtain ⟨td, htd, rfl⟩ := List.mem_map.mp htag
    exact ⟨i, td.2, r, hr, List.mem_of_mem_take htd⟩
  have horder : ((r.take K).map Prod.fst).Pairwise (Outranks metric reports) ↔
      ((r.take K).map Prod.fst).Pairwise fun a b =>
        ∀ k k', IsBestKey metric reports a k → IsBestKey metric reports b k' → k ≤ k' := by
    refine List.Pairwise.iff_of_mem fun {a b} ha hb => ?_
    obtain ⟨i, d, ha⟩ := hreported a ha
    obtain ⟨j, d', hb⟩ := hreported b hb
    exact outranks_iff ha hb
  constructor
  · intro h
    refine ⟨horder.mpr h.order, fun a ha j b d hb hout => ?_⟩
    obtain ⟨i, d', ha'⟩ := hreported a ha
    exact (outranks_iff ha' hb).mpr (h.omitted a ha b hout)
  · intro h
    refine ⟨List.length_take_of_le hlen, ?_, hreported, horder.mp h.order, ?_⟩
    · rw [List.map_take]
      exact hnodup.sublist (List.take_sublist K _)
    · intro a ha b hout k k' hk hk'
      obtain ⟨⟨j, d, hb, _⟩, _⟩ := id hk'
      obtain ⟨i, d', ha'⟩ := hreported a ha
      exact (outranks_iff ha' hb).mp (h.omitted a ha j b d hb hout) k k' hk hk'

/-! ## Room for a hit -/

/-- What holds of all merged entries holds of as many candidates. -/
theorem length_merge_le_countP {p : MergedResult → Bool}
    (hp : ∀ m ∈ mergeAndRerank s reports K, p m = true) :
    (mergeAndRerank s reports K).length ≤ (mergedCandidates reports).countP p := by
  rw [← List.countP_eq_length.mpr hp, ← (s.byDistance.perm (mergedCandidates reports)).countP_eq]
  exact (List.take_sublist _ _).countP_le

/-- A hit shows that there is room for one. -/
theorem roomForHit_of_servable (hlen : (mergeAndRerank s reports K).length = K)
    (hservable : ∀ m ∈ mergeAndRerank s reports K, Servable dead m.tag) :
    RoomForHit dead reports K := by
  have hcount : ∀ p : MergedResult → Bool, (∀ m ∈ mergeAndRerank s reports K, p m = true) →
      K ≤ (mergedCandidates reports).countP p := fun p hp => hlen ▸ length_merge_le_countP hp
  constructor
  · rw [length_tagsWhere (p := fun tag _ => decide (Servable dead tag)) fun _ _ _ _ h => h]
    exact hcount _ fun m hm => decide_eq_true (hservable m hm)
  · intro i tag d h hnot
    rw [length_tagsWhere]
    · refine hcount _ fun m hm => ?_
      -- a tag that is not servable is left out, so every entry is within it
      have hout : tag ∉ (mergeAndRerank s reports K).map MergedResult.tag := by
        intro htag
        obtain ⟨m', hm', rfl⟩ := List.mem_map.mp htag
        exact hnot (hservable m' hm')
      rw [Bool.and_eq_true]
      exact ⟨decide_eq_true (hservable m hm), decide_eq_true (le_of_omitted hm hout h)⟩
    · intro tag' d₁ d₂ hle h
      rw [Bool.and_eq_true] at h ⊢
      exact ⟨h.1, decide_eq_true (hle.trans (of_decide_eq_true h.2))⟩

/-- Sort servable tags in front of others at the same distance, and `a` in
    front of all of them. -/
def servableFirst (dead : Finset UInt32) (a : Tag) : Sorters where
  byDistance := Sorter.tieRank _ fun m =>
    if m.tag = a then 0 else if Servable dead m.tag then 1 else 2
  byCount := Sorter.tieRank _ fun _ => 0

theorem servable_of_roomForHit (hroom : RoomForHit dead reports K) {a : Tag}
    (ha : Servable dead a) :
    ∀ m ∈ mergeAndRerank (servableFirst dead a) reports K, Servable dead m.tag := by
  intro m hm
  by_contra hnot
  obtain ⟨⟨i, hi⟩, _⟩ := candidate_isSmallest (mem_of_mem_mergeAndRerank hm)
  have hcount := hroom.2 i m.tag m.distance hi hnot
  rw [length_tagsWhere] at hcount
  · -- the servable candidates within `m` all stand in front of it
    obtain ⟨j, hj⟩ := List.getElem?_of_mem hm
    rw [mergeAndRerank, List.getElem?_take] at hj
    split_ifs at hj with hjK
    set run := (servableFirst dead a).byDistance.run (mergedCandidates reports) with hrun
    have hbefore : run.countP
        (fun m' => decide (Servable dead m'.tag) && decide (m'.distance ≤ m.distance)) ≤ j := by
      refine countP_le_of_drop fun m' hm' => ?_
      rw [Bool.eq_false_iff]
      intro hgood
      obtain ⟨hserv, hle⟩ := by simpa only [Bool.and_eq_true, decide_eq_true_eq] using hgood
      obtain ⟨k, hk⟩ := List.getElem?_of_mem hm'
      rw [List.getElem?_drop] at hk
      have hge := key_le_of_getElem? ((servableFirst dead a).byDistance.sorted _) hj hk (by omega)
      rcases Nat.eq_zero_or_pos k with rfl | hpos
      · rw [Nat.add_zero, hj] at hk
        exact hnot ((Option.some.inj hk) ▸ hserv)
      · have hrank := Sorter.rank_le_of_tieRank
          (fun m : MergedResult => if m.tag = a then 0 else if Servable dead m.tag then 1 else 2)
          hj hk (by omega) (le_antisymm hge hle)
        have hne : m.tag ≠ a := fun h => hnot (h ▸ ha)
        rw [if_neg hne, if_neg hnot, if_pos hserv] at hrank
        split_ifs at hrank <;> omega
    rw [hrun, ((servableFirst dead a).byDistance.perm _).countP_eq] at hbefore
    omega
  · intro tag' d₁ d₂ hle h
    rw [Bool.and_eq_true] at h ⊢
    exact ⟨h.1, decide_eq_true (hle.trans (of_decide_eq_true h.2))⟩

/-- A tag in front of its ties is among the first K if those below it leave room. -/
theorem mem_merge_first {m : MergedResult} (hm : m ∈ mergedCandidates reports)
    (hcount : (tagsWhere reports fun _ d => decide (d < m.distance)).length < K) :
    m ∈ mergeAndRerank (servableFirst dead m.tag) reports K := by
  rw [length_tagsWhere fun _ d d' hle h => decide_eq_true (hle.trans_lt (of_decide_eq_true h))]
    at hcount
  refine Sorter.mem_take_tieRank hm (fun y hy _ hne => ?_) hcount
  have htag : y.tag ≠ m.tag := fun htag =>
    hne (List.inj_on_of_nodup_map (nodup_tags_mergedCandidates reports) hy hm htag)
  rw [if_pos rfl, if_neg htag]
  split_ifs <;> omega

/-- With `a` in front of its ties, a right answer has it outrank every tag that
    is not below it. -/
theorem outranks_of_bestFirst {a b : Tag} {da db : ℚ} (hab : a ≠ b)
    (hsa : IsSmallest reports a da) (hsb : IsSmallest reports b db) (hle : da ≤ db)
    (hcount : (tagsWhere reports fun _ d => decide (d < da)).length < K)
    (hbest : BestFirst metric reports K (mergedReport (servableFirst dead a) reports K)) :
    Outranks metric reports a b := by
  obtain ⟨⟨i, hi⟩, _⟩ := id hsa
  obtain ⟨⟨j, hj⟩, _⟩ := id hsb
  obtain ⟨m, hm, rfl⟩ := exists_candidate_of_reported hi
  obtain ⟨m', hm', rfl⟩ := exists_candidate_of_reported hj
  obtain rfl := (candidate_isSmallest hm).unique hsa
  obtain rfl := (candidate_isSmallest hm').unique hsb
  have hmerged : m ∈ mergeAndRerank (servableFirst dead m.tag) reports K :=
    mem_merge_first hm hcount
  refine (outranks_iff hi hj).mpr ?_
  have htag : m.tag ∈ (mergedReport (servableFirst dead m.tag) reports K).map Prod.fst :=
    map_fst_mergedReport (s := servableFirst dead m.tag) ▸ List.mem_map_of_mem hmerged
  by_cases hmem : m'.tag ∈ (mergedReport (servableFirst dead m.tag) reports K).map Prod.fst
  · -- both are returned, `m` first
    rw [map_fst_mergedReport] at hmem
    obtain ⟨m'', hmem', htag'⟩ := List.mem_map.mp hmem
    obtain rfl := List.inj_on_of_nodup_map (nodup_tags_mergedCandidates reports)
      (mem_of_mem_mergeAndRerank hmem') hm' htag'
    have horder := hbest.order
    rw [map_fst_mergedReport, List.pairwise_map] at horder
    obtain ⟨p, hp⟩ := List.getElem?_of_mem hmerged
    obtain ⟨q, hq⟩ := List.getElem?_of_mem hmem'
    have hpq : p < q := by
      rcases Nat.lt_trichotomy p q with hlt | rfl | hlt
      · exact hlt
      · rw [hp] at hq
        exact absurd (congrArg MergedResult.tag (Option.some.inj hq)) hab
      · rw [mergeAndRerank, List.getElem?_take] at hp hq
        split_ifs at hp hq
        have hge := key_le_of_getElem? ((servableFirst dead m.tag).byDistance.sorted _) hq hp hlt.le
        have hfirst := Sorter.rank_le_of_tieRank
          (fun x : MergedResult =>
            if x.tag = m.tag then 0 else if Servable dead x.tag then 1 else 2)
          hq hp hlt (le_antisymm hge hle)
        rw [if_pos rfl, if_neg (Ne.symm hab)] at hfirst
        split_ifs at hfirst <;> omega
    obtain ⟨hp', hpm⟩ := List.getElem?_eq_some_iff.mp hp
    obtain ⟨hq', hqm⟩ := List.getElem?_eq_some_iff.mp hq
    have hpair := List.pairwise_iff_getElem.mp horder p q hp' hq' hpq
    rwa [hpm, hqm] at hpair
  · exact hbest.omitted _ htag _ hmem

/-- Where every tag is reported with one value only, the ascending order is best
    first only if all values are equal. -/
theorem ascendingIsBest_iff_alike (hK : 1 ≤ K)
    (hservable : ∀ i tag d, ReportedBy reports i tag d → Servable dead tag)
    (hone : ∀ i j tag d d', ReportedBy reports i tag d → ReportedBy reports j tag d' → d = d') :
    AscendingIsBest dead reports K ↔
      ∀ i j a b d d', ReportedBy reports i a d → ReportedBy reports j b d' → d = d' := by
  have hsmallest : ∀ {i tag d}, ReportedBy reports i tag d → IsSmallest reports tag d :=
    fun {i tag d} h => ⟨⟨i, h⟩, fun j d' h' => (hone i j tag d d' h h').le⟩
  constructor
  · intro hasc
    -- nothing is below the overall smallest value, so its tag is among the first K
    have hleast : ∀ i a d, ReportedBy reports i a d → ∃ j b e, ReportedBy reports j b e ∧
        ∀ i a d, ReportedBy reports i a d → e ≤ d ∧ d ≤ e := by
      intro i a d h
      obtain ⟨⟨j, b, e⟩, hmin, hle⟩ := (allResults reports).toFinset.exists_min_image
        (fun r => r.2.2) ⟨_, List.mem_toFinset.mpr (reportedBy_iff_mem.mp h)⟩
      have hb := reportedBy_iff_mem.mpr (List.mem_toFinset.mp hmin)
      have hlow : ∀ i a d, ReportedBy reports i a d → e ≤ d := fun i a d h =>
        hle (i, a, d) (List.mem_toFinset.mpr (reportedBy_iff_mem.mp h))
      refine ⟨j, b, e, hb, fun i a d h => ⟨hlow i a d h, ?_⟩⟩
      by_cases hab : b = a
      · subst hab
        exact (hone i j b d e h hb).le
      · have hbelow : tagsWhere reports (fun _ d => decide (d < e)) = [] := by
          rw [tagsWhere, List.filter_eq_nil_iff.mpr]
          · rfl
          · rintro ⟨i', a', d'⟩ hmem hlt
            exact absurd (of_decide_eq_true hlt)
              (not_lt.mpr (hlow i' a' d' (reportedBy_iff_mem.mpr hmem)))
        obtain ⟨i', d', h', hge⟩ := hasc b a e d (hservable j b e hb) hab (hsmallest hb)
          (hsmallest h) (hlow i a d h) (by rw [hbelow]; exact hK) i d h
        rwa [hone i' j b d' e h' hb] at hge
    intro i j a b d d' ha hb
    obtain ⟨_, _, e, _, hall⟩ := hleast i a d ha
    have hd := hall i a d ha
    have hd' := hall j b d' hb
    linarith
  · intro h a b da db _ _ hsa _ _ _ i d hb
    obtain ⟨⟨j, ha⟩, _⟩ := hsa
    exact ⟨j, da, ha, (h i j b a d da hb ha).le⟩

end QvCache
