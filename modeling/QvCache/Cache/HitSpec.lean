/-
  QvCache.Cache.HitSpec

  What a hit guarantees, on every path that produces one.  Whatever the
  strategy, a lookup tries a list of reports (`lookup_attempts`); each of them
  is sound: distinct tags, ascending distances, and nothing in it that some
  mini-index did not report.  `lookup_hit` combines this with the hit test.
-/

import QvCache.Cache.Search

namespace QvCache

namespace Cache

variable {V : Type} {cfg : CacheConfig V} {c : Cache V} {query : V} {K : Nat}

/-- Some mini-index reports this tag at this distance. -/
def Reported (cfg : CacheConfig V) (c : Cache V) (query : V) (K : Nat) (td : Tag × ℚ) : Prop :=
  ∃ idx ∈ c.memoryIndices, td ∈ cfg.search.run idx query K

/-- A report that a strategy may rely on. -/
structure SoundReport (cfg : CacheConfig V) (c : Cache V) (query : V) (K : Nat) (report : Report) :
    Prop where
  nodup : (report.map Prod.fst).Nodup
  sorted : report.Pairwise fun a b => a.2 ≤ b.2
  reported : ∀ td ∈ report, c.Reported cfg query K td

theorem SoundReport.take {report : Report} (h : SoundReport cfg c query K report) (n : Nat) :
    SoundReport cfg c query K (report.take n) where
  nodup := h.nodup.sublist ((List.take_sublist n report).map Prod.fst)
  sorted := h.sorted.sublist (List.take_sublist n report)
  reported := fun td htd => h.reported td (List.mem_of_mem_take htd)

theorem soundReport_shard (resSize i : Nat) :
    SoundReport cfg c query K (c.shardReport cfg query K resSize i) := by
  unfold shardReport
  cases hidx : c.memoryIndices[i]? with
  | none => exact ⟨List.nodup_nil, List.Pairwise.nil, by simp⟩
  | some idx =>
    have hfull : SoundReport cfg c query K (cfg.search.run idx query K) :=
      ⟨cfg.search.nodup idx query K, cfg.search.sorted idx query K,
        fun td htd => ⟨idx, List.mem_of_getElem? hidx, htd⟩⟩
    exact hfull.take _

theorem soundReport_merged {s : Sorters} {reports : List (Nat × Report)}
    (h : ∀ ir ∈ reports, SoundReport cfg c query K ir.2) :
    SoundReport cfg c query K (mergedReport s reports K) where
  nodup := nodup_mergedReport s reports K
  sorted := sorted_mergedReport s reports K
  reported := by
    intro td htd
    obtain ⟨i, r, hr, hmem⟩ := mergedReport_reported htd
    exact (h (i, r) hr).reported td hmem

/-! ## The reports a strategy tries -/

theorem sound_searched {searched : List (Nat × Report)} {s : Sorters}
    (h : ∀ ir ∈ searched, SoundReport cfg c query K ir.2) :
    ∀ a ∈ singleAttempt searched ++ [mergedAttempt s searched K] ++ searched.map shardAttempt,
      SoundReport cfg c query K a.report :=
  forall_attempts (P := fun a => SoundReport cfg c query K a.report) h (soundReport_merged h)

theorem sound_sequential (s : Sorters) :
    ∀ a ∈ c.sequentialAttempts cfg s query K, SoundReport cfg c query K a.report := by
  refine sound_searched fun ir hir => ?_
  obtain ⟨i, _, rfl⟩ := List.mem_map.mp hir
  exact soundReport_shard 0 i

theorem sound_parallel (s : Sorters) (jobs : List Nat) :
    ∀ a ∈ c.parallelAttempts cfg s query K jobs, SoundReport cfg c query K a.report := by
  have hsearched : ∀ ir ∈ c.parallelSearched cfg query K jobs, SoundReport cfg c query K ir.2 := by
    intro ir hir
    obtain ⟨i, _, rfl⟩ := List.mem_map.mp (List.mem_of_mem_filter hir)
    dsimp only
    split_ifs
    · exact soundReport_shard 0 i
    · exact ⟨List.nodup_nil, List.Pairwise.nil, by simp⟩
  intro a ha
  exact sound_searched hsearched a (List.mem_append_left _ ha)

/-- Every lookup tries sound reports in turn. -/
theorem lookup_attempts (cfg : CacheConfig V) (c : Cache V) (query : V) (K : Nat) (s : Sorters)
    (resSize : Nat) :
    ∃ attempts, c.lookup cfg s query K resSize = firstHit cfg query K c attempts ∧
      ∀ a ∈ attempts, SoundReport cfg c query K a.report := by
  unfold lookup
  -- PARALLEL with a pool: no job, one job, or several
  split_ifs
  · unfold parallelSearchMemoryIndices
    dsimp only
    split
    · exact ⟨[], rfl, by simp⟩
    · unfold searchSingleIndex
      split_ifs
      · refine ⟨_, rfl, fun a ha => ?_⟩
        rw [List.mem_singleton.mp ha]
        exact soundReport_shard resSize _
      · exact ⟨[], rfl, by simp⟩
    · exact ⟨_, rfl, sound_parallel s _⟩
  · exact ⟨_, rfl, sound_sequential s⟩

/-! ## What a hit guarantees -/

theorem sameContents_lookup (s : Sorters) (resSize : Nat) :
    SameContents c (c.lookup cfg s query K resSize).1 := by
  obtain ⟨attempts, heq, _⟩ := lookup_attempts cfg c query K s resSize
  rw [heq]
  exact sameContents_firstHit attempts

/-- The result of a hit and the state it was tested in. -/
structure SoundHit (cfg : CacheConfig V) (c c' : Cache V) (query : V) (K : Nat) (hit : Report) :
    Prop where
  length : hit.length = K
  nodup : (hit.map Prod.fst).Nodup
  valid : ∀ td ∈ hit, td.1 ≠ 0 ∧ td.1 ≠ 0xFFFFFFFF ∧ td.1 - 1 ∉ c.deletedIds
  sorted : hit.Pairwise fun a b => a.2 ≤ b.2
  reported : ∀ td ∈ hit, c.Reported cfg query K td
  /-- The threshold it was compared with is learned, stored, and not exceeded. -/
  within : ∃ theta, c'.thresholds.stored cfg.theta query K = some theta ∧
    isUninitializedTheta cfg.theta.pca.metric theta = false ∧
    kthOf K hit ≤ (1 + cfg.theta.deviationFactor) * theta

theorem kthOf_take {report : Report} (hK : K ≠ 0) : kthOf K (report.take K) = kthOf K report := by
  have hlt : K - 1 < K := by omega
  simp [kthOf, PcaUtils.kthDistance, List.getD_eq_getElem?_getD, hlt]

/-- Every hit, of either strategy and on each of their paths, is sound. -/
theorem lookup_hit {s : Sorters} {resSize : Nat} {hit : Report}
    (h : (c.lookup cfg s query K resSize).2 = some hit) :
    SoundHit cfg c (c.lookup cfg s query K resSize).1 query K hit := by
  obtain ⟨attempts, heq, hsound⟩ :=
    lookup_attempts cfg c query K s resSize
  rw [heq] at h ⊢
  -- the state after the search has the threshold, the report passed before
  have hstored := stored_of_firstHit h
  rw [firstHit_snd, Option.map_eq_some_iff] at h
  obtain ⟨a, ha, rfl⟩ := h
  have hreport := (hsound a (List.mem_of_find?_eq_some ha)).take K
  have hpass : c.Passes cfg query K a.report := by
    simpa using List.find?_some ha
  obtain ⟨⟨hlen, hlive⟩, _, hK, hlearned, hle⟩ := hpass
  exact {
    length := by rw [List.length_take]; omega
    nodup := hreport.nodup
    valid := hlive
    sorted := hreport.sorted
    reported := hreport.reported
    within := ⟨_, hstored, hlearned, by rw [kthOf_take hK]; exact hle⟩ }

end Cache

end QvCache
