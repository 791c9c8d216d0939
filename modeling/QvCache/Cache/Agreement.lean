/-
  QvCache.Cache.Agreement

  When the two search strategies agree.  Both rank the same candidates, each
  reported tag at its best distance, and cut the ranking after K.  They part in
  three places: a lone shard is searched with the caller's `res` by one of them,
  a merge that misses is followed by the single shards in the other, and either
  may break ties at the cut in its own way.

  `Agreeing` is the exact condition on the state, the query, K and `res`.
-/

import QvCache.Cache.HitSpec
import QvCache.Cache.Shape

namespace QvCache

namespace Cache

variable {V : Type} (cfg : CacheConfig V)

/-- A tag that no hit may contain: an invalid one, or one with a tombstone. -/
def dead (c : Cache V) (td : Tag × ℚ) : Bool :=
  decide (td.1 = 0) || decide (td.1 = 0xFFFFFFFF) || decide (td.1 - 1 ∈ c.deletedIds)

/-- What the occupied shards report. -/
def reported (c : Cache V) (query : V) (K : Nat) : Report :=
  (c.occupiedShards cfg).flatMap fun i => c.shardReport cfg query K 0 i

/-- Every tag the occupied shards report, at its best distance. -/
def candidates (c : Cache V) (query : V) (K : Nat) : Report :=
  ((c.reported cfg query K).filter fun td =>
    decide (∀ td' ∈ c.reported cfg query K, td'.1 = td.1 → td.2 ≤ td'.2)).dedup

/-- The threshold of the query admits this distance. -/
def Admits (c : Cache V) (query : V) (K : Nat) (d : ℚ) : Prop :=
  K ≤ c.getNumberOfVectorsInMemoryIndex ∧ c.thresholds.Learned cfg.theta query K ∧
    .fin d ≤ (1 + cfg.theta.deviationFactor) * c.thresholds.seen cfg.theta query K

/-- However ties are broken the merge misses: a dead candidate is below the K-th
    distance, or too few live ones are within it. -/
def MissesAnyway (c : Cache V) (query : V) (K : Nat) (d : ℚ) : Prop :=
  (∃ td ∈ c.candidates cfg query K, c.dead td = true ∧ td.2 < d) ∨
    (c.candidates cfg query K).countP (fun td => !c.dead td && decide (td.2 ≤ d)) < K

/-- The condition under which the strategies agree.  A lone shard needs room in
    `res`.  With more of them, a K-th distance that the threshold admits has
    every dead candidate beyond it, or else the merge misses however ties are
    broken and no shard alone hits. -/
def Agreeing (c : Cache V) (query : V) (K resSize : Nat) : Prop :=
  match c.occupiedShards cfg with
  | [] => True
  | [i] => resSize = 0 ∨ K ≤ resSize ∨ ¬ c.Passes cfg query K (c.shardReport cfg query K 0 i)
  | occupied =>
    ∀ d ∈ kthKey Prod.snd (c.candidates cfg query K) K, c.Admits cfg query K d →
      (∀ td ∈ c.candidates cfg query K, c.dead td = true → d < td.2) ∨
      (c.MissesAnyway cfg query K d ∧
        ∀ i ∈ occupied, ¬ c.Passes cfg query K (c.shardReport cfg query K 0 i))

/-- The same distances, and the same tags wherever the distance is below the
    last one. -/
structure SameUpToTies (a b : Report) : Prop where
  distances : a.map Prod.snd = b.map Prod.snd
  tags : ∀ td, (∃ far ∈ a, td.2 < far.2) → (td ∈ a ↔ td ∈ b)

/-- Both miss, or both hit with the same results up to ties. -/
inductive SameOutcome : Option Report → Option Report → Prop where
  | miss : SameOutcome none none
  | hit {a b : Report} : SameUpToTies a b → SameOutcome (some a) (some b)

variable {cfg} {c : Cache V} {query : V} {K : Nat}

/-! ## The hit test on sorted reports -/

theorem dead_eq_false_iff {td : Tag × ℚ} :
    c.dead td = false ↔ td.1 ≠ 0 ∧ td.1 ≠ 0xFFFFFFFF ∧ td.1 - 1 ∉ c.deletedIds := by
  simp [dead, and_assoc]

theorem kthOf_eq {report : Report} {d : ℚ} (h : (report.map Prod.snd)[K - 1]? = some d) :
    kthOf K report = .fin d := by
  rw [List.getElem?_map, Option.map_eq_some_iff] at h
  obtain ⟨td, htd, rfl⟩ := h
  simp [kthOf, PcaUtils.kthDistance, List.getD_eq_getElem?_getD, htd]

/-- The hit test looks at the first K only. -/
theorem passes_take (report : Report) :
    c.Passes cfg query K (report.take K) ↔ c.Passes cfg query K report := by
  unfold Passes KLive
  rw [List.take_take, Nat.min_self, List.length_take]
  by_cases hK : K = 0
  · simp [hK]
  · rw [kthOf_take hK]
    simp only [le_min_iff, le_refl, true_and]

/-- The hit test on a report with a K-th distance. -/
theorem passes_iff {report : Report} {d : ℚ} (hK : 1 ≤ K)
    (hd : (report.map Prod.snd)[K - 1]? = some d) :
    c.Passes cfg query K report ↔
      c.Admits cfg query K d ∧ ∀ td ∈ report.take K, c.dead td = false := by
  have hlen : K ≤ report.length := by
    obtain ⟨hlt, _⟩ := List.getElem?_eq_some_iff.mp hd
    rw [List.length_map] at hlt
    omega
  unfold Passes KLive Admits
  simp only [kthOf_eq hd, dead_eq_false_iff, hlen, true_and, Nat.one_le_iff_ne_zero.mp hK, ne_eq,
    not_false_eq_true]
  exact and_comm

theorem not_passes_of_short {report : Report} (h : report.length < K) :
    ¬ c.Passes cfg query K report :=
  fun hpass => absurd hpass.1.1 (by omega)

/-! ## Rankings -/

/-- `report` starts with the K nearest candidates, in order. -/
def Ranks (cands : Report) (K : Nat) (report : Report) : Prop :=
  ∃ ranking : Report, ranking.Perm cands ∧ (ranking.Pairwise fun a b => a.2 ≤ b.2) ∧
    report.take K = ranking.take K

variable {cands report : Report}

/-- Two rankings of the same candidates are the same up to ties. -/
theorem Ranks.sameUpToTies {other : Report} (h : Ranks cands K report) (h' : Ranks cands K other) :
    SameUpToTies (report.take K) (other.take K) := by
  obtain ⟨r, hperm, hsorted, heq⟩ := h
  obtain ⟨r', hperm', hsorted', heq'⟩ := h'
  have hperms := hperm.trans hperm'.symm
  rw [heq, heq']
  constructor
  · rw [List.map_take, List.map_take, map_key_eq_of_perm hperms hsorted hsorted']
  · rintro td ⟨far, hfar, hlt⟩
    exact mem_take_iff_of_perm hperms hsorted hsorted' hfar hlt

/-- A ranking passes if the threshold admits the K-th distance and its first K
    are live. -/
theorem Ranks.passes_iff {d : ℚ} (h : Ranks cands K report) (hK : 1 ≤ K)
    (hd : kthKey Prod.snd cands K = some d) :
    c.Passes cfg query K report ↔
      c.Admits cfg query K d ∧ ∀ td ∈ report.take K, c.dead td = false := by
  obtain ⟨r, hperm, hsorted, heq⟩ := h
  rw [← passes_take, heq, passes_take]
  exact Cache.passes_iff hK ((getElem?_map_eq_kthKey hperm hsorted K).trans hd)

/-- With fewer than K candidates no ranking passes. -/
theorem Ranks.not_passes (h : Ranks cands K report) (hshort : cands.length < K) :
    ¬ c.Passes cfg query K report := by
  obtain ⟨r, hperm, _, heq⟩ := h
  rw [← passes_take, heq, passes_take]
  exact not_passes_of_short (by rwa [hperm.length_eq])

/-- A ranking passes if the dead candidates are all farther than the K-th. -/
theorem Ranks.passes_of_far {d : ℚ} (h : Ranks cands K report) (hK : 1 ≤ K)
    (hd : kthKey Prod.snd cands K = some d) (hadmits : c.Admits cfg query K d)
    (hfar : ∀ td ∈ cands, c.dead td = true → d < td.2) : c.Passes cfg query K report := by
  refine (h.passes_iff hK hd).mpr ⟨hadmits, ?_⟩
  obtain ⟨r, hperm, hsorted, heq⟩ := h
  rw [heq]
  exact clean_of_far hsorted ((getElem?_map_eq_kthKey hperm hsorted K).trans hd)
    fun td htd => hfar td (hperm.mem_iff.mp htd)

/-- What a ranking that passes says about the candidates. -/
theorem Ranks.wanted {d : ℚ} (h : Ranks cands K report) (hK : 1 ≤ K)
    (hd : kthKey Prod.snd cands K = some d) (hpass : c.Passes cfg query K report) :
    (∀ td ∈ cands, c.dead td = true → d ≤ td.2) ∧
      K ≤ cands.countP fun td => !c.dead td && decide (td.2 ≤ d) := by
  have hclean := ((h.passes_iff hK hd).mp hpass).2
  obtain ⟨r, hperm, hsorted, heq⟩ := h
  rw [heq] at hclean
  obtain ⟨hfar, hcount⟩ :=
    wanted_of_clean hsorted ((getElem?_map_eq_kthKey hperm hsorted K).trans hd) hK hclean
  exact ⟨fun td htd => hfar td (hperm.mem_iff.mpr htd), hperm.countP_eq _ ▸ hcount⟩

/-- With at most K candidates all rankings pass or fail together. -/
theorem Ranks.passes_congr {other : Report} (h : Ranks cands K report) (h' : Ranks cands K other)
    (hK : 1 ≤ K) (hlen : cands.length ≤ K) :
    c.Passes cfg query K report ↔ c.Passes cfg query K other := by
  cases hd : kthKey Prod.snd cands K with
  | none =>
    have hshort := (kthKey_eq_none_iff hK).mp hd
    exact iff_of_false (h.not_passes hshort) (h'.not_passes hshort)
  | some d =>
    rw [h.passes_iff hK hd, h'.passes_iff hK hd]
    obtain ⟨r, hperm, _, heq⟩ := h
    obtain ⟨r', hperm', _, heq'⟩ := h'
    rw [heq, heq', List.take_of_length_le (by rwa [hperm.length_eq]),
      List.take_of_length_le (by rwa [hperm'.length_eq])]
    simp only [(hperm.trans hperm'.symm).mem_iff]

/-! ## What the shards and their merge report -/

/-- The searched shards have the results of the occupied ones. -/
def Covers (cfg : CacheConfig V) (c : Cache V) (query : V) (K : Nat)
    (searched : List (Nat × Report)) : Prop :=
  ∀ td, (∃ ir ∈ searched, td ∈ ir.2) ↔
    ∃ i ∈ c.occupiedShards cfg, td ∈ c.shardReport cfg query K 0 i

theorem shardReport_length_le (i : Nat) : (c.shardReport cfg query K 0 i).length ≤ K := by
  unfold shardReport
  cases c.memoryIndices[i]? with
  | none => exact Nat.zero_le K
  | some idx =>
    dsimp only
    rw [SearchWithTags.results_zero]
    exact cfg.search.length_le idx query K

/-- The candidates of a merge are those of the occupied shards. -/
theorem candidates_perm {searched : List (Nat × Report)} (h : Covers cfg c query K searched) :
    ((mergedCandidates searched).map MergedResult.result).Perm (c.candidates cfg query K) := by
  refine (List.perm_ext_iff_of_nodup (nodup_results searched).of_map (List.nodup_dedup _)).mpr
    fun td => ?_
  have hreported : ∀ td, td ∈ c.reported cfg query K ↔ ∃ ir ∈ searched, td ∈ ir.2 :=
    fun td => List.mem_flatMap.trans (h td).symm
  rw [mem_results_iff, List.mem_dedup, List.mem_filter, decide_eq_true_iff, hreported td]
  refine and_congr Iff.rfl ⟨fun hbest td' htd' => ?_, fun hbest ir hir td' htd' => ?_⟩
  · obtain ⟨ir, hir, hmem⟩ := (hreported td').mp htd'
    exact hbest ir hir td' hmem
  · exact hbest td' ((hreported td').mpr ⟨ir, hir, htd'⟩)

/-- The merge ranks the candidates. -/
theorem ranks_merged (s : Sorters) {searched : List (Nat × Report)}
    (h : Covers cfg c query K searched) :
    Ranks (c.candidates cfg query K) K (mergedReport s searched K) := by
  refine ⟨(s.byDistance.run (mergedCandidates searched)).map MergedResult.result,
    ((s.byDistance.perm _).map _).trans (candidates_perm h),
    List.pairwise_map.mpr (s.byDistance.sorted _), ?_⟩
  rw [mergedReport_take_self, mergedReport, mergeAndRerank, List.map_take]

/-- A lone report ranks the candidates, and there are at most K of them. -/
theorem ranks_single {i : Nat} {report : Report} (hreport : SoundReport cfg c query K report)
    (hlen : report.length ≤ K)
    (h : Covers cfg c query K [(i, report)]) :
    Ranks (c.candidates cfg query K) K report ∧ (c.candidates cfg query K).length ≤ K := by
  have hperm : report.Perm (c.candidates cfg query K) :=
    (results_perm_single hreport.nodup).symm.trans (candidates_perm h)
  exact ⟨⟨report, hperm, hreport.sorted, rfl⟩, hperm.length_eq ▸ hlen⟩

/-! ## Ties at the cut -/

/-- `dead`, for a candidate. -/
def deadResult (c : Cache V) (m : MergedResult) : Bool := c.dead m.result

/-- Sorters that put certain candidates first among equal distances. -/
def preferring (first : MergedResult → Bool) : Sorters where
  byDistance := Sorter.tieBreak MergedResult.distance first
  byCount := Sorter.tieBreak Prod.snd fun _ => false

theorem take_mergedReport (first : MergedResult → Bool) (reports : List (Nat × Report)) (K : Nat) :
    (mergedReport (preferring first) reports K).take K =
      (((Sorter.tieBreak MergedResult.distance first).run (mergedCandidates reports)).take K).map
        MergedResult.result := by
  rw [mergedReport_take_self]
  rfl

theorem kthKey_mergedCandidates {searched : List (Nat × Report)}
    (h : Covers cfg c query K searched) :
    kthKey MergedResult.distance (mergedCandidates searched) K =
      kthKey Prod.snd (c.candidates cfg query K) K := by
  refine kthKey_congr ?_ K
  have hmap := (candidates_perm h).map Prod.snd
  rwa [List.map_map] at hmap

/-- Dead candidates within the K-th distance make the merge miss if ties are
    broken for them. -/
theorem not_passes_preferring_dead {searched : List (Nat × Report)}
    (h : Covers cfg c query K searched)
    (hK : 1 ≤ K) {d : ℚ} (hd : kthKey Prod.snd (c.candidates cfg query K) K = some d)
    {td : Tag × ℚ} (htd : td ∈ c.candidates cfg query K) (hdead : c.dead td = true)
    (hle : td.2 ≤ d) :
    ¬ c.Passes cfg query K (mergedReport (preferring c.deadResult) searched K) := by
  obtain ⟨m, hm, rfl⟩ := List.mem_map.mp ((candidates_perm h).mem_iff.mpr htd)
  have hbad : c.deadResult m = true := hdead
  obtain ⟨z, hz, hzbad⟩ := Sorter.tieBreak_unclean hK ((kthKey_mergedCandidates h).trans hd) hm
    hbad hle
  intro hpass
  have hclean := ((ranks_merged _ h).passes_iff hK hd).mp hpass
  have hlive := hclean.2 z.result (take_mergedReport _ searched K ▸ List.mem_map_of_mem hz)
  exact Bool.noConfusion (hzbad.symm.trans hlive)

/-- If the merge misses with ties broken for the live candidates, it misses
    anyway. -/
theorem missesAnyway_of_preferring_live {searched : List (Nat × Report)}
    (h : Covers cfg c query K searched)
    (hK : 1 ≤ K) {d : ℚ} (hd : kthKey Prod.snd (c.candidates cfg query K) K = some d)
    (hadmits : c.Admits cfg query K d)
    (hmiss : ¬ c.Passes cfg query K
      (mergedReport (preferring fun m => !c.deadResult m) searched K)) :
    c.MissesAnyway cfg query K d := by
  by_contra hopen
  rw [MissesAnyway, not_or, not_lt] at hopen
  obtain ⟨hbelow, hcount⟩ := hopen
  have hperm := candidates_perm h
  have hfar : ∀ m ∈ mergedCandidates searched, c.deadResult m = true → d ≤ m.distance := by
    intro m hm hbad
    by_contra hlt
    exact hbelow ⟨m.result, hperm.mem_iff.mp (List.mem_map_of_mem hm), hbad, not_le.mp hlt⟩
  have hwanted : K ≤ (mergedCandidates searched).countP
      fun m => !c.deadResult m && decide (m.distance ≤ d) := by
    rwa [← hperm.countP_eq, List.countP_map] at hcount
  have hclean := Sorter.tieBreak_clean ((kthKey_mergedCandidates h).trans hd) hfar hwanted
  refine hmiss (((ranks_merged _ h).passes_iff hK hd).mpr ⟨hadmits, fun td htd => ?_⟩)
  rw [take_mergedReport] at htd
  obtain ⟨m, hm, rfl⟩ := List.mem_map.mp htd
  exact hclean m hm

/-- A shard that passes alone makes the threshold admit the K-th distance. -/
theorem admits_of_shard {searched : List (Nat × Report)} (h : Covers cfg c query K searched)
    {i : Nat} (hi : i ∈ c.occupiedShards cfg)
    (hpass : c.Passes cfg query K (c.shardReport cfg query K 0 i)) :
    ∃ d, kthKey Prod.snd (c.candidates cfg query K) K = some d ∧ c.Admits cfg query K d := by
  set report := c.shardReport cfg query K 0 i with hreport
  have hK : 1 ≤ K := Nat.one_le_iff_ne_zero.mpr hpass.2.2.1
  have hsound : SoundReport cfg c query K report := soundReport_shard 0 i
  have hlen : report.length = K := le_antisymm (shardReport_length_le i) hpass.1.1
  obtain ⟨d, hd⟩ : ∃ d, (report.map Prod.snd)[K - 1]? = some d :=
    ⟨_, List.getElem?_eq_getElem (by rw [List.length_map]; omega)⟩
  obtain ⟨⟨hnum, hlearned, hle⟩, _⟩ := (passes_iff hK hd).mp hpass
  -- each of the K results has a candidate with its tag within `d`
  have hcount : K ≤ (c.candidates cfg query K).countP fun td => decide (td.2 ≤ d) := by
    have hwithin : ∀ td ∈ report, (∃ ir ∈ searched, td ∈ ir.2) ∧ td.2 ≤ d := fun td htd =>
      ⟨(h td).mpr ⟨i, hi, htd⟩, key_le_of_mem_take hsound.sorted hd
        (by rwa [List.take_of_length_le (le_of_eq hlen)])⟩
    have hmerged := length_le_countP hwithin hsound.nodup
    rw [hlen] at hmerged
    rw [← (candidates_perm h).countP_eq, List.countP_map]
    exact hmerged
  cases hkey : kthKey Prod.snd (c.candidates cfg query K) K with
  | none =>
    have hshort := (kthKey_eq_none_iff hK).mp hkey
    have hmost := (c.candidates cfg query K).countP_le_length (p := fun td => decide (td.2 ≤ d))
    omega
  | some y =>
    have hsort := List.perm_insertionSort (fun a b : Tag × ℚ => a.2 ≤ b.2)
      (c.candidates cfg query K)
    have hpair := List.pairwise_insertionSort (fun a b : Tag × ℚ => a.2 ≤ b.2)
      (c.candidates cfg query K)
    have hyd : y ≤ d := kth_le_of_countP hpair
      ((getElem?_map_eq_kthKey hsort hpair K).trans hkey) hK (by rwa [hsort.countP_eq])
    exact ⟨y, rfl, hnum, hlearned, Double.le_trans (Double.fin_le_fin.mpr hyd) hle⟩

/-! ## The outcome of trying reports -/

theorem firstHit_eq_none_iff {attempts : List Attempt} :
    (firstHit cfg query K c attempts).2 = none ↔
      ∀ a ∈ attempts, ¬ c.Passes cfg query K a.report := by
  rw [firstHit_snd, Option.map_eq_none_iff, List.find?_eq_none]
  simp only [decide_eq_true_eq]

theorem exists_of_firstHit {attempts : List Attempt} {hit : Report}
    (h : (firstHit cfg query K c attempts).2 = some hit) :
    ∃ a ∈ attempts, c.Passes cfg query K a.report ∧ hit = a.report.take K := by
  rw [firstHit_snd, Option.map_eq_some_iff] at h
  obtain ⟨a, ha, rfl⟩ := h
  exact ⟨a, List.mem_of_find?_eq_some ha, by simpa using List.find?_some ha, rfl⟩

/-- The first report is tried first. -/
theorem firstHit_head {a : Attempt} {rest : List Attempt} (h : c.Passes cfg query K a.report) :
    (firstHit cfg query K c (a :: rest)).2 = some (a.report.take K) := by
  rw [firstHit_snd, List.find?_cons_of_pos (by simpa using h)]
  rfl

/-! ## The parallel strategy -/

theorem fullestPosition_lt {occupied : List Nat} (h : occupied ≠ []) :
    c.fullestPosition occupied < occupied.length := by
  -- the loop ends with its start value or with one of the positions
  have hmem : ∀ (positions : List Nat) (start : Nat),
      positions.foldl (fun fullest i =>
        if c.activeVectors (occupied.getD fullest 0) < c.activeVectors (occupied.getD i 0) then i
        else fullest) start ∈ start :: positions := by
    intro positions
    induction positions with
    | nil => exact fun start => List.mem_singleton_self start
    | cons i rest ih =>
      intro start
      rw [List.foldl_cons]
      split_ifs
      · exact List.mem_cons_of_mem start (ih i)
      · rcases List.mem_cons.mp (ih start) with heq | hrest
        · rw [heq]
          exact List.mem_cons_self
        · exact List.mem_cons_of_mem start (List.mem_cons_of_mem i hrest)
  rcases List.mem_cons.mp (hmem (List.range occupied.length) 0) with hzero | hrange
  · rw [fullestPosition, hzero]
    exact List.length_pos_iff.mpr h
  · exact List.mem_range.mp hrange

/-- Swapping the fullest shard to the front only rearranges the jobs. -/
theorem searchJobs_perm (c : Cache V) (occupied : List Nat) :
    (c.searchJobs occupied).Perm occupied := by
  by_cases h : occupied = []
  · subst h
    exact List.Perm.refl []
  · unfold searchJobs
    dsimp only
    split_ifs
    · have hlt := fullestPosition_lt (c := c) h
      have hpos := List.length_pos_iff.mpr h
      rw [List.getD_eq_getElem?_getD, List.getD_eq_getElem?_getD, List.getElem?_eq_getElem hlt,
        List.getElem?_eq_getElem hpos]
      exact List.set_set_perm hpos hlt
    · exact List.Perm.refl _

theorem covers_parallel :
    Covers cfg c query K
      (c.parallelSearched cfg query K (c.searchJobs (c.occupiedShards cfg))) := by
  intro td
  have hjobs : ∀ i, i ∈ c.searchJobs (c.occupiedShards cfg) ↔ i ∈ c.occupiedShards cfg :=
    fun i => (searchJobs_perm c _).mem_iff
  constructor
  · rintro ⟨ir, hir, htd⟩
    obtain ⟨i, _, rfl⟩ := List.mem_map.mp (List.mem_of_mem_filter hir)
    dsimp only at htd
    split_ifs at htd with hjob
    · exact ⟨i, (hjobs i).mp hjob, htd⟩
    · cases htd
  · rintro ⟨i, hi, htd⟩
    have hreport : (if i ∈ c.searchJobs (c.occupiedShards cfg)
        then c.shardReport cfg query K 0 i else []) = c.shardReport cfg query K 0 i :=
      if_pos ((hjobs i).mpr hi)
    refine ⟨(i, c.shardReport cfg query K 0 i), List.mem_filter.mpr ⟨?_, ?_⟩, htd⟩
    · exact List.mem_map.mpr ⟨i, List.mem_of_mem_filter hi, by rw [hreport]⟩
    · simpa using List.ne_nil_of_mem htd

/-- Every report the parallel strategy tries ranks the candidates, and all of
    them pass or fail with the merged one. -/
theorem ranks_parallel (s : Sorters) (hK : 1 ≤ K) :
    ∀ a ∈ c.parallelAttempts cfg s query K (c.searchJobs (c.occupiedShards cfg)),
      Ranks (c.candidates cfg query K) K a.report ∧
      (c.Passes cfg query K a.report ↔ c.Passes cfg query K
        (mergedReport s (c.parallelSearched cfg query K (c.searchJobs (c.occupiedShards cfg))) K)) := by
  have hcovers : Covers cfg c query K _ := covers_parallel
  have hmerged := ranks_merged s hcovers
  intro a ha
  rcases List.mem_append.mp ha with ha | ha
  · unfold singleAttempt at ha
    split_ifs at ha with hone
    · -- the only shard with results reports all candidates
      obtain ⟨⟨i, report⟩, hir⟩ := List.length_eq_one_iff.mp hone
      have hmem : (i, report) ∈ c.parallelSearched cfg query K
          (c.searchJobs (c.occupiedShards cfg)) := hir ▸ List.mem_singleton_self _
      rw [hir] at ha hcovers hmerged ⊢
      obtain rfl := List.mem_singleton.mp ha
      obtain ⟨j, _, heq⟩ := List.mem_map.mp (List.mem_of_mem_filter hmem)
      obtain ⟨rfl, hreport⟩ := Prod.mk.inj heq
      have hsound : SoundReport cfg c query K report ∧ report.length ≤ K := by
        rw [← hreport]
        split_ifs
        · exact ⟨soundReport_shard 0 j, shardReport_length_le j⟩
        · exact ⟨⟨List.nodup_nil, List.Pairwise.nil, by simp⟩, Nat.zero_le K⟩
      obtain ⟨hranks, hlen⟩ := ranks_single hsound.1 hsound.2 hcovers
      exact ⟨hranks, hranks.passes_congr hmerged hK hlen⟩
    · cases ha
  · rw [List.mem_singleton.mp ha]
    exact ⟨hmerged, Iff.rfl⟩

/-! ## The sequential strategy -/

theorem covers_sequential (h : Shaped cfg c) :
    Covers cfg c query K (c.sequentialSearched cfg query K) := by
  intro td
  have hshards : ∀ i, i ∈ c.lruCache.getAllTags.filter (fun i => decide (0 < c.activeVectors i)) ↔
      i ∈ c.occupiedShards cfg :=
    fun i => (h.lru.filter _).mem_iff
  constructor
  · rintro ⟨ir, hir, htd⟩
    obtain ⟨i, hi, rfl⟩ := List.mem_map.mp hir
    exact ⟨i, (hshards i).mp hi, htd⟩
  · rintro ⟨i, hi, htd⟩
    exact ⟨_, List.mem_map.mpr ⟨i, (hshards i).mpr hi, rfl⟩, htd⟩

theorem length_sequentialSearched (h : Shaped cfg c) :
    (c.sequentialSearched cfg query K).length = (c.occupiedShards cfg).length := by
  rw [sequentialSearched, List.length_map]
  exact (h.lru.filter _).length_eq

/-- Several occupied shards leave no fast path. -/
theorem sequentialAttempts_many (h : Shaped cfg c) (hmany : (c.occupiedShards cfg).length ≠ 1)
    (s : Sorters) :
    c.sequentialAttempts cfg s query K =
      mergedAttempt s (c.sequentialSearched cfg query K) K ::
        (c.sequentialSearched cfg query K).map shardAttempt := by
  have hnone : singleAttempt (c.sequentialSearched cfg query K) = [] := by
    rw [singleAttempt, if_neg (by rwa [length_sequentialSearched h])]
  rw [sequentialAttempts, hnone]
  rfl

/-- The sequential strategy misses if and only if the merge and every shard miss. -/
theorem sequential_eq_none_iff (h : Shaped cfg c) (hmany : (c.occupiedShards cfg).length ≠ 1)
    (s : Sorters) :
    (c.searchSequential cfg s query K).2 = none ↔
      ¬ c.Passes cfg query K (mergedReport s (c.sequentialSearched cfg query K) K) ∧
      ∀ i ∈ c.occupiedShards cfg, ¬ c.Passes cfg query K (c.shardReport cfg query K 0 i) := by
  rw [searchSequential, firstHit_eq_none_iff, sequentialAttempts_many h hmany, List.forall_mem_cons]
  refine and_congr Iff.rfl ?_
  simp only [sequentialSearched, List.map_map, List.forall_mem_map]
  have hshards : ∀ i, i ∈ c.lruCache.getAllTags.filter (fun i => decide (0 < c.activeVectors i)) ↔
      i ∈ c.occupiedShards cfg :=
    fun i => (h.lru.filter _).mem_iff
  exact forall_congr' fun i => imp_congr (hshards i) Iff.rfl

/-! ## One occupied shard -/

theorem shardReport_eq_take (resSize i : Nat) :
    c.shardReport cfg query K resSize i =
      (c.shardReport cfg query K 0 i).take (if resSize = 0 then K else resSize) := by
  unfold shardReport
  cases c.memoryIndices[i]? with
  | none => exact List.take_nil.symm
  | some idx =>
    dsimp only
    rw [SearchWithTags.results_zero]
    rfl

/-- A lone shard is reported in full unless `res` is too short for a hit. -/
theorem shardReport_cases (cfg : CacheConfig V) (c : Cache V) (query : V) (K resSize i : Nat) :
    (resSize = 0 ∨ K ≤ resSize) ∧
        c.shardReport cfg query K resSize i = c.shardReport cfg query K 0 i ∨
      ¬ (resSize = 0 ∨ K ≤ resSize) ∧
        ¬ c.Passes cfg query K (c.shardReport cfg query K resSize i) := by
  rw [shardReport_eq_take]
  by_cases hroom : resSize = 0 ∨ K ≤ resSize
  · refine Or.inl ⟨hroom, List.take_of_length_le ((shardReport_length_le i).trans ?_)⟩
    split_ifs <;> omega
  · refine Or.inr ⟨hroom, not_passes_of_short ?_⟩
    rw [not_or] at hroom
    rw [if_neg hroom.1, List.length_take]
    omega

/-- With one occupied shard the sequential strategy tests its report. -/
theorem sequential_single (h : Shaped cfg c) {i : Nat} (hone : c.occupiedShards cfg = [i])
    (hK : 1 ≤ K) (s : Sorters) :
    (c.searchSequential cfg s query K).2 =
      if c.Passes cfg query K (c.shardReport cfg query K 0 i) then
        some ((c.shardReport cfg query K 0 i).take K)
      else none := by
  have hsearched : c.sequentialSearched cfg query K = [(i, c.shardReport cfg query K 0 i)] := by
    have hperm : (c.lruCache.getAllTags.filter fun i => decide (0 < c.activeVectors i)).Perm [i] :=
      hone ▸ h.lru.filter _
    rw [sequentialSearched, List.perm_singleton.mp hperm]
    rfl
  have hcovers : Covers cfg c query K (c.sequentialSearched cfg query K) := covers_sequential h
  have hmerged := ranks_merged s hcovers
  rw [hsearched] at hcovers hmerged
  obtain ⟨hranks, hlen⟩ := ranks_single (soundReport_shard 0 i) (shardReport_length_le i) hcovers
  have hsame : c.Passes cfg query K _ ↔ c.Passes cfg query K _ :=
    hranks.passes_congr hmerged hK hlen
  have hattempts : c.sequentialAttempts cfg s query K =
      [shardAttempt (i, c.shardReport cfg query K 0 i),
        mergedAttempt s [(i, c.shardReport cfg query K 0 i)] K,
        shardAttempt (i, c.shardReport cfg query K 0 i)] := by
    rw [sequentialAttempts, hsearched]
    rfl
  rw [searchSequential, hattempts]
  split_ifs with hpass
  · exact firstHit_head hpass
  · rw [firstHit_eq_none_iff]
    simp only [List.forall_mem_cons]
    exact ⟨hpass, fun hmerge => hpass (hsame.mpr hmerge), hpass, by simp⟩

/-- With one occupied shard the parallel strategy tests what `res` has room for. -/
theorem parallel_single {i : Nat} (hone : c.occupiedShards cfg = [i]) (s : Sorters)
    (resSize : Nat) :
    (c.parallelSearchMemoryIndices cfg s query K resSize).2 =
      (firstHit cfg query K c [shardAttempt (i, c.shardReport cfg query K resSize i)]).2 := by
  have hjobs : c.searchJobs (c.occupiedShards cfg) = [i] :=
    List.perm_singleton.mp (hone ▸ searchJobs_perm c (c.occupiedShards cfg))
  have hactive : 0 < c.activeVectors i := by
    have hmem : i ∈ c.occupiedShards cfg := hone ▸ List.mem_singleton_self i
    exact of_decide_eq_true (List.mem_filter.mp hmem).2
  unfold parallelSearchMemoryIndices
  rw [hjobs]
  dsimp only
  rw [searchSingleIndex, if_pos hactive]

theorem agree_single (h : Shaped cfg c) {i : Nat} (hone : c.occupiedShards cfg = [i])
    (hK : 1 ≤ K) (resSize : Nat) (sp ss : Sorters) :
    SameOutcome (c.parallelSearchMemoryIndices cfg sp query K resSize).2
        (c.searchSequential cfg ss query K).2 ↔
      resSize = 0 ∨ K ≤ resSize ∨ ¬ c.Passes cfg query K (c.shardReport cfg query K 0 i) := by
  rw [parallel_single hone, sequential_single h hone hK, ← or_assoc]
  rcases shardReport_cases cfg c query K resSize i with ⟨hroom, heq⟩ | ⟨hroom, hmiss⟩
  · rw [heq]
    refine iff_of_true ?_ (Or.inl hroom)
    split_ifs with hpass
    · rw [firstHit_head hpass]
      exact .hit ⟨rfl, fun _ _ => Iff.rfl⟩
    · rw [firstHit_eq_none_iff.mpr (by simpa [shardAttempt] using hpass)]
      exact .miss
  · rw [firstHit_eq_none_iff.mpr (by simpa [shardAttempt] using hmiss), or_iff_right hroom]
    split_ifs with hpass
    · exact iff_of_false (fun hsame => by cases hsame) (not_not.mpr hpass)
    · exact iff_of_true .miss hpass

/-! ## Several occupied shards -/

theorem parallel_many (hmany : 2 ≤ (c.occupiedShards cfg).length) (s : Sorters) (resSize : Nat) :
    (c.parallelSearchMemoryIndices cfg s query K resSize).2 =
      (firstHit cfg query K c
        (c.parallelAttempts cfg s query K (c.searchJobs (c.occupiedShards cfg)))).2 := by
  have hlen := (searchJobs_perm c (c.occupiedShards cfg)).length_eq
  unfold parallelSearchMemoryIndices
  dsimp only
  split
  · next hjobs =>
    rw [hjobs] at hlen
    rw [← hlen] at hmany
    simp at hmany
  · next hjobs =>
    rw [hjobs] at hlen
    rw [← hlen] at hmany
    simp at hmany
  · rfl

/-- With several occupied shards the parallel strategy misses if and only if the
    merge does. -/
theorem parallel_eq_none_iff (hmany : 2 ≤ (c.occupiedShards cfg).length) (hK : 1 ≤ K)
    (s : Sorters) (resSize : Nat) :
    (c.parallelSearchMemoryIndices cfg s query K resSize).2 = none ↔
      ¬ c.Passes cfg query K (mergedReport s
        (c.parallelSearched cfg query K (c.searchJobs (c.occupiedShards cfg))) K) := by
  rw [parallel_many hmany, firstHit_eq_none_iff]
  constructor
  · intro hnone
    exact hnone (mergedAttempt s _ K) (List.mem_append_right _ (List.mem_singleton_self _))
  · intro hmiss a ha hpass
    exact hmiss ((ranks_parallel s hK a ha).2.mp hpass)

/-- Where every dead candidate is beyond the K-th distance, both hit. -/
theorem agree_of_far (h : Shaped cfg c) (hmany : 2 ≤ (c.occupiedShards cfg).length) (hK : 1 ≤ K)
    {d : ℚ} (hd : kthKey Prod.snd (c.candidates cfg query K) K = some d)
    (hadmits : c.Admits cfg query K d)
    (hfar : ∀ td ∈ c.candidates cfg query K, c.dead td = true → d < td.2) (resSize : Nat)
    (sp ss : Sorters) :
    SameOutcome (c.parallelSearchMemoryIndices cfg sp query K resSize).2
      (c.searchSequential cfg ss query K).2 := by
  have hseq : Ranks (c.candidates cfg query K) K _ := ranks_merged ss (covers_sequential h)
  have hseqhit : (c.searchSequential cfg ss query K).2 =
      some ((mergedReport ss (c.sequentialSearched cfg query K) K).take K) := by
    rw [searchSequential, sequentialAttempts_many h (by omega)]
    exact firstHit_head (hseq.passes_of_far hK hd hadmits hfar)
  have hpar : Ranks (c.candidates cfg query K) K _ := ranks_merged sp covers_parallel
  have hparhit : (c.parallelSearchMemoryIndices cfg sp query K resSize).2 ≠ none := fun hnone =>
    (parallel_eq_none_iff hmany hK sp resSize).mp hnone (hpar.passes_of_far hK hd hadmits hfar)
  obtain ⟨hit, hhit⟩ := Option.ne_none_iff_exists'.mp hparhit
  rw [parallel_many hmany] at hhit
  obtain ⟨a, ha, _, rfl⟩ := exists_of_firstHit hhit
  rw [parallel_many hmany, hhit, hseqhit]
  exact .hit ((ranks_parallel sp hK a ha).1.sameUpToTies hseq)

/-- Where no ranking passes and no shard does, both miss. -/
theorem agree_of_miss (h : Shaped cfg c) (hmany : 2 ≤ (c.occupiedShards cfg).length) (hK : 1 ≤ K)
    (hrankings : ∀ report, Ranks (c.candidates cfg query K) K report →
      ¬ c.Passes cfg query K report)
    (hshards : ∀ i ∈ c.occupiedShards cfg, ¬ c.Passes cfg query K (c.shardReport cfg query K 0 i))
    (resSize : Nat) (sp ss : Sorters) :
    SameOutcome (c.parallelSearchMemoryIndices cfg sp query K resSize).2
      (c.searchSequential cfg ss query K).2 := by
  rw [(parallel_eq_none_iff hmany hK sp resSize).mpr
      (hrankings _ (ranks_merged sp covers_parallel)),
    (sequential_eq_none_iff h (by omega) ss).mpr
      ⟨hrankings _ (ranks_merged ss (covers_sequential h)), hshards⟩]
  exact .miss

theorem agree_many (h : Shaped cfg c) (hmany : 2 ≤ (c.occupiedShards cfg).length) (hK : 1 ≤ K)
    (resSize : Nat) :
    (∀ sp ss, SameOutcome (c.parallelSearchMemoryIndices cfg sp query K resSize).2
        (c.searchSequential cfg ss query K).2) ↔
      ∀ d ∈ kthKey Prod.snd (c.candidates cfg query K) K, c.Admits cfg query K d →
        (∀ td ∈ c.candidates cfg query K, c.dead td = true → d < td.2) ∨
        (c.MissesAnyway cfg query K d ∧
          ∀ i ∈ c.occupiedShards cfg, ¬ c.Passes cfg query K (c.shardReport cfg query K 0 i)) := by
  constructor
  · intro hsame d hd hadmits
    rw [or_iff_not_imp_left]
    intro hnear
    push Not at hnear
    obtain ⟨td, htd, hdead, hle⟩ := hnear
    -- some parallel search misses, so every sequential one does
    have hmiss := not_passes_preferring_dead covers_parallel hK hd htd hdead hle
    have hnone := (parallel_eq_none_iff hmany hK _ resSize).mpr hmiss
    have hseq : ∀ ss, (c.searchSequential cfg ss query K).2 = none := by
      intro ss
      have houtcome := hsame (preferring c.deadResult) ss
      rw [hnone] at houtcome
      generalize (c.searchSequential cfg ss query K).2 = outcome at houtcome ⊢
      cases houtcome
      rfl
    exact ⟨missesAnyway_of_preferring_live (covers_sequential h) hK hd hadmits
        ((sequential_eq_none_iff h (by omega) _).mp (hseq _)).1,
      ((sequential_eq_none_iff h (by omega) (preferring c.deadResult)).mp (hseq _)).2⟩
  · intro hcond sp ss
    cases hd : kthKey Prod.snd (c.candidates cfg query K) K with
    | none =>
      refine agree_of_miss h hmany hK
        (fun report hranks => hranks.not_passes ((kthKey_eq_none_iff hK).mp hd))
        (fun i hi hpass => ?_) resSize sp ss
      obtain ⟨d, hd', _⟩ := admits_of_shard covers_parallel hi hpass
      rw [hd] at hd'
      cases hd'
    | some d =>
      by_cases hadmits : c.Admits cfg query K d
      · rcases hcond d hd hadmits with hfar | ⟨hmisses, hshards⟩
        · exact agree_of_far h hmany hK hd hadmits hfar resSize sp ss
        · refine agree_of_miss h hmany hK (fun report hranks hpass => ?_) hshards resSize sp ss
          obtain ⟨hbeyond, hcount⟩ := hranks.wanted hK hd hpass
          rcases hmisses with ⟨td, htd, hdead, hlt⟩ | hfew
          · exact absurd (hbeyond td htd hdead) (not_le.mpr hlt)
          · omega
      · refine agree_of_miss h hmany hK
          (fun report hranks hpass => hadmits ((hranks.passes_iff hK hd).mp hpass).1)
          (fun i hi hpass => ?_) resSize sp ss
        obtain ⟨d', hd', hadmits'⟩ := admits_of_shard covers_parallel hi hpass
        rw [hd] at hd'
        obtain rfl := Option.some.inj hd'
        exact hadmits hadmits'

/-! ## The lookups -/

theorem lookup_parallel (hpool : cfg.searchPool = true) (s : Sorters) (resSize : Nat) :
    (({ c with searchStrategy := .parallel } : Cache V).lookup cfg s query K resSize).2 =
      (c.parallelSearchMemoryIndices cfg s query K resSize).2 := by
  have hjobs : ({ c with searchStrategy := .parallel } : Cache V).searchJobs
      (({ c with searchStrategy := .parallel } : Cache V).occupiedShards cfg) =
      c.searchJobs (c.occupiedShards cfg) := rfl
  rw [lookup, if_pos ⟨rfl, hpool⟩]
  unfold parallelSearchMemoryIndices
  rw [hjobs]
  rcases c.searchJobs (c.occupiedShards cfg) with _ | ⟨only, _ | ⟨job, rest⟩⟩
  · rfl
  · unfold searchSingleIndex
    change (if 0 < c.activeVectors only then _ else _ : Cache V × Option Report).2 =
      (if 0 < c.activeVectors only then _ else _ : Cache V × Option Report).2
    split_ifs
    · rw [firstHit_snd, firstHit_snd]
      rfl
    · rfl
  · dsimp only
    rw [firstHit_snd, firstHit_snd]
    rfl

theorem lookup_sequential (s : Sorters) (resSize : Nat) :
    (({ c with searchStrategy := .sequential } : Cache V).lookup cfg s query K resSize).2 =
      (c.searchSequential cfg s query K).2 := by
  rw [lookup, if_neg (by simp), searchSequential, searchSequential, firstHit_snd, firstHit_snd]
  rfl

/-- On a shaped cache the two strategies agree, for every `res` and however
    either breaks ties, exactly under `Agreeing`. -/
theorem sameOutcome_iff (h : Shaped cfg c) (hpool : cfg.searchPool = true) (hK : 1 ≤ K)
    (resSize : Nat) :
    (∀ sp ss, SameOutcome
        (({ c with searchStrategy := .parallel } : Cache V).lookup cfg sp query K resSize).2
        (({ c with searchStrategy := .sequential } : Cache V).lookup cfg ss query K resSize).2) ↔
      c.Agreeing cfg query K resSize := by
  simp only [lookup_parallel hpool, lookup_sequential]
  unfold Agreeing
  split
  · next hnone =>
    -- both miss on an empty cache
    refine iff_of_true (fun sp ss => ?_) trivial
    have hparallel : (c.parallelSearchMemoryIndices cfg sp query K resSize).2 = none := by
      unfold parallelSearchMemoryIndices
      rw [hnone]
      rfl
    have hshort : (c.candidates cfg query K).length < K := by
      rw [candidates, reported, hnone]
      exact hK
    rw [hparallel, (sequential_eq_none_iff h (by rw [hnone]; decide) ss).mpr
      ⟨(ranks_merged ss (covers_sequential h)).not_passes hshort, by rw [hnone]; simp⟩]
    exact .miss
  · next i hone =>
    constructor
    · intro hsame
      exact (agree_single h hone hK resSize _ _).mp
        (hsame (preferring fun _ => false) (preferring fun _ => false))
    · exact fun hcond sp ss => (agree_single h hone hK resSize sp ss).mpr hcond
  · next occupied hnone hsingle =>
    refine agree_many h ?_ hK resSize
    rcases hshards : c.occupiedShards cfg with _ | ⟨i, _ | ⟨j, rest⟩⟩
    · exact absurd hshards hnone
    · exact absurd hshards (hsingle i)
    · simp

end Cache

end QvCache
