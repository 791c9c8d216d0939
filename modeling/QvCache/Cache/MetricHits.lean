/-
  QvCache.Cache.MetricHits

  What `search` returns under each metric while two or more shards hold vectors.
  What the shards find is given here (`lookupOn`): under INNER_PRODUCT a shard
  writes its largest product first, which no `SearchWithTags` does.  Under L2 and
  COSINE the searches of the cache are such shards (`reportFrom_shardsFind`), so the
  results hold of `lookup` itself (`lookup_bestFirst`).

  PARALLEL returns the merge or nothing.  SEQUENTIAL falls back on the report of
  a single shard, under every metric.  `hitsBestFirst_iff` says for both on which
  results of the shards every hit has the K best tags, best first.
-/

import QvCache.Cache.Orientation
import QvCache.Cache.Rotation

namespace QvCache

/-! ## The lookup on given reports -/

namespace Cache

variable {V : Type}

/-- `parallel_search_memory_indices` once two or more occupied shards have been
    searched. -/
def mergeSearch (cfg : CacheConfig V) (s : Sorters) (c : Cache V) (query : V) (K : Nat)
    (searched : List (Nat × Report)) : Cache V × Option Report :=
  firstHit cfg query K c (singleAttempt searched ++ [mergedAttempt s searched K])

theorem parallelSearch_eq_mergeSearch (cfg : CacheConfig V) (s : Sorters) (c : Cache V)
    (query : V) (K resSize : Nat) (h : 2 ≤ (c.searchJobs (c.occupiedShards cfg)).length) :
    c.parallelSearchMemoryIndices cfg s query K resSize =
      c.mergeSearch cfg s query K
        (c.parallelSearched cfg query K (c.searchJobs (c.occupiedShards cfg))) := by
  unfold parallelSearchMemoryIndices mergeSearch parallelAttempts
  dsimp only
  split
  · next hnil => simp [hnil] at h
  · next only honly => simp [honly] at h
  · rfl

/-- `lookup` where shard `i` writes `report resSize i` for a result vector with
    `resSize` entries. -/
def lookupOn (cfg : CacheConfig V) (s : Sorters) (c : Cache V) (query : V) (K resSize : Nat)
    (report : Nat → Nat → Report) : Cache V × Option Report :=
  if c.searchStrategy = .parallel ∧ cfg.searchPool = true then
    match c.searchJobs (c.occupiedShards cfg) with
    | [] => (c, none)
    | [only] =>
      if 0 < c.activeVectors only then
        firstHit cfg query K c [shardAttempt (only, report resSize only)]
      else (c, none)
    | jobs =>
      c.mergeSearch cfg s query K (((List.range cfg.numberOfMiniIndexes).map fun i =>
        (i, if i ∈ jobs then report 0 i else [])).filter fun ir => !ir.2.isEmpty)
  else
    let searched := (c.lruCache.getAllTags.filter fun i => decide (0 < c.activeVectors i)).map
      fun i => (i, report 0 i)
    firstHit cfg query K c
      (singleAttempt searched ++ [mergedAttempt s searched K] ++ searched.map shardAttempt)

theorem lookup_eq_lookupOn (cfg : CacheConfig V) (s : Sorters) (c : Cache V) (query : V)
    (K resSize : Nat) :
    c.lookup cfg s query K resSize =
      c.lookupOn cfg s query K resSize (c.shardReport cfg query K) := by
  unfold lookup lookupOn
  split_ifs
  · split
    · next hjobs =>
      unfold parallelSearchMemoryIndices
      rw [hjobs]
    · next only hjobs =>
      unfold parallelSearchMemoryIndices
      rw [hjobs]
      rfl
    · next hnil hone =>
      refine parallelSearch_eq_mergeSearch cfg s c query K resSize ?_
      rcases hjobs : c.searchJobs (c.occupiedShards cfg) with _ | ⟨i, _ | ⟨j, rest⟩⟩
      · exact absurd hjobs hnil
      · exact absurd hjobs (hone i)
      · rw [List.length_cons, List.length_cons]
        omega
  · rfl

end Cache

/-! ## What the shards find -/

/-- What shard `i` finds; `none` for an empty shard. -/
def foundBy (shards : List (Option BestLNodes)) (i : Nat) : Option BestLNodes := shards[i]?.join

/-- What shard `i` writes for a result vector with `resSize` entries. -/
def reportFrom (metric : Metric) (K : Nat) (shards : List (Option BestLNodes)) (resSize i : Nat) :
    Report :=
  match foundBy shards i with
  | none => []
  | some b => searchWithTags metric K resSize 0 b.nodes

/-- The reports of the occupied shards. -/
def occupiedReports (metric : Metric) (K : Nat) (shards : List (Option BestLNodes)) :
    List (Nat × Report) :=
  ((List.range shards.length).filter fun i => (foundBy shards i).isSome).map fun i =>
    (i, reportFrom metric K shards 0 i)

/-- The cache has these shards, they find live points, and `search` takes them by
    this strategy. -/
structure Cache.Searches {V : Type} (cfg : CacheConfig V) (c : Cache V) (strategy : SearchStrategy)
    (metric : Metric) (dead : Finset UInt32) (shards : List (Option BestLNodes)) : Prop where
  shaped : Shaped cfg c
  -- without a pool PARALLEL is SEQUENTIAL
  strategy : c.searchStrategy = .parallel ∧ cfg.searchPool = true ↔ strategy = .parallel
  metric : cfg.theta.pca.metric = metric
  dead : c.deletedIds = dead
  count : shards.length = cfg.numberOfMiniIndexes
  occupied : ∀ i, 0 < c.activeVectors i ↔ (foundBy shards i).isSome
  live : ∀ i b, foundBy shards i = some b → ∀ tag ∈ b.nodes.filterMap Prod.fst,
    ∃ vec, c.HoldsAt i tag vec

/-- Whatever the thresholds, the recency order and the order of equal values, a hit
    while two or more shards hold vectors returns the K best tags of what they find,
    best first. -/
def HitsBestFirst (strategy : SearchStrategy) (metric : Metric) (K : Nat) (dead : Finset UInt32)
    (shards : List (Option BestLNodes)) : Prop :=
  ∀ (V : Type) (cfg : CacheConfig V) (c : Cache V) (s : Sorters) (query : V) (resSize : Nat)
    (out : Report),
    c.Searches cfg strategy metric dead shards → 2 ≤ (occupiedReports metric K shards).length →
    (c.lookupOn cfg s query K resSize (reportFrom metric K shards)).2 = some out →
    BestFirst metric (occupiedReports metric K shards) K out

/-- The order by value is best first for the metric, or no merge is a hit, or the
    smallest products happen to be the best ones. -/
def MergeIsBest (metric : Metric) (dead : Finset UInt32) (reports : List (Nat × Report))
    (K : Nat) : Prop :=
  metric ≠ .innerProduct ∨ ¬ RoomForHit dead reports K ∨ AscendingIsBest dead reports K

/-- Where the merge can miss and a shard's own report hits, no other shard has
    better results. -/
def FallbackIsBest (metric : Metric) (dead : Finset UInt32) (reports : List (Nat × Report))
    (K : Nat) : Prop :=
  ∀ ir ∈ reports, K ≤ ir.2.length → (∀ td ∈ ir.2.take K, Servable dead td.1) →
    MergeCanMiss dead reports K ir.2 → BestAlone metric reports K ir.2

/-! ## The reports that are tried -/

variable {strategy : SearchStrategy} {metric : Metric} {K : Nat} {dead : Finset UInt32}
  {shards : List (Option BestLNodes)} {s : Sorters}

theorem mem_occupiedReports {ir : Nat × Report} :
    ir ∈ occupiedReports metric K shards ↔
      ∃ b, foundBy shards ir.1 = some b ∧ ir.2 = searchWithTags metric K 0 0 b.nodes := by
  unfold occupiedReports
  rw [List.mem_map]
  constructor
  · rintro ⟨i, hi, rfl⟩
    obtain ⟨b, hb⟩ := Option.isSome_iff_exists.mp (List.mem_filter.mp hi).2
    exact ⟨b, hb, by simp only [reportFrom, hb]⟩
  · rintro ⟨b, hb, hreport⟩
    have hlt : ir.1 < shards.length := by
      by_contra hge
      rw [foundBy, List.getElem?_eq_none (Nat.not_lt.mp hge)] at hb
      cases hb
    refine ⟨ir.1, List.mem_filter.mpr ⟨List.mem_range.mpr hlt, by rw [hb]; rfl⟩, ?_⟩
    rw [reportFrom, hb]
    exact Prod.ext rfl hreport.symm

/-- No shard finds a tag twice. -/
theorem nodup_of_mem_occupied {ir : Nat × Report} (h : ir ∈ occupiedReports metric K shards) :
    (ir.2.map Prod.fst).Nodup := by
  obtain ⟨b, _, hreport⟩ := mem_occupiedReports.mp h
  rw [hreport]
  exact (tags_searchWithTags_sublist metric K 0 0 b.nodes).nodup b.nodup

/-- The reports in the order in which the strategy lists them; `order` is the
    recency order. -/
def searchedBy (order : List Nat) (strategy : SearchStrategy) (metric : Metric) (K : Nat)
    (shards : List (Option BestLNodes)) : List (Nat × Report) :=
  match strategy with
  | .parallel => (occupiedReports metric K shards).filter fun ir => !ir.2.isEmpty
  | .sequential =>
    (order.filter fun i => (foundBy shards i).isSome).map fun i =>
      (i, reportFrom metric K shards 0 i)

/-- What is tried after the merge. -/
def fallbacks (strategy : SearchStrategy) (searched : List (Nat × Report)) : List Cache.Attempt :=
  match strategy with
  | .parallel => []
  | .sequential => searched.map Cache.shardAttempt

/-- Entries without a report may be left out before or after the empty ones are. -/
theorem filter_map_report (p : Nat → Bool) (report : Nat → Report) (l : List Nat) :
    ((l.map fun i => (i, if p i = true then report i else [])).filter fun ir => !ir.2.isEmpty) =
      ((l.filter p).map fun i => (i, report i)).filter fun ir => !ir.2.isEmpty := by
  induction l with
  | nil => rfl
  | cons i rest ih =>
    rw [List.map_cons]
    by_cases hi : p i = true
    · rw [List.filter_cons_of_pos hi, List.map_cons, List.filter_cons, List.filter_cons, ih,
        if_pos hi]
    · rw [List.filter_cons_of_neg hi, ← ih, List.filter_cons_of_neg]
      rw [if_neg hi]
      exact Bool.not_eq_true _ ▸ rfl

namespace Cache.Searches

variable {V : Type} {cfg : CacheConfig V} {c : Cache V} {query : V}

theorem activeVectors_pos (h : c.Searches cfg strategy metric dead shards) :
    (fun i => decide (0 < c.activeVectors i)) = fun i => (foundBy shards i).isSome :=
  funext fun i => Bool.eq_iff_iff.mpr (decide_eq_true_iff.trans (h.occupied i))

theorem occupiedShards (h : c.Searches cfg strategy metric dead shards) :
    c.occupiedShards cfg =
      (List.range shards.length).filter fun i => (foundBy shards i).isSome := by
  rw [Cache.occupiedShards, h.activeVectors_pos, h.count]

/-- Both strategies try the only report, the merge, and then what they fall back on. -/
theorem lookupOn_snd (h : c.Searches cfg strategy metric dead shards)
    (htwo : 2 ≤ (occupiedReports metric K shards).length) (s : Sorters) (resSize : Nat) :
    (c.lookupOn cfg s query K resSize (reportFrom metric K shards)).2 =
      (firstHit cfg query K c
        (singleAttempt (searchedBy c.lruCache.getAllTags strategy metric K shards) ++
          [mergedAttempt s (searchedBy c.lruCache.getAllTags strategy metric K shards) K] ++
          fallbacks strategy (searchedBy c.lruCache.getAllTags strategy metric K shards))).2 := by
  unfold lookupOn
  cases strategy with
  | parallel =>
    rw [if_pos (h.strategy.mpr rfl)]
    have hjobs := searchJobs_perm c (c.occupiedShards cfg)
    have hmem : ∀ i, i ∈ List.range cfg.numberOfMiniIndexes →
        (i ∈ c.searchJobs (c.occupiedShards cfg) ↔ (foundBy shards i).isSome) := by
      intro i hi
      rw [hjobs.mem_iff, h.occupiedShards, List.mem_filter, h.count]
      exact and_iff_right hi
    have hlen : 2 ≤ (c.searchJobs (c.occupiedShards cfg)).length := by
      rw [hjobs.length_eq, h.occupiedShards]
      rwa [occupiedReports, List.length_map] at htwo
    have hlist : (((List.range cfg.numberOfMiniIndexes).map fun i =>
        (i, if i ∈ c.searchJobs (c.occupiedShards cfg) then reportFrom metric K shards 0 i
          else [])).filter fun ir => !ir.2.isEmpty) =
        searchedBy c.lruCache.getAllTags .parallel metric K shards := by
      rw [searchedBy, occupiedReports, h.count, ← filter_map_report]
      refine congrArg _ (List.map_congr_left fun i hi => ?_)
      simp only [hmem i hi]
    generalize c.searchJobs (c.occupiedShards cfg) = jobs at hlen hlist ⊢
    match jobs, hlen with
    | job :: job' :: rest, _ =>
      show (c.mergeSearch cfg s query K _).2 = _
      rw [hlist, fallbacks, List.append_nil]
      rfl
  | sequential =>
    rw [if_neg fun hpar => nomatch h.strategy.mp hpar]
    dsimp only
    rw [h.activeVectors_pos]
    rfl

/-- SEQUENTIAL lists all of them, in recency order. -/
theorem searchedBy_perm (h : c.Searches cfg .sequential metric dead shards) :
    (searchedBy c.lruCache.getAllTags .sequential metric K shards).Perm
      (occupiedReports metric K shards) := by
  rw [searchedBy, occupiedReports, h.count]
  exact (h.shaped.lru.filter _).map _

/-- Only empty reports are left out. -/
theorem sameResults (h : c.Searches cfg strategy metric dead shards) :
    SameResults (searchedBy c.lruCache.getAllTags strategy metric K shards)
      (occupiedReports metric K shards) := by
  intro i tag d
  unfold ReportedBy
  refine exists_congr fun r => and_congr_left fun hmem => ?_
  cases strategy with
  | parallel =>
    rw [searchedBy, List.mem_filter]
    exact and_iff_left (by simpa using List.ne_nil_of_mem hmem)
  | sequential => exact h.searchedBy_perm.mem_iff

theorem mem_occupied_of_mem (h : c.Searches cfg strategy metric dead shards) {ir : Nat × Report}
    (hir : ir ∈ searchedBy c.lruCache.getAllTags strategy metric K shards) :
    ir ∈ occupiedReports metric K shards := by
  cases strategy with
  | parallel => exact List.mem_of_mem_filter hir
  | sequential => exact h.searchedBy_perm.mem_iff.mp hir

end Cache.Searches

/-! ## Hits -/

namespace Cache

variable {V : Type} {cfg : CacheConfig V} {c : Cache V} {query : V} {searched : List (Nat × Report)}
  {out : Report}

/-- What a hit returns: the only report there is, or the merged one. -/
theorem mergeSearch_some (h : (c.mergeSearch cfg s query K searched).2 = some out) :
    (∃ ir, searched = [ir] ∧ c.Passes cfg query K ir.2 ∧ out = ir.2.take K) ∨
      c.Passes cfg query K (mergedReport s searched K) ∧ out = mergedReport s searched K ∧
        ∀ ir, searched = [ir] → ¬ c.Passes cfg query K ir.2 := by
  have hcut := mergedReport_take_self s searched K
  rw [mergeSearch, firstHit_snd, Option.map_eq_some_iff] at h
  obtain ⟨a, hfind, rfl⟩ := h
  rw [List.find?_append] at hfind
  unfold singleAttempt at hfind
  split_ifs at hfind with hone
  · obtain ⟨ir, rfl⟩ := List.length_eq_one_iff.mp hone
    by_cases hpass : c.Passes cfg query K ir.2
    · refine Or.inl ⟨ir, rfl, hpass, ?_⟩
      simp only [List.map_cons, List.map_nil, shardAttempt, List.find?_cons, hpass, decide_true,
        Option.some_or, Option.some.injEq] at hfind
      rw [← hfind]
    · simp only [List.map_cons, List.map_nil, shardAttempt, List.find?_cons, hpass, decide_false,
        List.find?_nil, Option.none_or] at hfind
      split at hfind
      · next hmerged =>
        obtain rfl := Option.some.inj hfind
        refine Or.inr ⟨of_decide_eq_true hmerged, hcut, fun ir' hir' => ?_⟩
        rwa [← (List.cons.inj hir').1]
      · cases hfind
  · simp only [List.find?_nil, Option.none_or, List.find?_cons] at hfind
    split at hfind
    · next hmerged =>
      obtain rfl := Option.some.inj hfind
      refine Or.inr ⟨of_decide_eq_true hmerged, hcut, fun ir hir => ?_⟩
      exact absurd (hir ▸ rfl) hone
    · cases hfind

/-- The merged report is returned if it passes and is not that of one shard. -/
theorem mergeSearch_of_passes (hmany : searched.length ≠ 1)
    (hpass : c.Passes cfg query K (mergedReport s searched K)) :
    (c.mergeSearch cfg s query K searched).2 = some (mergedReport s searched K) := by
  rw [mergeSearch, singleAttempt, if_neg hmany, List.nil_append]
  exact (firstHit_head hpass).trans (congrArg some (mergedReport_take_self s searched K))

theorem length_of_passes_merged (hpass : c.Passes cfg query K (mergedReport s searched K)) :
    (mergedReport s searched K).length = K := by
  refine le_antisymm ?_ hpass.1.1
  rw [mergedReport, List.length_map]
  exact List.length_take_le _ _

theorem servable_of_passes {report : Report} (hpass : c.Passes cfg query K report) {td : Tag × ℚ}
    (h : td ∈ report.take K) : Servable c.deletedIds td.1 :=
  hpass.1.2 td h

/-- The merge of one full report passes only if the report itself does. -/
theorem passes_of_passes_merged {i : Nat} {r : Report} (hnodup : (r.map Prod.fst).Nodup)
    (hle : r.length ≤ K) (hpass : c.Passes cfg query K (mergedReport s [(i, r)] K)) :
    c.Passes cfg query K r := by
  have hK : 1 ≤ K := Nat.one_le_iff_ne_zero.mpr hpass.2.2.1
  have hlen := length_of_passes_merged hpass
  have hperm : (mergedReport s [(i, r)] K).Perm r := by
    have hcands : ((s.byDistance.run (mergedCandidates [(i, r)])).map MergedResult.result).Perm r :=
      ((s.byDistance.perm _).map _).trans (results_perm_single hnodup)
    have hall : (s.byDistance.run (mergedCandidates [(i, r)])).length ≤ K := by
      rw [← List.length_map (f := MergedResult.result), hcands.length_eq]
      exact hle
    rwa [mergedReport, mergeAndRerank, List.take_of_length_le hall]
  have hfull : r.length = K := hperm.length_eq ▸ hlen
  have hlt : K - 1 < (mergedReport s [(i, r)] K).length := by omega
  have hlt' : K - 1 < r.length := by omega
  have hd : ((mergedReport s [(i, r)] K).map Prod.snd)[K - 1]? =
      some (mergedReport s [(i, r)] K)[K - 1].2 := by
    rw [List.getElem?_map, List.getElem?_eq_getElem hlt, Option.map_some]
  have hd' : (r.map Prod.snd)[K - 1]? = some r[K - 1].2 := by
    rw [List.getElem?_map, List.getElem?_eq_getElem hlt', Option.map_some]
  obtain ⟨⟨hnum, hlearned, htol⟩, hlive⟩ := (passes_iff hK hd).mp hpass
  rw [List.take_of_length_le hlen.le] at hlive
  -- the last value of the report is one of the merged values, so within the largest
  have hmem : r[K - 1] ∈ (mergedReport s [(i, r)] K).take K := by
    rw [List.take_of_length_le hlen.le]
    exact hperm.mem_iff.mpr (List.getElem_mem hlt')
  have hwithin := key_le_of_mem_take (sorted_mergedReport s [(i, r)] K) hd hmem
  refine (passes_iff hK hd').mpr ⟨⟨hnum, hlearned, ?_⟩, fun td htd => ?_⟩
  · exact Double.le_trans (Double.fin_le_fin.mpr hwithin) htol
  · exact hlive td (hperm.mem_iff.mpr (List.mem_of_mem_take htd))

/-- The merge is best first where its order by value is. -/
theorem bestFirst_of_mergeSearch (h : MergeIsBest metric c.deletedIds searched K)
    (hmany : searched.length ≠ 1) (hhit : (c.mergeSearch cfg s query K searched).2 = some out) :
    BestFirst metric searched K out := by
  rcases mergeSearch_some hhit with ⟨ir, rfl, _, _⟩ | ⟨hpass, rfl, _⟩
  · exact absurd rfl hmany
  have hlen := length_of_passes_merged hpass
  have hservable : ∀ m ∈ mergeAndRerank s searched K, Servable c.deletedIds m.tag := by
    intro m hm
    have htake : m.result ∈ (mergedReport s searched K).take K := by
      rw [List.take_of_length_le hlen.le]
      exact List.mem_map_of_mem hm
    exact servable_of_passes hpass htake
  refine bestFirst_mergedReport hlen fun m hm m' hm' htag hle => ?_
  by_cases hmetric : metric = .innerProduct
  · subst hmetric
    rcases h with h | h | h
    · exact absurd rfl h
    · rw [mergedReport, List.length_map] at hlen
      exact absurd (roomForHit_of_servable hlen hservable) h
    · exact outranks_of_ascendingIsBest h hm (hservable m hm) hm' htag hle
  · exact outranks_of_le hmetric (mem_of_mem_mergeAndRerank hm) hm' hle

/-- The only report is returned as it is, which is best first. -/
theorem bestFirst_of_one {i : Nat} {b : BestLNodes}
    (hhit : (c.mergeSearch cfg s query K [(i, searchWithTags metric K 0 0 b.nodes)]).2 = some out) :
    BestFirst metric [(i, searchWithTags metric K 0 0 b.nodes)] K out := by
  have hnodup := (tags_searchWithTags_sublist metric K 0 0 b.nodes).nodup b.nodup
  rcases mergeSearch_some hhit with ⟨ir, hir, hpass, rfl⟩ | ⟨hpass, rfl, hmiss⟩
  · obtain ⟨rfl, _⟩ := List.cons.inj hir
    have hK : 0 < K := Nat.pos_of_ne_zero hpass.2.2.1
    have hle : (searchWithTags metric K 0 0 b.nodes).length ≤ K :=
      length_searchWithTags_le hK b.nodes
    rw [List.take_of_length_le hle]
    exact bestFirst_single hnodup (searchWithTags_bestFirst b.sorted) (le_antisymm hle hpass.1.1)
  · -- the merge of one report would not have been tried
    have hK : 0 < K := Nat.pos_of_ne_zero hpass.2.2.1
    exact absurd (passes_of_passes_merged hnodup (length_searchWithTags_le hK b.nodes) hpass)
      (hmiss _ rfl)

theorem not_mergeSearch_nil : (c.mergeSearch cfg s query K []).2 ≠ some out := by
  intro hhit
  rcases mergeSearch_some hhit with ⟨ir, hir, _⟩ | ⟨hpass, _⟩
  · cases hir
  · have hlen := length_of_passes_merged hpass
    rw [mergedReport, List.length_map, length_mergeAndRerank] at hlen
    have hnone : (reportedTags []).length = 0 := rfl
    have hK : 0 < K := Nat.pos_of_ne_zero hpass.2.2.1
    omega

/-- The attempts of the first list come first. -/
theorem firstHit_append (first rest : List Attempt) :
    (firstHit cfg query K c (first ++ rest)).2 =
      (firstHit cfg query K c first).2.or (firstHit cfg query K c rest).2 := by
  rw [firstHit_snd, firstHit_snd, firstHit_snd, List.find?_append, Option.map_or]

end Cache

/-! ## The fallback -/

/-- A report with K results has K tags. -/
theorem length_le_reportedTags {reports : List (Nat × Report)} {i : Nat} {r : Report}
    (hr : (i, r) ∈ reports) (hnodup : (r.map Prod.fst).Nodup) :
    r.length ≤ (reportedTags reports).length := by
  rw [← List.length_map (f := Prod.fst)]
  refine (List.Nodup.subperm hnodup fun tag htag => ?_).length_le
  obtain ⟨td, htd, rfl⟩ := List.mem_map.mp htag
  exact List.mem_dedup.mpr (List.mem_map.mpr ⟨(i, td), mem_allResults.mpr ⟨r, hr, htd⟩, rfl⟩)

/-- So the merge has a K-th value. -/
theorem kth_mergedReport {reports : List (Nat × Report)} {i : Nat} {r : Report}
    (hr : (i, r) ∈ reports) (hnodup : (r.map Prod.fst).Nodup) (hlen : K ≤ r.length) (hK : 1 ≤ K)
    (s : Sorters) :
    ∃ m ∈ mergeAndRerank s reports K,
      ((mergedReport s reports K).map Prod.snd)[K - 1]? = some m.distance := by
  have hfull : (mergeAndRerank s reports K).length = K := by
    have := length_le_reportedTags hr hnodup
    rw [length_mergeAndRerank]
    omega
  have hlt : K - 1 < (mergeAndRerank s reports K).length := by omega
  refine ⟨(mergeAndRerank s reports K)[K - 1], List.getElem_mem hlt, ?_⟩
  rw [mergedReport, List.map_map, List.getElem?_map, List.getElem?_eq_getElem hlt]
  rfl

/-- Where the merge has missed and a shard's report hits, the merge can miss. -/
theorem mergeCanMiss_of_hit {V : Type} {cfg : CacheConfig V} {c : Cache V} {query : V}
    {reports : List (Nat × Report)} {i : Nat} {r : Report} (hr : (i, r) ∈ reports)
    (hnodup : (r.map Prod.fst).Nodup) (hpass : c.Passes cfg query K r)
    (hmiss : ¬ c.Passes cfg query K (mergedReport s reports K)) :
    MergeCanMiss c.deletedIds reports K r := by
  have hK : 1 ≤ K := Nat.one_le_iff_ne_zero.mpr hpass.2.2.1
  have hlt : K - 1 < (r.map Prod.snd).length := by
    have := hpass.1.1
    rw [List.length_map]
    omega
  have hd := List.getElem?_eq_getElem hlt
  obtain ⟨m, hm, hkth⟩ := kth_mergedReport hr hnodup hpass.1.1 hK s
  rw [Cache.passes_iff hK hkth, not_and_or] at hmiss
  obtain ⟨⟨hnum, hlearned, htol⟩, _⟩ := (Cache.passes_iff hK hd).mp hpass
  rcases hmiss with hfar | hdead
  · -- the K-th value of the merge is above the threshold, so above that of the report
    refine Or.inr ⟨_, hd, ?_⟩
    have hlt : (r.map Prod.snd)[K - 1] < m.distance := by
      by_contra hge
      exact hfar ⟨hnum, hlearned,
        Double.le_trans (Double.fin_le_fin.mpr (not_lt.mp hge)) htol⟩
    have hbelow := tagsBelow_lt hm
    rw [length_tagsWhere fun _ d d' hle h => decide_eq_true (hle.trans_lt (of_decide_eq_true h))]
      at hbelow
    rw [length_tagsWhere fun _ d d' hle h => decide_eq_true (hle.trans (of_decide_eq_true h))]
    refine (List.countP_mono_left fun m' _ h => ?_).trans_lt hbelow
    exact decide_eq_true ((of_decide_eq_true h).trans_lt hlt)
  · -- a tag that is not servable is among the first K
    push Not at hdead
    obtain ⟨td, htd, hnot⟩ := hdead
    obtain ⟨m', hm', rfl⟩ := List.mem_map.mp (List.mem_of_mem_take htd)
    have hunservable : ¬ Servable c.deletedIds m'.tag := fun hservable =>
      hnot (Cache.dead_eq_false_iff.mpr hservable)
    exact Or.inl ⟨m'.tag, m'.distance, hunservable,
      candidate_isSmallest (mem_of_mem_mergeAndRerank hm'), tagsBelow_lt hm'⟩

/-! ## Where every hit is right -/

theorem SameResults.mergeIsBest {reports reports' : List (Nat × Report)}
    (h : SameResults reports reports') :
    MergeIsBest metric dead reports K ↔ MergeIsBest metric dead reports' K := by
  rw [MergeIsBest, MergeIsBest, h.roomForHit, h.ascendingIsBest]

theorem bestFirst_of_merge {V : Type} {cfg : CacheConfig V} {c : Cache V} {query : V} {out : Report}
    (h : c.Searches cfg strategy metric dead shards)
    (hmerge : MergeIsBest metric dead (occupiedReports metric K shards) K)
    (hmany : (searchedBy c.lruCache.getAllTags strategy metric K shards).length ≠ 1)
    (hhit : (c.mergeSearch cfg s query K
      (searchedBy c.lruCache.getAllTags strategy metric K shards)).2 = some out) :
    BestFirst metric (occupiedReports metric K shards) K out := by
  rw [← h.sameResults.mergeIsBest, ← h.dead] at hmerge
  exact h.sameResults.bestFirst.mp (Cache.bestFirst_of_mergeSearch hmerge hmany hhit)

theorem hitsBestFirst_parallel
    (h : ((occupiedReports metric K shards).filter fun ir => !ir.2.isEmpty).length ≤ 1 ∨
      MergeIsBest metric dead (occupiedReports metric K shards) K) :
    HitsBestFirst .parallel metric K dead shards := by
  intro V cfg c s query resSize out hsearches htwo hhit
  rw [hsearches.lookupOn_snd htwo, fallbacks, List.append_nil] at hhit
  have hmerge : (c.mergeSearch cfg s query K
      (searchedBy c.lruCache.getAllTags .parallel metric K shards)).2 = some out := hhit
  by_cases hone : (searchedBy c.lruCache.getAllTags .parallel metric K shards).length = 1
  · obtain ⟨⟨i, r⟩, hir⟩ := List.length_eq_one_iff.mp hone
    obtain ⟨b, _, hreport⟩ := mem_occupiedReports.mp
      (hsearches.mem_occupied_of_mem (hir ▸ List.mem_singleton_self (i, r)))
    obtain rfl : r = searchWithTags metric K 0 0 b.nodes := hreport
    rw [hir] at hmerge
    exact hsearches.sameResults.bestFirst.mp (hir ▸ Cache.bestFirst_of_one hmerge)
  · rcases h with hle | hbest
    · -- no shard has results
      have hnil : searchedBy c.lruCache.getAllTags .parallel metric K shards = [] :=
        List.eq_nil_of_length_eq_zero (by rw [searchedBy] at hone ⊢; omega)
      rw [hnil] at hmerge
      exact absurd hmerge Cache.not_mergeSearch_nil
    · exact bestFirst_of_merge hsearches hbest hone hmerge

theorem hitsBestFirst_sequential
    (hmerge : MergeIsBest metric dead (occupiedReports metric K shards) K)
    (hfall : FallbackIsBest metric dead (occupiedReports metric K shards) K) :
    HitsBestFirst .sequential metric K dead shards := by
  intro V cfg c s query resSize out hsearches htwo hhit
  have hlen := (hsearches.searchedBy_perm (K := K)).length_eq
  rw [hsearches.lookupOn_snd htwo, Cache.firstHit_append] at hhit
  rcases Option.or_eq_some_iff.mp hhit with hfirst | ⟨hmiss, hrest⟩
  · exact bestFirst_of_merge hsearches hmerge (by omega) hfirst
  · -- the merge has missed, and a shard's own report hits
    have hmissed := Cache.firstHit_eq_none_iff.mp hmiss
      (Cache.mergedAttempt s (searchedBy c.lruCache.getAllTags .sequential metric K shards) K)
      (List.mem_append_right _ (List.mem_singleton_self _))
    obtain ⟨a, ha, hpass, rfl⟩ := Cache.exists_of_firstHit hrest
    obtain ⟨ir, hir, rfl⟩ := List.mem_map.mp ha
    have hocc := hsearches.mem_occupied_of_mem hir
    have hcan := mergeCanMiss_of_hit hir (nodup_of_mem_occupied hocc) hpass hmissed
    rw [hsearches.sameResults.mergeCanMiss, hsearches.dead] at hcan
    refine (bestFirst_iff_bestAlone hocc (nodup_of_mem_occupied hocc) hpass.1.1).mpr ?_
    have hservable : ∀ td ∈ ir.2.take K, Servable dead td.1 := fun td htd =>
      hsearches.dead ▸ Cache.servable_of_passes hpass htd
    exact hfall ir hocc hpass.1.1 hservable hcan

/-! ## The cache's own searches -/

namespace Cache

variable {V : Type} {cfg : CacheConfig V} {c : Cache V} {query : V}

theorem holdsAt_of_mem_shardReport {i : Nat} {td : Tag × ℚ}
    (h : td ∈ c.shardReport cfg query K 0 i) : ∃ vec, c.HoldsAt i td.1 vec := by
  unfold shardReport at h
  cases hidx : c.memoryIndices[i]? with
  | none => simp [hidx] at h
  | some idx =>
    simp only [hidx, SearchWithTags.results_zero] at h
    obtain ⟨vec, hholds, _⟩ := cfg.search.live idx query K td h
    exact ⟨vec, idx, hidx, hholds⟩

/-- An empty shard reports nothing. -/
theorem shardReport_of_empty {i : Nat} (h : ¬ 0 < c.activeVectors i) :
    c.shardReport cfg query K 0 i = [] := by
  refine List.eq_nil_iff_forall_not_mem.mpr fun td htd => ?_
  obtain ⟨vec, hholds⟩ := holdsAt_of_mem_shardReport htd
  exact h (activeVectors_pos_of_holdsAt hholds)

/-- What shard `i` finds for a query. -/
def shardNodes (cfg : CacheConfig V) (c : Cache V) (query : V) (K i : Nat) : BestLNodes where
  nodes := (c.shardReport cfg query K 0 i).map fun td => (some td.1, td.2)
  sorted := List.pairwise_map.mpr (soundReport_shard 0 i).sorted
  nodup := by
    rw [List.filterMap_map]
    exact List.filterMap_eq_map (f := Prod.fst) ▸ (soundReport_shard 0 i).nodup

/-- What every shard finds for a query. -/
def shardsFind (cfg : CacheConfig V) (c : Cache V) (query : V) (K : Nat) :
    List (Option BestLNodes) :=
  (List.range cfg.numberOfMiniIndexes).map fun i =>
    if 0 < c.activeVectors i then some (c.shardNodes cfg query K i) else none

theorem foundBy_shardsFind (h : Shaped cfg c) (i : Nat) :
    foundBy (c.shardsFind cfg query K) i =
      if 0 < c.activeVectors i then some (c.shardNodes cfg query K i) else none := by
  rw [foundBy, shardsFind, List.getElem?_map]
  by_cases hlt : i < cfg.numberOfMiniIndexes
  · rw [List.getElem?_range hlt]
    rfl
  · have hnone : c.memoryIndices[i]? = none :=
      List.getElem?_eq_none (h.length.trans_le (Nat.not_lt.mp hlt))
    rw [List.getElem?_eq_none (by rwa [List.length_range, ← Nat.not_lt]), if_neg]
    · rfl
    · rw [activeVectors, hnone]
      exact lt_irrefl 0

/-- Under L2 and COSINE the cache's own searches write what they find. -/
theorem reportFrom_shardsFind (h : Shaped cfg c) (hmetric : metric ≠ .innerProduct)
    (resSize i : Nat) :
    reportFrom metric K (c.shardsFind cfg query K) resSize i =
      c.shardReport cfg query K resSize i := by
  have hlen : (c.shardReport cfg query K 0 i).length ≤ K := shardReport_length_le i
  rw [shardReport_eq_take, reportFrom, foundBy_shardsFind h]
  by_cases hpos : 0 < c.activeVectors i
  · rw [if_pos hpos]
    show searchWithTags metric K resSize 0
      ((c.shardReport cfg query K 0 i).map fun td => (some td.1, td.2)) = _
    rcases Nat.eq_zero_or_pos K with rfl | hK
    · rw [List.eq_nil_of_length_eq_zero (Nat.le_zero.mp hlen), List.take_nil]
      rfl
    · have hsome : (writtenEntry metric ∘ fun td : Tag × ℚ => (some td.1, td.2)) = some :=
        funext fun td => congrArg (fun d => some (td.1, d)) (if_neg hmetric)
      rw [searchWithTags_eq_take metric hK (Nat.eq_zero_or_pos resSize),
        List.filterMap_map, hsome, List.filterMap_some, Nat.sub_zero]
      split_ifs
      · rfl
      · rw [Nat.min_comm, ← List.take_take, List.take_of_length_le hlen]
  · rw [if_neg hpos, shardReport_of_empty hpos, List.take_nil]

/-- The reports of the occupied shards. -/
theorem occupiedReports_shardsFind (h : Shaped cfg c) (hmetric : metric ≠ .innerProduct) :
    occupiedReports metric K (c.shardsFind cfg query K) =
      (c.occupiedShards cfg).map fun i => (i, c.shardReport cfg query K 0 i) := by
  have hoccupied : (fun i => (foundBy (c.shardsFind cfg query K) i).isSome) =
      fun i => decide (0 < c.activeVectors i) := by
    funext i
    rw [foundBy_shardsFind h]
    split_ifs with hpos
    · exact (decide_eq_true hpos).symm
    · exact (decide_eq_false hpos).symm
  rw [occupiedReports, Cache.occupiedShards, hoccupied, shardsFind, List.length_map,
    List.length_range]
  exact List.map_congr_left fun i _ => Prod.ext rfl (reportFrom_shardsFind h hmetric 0 i)

theorem searches_shardsFind (h : Shaped cfg c)
    (hstrategy : c.searchStrategy = .parallel ∧ cfg.searchPool = true ↔ strategy = .parallel) :
    c.Searches cfg strategy cfg.theta.pca.metric c.deletedIds (c.shardsFind cfg query K) where
  shaped := h
  strategy := hstrategy
  metric := rfl
  dead := rfl
  count := by rw [shardsFind, List.length_map, List.length_range]
  occupied i := by
    rw [foundBy_shardsFind h]
    split_ifs with hpos
    · exact iff_of_true hpos rfl
    · exact iff_of_false hpos Bool.false_ne_true
  live i b hb tag htag := by
    rw [foundBy_shardsFind h] at hb
    split_ifs at hb with hpos
    · obtain rfl := Option.some.inj hb
      rw [shardNodes, List.filterMap_map] at htag
      obtain ⟨td, htd, htag⟩ := List.mem_filterMap.mp htag
      obtain rfl := Option.some.inj htag
      exact holdsAt_of_mem_shardReport htd

/-- Under L2 and COSINE a hit of `search` is best first if nothing is tried after the
    merge, or nothing that another shard has better results for. -/
theorem lookup_bestFirst (h : Shaped cfg c) (hmetric : cfg.theta.pca.metric ≠ .innerProduct)
    (hmany : 2 ≤ (c.occupiedShards cfg).length)
    (hfall : (c.searchStrategy = .parallel ∧ cfg.searchPool = true) ∨
      FallbackIsBest cfg.theta.pca.metric c.deletedIds
        ((c.occupiedShards cfg).map fun i => (i, c.shardReport cfg query K 0 i)) K)
    {resSize : Nat} {out : Report} (hhit : (c.lookup cfg s query K resSize).2 = some out) :
    BestFirst cfg.theta.pca.metric
      ((c.occupiedShards cfg).map fun i => (i, c.shardReport cfg query K 0 i)) K out := by
  have hown : c.shardReport cfg query K =
      reportFrom cfg.theta.pca.metric K (c.shardsFind cfg query K) :=
    funext fun resSize => funext fun i => (reportFrom_shardsFind h hmetric resSize i).symm
  rw [lookup_eq_lookupOn, hown] at hhit
  rw [← occupiedReports_shardsFind h hmetric] at hfall ⊢
  have htwo : 2 ≤ (occupiedReports cfg.theta.pca.metric K (c.shardsFind cfg query K)).length := by
    rwa [occupiedReports_shardsFind h hmetric, List.length_map]
  have hmerge : MergeIsBest cfg.theta.pca.metric c.deletedIds
      (occupiedReports cfg.theta.pca.metric K (c.shardsFind cfg query K)) K := Or.inl hmetric
  by_cases hpar : c.searchStrategy = .parallel ∧ cfg.searchPool = true
  · exact hitsBestFirst_parallel (Or.inr hmerge) V cfg c s query resSize out
      (searches_shardsFind h (iff_of_true hpar rfl)) htwo hhit
  · exact hitsBestFirst_sequential hmerge (hfall.resolve_left hpar) V cfg c s query resSize out
      (searches_shardsFind h (iff_of_false hpar nofun)) htwo hhit

end Cache

/-! ## States that hit -/

/-- Points with these tags. -/
def tagTable (tags : List Tag) : Table Tag Unit :=
  tags.foldr (fun tag points => points.insert tag ()) ∅

theorem lookup_tagTable {tags : List Tag} {tag : Tag} :
    (tagTable tags).lookup tag = if tag ∈ tags then some () else none := by
  induction tags with
  | nil => rfl
  | cons first rest ih =>
    show ((tagTable rest).insert first ()).lookup tag = _
    rw [Table.lookup_insert_eq, ih]
    by_cases heq : tag = first
    · rw [if_pos heq, if_pos (heq ▸ List.mem_cons_self)]
    · rw [if_neg heq]
      simp only [List.mem_cons, heq, false_or]

theorem size_tagTable {tags : List Tag} (h : tags.Nodup) : (tagTable tags).size = tags.length := by
  induction tags with
  | nil => rfl
  | cons first rest ih =>
    obtain ⟨hnew, hrest⟩ := List.nodup_cons.mp h
    show Table.size ((tagTable rest).insert first ()) = _
    rw [Table.size_insert_of_lookup_none (lookup_tagTable.trans (if_neg hnew)), ih hrest,
      List.length_cons]

/-- The tags that any shard finds, and one more so that no occupied shard is empty. -/
def foundTags (shards : List (Option BestLNodes)) : List Tag :=
  (1 :: shards.flatMap fun o => o.elim [] fun b => b.nodes.filterMap Prod.fst).dedup

theorem mem_foundTags {i : Nat} {b : BestLNodes} (h : foundBy shards i = some b) {tag : Tag}
    (htag : tag ∈ b.nodes.filterMap Prod.fst) : tag ∈ foundTags shards := by
  refine List.mem_dedup.mpr (List.mem_cons_of_mem 1 (List.mem_flatMap.mpr ⟨some b, ?_, htag⟩))
  exact List.mem_of_getElem? (Option.join_eq_some_iff.mp h)

theorem length_foundTags_pos (shards : List (Option BestLNodes)) : 0 < (foundTags shards).length :=
  List.length_pos_of_mem (List.mem_dedup.mpr List.mem_cons_self)

/-- An occupied shard with all these points, or an empty one. -/
def shardIndex (shards : List (Option BestLNodes)) (o : Option BestLNodes) : MiniIndex Unit where
  points := if o.isSome then tagTable (foundTags shards) else ∅
  lazyDeleted := 0
  maxPoints := (foundTags shards).length
  fits := by
    split_ifs
    · exact (size_tagTable (List.nodup_dedup _)).le
    · exact Nat.zero_le _

/-- Global thresholds that let values up to `d` pass where the threshold is 1. -/
def shardsConfig (metric : Metric) (shards : List (Option BestLNodes)) (some : 0 < shards.length)
    (d : ℚ) : CacheConfig Unit where
  theta := {
    useRegionalTheta := false
    p := 9 / 10
    deviationFactor := d - 1
    pca := { metric, bucketsPerDim := 4, maxRegions := 8, computeRegionKey := fun _ => [] } }
  search := SearchWithTags.exact fun _ _ => 0
  numberOfMiniIndexes := shards.length
  someMiniIndex := some
  memoryIndexMaxPointsPerIndex := (foundTags shards).length
  maxSearchThreads := 32
  lazyThetaUpdates := false

/-- A cache with these shards, shard `first` the most recent one, and the threshold
    1 for K. -/
def stateOn (cfg : CacheConfig Unit) (strategy : SearchStrategy) (dead : Finset UInt32)
    (shards : List (Option BestLNodes)) (K first : Nat) : Cache Unit :=
  { (Cache.init cfg 0 1 : Cache Unit).touchShard first with
    memoryIndices := shards.map (shardIndex shards)
    thresholds := { thetaMap := (∅ : ThetaEntry).insert K (.fin 1), pcaUtils := PcaUtils.empty 0 }
    deletedIds := dead
    searchStrategy := strategy }

section StateOn

variable (hsome : 0 < shards.length) (first : Nat)

theorem size_shardIndex (o : Option BestLNodes) :
    (shardIndex shards o).points.size = if o.isSome then (foundTags shards).length else 0 := by
  unfold shardIndex
  dsimp only
  split_ifs
  · exact size_tagTable (List.nodup_dedup _)
  · rfl

theorem searches_stateOn (strategy : SearchStrategy) (metric : Metric) (dead : Finset UInt32)
    (d : ℚ) (K : Nat) (htwo : 2 ≤ shards.length) (hfirst : first < shards.length) :
    (stateOn (shardsConfig metric shards hsome d) strategy dead shards K first).Searches
      (shardsConfig metric shards hsome d) strategy metric dead shards where
  shaped := ⟨List.length_map _, ((Cache.shaped_init 0 1).touchShard hfirst).lru⟩
  strategy := by
    have hpool : (shardsConfig metric shards hsome d).searchPool = true := by
      unfold CacheConfig.searchPool shardsConfig
      simp only [Bool.and_eq_true, decide_eq_true_eq]
      omega
    rw [hpool]
    exact and_iff_left rfl
  metric := rfl
  dead := rfl
  count := rfl
  occupied i := by
    have hpos := length_foundTags_pos shards
    unfold Cache.activeVectors stateOn foundBy
    dsimp only
    rw [List.getElem?_map]
    cases shards[i]? with
    | none => exact iff_of_false (lt_irrefl 0) Bool.false_ne_true
    | some o =>
      show 0 < (shardIndex shards o).points.size ↔ o.isSome
      rw [size_shardIndex]
      cases o with
      | none => exact iff_of_false (lt_irrefl 0) Bool.false_ne_true
      | some b => exact iff_of_true hpos rfl
  live i b hb tag htag := by
    have hshard := Option.join_eq_some_iff.mp hb
    refine ⟨(), shardIndex shards (some b), ?_, ?_⟩
    · show (shards.map (shardIndex shards))[i]? = _
      rw [List.getElem?_map, hshard]
      rfl
    · exact lookup_tagTable.trans (if_pos (mem_foundTags hb htag))

/-- The hit test there: the K-th value is within `d`, and the tags are servable. -/
theorem passes_stateOn (strategy : SearchStrategy) (metric : Metric) (dead : Finset UInt32) (d : ℚ)
    {report : Report} {e : ℚ} (hK : 1 ≤ K)
    (he : (report.map Prod.snd)[K - 1]? = some e) (hoccupied : occupiedReports metric K shards ≠ [])
    (hmany : K ≤ (foundTags shards).length) :
    (stateOn (shardsConfig metric shards hsome d) strategy dead shards K first).Passes
        (shardsConfig metric shards hsome d) () K report ↔
      e ≤ d ∧ ∀ td ∈ report.take K, Servable dead td.1 := by
  have hseen : (stateOn (shardsConfig metric shards hsome d) strategy dead shards K
      first).thresholds.seen (shardsConfig metric shards hsome d).theta () K = .fin 1 := by
    have hlook : ((∅ : ThetaEntry).insert K (.fin 1)).lookup K = some (.fin 1) := by
      rw [Table.lookup_insert_eq, if_pos rfl]
    show (((∅ : ThetaEntry).insert K (.fin 1)).lookup K).getD 0 = .fin 1
    rw [hlook, Option.getD_some]
  rw [Cache.passes_iff hK he]
  refine and_congr ⟨fun h => ?_, fun h => ⟨?_, ?_, ?_⟩⟩ ?_
  · have htol := h.2.2
    rw [hseen, Double.mul_fin, Double.fin_le_fin] at htol
    have hbound : e ≤ (1 + (d - 1)) * 1 := htol
    linarith
  · -- every occupied shard alone has enough points
    obtain ⟨⟨i, r⟩, hir⟩ := List.exists_mem_of_ne_nil _ hoccupied
    obtain ⟨b, hb, _⟩ := mem_occupiedReports.mp hir
    refine hmany.trans (List.le_sum_of_mem (List.mem_map.mpr ⟨shardIndex shards (some b), ?_, ?_⟩))
    · exact List.mem_map_of_mem (List.mem_of_getElem? (Option.join_eq_some_iff.mp hb))
    · exact size_shardIndex (some b)
  · rw [Thresholds.Learned, hseen, Bool.eq_false_iff, ne_eq, isUninitialized_fin]
    have hsmall : ¬ Double.dblMax * (1 / 2) ≤ 1 := by decide +kernel
    exact fun h => hsmall h.2
  · rw [hseen, Double.mul_fin, Double.fin_le_fin]
    show e ≤ (1 + (d - 1)) * 1
    linarith
  · simp only [Cache.dead_eq_false_iff]
    exact Iff.rfl

end StateOn

/-! ## Where some hit is wrong -/

/-- The recency order with shard `first` in front. -/
def orderOn (n first : Nat) : List Nat :=
  ((List.range n).foldl LruCache.access ⟨[], n⟩ |>.access first).getAllTags

theorem orderOn_eq {n first : Nat} (h : first < n) : ∃ rest, orderOn n first = first :: rest := by
  have hcomplete := (Cache.complete_foldl_access n n (le_refl n)).1
  refine ⟨_, LruCache.orderList_access (Or.inl ?_)⟩
  exact hcomplete.mem_iff.mpr (List.mem_range.mpr h)

theorem two_le_length (h : 2 ≤ (occupiedReports metric K shards).length) : 2 ≤ shards.length := by
  have hle := List.length_filter_le (fun i => (foundBy shards i).isSome) (List.range shards.length)
  rw [occupiedReports, List.length_map] at h
  rw [List.length_range] at hle
  omega

/-- All reported tags are found. -/
theorem length_reportedTags_le (metric : Metric) (K : Nat) (shards : List (Option BestLNodes)) :
    (reportedTags (occupiedReports metric K shards)).length ≤ (foundTags shards).length := by
  refine (List.Nodup.subperm (List.nodup_dedup _) fun tag htag => ?_).length_le
  obtain ⟨⟨i, td⟩, hall, rfl⟩ := List.mem_map.mp (List.mem_dedup.mp htag)
  obtain ⟨r, hr, htd⟩ := mem_allResults.mp hall
  obtain ⟨b, hb, hreport⟩ := mem_occupiedReports.mp hr
  obtain rfl : r = searchWithTags metric K 0 0 b.nodes := hreport
  exact mem_foundTags hb ((tags_searchWithTags_sublist metric K 0 0 b.nodes).subset
    (List.mem_map_of_mem htd))

/-- Where there is room for a hit, there is one that has `a` in front of every
    tag with the same smallest value. -/
theorem bestFirst_of_room (h : HitsBestFirst strategy metric K dead shards)
    (htwo : 2 ≤ (occupiedReports metric K shards).length)
    (hmany : (searchedBy (orderOn shards.length 0) strategy metric K shards).length ≠ 1)
    (hroom : RoomForHit dead (searchedBy (orderOn shards.length 0) strategy metric K shards) K)
    {a : Tag} (ha : Servable dead a) (hK : 1 ≤ K) :
    BestFirst metric (occupiedReports metric K shards) K
      (mergedReport (servableFirst dead a)
        (searchedBy (orderOn shards.length 0) strategy metric K shards) K) := by
  have hshards := two_le_length htwo
  have hsome : 0 < shards.length := by omega
  set searched := searchedBy (orderOn shards.length 0) strategy metric K shards with hsearched
  set merged := mergedReport (servableFirst dead a) searched K with hmerged
  have hservable := servable_of_roomForHit hroom ha
  -- there are K tags, so a K-th value, and a threshold that lets just that value pass
  have hlarge : K ≤ (reportedTags searched).length := by
    have hroom' := hroom.1
    rw [length_tagsWhere (p := fun tag _ => decide (Servable dead tag)) fun _ _ _ _ h => h] at hroom'
    have hcandidates : (mergedCandidates searched).length = (reportedTags searched).length :=
      length_mergedCandidates
    exact hcandidates ▸ hroom'.trans List.countP_le_length
  have hlen : merged.length = K := by
    rw [hmerged, mergedReport, List.length_map, length_mergeAndRerank]
    omega
  have hlt : K - 1 < (merged.map Prod.snd).length := by
    rw [List.length_map]
    omega
  have hd := List.getElem?_eq_getElem hlt
  have hne : occupiedReports metric K shards ≠ [] := List.ne_nil_of_length_pos (by omega)
  have hsearches := searches_stateOn hsome 0 strategy metric dead (merged.map Prod.snd)[K - 1] K
    hshards hsome
  have hfound : K ≤ (foundTags shards).length :=
    hlarge.trans (hsearches.sameResults.length_reportedTags ▸ length_reportedTags_le metric K shards)
  have hpass := (passes_stateOn hsome 0 strategy metric dead (merged.map Prod.snd)[K - 1] hK hd hne
    hfound).mpr ⟨le_refl _, fun td htd => by
      obtain ⟨m, hm, rfl⟩ := List.mem_map.mp (List.mem_of_mem_take htd)
      exact hservable m hm⟩
  have hhit := Cache.mergeSearch_of_passes hmany hpass
  refine h Unit _ _ (servableFirst dead a) () 0 merged hsearches htwo ?_
  rw [hsearches.lookupOn_snd htwo, Cache.firstHit_append]
  exact congrArg (Option.or · _) hhit

theorem mergeIsBest_of_hits (h : HitsBestFirst strategy metric K dead shards)
    (htwo : 2 ≤ (occupiedReports metric K shards).length)
    (hmany : (searchedBy (orderOn shards.length 0) strategy metric K shards).length ≠ 1) :
    MergeIsBest metric dead (occupiedReports metric K shards) K := by
  have hshards := two_le_length htwo
  have hsame := (searches_stateOn (by omega) 0 strategy metric dead 0 K hshards
    (by omega)).sameResults (K := K)
  by_contra hcon
  rw [← hsame.mergeIsBest] at hcon
  obtain ⟨hmetric, hroom, hasc⟩ := by simpa only [MergeIsBest, not_or, not_not] using hcon
  subst hmetric
  refine hasc fun a b da db ha hab hsa hsb hle hcount i d hb => ?_
  have hbest := bestFirst_of_room h htwo hmany hroom ha (by omega)
  rw [← hsame.bestFirst] at hbest
  obtain ⟨i', d', ha', hge⟩ := outranks_of_bestFirst hab hsa hsb hle hcount hbest i d hb
  exact ⟨i', d', ha', neg_le_neg_iff.mp hge⟩

/-- Where the merge can miss it does miss, for some order of equal values and the
    threshold that just lets `r` pass. -/
theorem exists_miss (strategy : SearchStrategy) {reports : List (Nat × Report)} {r : Report} {d : ℚ}
    (first : Nat)
    (hd : (r.map Prod.snd)[K - 1]? = some d) (hcan : MergeCanMiss dead reports K r)
    (hoccupied : occupiedReports metric K shards ≠ []) (hmany : K ≤ (foundTags shards).length)
    (hsome : 0 < shards.length) :
    ∃ s, ¬ (stateOn (shardsConfig metric shards hsome d) strategy dead shards K first).Passes
      (shardsConfig metric shards hsome d) () K (mergedReport s reports K) := by
  rcases hcan with ⟨tag, e, hnot, hsmall, hcount⟩ | ⟨e, he, hcount⟩
  · -- the tag that is not servable in front of its ties
    obtain ⟨⟨i, hi⟩, _⟩ := id hsmall
    obtain ⟨m, hm, rfl⟩ := exists_candidate_of_reported hi
    obtain rfl := (candidate_isSmallest hm).unique hsmall
    refine ⟨servableFirst dead m.tag, fun hpass => hnot ?_⟩
    have hmem : m.result ∈ mergedReport (servableFirst dead m.tag) reports K :=
      List.mem_map_of_mem (mem_merge_first hm hcount)
    rw [← List.take_of_length_le (Cache.length_of_passes_merged hpass).le] at hmem
    exact Cache.servable_of_passes hpass hmem
  · -- fewer than K tags have a value that passes
    obtain rfl := Option.some.inj (hd.symm.trans he)
    refine ⟨servableFirst dead 0, fun hpass => ?_⟩
    have hlen := Cache.length_of_passes_merged hpass
    have hlt : K - 1 < ((mergedReport (servableFirst dead 0) reports K).map Prod.snd).length := by
      rw [List.length_map]
      omega
    have hkth := List.getElem?_eq_getElem hlt
    have hwithin := ((passes_stateOn hsome first strategy metric dead d (by omega) hkth hoccupied
      hmany).mp hpass).1
    rw [length_tagsWhere fun _ e e' hle h => decide_eq_true (hle.trans (of_decide_eq_true h))]
      at hcount
    have hall : ∀ m ∈ mergeAndRerank (servableFirst dead 0) reports K,
        decide (m.distance ≤ d) = true := by
      intro m hm
      have hmem : m.result ∈ (mergedReport (servableFirst dead 0) reports K).take K := by
        rw [List.take_of_length_le hlen.le]
        exact List.mem_map_of_mem hm
      exact decide_eq_true
        ((key_le_of_mem_take (sorted_mergedReport _ reports K) hkth hmem).trans hwithin)
    have hcounted := length_merge_le_countP hall
    rw [mergedReport, List.length_map] at hlen
    omega

/-- After a merge that misses, SEQUENTIAL returns what the most recent shard reports if
    that passes. -/
theorem Cache.Searches.lookupOn_fallback {V : Type} {cfg : CacheConfig V} {c : Cache V} {query : V}
    {resSize i : Nat} {rest : List Nat} {b : BestLNodes}
    (h : c.Searches cfg .sequential metric dead shards)
    (htwo : 2 ≤ (occupiedReports metric K shards).length)
    (horder : c.lruCache.getAllTags = i :: rest) (hfound : foundBy shards i = some b)
    (hmiss : ¬ c.Passes cfg query K
      (mergedReport s (searchedBy c.lruCache.getAllTags .sequential metric K shards) K))
    (hpass : c.Passes cfg query K (searchWithTags metric K 0 0 b.nodes)) :
    (c.lookupOn cfg s query K resSize (reportFrom metric K shards)).2 =
      some ((searchWithTags metric K 0 0 b.nodes).take K) := by
  have hlen := (h.searchedBy_perm (K := K)).length_eq
  have hfront : searchedBy c.lruCache.getAllTags .sequential metric K shards =
      (i, searchWithTags metric K 0 0 b.nodes) ::
        searchedBy rest .sequential metric K shards := by
    rw [searchedBy, horder, List.filter_cons_of_pos (by rw [hfound]; rfl), List.map_cons, reportFrom,
      hfound]
    rfl
  rw [h.lookupOn_snd htwo, firstHit_append, Cache.singleAttempt, if_neg (by omega), List.nil_append,
    firstHit_eq_none_iff.mpr fun a ha => List.mem_singleton.mp ha ▸ hmiss, Option.none_or, fallbacks,
    hfront, List.map_cons]
  exact firstHit_head hpass

theorem fallbackIsBest_of_hits (h : HitsBestFirst .sequential metric K dead shards)
    (htwo : 2 ≤ (occupiedReports metric K shards).length) :
    FallbackIsBest metric dead (occupiedReports metric K shards) K := by
  rintro ⟨i, r⟩ hir hlen hservable hcan
  change K ≤ r.length at hlen
  have hshards := two_le_length htwo
  have hsome : 0 < shards.length := by omega
  have hne : occupiedReports metric K shards ≠ [] := List.ne_nil_of_length_pos (by omega)
  have hnodup := nodup_of_mem_occupied hir
  obtain ⟨b, hfound, hreport⟩ := mem_occupiedReports.mp hir
  have hi : i < shards.length := by
    by_contra hge
    rw [foundBy, List.getElem?_eq_none (Nat.not_lt.mp hge)] at hfound
    cases hfound
  have hK : 1 ≤ K := by
    rcases hcan with ⟨_, _, _, _, hcount⟩ | ⟨_, _, hcount⟩ <;> omega
  have hmany : K ≤ (foundTags shards).length :=
    hlen.trans ((length_le_reportedTags hir hnodup).trans (length_reportedTags_le metric K shards))
  have hlt : K - 1 < (r.map Prod.snd).length := by
    rw [List.length_map]
    omega
  have hd := List.getElem?_eq_getElem hlt
  generalize (r.map Prod.snd)[K - 1] = d at hd
  -- the shard is the most recent one, and the threshold just lets its report pass
  have hsearches := searches_stateOn hsome i .sequential metric dead d K hshards hi
  rw [← hsearches.sameResults.mergeCanMiss] at hcan
  obtain ⟨s, hmiss⟩ := exists_miss .sequential i hd hcan hne hmany hsome
  have hpass := (passes_stateOn hsome i .sequential metric dead d hK hd hne hmany).mpr
    ⟨le_refl d, hservable⟩
  refine (bestFirst_iff_bestAlone hir hnodup hlen).mp (h Unit _ _ s () 0 _ hsearches htwo ?_)
  obtain ⟨rest, hrest⟩ := orderOn_eq hi
  obtain rfl : r = searchWithTags metric K 0 0 b.nodes := hreport
  exact hsearches.lookupOn_fallback htwo hrest hfound hmiss hpass

/-- Every hit is right exactly where the order by value suits the metric, or allows
    no wrong merge, and the reports that SEQUENTIAL falls back on are the best. -/
theorem hitsBestFirst_iff (strategy : SearchStrategy) (metric : Metric) (K : Nat)
    (dead : Finset UInt32) (shards : List (Option BestLNodes)) :
    HitsBestFirst strategy metric K dead shards ↔
      (occupiedReports metric K shards).length ≤ 1 ∨
        match strategy with
        | .parallel =>
          ((occupiedReports metric K shards).filter fun ir => !ir.2.isEmpty).length ≤ 1 ∨
            MergeIsBest metric dead (occupiedReports metric K shards) K
        | .sequential =>
          MergeIsBest metric dead (occupiedReports metric K shards) K ∧
            FallbackIsBest metric dead (occupiedReports metric K shards) K := by
  constructor
  · intro h
    by_cases hone : (occupiedReports metric K shards).length ≤ 1
    · exact Or.inl hone
    refine Or.inr ?_
    have htwo : 2 ≤ (occupiedReports metric K shards).length := by omega
    cases strategy with
    | parallel =>
      refine or_iff_not_imp_left.mpr fun hmany => mergeIsBest_of_hits h htwo ?_
      rw [searchedBy]
      omega
    | sequential =>
      have hshards := two_le_length htwo
      have hperm := ((searches_stateOn (by omega) 0 .sequential metric dead 0 K hshards
        (by omega)).searchedBy_perm (K := K)).length_eq
      refine ⟨mergeIsBest_of_hits h htwo ?_, fallbackIsBest_of_hits h htwo⟩
      change (searchedBy (orderOn shards.length 0) .sequential metric K shards).length = _ at hperm
      omega
  · rintro (hone | h)
    · intro V cfg c s query resSize out _ htwo
      omega
    · cases strategy with
      | parallel => exact hitsBestFirst_parallel h
      | sequential => exact hitsBestFirst_sequential h.1 h.2

/-- A result was left out that is better than all of a returned tag. -/
theorem not_bestFirst {reports : List (Nat × Report)} {out : Report} {a b : Tag}
    (hin : a ∈ out.map Prod.fst) (hout : b ∉ out.map Prod.fst)
    (ha : ∃ e ∈ allResults reports, e.2.1 = a)
    (hworse : ∀ e ∈ allResults reports, e.2.1 = a → ∃ e' ∈ allResults reports, e'.2.1 = b ∧
      orientedKey metric e'.2.2 < orientedKey metric e.2.2) :
    ¬ BestFirst metric reports K out := by
  intro hbest
  obtain ⟨⟨i, _, d⟩, hmem, rfl⟩ := ha
  obtain ⟨⟨j, _, d'⟩, hmem', rfl, _⟩ := hworse _ hmem rfl
  obtain ⟨k, hk⟩ := exists_isBestKey metric (reportedBy_iff_mem.mpr hmem)
  obtain ⟨k', hk'⟩ := exists_isBestKey metric (reportedBy_iff_mem.mpr hmem')
  have hle := hbest.omitted _ hin _ hout k k' hk hk'
  obtain ⟨i', e, he, rfl⟩ := hk.1
  obtain ⟨⟨j', _, e'⟩, hbetter, rfl, hlt⟩ := hworse (i', _, e) (reportedBy_iff_mem.mp he) rfl
  have hlow := hk'.2 j' e' (reportedBy_iff_mem.mpr hbetter)
  exact absurd (hle.trans hlow) (not_le.mpr hlt)

/-- Two shards with inner products 5 and 1, and 4 and 2. -/
def productShards : List (Option BestLNodes) :=
  [some ⟨[(some 1, -5), (some 2, -1)], by decide +kernel, by decide⟩,
    some ⟨[(some 3, -4), (some 4, -2)], by decide +kernel, by decide⟩]

/-- A tombstoned point at the query, and one at distance 5 in the other shard. -/
def tombstoneShards : List (Option BestLNodes) :=
  [some ⟨[(some 1, 0)], by decide +kernel, by decide⟩,
    some ⟨[(some 2, 5)], by decide +kernel, by decide⟩]

/-- PARALLEL returns the two smallest of four products, and SEQUENTIAL a farther
    point where the nearest one is tombstoned. -/
theorem smallest_products_returned :
    (((stateOn (shardsConfig .innerProduct productShards Nat.two_pos 2) .parallel ∅ productShards 2
        0).lookupOn (shardsConfig .innerProduct productShards Nat.two_pos 2) (servableFirst ∅ 1) () 2
        0 (reportFrom .innerProduct 2 productShards)).2 = some [(2, 1), (4, 2)] ∧
      ¬ HitsBestFirst .parallel .innerProduct 2 ∅ productShards) ∧
    ((stateOn (shardsConfig .L2 tombstoneShards Nat.two_pos 5) .sequential {0} tombstoneShards 1
        0).lookupOn (shardsConfig .L2 tombstoneShards Nat.two_pos 5) (servableFirst {0} 1) () 1
        0 (reportFrom .L2 1 tombstoneShards)).2 = some [(2, 5)] ∧
      ¬ HitsBestFirst .sequential .L2 1 {0} tombstoneShards := by
  refine ⟨⟨?_, fun h => ?_⟩, ?_, fun h => ?_⟩
  · decide +kernel
  · have hsearches := @searches_stateOn productShards Nat.two_pos 0 .parallel .innerProduct ∅ 2 2
      (le_refl 2) Nat.two_pos
    have hbest := h Unit _ _ (servableFirst ∅ 1) () 0 [(2, 1), (4, 2)] hsearches (by decide +kernel)
      (by decide +kernel)
    -- tag 1 has the product 5
    exact not_bestFirst (a := 2) (b := 1) (by decide +kernel) (by decide +kernel)
      (by decide +kernel) (by decide +kernel) hbest
  · decide +kernel
  · have hsearches := @searches_stateOn tombstoneShards Nat.two_pos 0 .sequential .L2 {0} 5 1
      (le_refl 2) Nat.two_pos
    have hbest := h Unit _ _ (servableFirst {0} 1) () 0 [(2, 5)] hsearches (by decide +kernel)
      (by decide +kernel)
    -- tag 1 is at distance 0
    exact not_bestFirst (a := 2) (b := 1) (by decide +kernel) (by decide +kernel)
      (by decide +kernel) (by decide +kernel) hbest

end QvCache
