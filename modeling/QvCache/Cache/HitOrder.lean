/-
  QvCache.Cache.HitOrder

  The recency order after a lookup.  A lookup tries reports in turn, each a
  shard's own or the merge of several; the first that passes the hit test
  decides which shards are touched.  After a merged hit the shards that the
  returned results are credited to stand in front, the one with the most
  results first, and the others follow in the order they had.
-/

import QvCache.Cache.MergeSpec
import QvCache.Cache.Rotation

namespace QvCache

namespace LruCache

/-- Touching listed tags drops nothing. -/
theorem orderList_foldl {tags : List Nat} {l : LruCache} (h : ∀ tag ∈ tags, tag ∈ l.orderList) :
    (tags.foldl LruCache.access l).orderList = tags.foldl Recency.access l.orderList := by
  induction tags generalizing l with
  | nil => rfl
  | cons tag rest ih =>
    have haccess := orderList_access (Or.inl (h tag List.mem_cons_self))
    rw [List.foldl_cons, List.foldl_cons, ih, haccess]
    intro t ht
    rw [haccess]
    exact Recency.mem_access (h t (List.mem_cons_of_mem tag ht))

end LruCache

namespace Cache

variable {V : Type} (cfg : CacheConfig V)

/-! ## The reports a lookup tries -/

/-- The report of one shard, or the merge of the reports of several. -/
inductive HitPath where
  | shard (i : Nat) (report : Report)
  | merged (reports : List (Nat × Report))

namespace HitPath

def ofShard (ir : Nat × Report) : HitPath := .shard ir.1 ir.2

def attempt (s : Sorters) (K : Nat) : HitPath → Attempt
  | .shard i report => shardAttempt (i, report)
  | .merged reports => mergedAttempt s reports K

/-- The shards whose reports it is made of. -/
def shards : HitPath → List Nat
  | .shard i _ => [i]
  | .merged reports => reports.map Prod.fst

/-- The fast path of both strategies. -/
def single (searched : List (Nat × Report)) : List HitPath :=
  if searched.length = 1 then searched.map ofShard else []

end HitPath

/-- The reports `search` tests, in order. -/
def lookupPaths (c : Cache V) (query : V) (K resSize : Nat) : List HitPath :=
  if c.searchStrategy = .parallel ∧ cfg.searchPool = true then
    let jobs := c.searchJobs (c.occupiedShards cfg)
    match jobs with
    | [] => []
    | [only] =>
      if 0 < c.activeVectors only then [.shard only (c.shardReport cfg query K resSize only)]
      else []
    | jobs =>
      let searched := c.parallelSearched cfg query K jobs
      HitPath.single searched ++ [.merged searched]
  else
    let searched := c.sequentialSearched cfg query K
    HitPath.single searched ++ [.merged searched] ++ searched.map HitPath.ofShard

/-- The first of them that passes the hit test. -/
def hitPath (s : Sorters) (c : Cache V) (query : V) (K resSize : Nat) : Option HitPath :=
  (c.lookupPaths cfg query K resSize).find? fun path =>
    decide (c.Passes cfg query K (path.attempt s K).report)

/-- What the lookup makes of the order. -/
def OrderAfter (s : Sorters) (K : Nat) (before after : List Nat) : Option HitPath → Prop
  | none => after = before
  | some (.shard i _) => after = i :: before.filter fun j => decide (j ≠ i)
  | some (.merged reports) =>
    ∃ front : List Nat, front.Nodup ∧
      (∀ i, i ∈ front ↔ 0 < creditedEntries (mergeAndRerank s reports K) i) ∧
      (front.Pairwise fun i j =>
        creditedEntries (mergeAndRerank s reports K) j ≤
          creditedEntries (mergeAndRerank s reports K) i) ∧
      after = front ++ before.filter fun j => decide (j ∉ front)

variable {cfg} {c : Cache V} {query : V} {K : Nat} {s : Sorters}

theorem map_attempt_single (searched : List (Nat × Report)) :
    (HitPath.single searched).map (HitPath.attempt s K) = singleAttempt searched := by
  unfold HitPath.single singleAttempt
  split_ifs
  · rw [List.map_map]
    rfl
  · rfl

/-- A lookup tries these reports and no others. -/
theorem lookup_paths (s : Sorters) (c : Cache V) (query : V) (K resSize : Nat) :
    c.lookup cfg s query K resSize =
      firstHit cfg query K c ((c.lookupPaths cfg query K resSize).map (HitPath.attempt s K)) := by
  unfold lookup lookupPaths
  split_ifs
  · unfold parallelSearchMemoryIndices
    dsimp only
    -- the jobs are split as in the source: none, one, or several
    generalize c.searchJobs (c.occupiedShards cfg) = jobs
    rcases jobs with _ | ⟨only, _ | ⟨next, rest⟩⟩
    · rfl
    · unfold searchSingleIndex
      dsimp only
      split_ifs <;> rfl
    · dsimp only
      rw [List.map_append, map_attempt_single]
      rfl
  · dsimp only
    rw [List.map_append, List.map_append, map_attempt_single, List.map_map]
    rfl

/-- The shards that are touched are those of the first report that passes. -/
theorem hitAccesses_eq (attempts : List Attempt) (c : Cache V) :
    hitAccesses cfg query K c attempts =
      ((attempts.find? fun a => decide (c.Passes cfg query K a.report)).map Attempt.touched).getD
        [] := by
  induction attempts generalizing c with
  | nil => rfl
  | cons a rest ih =>
    rw [hitAccesses, List.find?_cons]
    by_cases hpass : c.Passes cfg query K a.report
    · rw [if_pos hpass.1.1]
      dsimp only
      rw [if_pos (isHitReport_iff.mpr hpass), decide_eq_true hpass]
      rfl
    · rw [decide_eq_false hpass]
      split_ifs with hlen
      · -- a test that fails leaves a state in which the rest passes as before
        dsimp only
        rw [if_neg fun h => hpass (isHitReport_iff.mp h)]
        obtain ⟨th, hth, hseen⟩ := isHitReport_fst cfg c query K a.report
        rw [hth, ih]
        simp only [passes_congr hseen]
      · exact ih c

theorem find_attempt (cfg : CacheConfig V) (s : Sorters) (c : Cache V) (query : V) (K : Nat)
    (paths : List HitPath) :
    (paths.map (HitPath.attempt s K)).find? (fun a => decide (c.Passes cfg query K a.report)) =
      (paths.find? fun path => decide (c.Passes cfg query K (path.attempt s K).report)).map
        (HitPath.attempt s K) := by
  rw [List.find?_map]
  rfl

/-! ## The shards are listed -/

theorem touched_mem_shards {path : HitPath} {i : Nat} (h : i ∈ (path.attempt s K).touched) :
    i ∈ path.shards := by
  cases path with
  | shard j report => exact h
  | merged reports =>
    obtain ⟨m, hm, rfl⟩ := mem_contributingIndicesOrdered h
    obtain ⟨r, hr, -⟩ := candidate_reported (mem_of_mem_mergeAndRerank hm)
    exact List.mem_map_of_mem hr

theorem shards_single {searched : List (Nat × Report)} {path : HitPath}
    (h : path ∈ HitPath.single searched) : ∀ i ∈ path.shards, i ∈ searched.map Prod.fst := by
  unfold HitPath.single at h
  split_ifs at h
  · obtain ⟨ir, hir, rfl⟩ := List.mem_map.mp h
    exact fun i hi => List.mem_singleton.mp hi ▸ List.mem_map_of_mem hir
  · cases h

theorem shards_listed (hshards : ∀ i < cfg.numberOfMiniIndexes, i ∈ c.lruCache.orderList)
    {resSize : Nat} {path : HitPath} (h : path ∈ c.lookupPaths cfg query K resSize) :
    ∀ i ∈ path.shards, i ∈ c.lruCache.orderList := by
  unfold lookupPaths at h
  split_ifs at h
  · dsimp only at h
    split at h
    · cases h
    · next only honly =>
      split_ifs at h
      · rw [List.mem_singleton.mp h]
        intro i hi
        rw [List.mem_singleton.mp hi]
        exact hshards only (mem_searchJobs_single honly)
      · cases h
    · have hsearched : ∀ jobs, ∀ i ∈ (c.parallelSearched cfg query K jobs).map Prod.fst,
          i ∈ c.lruCache.orderList := by
        intro jobs i hi
        obtain ⟨ir, hir, rfl⟩ := List.mem_map.mp hi
        exact hshards ir.1 (lt_of_mem_parallelSearched ir hir)
      rcases List.mem_append.mp h with hsingle | hmerged
      · exact fun i hi => hsearched _ i (shards_single hsingle i hi)
      · rw [List.mem_singleton.mp hmerged]
        exact hsearched _
  · have hsearched : ∀ i ∈ (c.sequentialSearched cfg query K).map Prod.fst,
        i ∈ c.lruCache.orderList := by
      intro i hi
      obtain ⟨ir, hir, rfl⟩ := List.mem_map.mp hi
      obtain ⟨j, hj, rfl⟩ := List.mem_map.mp hir
      exact (List.mem_filter.mp hj).1
    rcases List.mem_append.mp h with hfirst | hshard
    · rcases List.mem_append.mp hfirst with hsingle | hmerged
      · exact fun i hi => hsearched i (shards_single hsingle i hi)
      · rw [List.mem_singleton.mp hmerged]
        exact hsearched
    · obtain ⟨ir, hir, rfl⟩ := List.mem_map.mp hshard
      exact fun i hi => hsearched i (List.mem_singleton.mp hi ▸ List.mem_map_of_mem hir)

/-! ## The order -/

/-- A shard is touched after a merge if and only if a result is credited to it. -/
theorem mem_contributingIndicesOrdered_iff {merged : List MergedResult} {i : Nat} :
    i ∈ contributingIndicesOrdered s merged ↔ 0 < creditedEntries merged i := by
  rw [creditedEntries, List.countP_pos_iff]
  constructor
  · intro h
    obtain ⟨m, hm, hsource⟩ := mem_contributingIndicesOrdered h
    exact ⟨m, hm, decide_eq_true hsource⟩
  · rintro ⟨m, hm, hsource⟩
    exact of_decide_eq_true hsource ▸ mem_ordered_of_source hm

/-- What touching the shards of a report makes of an order. -/
theorem orderAfter_touched (path : HitPath) {before : List Nat} (hnodup : before.Nodup) :
    OrderAfter s K before ((path.attempt s K).touched.foldl Recency.access before) (some path) := by
  cases path with
  | shard i report =>
    show Recency.access before i = i :: before.filter fun j => decide (j ≠ i)
    rw [Recency.access, hnodup.erase_eq_filter]
    refine congrArg (i :: ·) (List.filter_congr fun j _ => ?_)
    rw [Bool.eq_iff_iff, bne_iff_ne, decide_eq_true_eq]
  | merged reports =>
    have htouched := nodup_contributingIndicesOrdered (s := s) (mergeAndRerank s reports K)
    -- touched from the least to the most contributing, so the most is in front
    refine ⟨(contributingIndicesOrdered s (mergeAndRerank s reports K)).reverse,
      List.nodup_reverse.mpr htouched, fun i => ?_, ?_, ?_⟩
    · rw [List.mem_reverse, mem_contributingIndicesOrdered_iff]
    · rw [List.pairwise_reverse]
      exact sorted_contributingIndicesOrdered _
    · show (contributingIndicesOrdered s (mergeAndRerank s reports K)).foldl _ before = _
      rw [Recency.foldl_access htouched hnodup]
      refine congrArg (_ ++ ·) (List.filter_congr fun j _ => ?_)
      rw [decide_eq_decide, List.mem_reverse]

/-- The order after a lookup, by the report that it returns. -/
theorem lookup_order (s : Sorters) (c : Cache V) (query : V) (K resSize : Nat)
    (hnodup : c.lruCache.orderList.Nodup)
    (hshards : ∀ i < cfg.numberOfMiniIndexes, i ∈ c.lruCache.orderList) :
    (c.lookup cfg s query K resSize).2 =
        (c.hitPath cfg s query K resSize).map (fun path => (path.attempt s K).report.take K) ∧
      OrderAfter s K c.lruCache.orderList (c.lookup cfg s query K resSize).1.lruCache.orderList
        (c.hitPath cfg s query K resSize) := by
  have hfind := find_attempt cfg s c query K (c.lookupPaths cfg query K resSize)
  rw [lookup_paths]
  refine ⟨?_, ?_⟩
  · rw [firstHit_snd, hfind, Option.map_map]
    rfl
  · rw [lruCache_firstHit, hitAccesses_eq, hfind, Option.map_map]
    cases hpath : c.hitPath cfg s query K resSize with
    | none =>
      rw [hitPath] at hpath
      rw [hpath]
      rfl
    | some path =>
      have hmem : path ∈ c.lookupPaths cfg query K resSize := List.mem_of_find?_eq_some hpath
      have hlisted : ∀ i ∈ (path.attempt s K).touched, i ∈ c.lruCache.orderList := fun i hi =>
        shards_listed hshards hmem i (touched_mem_shards hi)
      rw [hitPath] at hpath
      rw [hpath, Option.map_some, Option.getD_some, Function.comp_apply,
        LruCache.orderList_foldl hlisted]
      exact orderAfter_touched path hnodup

/-- Three shards on a line, with global thresholds. -/
def threeShards : CacheConfig Nat where
  theta := {
    useRegionalTheta := false
    p := 9 / 10
    deviationFactor := 0
    pca := { metric := .L2, bucketsPerDim := 4, maxRegions := 8, computeRegionKey := fun _ => [] } }
  search := SearchWithTags.exact fun a b => ((a : ℚ) - b) * ((a : ℚ) - b)
  numberOfMiniIndexes := 3
  someMiniIndex := Nat.le_add_left 1 2
  memoryIndexMaxPointsPerIndex := 4
  maxSearchThreads := 32
  lazyThetaUpdates := false

/-- Points in shards 0 and 1, the empty shard 2 as the most recent one, and the
    threshold 9 for K = 1 and K = 3. -/
def linePoints (deletedIds : Finset UInt32) : Cache Nat :=
  { Cache.init threeShards 0 1 with
    memoryIndices := [
      { points := ((∅ : Table Tag Nat).insert 2 10).insert 3 13, lazyDeleted := 0, maxPoints := 4,
        fits := by decide },
      { points := ((∅ : Table Tag Nat).insert 4 11).insert 5 20, lazyDeleted := 0, maxPoints := 4,
        fits := by decide },
      MiniIndex.create 4]
    thresholds := {
      thetaMap := ((∅ : ThetaEntry).insert 1 (.fin 9)).insert 3 (.fin 9)
      pcaUtils := PcaUtils.empty 0 }
    deletedIds := deletedIds }

def tiesByRank : Sorters where
  byDistance := Sorter.tieRank _ fun m => m.tag.toNat
  byCount := Sorter.tieRank _ Prod.fst

/-- A merged hit, of which shard 0 has two results and shard 1 one, and then, with the
    nearest point tombstoned, a hit on shard 1 alone. -/
theorem lookup_order_linePoints :
    (((linePoints ∅).lookup threeShards tiesByRank 10 3 0).2 = some [(2, 0), (4, 1), (3, 9)] ∧
      ((linePoints ∅).hitPath threeShards tiesByRank 10 3 0).map HitPath.shards = some [1, 0] ∧
      OrderAfter tiesByRank 3 [2, 1, 0] [0, 1, 2]
        ((linePoints ∅).hitPath threeShards tiesByRank 10 3 0)) ∧
    ((linePoints {1}).lookup threeShards tiesByRank 10 1 0).2 = some [(4, 1)] ∧
      ((linePoints {1}).hitPath threeShards tiesByRank 10 1 0).map HitPath.shards = some [1] ∧
      OrderAfter tiesByRank 1 [2, 1, 0] [1, 2, 0]
        ((linePoints {1}).hitPath threeShards tiesByRank 10 1 0) := by
  have hmerged := @lookup_order _ threeShards tiesByRank (linePoints ∅) 10 3 0 (by decide) (by decide)
  have hsingle := @lookup_order _ threeShards tiesByRank (linePoints {1}) 10 1 0 (by decide)
    (by decide)
  have hafter : ((linePoints ∅).lookup threeShards tiesByRank 10 3 0).1.lruCache.orderList =
      [0, 1, 2] := by decide +kernel
  have hafter' : ((linePoints {1}).lookup threeShards tiesByRank 10 1 0).1.lruCache.orderList =
      [1, 2, 0] := by decide +kernel
  rw [hafter] at hmerged
  rw [hafter'] at hsingle
  exact ⟨⟨by decide +kernel, by decide +kernel, hmerged.2⟩, by decide +kernel, by decide +kernel,
    hsingle.2⟩

end Cache

end QvCache
