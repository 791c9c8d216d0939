/-
  QvCache.Cache.Search

  The lookup of `QVCache::search`: the hit test, the two strategies, and the
  choice between them.  Both strategies come down to trying reports in turn, a
  single shard's or the merged one, until one passes the hit test (`firstHit`);
  they differ in which reports they try and in how they collect them.

  `Passes` is the hit test as a predicate on the state before the search.  The
  tests a search makes create missing thresholds but change none, so `Passes`
  decides every one of them (`firstHit_snd`).
-/

import QvCache.Cache.Merge
import QvCache.Cache.State

namespace QvCache

namespace Cache

variable {V : Type} (cfg : CacheConfig V)

/-! ## The hit test -/

/-- `has_k_live_results`; `tags` is `none` for a null pointer. -/
def hasKLiveResults (c : Cache V) (K : Nat) (tags : Option (List Tag)) (numResults : Nat) : Bool :=
  -- a short report is never a hit, whatever its tags are
  if numResults < K then false
  else
    match tags with
    | none => true
    | some tags =>
      (tags.take K).all fun tag =>
        !(decide (tag = 0) || decide (tag = 0xFFFFFFFF)) && !c.isDeletedId (tag - 1)

/-- `QVCache::isHit`. -/
def isHit (c : Cache V) (query : V) (K : Nat) (distances : Option (List Double))
    (tags : Option (List Tag)) (numResults : Nat) : Cache V × Bool :=
  -- the thresholds are not consulted then
  if !c.hasKLiveResults K tags numResults then (c, false)
  else
    let r := c.thresholds.isHit cfg.theta query K distances c.getNumberOfVectorsInMemoryIndex
    ({ c with thresholds := r.1 }, r.2)

/-- The hit test on a report. -/
def isHitReport (c : Cache V) (query : V) (K : Nat) (report : Report) : Cache V × Bool :=
  c.isHit cfg query K (some (report.map fun td => .fin td.2)) (some (report.map Prod.fst))
    report.length

/-! ## Trying reports -/

/-- A report that may be returned, and the shards that are touched then. -/
structure Attempt where
  report : Report
  touched : List Nat

/-- Test the reports in order.  The first that passes is cut after K, returned,
    and its shards are touched. -/
def firstHit (query : V) (K : Nat) : Cache V → List Attempt → Cache V × Option Report
  | c, [] => (c, none)
  | c, a :: rest =>
    if K ≤ a.report.length then
      let r := c.isHitReport cfg query K a.report
      if r.2 then (a.touched.foldl touchShard r.1, some (a.report.take K))
      else firstHit query K r.1 rest
    else firstHit query K c rest

/-- What shard `i` reports for a result vector with `resSize` entries. -/
def shardReport (c : Cache V) (query : V) (K resSize i : Nat) : Report :=
  match c.memoryIndices[i]? with
  | none => []
  | some idx => cfg.search.results idx query K resSize

/-- The attempt on the merged report. -/
def mergedAttempt (s : Sorters) (reports : List (Nat × Report)) (K : Nat) : Attempt where
  report := mergedReport s reports K
  touched := contributingIndicesOrdered s (mergeAndRerank s reports K)

/-- The attempt on the report of one shard. -/
def shardAttempt (ir : Nat × Report) : Attempt := ⟨ir.2, [ir.1]⟩

/-- The fast path of both strategies: the only shard with results. -/
def singleAttempt (searched : List (Nat × Report)) : List Attempt :=
  if searched.length = 1 then searched.map shardAttempt else []

/-- `search_single_index`; `none` if the shard is empty or its report misses. -/
def searchSingleIndex (c : Cache V) (query : V) (K resSize i : Nat) : Cache V × Option Report :=
  if 0 < c.activeVectors i then
    firstHit cfg query K c [shardAttempt (i, c.shardReport cfg query K resSize i)]
  else (c, none)

/-! ## The parallel strategy -/

def occupiedShards (c : Cache V) : List Nat :=
  (List.range cfg.numberOfMiniIndexes).filter fun i => decide (0 < c.activeVectors i)

/-- The position of the fullest shard in `occupied`. -/
def fullestPosition (c : Cache V) (occupied : List Nat) : Nat :=
  (List.range occupied.length).foldl (fun fullest i =>
    if c.activeVectors (occupied.getD fullest 0) < c.activeVectors (occupied.getD i 0) then i
    else fullest) 0

/-- The jobs of the pool: the fullest shard swapped to the front. -/
def searchJobs (c : Cache V) (occupied : List Nat) : List Nat :=
  let fullest := c.fullestPosition occupied
  if fullest ≠ 0 then
    (occupied.set 0 (occupied.getD fullest 0)).set fullest (occupied.getD 0 0)
  else occupied

/-- The shards with results, in shard order, whichever job found them. -/
def parallelSearched (c : Cache V) (query : V) (K : Nat) (jobs : List Nat) :
    List (Nat × Report) :=
  ((List.range cfg.numberOfMiniIndexes).map fun i =>
    (i, if i ∈ jobs then c.shardReport cfg query K 0 i else [])).filter fun ir => !ir.2.isEmpty

def parallelAttempts (s : Sorters) (c : Cache V) (query : V) (K : Nat) (jobs : List Nat) :
    List Attempt :=
  let searched := c.parallelSearched cfg query K jobs
  singleAttempt searched ++ [mergedAttempt s searched K]

/-- `parallel_search_memory_indices`. -/
def parallelSearchMemoryIndices (s : Sorters) (c : Cache V) (query : V) (K resSize : Nat) :
    Cache V × Option Report :=
  let jobs := c.searchJobs (c.occupiedShards cfg)
  match jobs with
  | [] => (c, none)
  | [only] => c.searchSingleIndex cfg query K resSize only
  | jobs => firstHit cfg query K c (c.parallelAttempts cfg s query K jobs)

/-! ## The sequential strategy -/

/-- The shards that hold vectors, in recency order, with their reports. -/
def sequentialSearched (c : Cache V) (query : V) (K : Nat) : List (Nat × Report) :=
  (c.lruCache.getAllTags.filter fun i => decide (0 < c.activeVectors i)).map fun i =>
    (i, c.shardReport cfg query K 0 i)

def sequentialAttempts (s : Sorters) (c : Cache V) (query : V) (K : Nat) : List Attempt :=
  let searched := c.sequentialSearched cfg query K
  singleAttempt searched ++ [mergedAttempt s searched K] ++ searched.map shardAttempt

/-- `search_sequential` up to the call of `handle_backend_miss`. -/
def searchSequential (s : Sorters) (c : Cache V) (query : V) (K : Nat) : Cache V × Option Report :=
  firstHit cfg query K c (c.sequentialAttempts cfg s query K)

/-- `search` up to the call of `handle_backend_miss`: the tags and distances of
    a hit, or `none`.  `resSize` is the size of the caller's `res`. -/
def lookup (s : Sorters) (c : Cache V) (query : V) (K resSize : Nat) : Cache V × Option Report :=
  if c.searchStrategy = .parallel ∧ cfg.searchPool = true then
    c.parallelSearchMemoryIndices cfg s query K resSize
  else c.searchSequential cfg s query K

/-! ## The attempts of a strategy -/

/-- Attempts are on one shard or on the merge of all. -/
theorem forall_attempts {P : Attempt → Prop} {searched : List (Nat × Report)} {s : Sorters}
    {K : Nat} (hshards : ∀ ir ∈ searched, P (shardAttempt ir))
    (hmerged : P (mergedAttempt s searched K)) :
    ∀ a ∈ singleAttempt searched ++ [mergedAttempt s searched K] ++ searched.map shardAttempt,
      P a := by
  have hall : ∀ a ∈ searched.map shardAttempt, P a := by
    intro a ha
    obtain ⟨ir, hir, rfl⟩ := List.mem_map.mp ha
    exact hshards ir hir
  intro a ha
  rcases List.mem_append.mp ha with ha | ha
  · rcases List.mem_append.mp ha with ha | ha
    · unfold singleAttempt at ha
      split_ifs at ha
      · exact hall a ha
      · cases ha
    · rw [List.mem_singleton.mp ha]
      exact hmerged
  · exact hall a ha

/-! ## The test as a predicate -/

/-- The report has K results, all of them live. -/
def KLive (c : Cache V) (K : Nat) (report : Report) : Prop :=
  K ≤ report.length ∧ ∀ td ∈ report.take K,
    td.1 ≠ 0 ∧ td.1 ≠ 0xFFFFFFFF ∧ td.1 - 1 ∉ c.deletedIds

/-- The K-th distance of a report. -/
def kthOf (K : Nat) (report : Report) : Double :=
  PcaUtils.kthDistance (report.map fun td => .fin td.2) K

/-- The hit test on a report. -/
def Passes (c : Cache V) (query : V) (K : Nat) (report : Report) : Prop :=
  c.KLive K report ∧ K ≤ c.getNumberOfVectorsInMemoryIndex ∧ K ≠ 0 ∧
    c.thresholds.Learned cfg.theta query K ∧
    kthOf K report ≤ (1 + cfg.theta.deviationFactor) * c.thresholds.seen cfg.theta query K

instance (c : Cache V) (K : Nat) (report : Report) : Decidable (c.KLive K report) :=
  inferInstanceAs (Decidable (_ ∧ ∀ td ∈ report.take K, _))

instance (c : Cache V) (query : V) (K : Nat) (report : Report) :
    Decidable (c.Passes cfg query K report) :=
  inferInstanceAs (Decidable (_ ∧ _ ∧ _ ∧ _ = false ∧ _))

variable {cfg} {c : Cache V} {query : V} {K : Nat}

theorem hasKLiveResults_iff {report : Report} :
    c.hasKLiveResults K (some (report.map Prod.fst)) report.length = true ↔ c.KLive K report := by
  unfold hasKLiveResults KLive isDeletedId
  by_cases hlen : report.length < K
  · simp [hlen, Nat.not_le.mpr hlen]
  · rw [if_neg hlen]
    simp only [← List.map_take, List.all_map, List.all_eq_true, Function.comp_apply,
      Bool.and_eq_true, Bool.not_eq_true', Bool.or_eq_false_iff, decide_eq_false_iff_not,
      Nat.not_lt.mp hlen, true_and, and_assoc, ne_eq]

theorem isHitReport_iff {report : Report} :
    (c.isHitReport cfg query K report).2 = true ↔ c.Passes cfg query K report := by
  unfold isHitReport isHit Passes
  by_cases hlive : c.hasKLiveResults K (some (report.map Prod.fst)) report.length = true
  · simp only [hlive, Bool.not_true, Bool.false_eq_true, if_false]
    rw [Thresholds.isHit_iff]
    simp only [Option.some.injEq, exists_eq_left', hasKLiveResults_iff.mp hlive, true_and, kthOf]
  · rw [if_pos (by simp [hlive])]
    exact iff_of_false Bool.false_ne_true fun h => hlive (hasKLiveResults_iff.mpr h.1)

/-- A hit test writes the thresholds only. -/
theorem isHitReport_fst (cfg : CacheConfig V) (c : Cache V) (query : V) (K : Nat)
    (report : Report) :
    ∃ th, (c.isHitReport cfg query K report).1 = { c with thresholds := th } ∧
      th.seen cfg.theta query K = c.thresholds.seen cfg.theta query K := by
  unfold isHitReport isHit
  split_ifs
  · exact ⟨c.thresholds, rfl, rfl⟩
  · exact ⟨_, rfl, Thresholds.seen_isHit _ _ _ _⟩

/-- What a hit test leaves does not change what the next one says. -/
theorem passes_congr {th : Thresholds}
    (hseen : th.seen cfg.theta query K = c.thresholds.seen cfg.theta query K) (report : Report) :
    Passes cfg { c with thresholds := th } query K report ↔ c.Passes cfg query K report := by
  unfold Passes Thresholds.Learned
  rw [hseen]
  exact Iff.rfl

/-- The outcome of trying reports is the first that passes. -/
theorem firstHit_snd (attempts : List Attempt) :
    (firstHit cfg query K c attempts).2 =
      (attempts.find? fun a => decide (c.Passes cfg query K a.report)).map
        fun a => a.report.take K := by
  induction attempts generalizing c with
  | nil => rfl
  | cons a rest ih =>
    rw [firstHit, List.find?_cons]
    by_cases hlen : K ≤ a.report.length
    · rw [if_pos hlen]
      dsimp only
      -- a test that fails leaves a state in which the rest passes as before
      by_cases hpass : c.Passes cfg query K a.report
      · rw [if_pos (isHitReport_iff.mpr hpass)]
        simp [hpass]
      · rw [if_neg fun h => hpass (isHitReport_iff.mp h)]
        obtain ⟨th, hth, hseen⟩ := isHitReport_fst cfg c query K a.report
        rw [hth, ih]
        simp only [passes_congr hseen, hpass, decide_false]
    · have hpass : ¬ c.Passes cfg query K a.report := fun h => hlen h.1.1
      rw [if_neg hlen, ih]
      simp [hpass]

/-- What a search leaves untouched, whatever it tried. -/
structure SameContents (c c' : Cache V) : Prop where
  memoryIndices : c'.memoryIndices = c.memoryIndices
  activeInsertIndexId : c'.activeInsertIndexId = c.activeInsertIndexId
  evictionInProgress : c'.evictionInProgress = c.evictionInProgress
  writeThetaDiscount : c'.writeThetaDiscount = c.writeThetaDiscount
  deletedIds : c'.deletedIds = c.deletedIds
  admitFifo : c'.admitFifo = c.admitFifo
  admitSet : c'.admitSet = c.admitSet
  searchStrategy : c'.searchStrategy = c.searchStrategy

theorem SameContents.refl (c : Cache V) : SameContents c c := ⟨rfl, rfl, rfl, rfl, rfl, rfl, rfl, rfl⟩

theorem SameContents.trans {c c' c'' : Cache V} (h : SameContents c c') (h' : SameContents c' c'') :
    SameContents c c'' where
  memoryIndices := h'.memoryIndices.trans h.memoryIndices
  activeInsertIndexId := h'.activeInsertIndexId.trans h.activeInsertIndexId
  evictionInProgress := h'.evictionInProgress.trans h.evictionInProgress
  writeThetaDiscount := h'.writeThetaDiscount.trans h.writeThetaDiscount
  deletedIds := h'.deletedIds.trans h.deletedIds
  admitFifo := h'.admitFifo.trans h.admitFifo
  admitSet := h'.admitSet.trans h.admitSet
  searchStrategy := h'.searchStrategy.trans h.searchStrategy

theorem sameContents_touch (shards : List Nat) : SameContents c (shards.foldl touchShard c) := by
  induction shards generalizing c with
  | nil => exact .refl c
  | cons i rest ih =>
    have hone : SameContents c (c.touchShard i) := ⟨rfl, rfl, rfl, rfl, rfl, rfl, rfl, rfl⟩
    exact hone.trans ih

theorem thresholds_touch (shards : List Nat) :
    (shards.foldl touchShard c).thresholds = c.thresholds := by
  induction shards generalizing c with
  | nil => rfl
  | cons i rest ih => exact ih

theorem sameContents_firstHit (attempts : List Attempt) :
    SameContents c (firstHit cfg query K c attempts).1 := by
  induction attempts generalizing c with
  | nil => exact .refl c
  | cons a rest ih =>
    obtain ⟨th, hth, _⟩ := isHitReport_fst cfg c query K a.report
    have htest : SameContents c (c.isHitReport cfg query K a.report).1 := by
      rw [hth]
      exact ⟨rfl, rfl, rfl, rfl, rfl, rfl, rfl, rfl⟩
    rw [firstHit]
    dsimp only
    split_ifs
    · exact htest.trans (sameContents_touch _)
    · exact htest.trans ih
    · exact ih

/-- A search that hits leaves the threshold it compared with stored. -/
theorem stored_of_firstHit {attempts : List Attempt} {report : Report}
    (h : (firstHit cfg query K c attempts).2 = some report) :
    (firstHit cfg query K c attempts).1.thresholds.stored cfg.theta query K =
      some (c.thresholds.seen cfg.theta query K) := by
  induction attempts generalizing c with
  | nil => cases h
  | cons a rest ih =>
    obtain ⟨th, hth, hseen⟩ := isHitReport_fst cfg c query K a.report
    rw [firstHit] at h ⊢
    dsimp only at h ⊢
    split_ifs at h ⊢ with hlen hhit
    · rw [thresholds_touch]
      -- the test that passes has stored the threshold; a failed one only creates
      have hlive := hasKLiveResults_iff.mpr (isHitReport_iff.mp hhit).1
      have hpath : (c.isHitReport cfg query K a.report) =
          ({ c with thresholds := (c.thresholds.isHit cfg.theta query K
              (some (a.report.map fun td => .fin td.2)) c.getNumberOfVectorsInMemoryIndex).1 },
            (c.thresholds.isHit cfg.theta query K
              (some (a.report.map fun td => .fin td.2)) c.getNumberOfVectorsInMemoryIndex).2) := by
        unfold isHitReport isHit
        rw [if_neg (by simp [hlive])]
      rw [hpath] at hhit ⊢
      exact Thresholds.stored_of_isHit hhit
    · rw [hth] at h ⊢
      rw [ih h]
      exact congrArg some hseen
    · exact ih h

end Cache

end QvCache
