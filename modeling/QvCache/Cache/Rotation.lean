/-
  QvCache.Cache.Rotation

  The recency order as the code's accesses leave it.  Each function of the
  cache is given the list of its calls of `lru_cache->access`, read off the
  source; folding that list into the order before gives the order after.

  While the order lists every shard, nothing is ever dropped from it, and an
  eviction replaces the shard at its end.
-/

import QvCache.Cache.HitSpec
import QvCache.Cache.Shape
import QvCache.Lib.Recency

namespace QvCache

namespace LruCache

/-- Nothing is dropped for a tag that is listed or has room. -/
theorem orderList_access {l : LruCache} {tag : Nat}
    (h : tag ∈ l.orderList ∨ l.orderList.length < l.maxCapacity) :
    (l.access tag).orderList = Recency.access l.orderList tag := by
  unfold access Recency.access
  by_cases hmem : tag ∈ l.orderList
  · rw [if_pos hmem]
  · rw [if_neg hmem, if_neg (Nat.not_le.mpr (h.resolve_left hmem)), List.erase_of_not_mem hmem]

theorem Complete.orderList_foldl {n : Nat} {tags : List Nat} {l : LruCache} (h : l.Complete n)
    (htags : ∀ tag ∈ tags, tag < n) :
    (tags.foldl LruCache.access l).orderList = tags.foldl Recency.access l.orderList := by
  induction tags generalizing l with
  | nil => rfl
  | cons tag rest ih =>
    have hlt := htags tag List.mem_cons_self
    rw [List.foldl_cons, List.foldl_cons,
      ih (h.access hlt) fun t ht => htags t (List.mem_cons_of_mem tag ht),
      orderList_access (Or.inl (h.mem_iff.mpr (List.mem_range.mpr hlt)))]

/-- The accesses of the loop that adds what the order lacks. -/
def missing (l : LruCache) : List Nat → List Nat
  | [] => []
  | i :: rest => if l.contains i then l.missing rest else i :: (l.access i).missing rest

theorem missing_lt {l : LruCache} {shards : List Nat} {n : Nat} (h : ∀ i ∈ shards, i < n) :
    ∀ i ∈ l.missing shards, i < n := by
  induction shards generalizing l with
  | nil => exact nofun
  | cons j rest ih =>
    have hrest := fun i hi => h i (List.mem_cons_of_mem j hi)
    unfold missing
    split_ifs
    · exact ih hrest
    · intro i hi
      rcases List.mem_cons.mp hi with rfl | hi
      · exact h _ List.mem_cons_self
      · exact ih hrest i hi

end LruCache

namespace Cache

variable {V : Type} {cfg : CacheConfig V} {c : Cache V}

/-! ## The accesses of each function -/

/-- The accesses of `perform_eviction`. -/
def evictionAccesses (cfg : CacheConfig V) (c : Cache V) : List Nat :=
  match c.evictionVictim cfg with
  | none => []
  | some (replaced, touch) =>
    let touched := if touch then [replaced] else []
    touched ++ (touched.foldl LruCache.access c.lruCache).missing
      (List.range cfg.numberOfMiniIndexes)

/-- The accesses of `ensure_admit_shard`. -/
def admitAccesses (cfg : CacheConfig V) (c : Cache V) : List Nat :=
  let shard := c.activeInsertIndexId
  if (c.reclaimInsertSlots cfg shard).shardHasInsertSlots cfg shard then []
  else
    match (c.allReclaimed cfg).findShardWithCapacity cfg with
    | some spare => [spare]
    | none =>
      if (c.allReclaimed cfg).evictionInProgress then [] else (c.readyToEvict cfg).evictionAccesses cfg

/-- The accesses of a search that tries these reports. -/
def hitAccesses (cfg : CacheConfig V) (query : V) (K : Nat) : Cache V → List Attempt → List Nat
  | _, [] => []
  | c, a :: rest =>
    if K ≤ a.report.length then
      let r := c.isHitReport cfg query K a.report
      if r.2 then a.touched else hitAccesses cfg query K r.1 rest
    else hitAccesses cfg query K c rest

/-- The accesses of `search` up to its verdict. -/
def lookupAccesses (cfg : CacheConfig V) (s : Sorters) (c : Cache V) (query : V) (K resSize : Nat) :
    List Nat :=
  if c.searchStrategy = .parallel ∧ cfg.searchPool = true then
    let jobs := c.searchJobs (c.occupiedShards cfg)
    match jobs with
    | [] => []
    | [only] =>
      if 0 < c.activeVectors only then
        hitAccesses cfg query K c [shardAttempt (only, c.shardReport cfg query K resSize only)]
      else []
    | jobs => hitAccesses cfg query K c (c.parallelAttempts cfg s query K jobs)
  else hitAccesses cfg query K c (c.sequentialAttempts cfg s query K)

/-! ## What they leave -/

theorem lruCache_foldl_touch (shards : List Nat) (c : Cache V) :
    (shards.foldl touchShard c).lruCache = shards.foldl LruCache.access c.lruCache := by
  induction shards generalizing c with
  | nil => rfl
  | cons i rest ih => exact ih (c.touchShard i)

/-- The loop at the end of `perform_eviction`. -/
theorem lruCache_foldl_missing (shards : List Nat) (c : Cache V) :
    (shards.foldl (fun c i => if c.lruCache.contains i then c else c.touchShard i) c).lruCache =
      (c.lruCache.missing shards).foldl LruCache.access c.lruCache := by
  induction shards generalizing c with
  | nil => rfl
  | cons i rest ih =>
    rw [List.foldl_cons, LruCache.missing, ih]
    by_cases hmem : c.lruCache.contains i = true
    · rw [if_pos hmem, if_pos hmem]
    · rw [if_neg hmem, if_neg hmem]
      rfl

theorem lruCache_performEviction (c : Cache V) :
    (c.performEviction cfg).lruCache =
      (c.evictionAccesses cfg).foldl LruCache.access c.lruCache := by
  unfold performEviction evictionAccesses
  cases c.evictionVictim cfg with
  | none => rfl
  | some victim =>
    obtain ⟨replaced, touch⟩ := victim
    dsimp only
    rw [lruCache_foldl_missing, List.foldl_append]
    cases touch <;> rfl

/-- Reclaiming slots leaves everything but the mini-indexes alone. -/
theorem reclaimInsertSlots_eq (cfg : CacheConfig V) (c : Cache V) (i : Nat) :
    ∃ idxs, idxs.length = c.memoryIndices.length ∧
      c.reclaimInsertSlots cfg i = { c with memoryIndices := idxs } := by
  unfold reclaimInsertSlots
  split_ifs
  · exact c.consolidateShard_eq i
  · exact ⟨c.memoryIndices, rfl, rfl⟩

theorem reclaimOthers_eq (cfg : CacheConfig V) (c : Cache V) (shard : Nat) :
    ∃ idxs, idxs.length = c.memoryIndices.length ∧
      c.reclaimOthers cfg shard = { c with memoryIndices := idxs } := by
  unfold reclaimOthers
  generalize List.range c.memoryIndices.length = shards
  induction shards generalizing c with
  | nil => exact ⟨c.memoryIndices, rfl, rfl⟩
  | cons i rest ih =>
    rw [List.foldl_cons]
    by_cases hi : i = shard
    · rw [if_pos hi]
      exact ih c
    · rw [if_neg hi]
      obtain ⟨idxs, hlen, heq⟩ := reclaimInsertSlots_eq cfg c i
      obtain ⟨idxs', hlen', heq'⟩ := ih (c.reclaimInsertSlots cfg i)
      rw [heq] at heq' hlen'
      refine ⟨idxs', hlen'.trans hlen, ?_⟩
      rw [heq]
      exact heq'

theorem allReclaimed_eq (cfg : CacheConfig V) (c : Cache V) :
    ∃ idxs, idxs.length = c.memoryIndices.length ∧
      c.allReclaimed cfg = { c with memoryIndices := idxs } := by
  unfold allReclaimed
  obtain ⟨idxs, hlen, heq⟩ := reclaimInsertSlots_eq cfg c c.activeInsertIndexId
  obtain ⟨idxs', hlen', heq'⟩ :=
    reclaimOthers_eq cfg (c.reclaimInsertSlots cfg c.activeInsertIndexId) c.activeInsertIndexId
  rw [heq] at hlen' heq' ⊢
  exact ⟨idxs', hlen'.trans hlen, heq'⟩

theorem lruCache_ensureAdmitShard (c : Cache V) :
    (c.ensureAdmitShard cfg).1.lruCache =
      (c.admitAccesses cfg).foldl LruCache.access c.lruCache := by
  obtain ⟨idxs, _, hactive⟩ := reclaimInsertSlots_eq cfg c c.activeInsertIndexId
  obtain ⟨all, _, hall⟩ := allReclaimed_eq cfg c
  have hsame : (c.allReclaimed cfg).lruCache = c.lruCache := by rw [hall]
  have hready : (c.readyToEvict cfg).lruCache = c.lruCache := hsame
  have hways := admitShard cfg c
  generalize c.ensureAdmitShard cfg = r at hways ⊢
  unfold admitAccesses
  dsimp only
  cases hways with
  | active hslots =>
    rw [if_pos hslots, hactive]
    rfl
  | spare spare hfull hspare =>
    rw [if_neg hfull, hspare, hsame]
    rfl
  | pending hfull hflag hnone =>
    rw [if_neg hfull, hnone, if_pos hflag]
    exact hsame
  | evicted hfull hflag hnone =>
    rw [if_neg hfull, hnone, if_neg (Bool.eq_false_iff.mp hflag)]
    dsimp only
    rw [lruCache_performEviction, hready]

theorem lruCache_firstHit {query : V} {K : Nat} (attempts : List Attempt) (c : Cache V) :
    (firstHit cfg query K c attempts).1.lruCache =
      (hitAccesses cfg query K c attempts).foldl LruCache.access c.lruCache := by
  induction attempts generalizing c with
  | nil => rfl
  | cons a rest ih =>
    obtain ⟨th, hth, _⟩ := isHitReport_fst cfg c query K a.report
    have hsame : (c.isHitReport cfg query K a.report).1.lruCache = c.lruCache := by rw [hth]
    rw [firstHit, hitAccesses]
    dsimp only
    split_ifs
    · rw [lruCache_foldl_touch, hsame]
    · rw [ih, hsame]
    · exact ih c

theorem lruCache_lookup (s : Sorters) (c : Cache V) (query : V) (K resSize : Nat) :
    (c.lookup cfg s query K resSize).1.lruCache =
      (c.lookupAccesses cfg s query K resSize).foldl LruCache.access c.lruCache := by
  unfold lookup lookupAccesses
  split_ifs
  · unfold parallelSearchMemoryIndices
    dsimp only
    -- the jobs are split as in the source: none, one, or several
    generalize c.searchJobs (c.occupiedShards cfg) = jobs
    rcases jobs with _ | ⟨only, _ | ⟨next, rest⟩⟩
    · rfl
    · unfold searchSingleIndex
      dsimp only
      split_ifs
      · exact lruCache_firstHit _ c
      · rfl
    · exact lruCache_firstHit _ c
  · exact lruCache_firstHit _ c

/-! ## All accesses are of shards -/

theorem Shaped.lt_of_mem_order (h : Shaped cfg c) {i : Nat} (hi : i ∈ c.lruCache.orderList) :
    i < cfg.numberOfMiniIndexes :=
  List.mem_range.mp (h.lru.mem_iff.mp hi)

theorem hitAccesses_lt {query : V} {K : Nat} {attempts : List Attempt} {n : Nat}
    (h : ∀ a ∈ attempts, ∀ i ∈ a.touched, i < n) (c : Cache V) :
    ∀ i ∈ hitAccesses cfg query K c attempts, i < n := by
  induction attempts generalizing c with
  | nil => exact nofun
  | cons a rest ih =>
    have hrest := fun a' ha' => h a' (List.mem_cons_of_mem a ha')
    rw [hitAccesses]
    dsimp only
    split_ifs
    · exact h a List.mem_cons_self
    · exact ih hrest _
    · exact ih hrest c

theorem Shaped.lookupAccesses_lt (h : Shaped cfg c) (s : Sorters) (query : V) (K resSize : Nat) :
    ∀ i ∈ c.lookupAccesses cfg s query K resSize, i < cfg.numberOfMiniIndexes := by
  unfold lookupAccesses
  split_ifs
  · dsimp only
    split
    · exact nofun
    · next only honly =>
      split_ifs
      · refine hitAccesses_lt (fun a ha i hi => ?_) c
        rw [List.mem_singleton.mp ha] at hi
        rw [List.mem_singleton.mp hi]
        exact mem_searchJobs_single honly
      · exact nofun
    · exact hitAccesses_lt (fun a ha =>
        touched_lt (s := s) lt_of_mem_parallelSearched a (List.mem_append_left _ ha)) c
  · exact hitAccesses_lt (touched_lt (lt_of_mem_sequentialSearched h)) c

/-! ## Eviction -/

/-- The last element of the order is the victim, unless it is the only one. -/
theorem Shaped.evictionVictim (h : Shaped cfg c) :
    ∃ front victim, c.lruCache.orderList = front ++ [victim] ∧
      c.evictionVictim cfg = if cfg.numberOfMiniIndexes = 1 then none else some (victim, true) := by
  have hlen : c.lruCache.orderList.length = cfg.numberOfMiniIndexes := by
    rw [h.lru.length_eq, List.length_range]
  -- there is a shard, so there is a last one
  have hne : c.lruCache.orderList ≠ [] := by
    intro hnil
    rw [hnil] at hlen
    exact absurd cfg.someMiniIndex (by rw [← hlen]; exact Nat.lt_irrefl 0)
  refine ⟨c.lruCache.orderList.dropLast, c.lruCache.orderList.getLast hne,
    (List.dropLast_append_getLast hne).symm, ?_⟩
  have hlast : c.lruCache.getLruTags 1 = [c.lruCache.orderList.getLast hne] := by
    show c.lruCache.orderList.reverse.take 1 = _
    conv_lhs => rw [← List.dropLast_append_getLast hne]
    rw [List.reverse_append]
    rfl
  unfold Cache.evictionVictim
  rw [hlast]
  dsimp only
  rw [show c.lruCache.getAllTags.length = cfg.numberOfMiniIndexes from hlen]

/-- The only shard is not replaced. -/
theorem Shaped.performEviction_of_one (h : Shaped cfg c) (hone : cfg.numberOfMiniIndexes = 1) :
    c.performEviction cfg = { c with evictionInProgress := false } := by
  obtain ⟨_, _, _, hvictim⟩ := h.evictionVictim
  rw [if_pos hone] at hvictim
  unfold Cache.performEviction
  rw [hvictim]

/-- The state after shard `victim` was replaced by a fresh one. -/
def replaced (cfg : CacheConfig V) (c : Cache V) (victim : Nat) : Cache V :=
  { c with
    memoryIndices :=
      c.memoryIndices.set victim (MiniIndex.create cfg.memoryIndexMaxPointsPerIndex)
    activeInsertIndexId := victim
    lruCache := c.lruCache.access victim
    evictionInProgress := false }

theorem foldl_missing_eq (h : c.lruCache.Complete cfg.numberOfMiniIndexes) {shards : List Nat}
    (hshards : ∀ i ∈ shards, i < cfg.numberOfMiniIndexes) :
    shards.foldl (fun c i => if c.lruCache.contains i then c else c.touchShard i) c = c := by
  induction shards with
  | nil => rfl
  | cons i rest ih =>
    have hmem : c.lruCache.contains i = true :=
      decide_eq_true (h.mem_iff.mpr (List.mem_range.mpr (hshards i List.mem_cons_self)))
    rw [List.foldl_cons, if_pos hmem]
    exact ih fun j hj => hshards j (List.mem_cons_of_mem i hj)

/-- The shard at the end of the order is replaced. -/
theorem Shaped.performEviction_of_two (h : Shaped cfg c) (htwo : 2 ≤ cfg.numberOfMiniIndexes) :
    ∃ front victim, c.lruCache.orderList = front ++ [victim] ∧
      c.performEviction cfg = c.replaced cfg victim := by
  obtain ⟨front, victim, horder, hvictim⟩ := h.evictionVictim
  rw [if_neg (by omega)] at hvictim
  refine ⟨front, victim, horder, ?_⟩
  have hlt : victim < cfg.numberOfMiniIndexes :=
    h.lt_of_mem_order (horder ▸ List.mem_append_right _ (List.mem_singleton_self victim))
  unfold Cache.performEviction
  rw [hvictim]
  dsimp only
  rw [if_pos rfl, foldl_missing_eq (h.lru.access hlt) fun i hi => List.mem_range.mp hi]
  rfl

theorem Shaped.evictionAccesses_lt (h : Shaped cfg c) :
    ∀ i ∈ c.evictionAccesses cfg, i < cfg.numberOfMiniIndexes := by
  obtain ⟨front, victim, horder, hvictim⟩ := h.evictionVictim
  unfold Cache.evictionAccesses
  rw [hvictim]
  by_cases hone : cfg.numberOfMiniIndexes = 1
  · rw [if_pos hone]
    exact nofun
  · rw [if_neg hone]
    intro i hi
    rcases List.mem_append.mp hi with htouched | hmissing
    · rw [List.mem_singleton.mp htouched]
      exact h.lt_of_mem_order (horder ▸ List.mem_append_right _ (List.mem_singleton_self victim))
    · exact LruCache.missing_lt (fun j hj => List.mem_range.mp hj) i hmissing

theorem Shaped.admitAccesses_lt (h : Shaped cfg c) :
    ∀ i ∈ c.admitAccesses cfg, i < cfg.numberOfMiniIndexes := by
  have hall := h.allReclaimed
  have hready : Shaped cfg (c.readyToEvict cfg) := hall.of_same rfl rfl
  unfold Cache.admitAccesses
  dsimp only
  split
  · exact nofun
  · cases hspare : (c.allReclaimed cfg).findShardWithCapacity cfg with
    | some spare =>
      intro i hi
      rw [List.mem_singleton.mp hi]
      exact hall.lt_of_slots (slots_of_findShardWithCapacity hspare)
    | none =>
      dsimp only
      split_ifs
      · exact nofun
      · exact hready.evictionAccesses_lt

/-! ## The insert target -/

/-- The shards are complete, inserts have a target among them, and no eviction
    is under way. -/
structure Steady (cfg : CacheConfig V) (c : Cache V) : Prop where
  shaped : Shaped cfg c
  active : c.activeInsertIndexId < cfg.numberOfMiniIndexes
  resting : c.evictionInProgress = false

/-- The insert target and the flag stay as they are. -/
theorem Steady.of_same {c' : Cache V} (h : Steady cfg c) (hshaped : Shaped cfg c')
    (hactive : c'.activeInsertIndexId = c.activeInsertIndexId)
    (hflag : c'.evictionInProgress = c.evictionInProgress) : Steady cfg c' :=
  ⟨hshaped, hactive ▸ h.active, hflag.trans h.resting⟩

theorem steady_init (radius : Nat) (alpha : ℚ) : Steady cfg (Cache.init cfg radius alpha) :=
  ⟨shaped_init radius alpha, cfg.someMiniIndex, rfl⟩

theorem steady_performEviction (h : Shaped cfg c)
    (hactive : c.activeInsertIndexId < cfg.numberOfMiniIndexes) :
    Steady cfg (c.performEviction cfg) := by
  -- a single shard keeps its place, otherwise the victim becomes the target
  by_cases hone : cfg.numberOfMiniIndexes = 1
  · rw [h.performEviction_of_one hone]
    exact ⟨h.of_same rfl rfl, hactive, rfl⟩
  · have hpos := cfg.someMiniIndex
    obtain ⟨front, victim, horder, heq⟩ := h.performEviction_of_two (by omega)
    have hshaped := h.performEviction
    rw [heq] at hshaped ⊢
    exact ⟨hshaped, h.lt_of_mem_order
      (horder ▸ List.mem_append_right _ (List.mem_singleton_self victim)), rfl⟩

theorem Steady.ensureAdmitShard (h : Steady cfg c) : Steady cfg (c.ensureAdmitShard cfg).1 := by
  obtain ⟨idxs, _, hreclaimed⟩ := reclaimInsertSlots_eq cfg c c.activeInsertIndexId
  obtain ⟨all, _, hall⟩ := allReclaimed_eq cfg c
  have hshaped := h.shaped.allReclaimed
  have hflag : (c.allReclaimed cfg).evictionInProgress = c.evictionInProgress := by rw [hall]
  have hactive : (c.allReclaimed cfg).activeInsertIndexId = c.activeInsertIndexId := by rw [hall]
  have hways := admitShard cfg c
  generalize c.ensureAdmitShard cfg = r at hways ⊢
  cases hways with
  | active => exact h.of_same (h.shaped.reclaimInsertSlots _) (by rw [hreclaimed]) (by rw [hreclaimed])
  | spare spare _ hspare =>
    have hlt := hshaped.lt_of_slots (slots_of_findShardWithCapacity hspare)
    exact ⟨⟨hshaped.length, hshaped.lru.access hlt⟩, hlt, hflag.trans h.resting⟩
  -- in a steady state no eviction is under way
  | pending _ hpending => exact nomatch hpending.symm.trans (hflag.trans h.resting)
  | evicted =>
    have hready : Shaped cfg (c.readyToEvict cfg) := hshaped.of_same rfl rfl
    exact steady_performEviction hready (hactive ▸ h.active)

/-- The shard `ensure_admit_shard` returns is one of the configured ones. -/
theorem Steady.admitShard_lt (h : Steady cfg c) :
    (c.ensureAdmitShard cfg).2 < cfg.numberOfMiniIndexes := by
  obtain ⟨all, _, hall⟩ := allReclaimed_eq cfg c
  have hactive : (c.allReclaimed cfg).activeInsertIndexId = c.activeInsertIndexId := by rw [hall]
  have hshaped := h.shaped.allReclaimed
  have hways := admitShard cfg c
  generalize c.ensureAdmitShard cfg = r at hways ⊢
  cases hways with
  | active => exact h.active
  | spare spare _ hspare => exact hshaped.lt_of_slots (slots_of_findShardWithCapacity hspare)
  | pending => exact hactive ▸ h.active
  | evicted =>
    have hready : Shaped cfg (c.readyToEvict cfg) := hshaped.of_same rfl rfl
    exact (steady_performEviction hready (hactive ▸ h.active)).active

theorem Steady.chooseDataShard (h : Steady cfg c) : Steady cfg (c.chooseDataShard cfg).1 := by
  obtain ⟨idxs, _, hreclaimed⟩ := reclaimInsertSlots_eq cfg c c.activeInsertIndexId
  refine h.of_same h.shaped.chooseDataShard ?_ ?_
  · rw [chooseDataShard_fst, hreclaimed]
  · rw [chooseDataShard_fst, hreclaimed]

theorem Steady.lookup (h : Steady cfg c) (s : Sorters) (query : V) (K resSize : Nat) :
    Steady cfg (c.lookup cfg s query K resSize).1 := by
  have hsame : SameContents c (c.lookup cfg s query K resSize).1 := sameContents_lookup s resSize
  exact h.of_same (h.shaped.lookup s query K resSize) hsame.activeInsertIndexId
    hsame.evictionInProgress

/-! ## The sequential strategy -/

/-- Every shard that holds vectors is searched once. -/
theorem Shaped.sequentialSearched (h : Shaped cfg c) (query : V) (K : Nat) :
    ((c.sequentialSearched cfg query K).map Prod.fst).Perm (c.occupiedShards cfg) := by
  have hfst : (c.sequentialSearched cfg query K).map Prod.fst =
      c.lruCache.orderList.filter fun i => decide (0 < c.activeVectors i) := by
    unfold Cache.sequentialSearched
    rw [List.map_map]
    exact List.map_id _
  rw [hfst]
  exact h.lru.filter _

end Cache

end QvCache
