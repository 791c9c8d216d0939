/-
  QvCache.Cache.Shape

  The invariant of the shards: there are as many as configured, and the recency
  order lists each of them exactly once.  Every function on the cache keeps it.
-/

import QvCache.Cache.Contents

namespace QvCache

namespace Cache

variable {V : Type} {cfg : CacheConfig V} {c : Cache V}

/-- The shards are complete, and so is their recency order. -/
structure Shaped (cfg : CacheConfig V) (c : Cache V) : Prop where
  length : c.memoryIndices.length = cfg.numberOfMiniIndexes
  lru : c.lruCache.Complete cfg.numberOfMiniIndexes

/-! ## The initial order -/

/-- Accessing new shards one by one fills the order up. -/
theorem complete_foldl_access (n cap : Nat) (hcap : n ≤ cap) :
    ((List.range n).foldl LruCache.access ⟨[], cap⟩).Complete n ∧
      ((List.range n).foldl LruCache.access ⟨[], cap⟩).maxCapacity = cap := by
  induction n with
  | zero => exact ⟨List.Perm.refl _, rfl⟩
  | succ n ih =>
    obtain ⟨hperm, hmax⟩ := ih (by omega)
    rw [List.range_succ, List.foldl_append, List.foldl_cons, List.foldl_nil]
    set l := (List.range n).foldl LruCache.access ⟨[], cap⟩ with hl
    have hlen : l.orderList.length = n := by
      rw [hperm.length_eq, List.length_range]
    have hnew : n ∉ l.orderList := fun hmem => by
      have := List.mem_range.mp (hperm.mem_iff.mp hmem)
      omega
    rw [LruCache.access, if_neg hnew, if_neg (by omega)]
    refine ⟨?_, hmax⟩
    unfold LruCache.Complete
    rw [List.range_succ]
    exact (List.Perm.cons n hperm).trans (List.perm_append_singleton n _).symm

theorem shaped_init (radius : Nat) (alpha : ℚ) : Shaped cfg (Cache.init cfg radius alpha) where
  length := List.length_replicate
  lru := (complete_foldl_access _ _ (le_refl _)).1

/-! ## Housekeeping -/

theorem Shaped.of_same {c' : Cache V} (h : Shaped cfg c)
    (hlen : c'.memoryIndices.length = c.memoryIndices.length)
    (hlru : c'.lruCache = c.lruCache) : Shaped cfg c' :=
  ⟨hlen.trans h.length, hlru ▸ h.lru⟩

theorem Shaped.setIndex (h : Shaped cfg c) (i : Nat) (idx : MiniIndex V) :
    Shaped cfg (c.setIndex i idx) :=
  h.of_same List.length_set rfl

theorem Shaped.touchShard (h : Shaped cfg c) {i : Nat} (hi : i < cfg.numberOfMiniIndexes) :
    Shaped cfg (c.touchShard i) :=
  ⟨h.length, h.lru.access hi⟩

theorem Shaped.touchAll {shards : List Nat} (h : Shaped cfg c)
    (hshards : ∀ i ∈ shards, i < cfg.numberOfMiniIndexes) :
    Shaped cfg (shards.foldl Cache.touchShard c) := by
  induction shards generalizing c with
  | nil => exact h
  | cons i rest ih =>
    exact ih (h.touchShard (hshards i List.mem_cons_self))
      fun j hj => hshards j (List.mem_cons_of_mem i hj)

theorem Shaped.consolidateShard (h : Shaped cfg c) (i : Nat) : Shaped cfg (c.consolidateShard i) := by
  obtain ⟨idxs, hlen, heq⟩ := c.consolidateShard_eq i
  rw [heq]
  exact h.of_same hlen rfl

theorem Shaped.reclaimInsertSlots (h : Shaped cfg c) (i : Nat) :
    Shaped cfg (c.reclaimInsertSlots cfg i) := by
  unfold Cache.reclaimInsertSlots
  split_ifs
  · exact h.consolidateShard i
  · exact h

theorem Shaped.reclaimOthers (h : Shaped cfg c) (shard : Nat) :
    Shaped cfg (c.reclaimOthers cfg shard) := by
  unfold Cache.reclaimOthers
  generalize List.range c.memoryIndices.length = shards
  induction shards generalizing c with
  | nil => exact h
  | cons i rest ih =>
    rw [List.foldl_cons]
    refine ih ?_
    split_ifs
    · exact h
    · exact h.reclaimInsertSlots i

/-- A shard with free slots is one of the configured ones. -/
theorem Shaped.lt_of_slots (h : Shaped cfg c) {i : Nat}
    (hslots : c.shardHasInsertSlots cfg i = true) : i < cfg.numberOfMiniIndexes := by
  unfold Cache.shardHasInsertSlots at hslots
  cases hidx : c.memoryIndices[i]? with
  | none =>
    rw [hidx] at hslots
    cases hslots
  | some idx => exact h.length ▸ (List.getElem?_eq_some_iff.mp hidx).1

/-- One turn of the loop of `find_shard_with_capacity`. -/
def betterShard (cfg : CacheConfig V) (c : Cache V) (best : Option Nat) (i : Nat) : Option Nat :=
  if c.shardHasInsertSlots cfg i then
    match best with
    | none => some i
    | some b => if c.activeVectors i < c.activeVectors b then some i else some b
  else best

theorem findShardWithCapacity_eq (cfg : CacheConfig V) (c : Cache V) :
    c.findShardWithCapacity cfg =
      (List.range c.memoryIndices.length).foldl (betterShard cfg c) none := rfl

/-- A turn takes its shard, which has slots, or leaves the best one; it leaves
    none only if there are no slots. -/
theorem betterShard_cases (cfg : CacheConfig V) (c : Cache V) (best : Option Nat) (i : Nat) :
    (c.shardHasInsertSlots cfg i = true ∧ betterShard cfg c best i = some i) ∨
      (betterShard cfg c best i = best ∧ (c.shardHasInsertSlots cfg i = true → best ≠ none)) := by
  unfold betterShard
  by_cases hslots : c.shardHasInsertSlots cfg i = true
  · rw [if_pos hslots]
    cases best with
    | none => exact Or.inl ⟨hslots, rfl⟩
    | some b =>
      by_cases hless : c.activeVectors i < c.activeVectors b
      · exact Or.inl ⟨hslots, if_pos hless⟩
      · exact Or.inr ⟨if_neg hless, fun _ => Option.some_ne_none b⟩
  · rw [if_neg hslots]
    exact Or.inr ⟨rfl, fun h => absurd h hslots⟩

theorem slots_of_findShardWithCapacity {i : Nat} (h : c.findShardWithCapacity cfg = some i) :
    c.shardHasInsertSlots cfg i = true := by
  rw [findShardWithCapacity_eq] at h
  -- the best shard so far always has slots
  suffices hloop : ∀ (shards : List Nat) (best : Option Nat),
      (∀ b, best = some b → c.shardHasInsertSlots cfg b = true) →
      ∀ b, shards.foldl (betterShard cfg c) best = some b → c.shardHasInsertSlots cfg b = true from
    hloop _ none (fun b hb => by cases hb) i h
  intro shards
  induction shards with
  | nil => exact fun best hbest b hb => hbest b hb
  | cons j rest ih =>
    intro best hbest b hb
    refine ih _ (fun b' hb' => ?_) b hb
    rcases betterShard_cases cfg c best j with ⟨hslots, hj⟩ | ⟨hbetter, -⟩
    · obtain rfl := Option.some.inj (hj.symm.trans hb')
      exact hslots
    · exact hbest b' (hbetter.symm.trans hb')

theorem Shaped.performEviction (h : Shaped cfg c) : Shaped cfg (c.performEviction cfg) := by
  refine performEviction_induction h (fun d i hd => (hd.setIndex i _).of_same rfl rfl)
    (fun d i hi hd => hd.touchShard ?_) (fun d hd => hd.of_same rfl rfl)
  rcases hi with hlt | hmem
  · exact hlt
  · exact List.mem_range.mp (h.lru.mem_iff.mp hmem)

theorem Shaped.allReclaimed (h : Shaped cfg c) : Shaped cfg (c.allReclaimed cfg) :=
  (h.reclaimInsertSlots _).reclaimOthers _

theorem Shaped.ensureAdmitShard (h : Shaped cfg c) : Shaped cfg (c.ensureAdmitShard cfg).1 := by
  have hall := h.allReclaimed
  have hways := admitShard cfg c
  generalize c.ensureAdmitShard cfg = r at hways ⊢
  cases hways with
  | active => exact h.reclaimInsertSlots _
  | spare spare _ hspare =>
    exact ⟨hall.length, hall.lru.access (hall.lt_of_slots (slots_of_findShardWithCapacity hspare))⟩
  | pending => exact hall
  | evicted =>
    have hready : Shaped cfg (c.readyToEvict cfg) := hall.of_same rfl rfl
    exact hready.performEviction

theorem Shaped.chooseDataShard (h : Shaped cfg c) : Shaped cfg (c.chooseDataShard cfg).1 :=
  chooseDataShard_fst cfg c ▸ h.reclaimInsertSlots _

/-- The shard an insert settles for is one of the configured ones. -/
theorem Shaped.chosen_lt (h : Shaped cfg c) {shard : Nat}
    (hshard : (c.chooseDataShard cfg).2 = some shard) : shard < cfg.numberOfMiniIndexes := by
  unfold Cache.chooseDataShard at hshard
  dsimp only at hshard
  have hreclaimed : Shaped cfg (c.reclaimInsertSlots cfg c.activeInsertIndexId) :=
    h.reclaimInsertSlots _
  split_ifs at hshard with hslots
  · obtain rfl := Option.some.inj hshard
    exact hreclaimed.lt_of_slots hslots
  · exact hreclaimed.lt_of_slots (slots_of_findShardWithCapacity hshard)

theorem Shaped.lazyDeleteIn (h : Shaped cfg c) (k : Nat) (memTag : Tag) :
    Shaped cfg (c.lazyDeleteIn k memTag) := by
  obtain ⟨idxs, hlen, heq⟩ := c.lazyDeleteIn_eq k memTag
  rw [heq]
  exact h.of_same hlen rfl

/-! ## Searching -/

theorem Shaped.firstHit {query : V} {K : Nat} {attempts : List Attempt} (h : Shaped cfg c)
    (htouched : ∀ a ∈ attempts, ∀ i ∈ a.touched, i < cfg.numberOfMiniIndexes) :
    Shaped cfg (Cache.firstHit cfg query K c attempts).1 := by
  induction attempts generalizing c with
  | nil => exact h
  | cons a rest ih =>
    have hrest := fun a' ha' => htouched a' (List.mem_cons_of_mem a ha')
    obtain ⟨th, hth, _⟩ := isHitReport_fst cfg c query K a.report
    have htest : Shaped cfg (c.isHitReport cfg query K a.report).1 := by
      rw [hth]
      exact h.of_same rfl rfl
    rw [Cache.firstHit]
    dsimp only
    split_ifs
    · exact htest.touchAll (htouched a List.mem_cons_self)
    · exact ih htest hrest
    · exact ih h hrest

/-- The attempts on searched shards and on their merge touch nothing else. -/
theorem touched_lt {searched : List (Nat × Report)} {s : Sorters} {K : Nat}
    (h : ∀ ir ∈ searched, ir.1 < cfg.numberOfMiniIndexes) :
    ∀ a ∈ singleAttempt searched ++ [mergedAttempt s searched K] ++ searched.map shardAttempt,
      ∀ i ∈ a.touched, i < cfg.numberOfMiniIndexes := by
  refine forall_attempts (P := fun a => ∀ i ∈ a.touched, i < cfg.numberOfMiniIndexes) ?_ ?_
  · intro ir hir i hi
    rw [List.mem_singleton.mp hi]
    exact h ir hir
  · intro i hi
    obtain ⟨m, hm, rfl⟩ := mem_contributingIndicesOrdered hi
    obtain ⟨r, hr, _⟩ := candidate_reported (mem_of_mem_mergeAndRerank hm)
    exact h _ hr

theorem lt_of_mem_sequentialSearched (h : Shaped cfg c) {query : V} {K : Nat} :
    ∀ ir ∈ c.sequentialSearched cfg query K, ir.1 < cfg.numberOfMiniIndexes := by
  intro ir hir
  obtain ⟨i, hi, rfl⟩ := List.mem_map.mp hir
  exact List.mem_range.mp (h.lru.mem_iff.mp (List.mem_of_mem_filter hi))

theorem lt_of_mem_parallelSearched {query : V} {K : Nat} {jobs : List Nat} :
    ∀ ir ∈ c.parallelSearched cfg query K jobs, ir.1 < cfg.numberOfMiniIndexes := by
  intro ir hir
  obtain ⟨i, hi, rfl⟩ := List.mem_map.mp (List.mem_of_mem_filter hir)
  exact List.mem_range.mp hi

theorem mem_searchJobs_single {only : Nat}
    (h : c.searchJobs (c.occupiedShards cfg) = [only]) : only < cfg.numberOfMiniIndexes := by
  have hlen : (c.occupiedShards cfg).length = 1 := by
    have := congrArg List.length h
    unfold searchJobs at this
    dsimp only at this
    split_ifs at this <;> simpa using this
  obtain ⟨i, hi⟩ := List.length_eq_one_iff.mp hlen
  have hmem : i ∈ c.occupiedShards cfg := hi ▸ List.mem_singleton_self i
  have hlt := List.mem_range.mp (List.mem_of_mem_filter hmem)
  rw [hi] at h
  have honly : c.searchJobs [i] = [i] := by
    unfold searchJobs fullestPosition
    simp
  rw [honly] at h
  exact (List.cons.inj h).1 ▸ hlt

theorem Shaped.lookup (h : Shaped cfg c) (s : Sorters) (query : V) (K resSize : Nat) :
    Shaped cfg (c.lookup cfg s query K resSize).1 := by
  unfold Cache.lookup
  split_ifs
  · unfold Cache.parallelSearchMemoryIndices
    dsimp only
    split
    · exact h
    · next only honly =>
      unfold Cache.searchSingleIndex
      split_ifs
      · refine h.firstHit fun a ha i hi => ?_
        rw [List.mem_singleton.mp ha] at hi
        rw [List.mem_singleton.mp hi]
        exact mem_searchJobs_single honly
      · exact h
    · exact h.firstHit fun a ha =>
        touched_lt (s := s) lt_of_mem_parallelSearched a (List.mem_append_left _ ha)
  · exact h.firstHit (touched_lt (lt_of_mem_sequentialSearched h))

end Cache

end QvCache
