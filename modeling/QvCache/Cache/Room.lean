/-
  QvCache.Cache.Room

  When `ensure_admit_shard` finds room.  Reclaiming a shard turns room among
  its live points into free slots, so a shard stays without slots only if its
  live points fill it; then another shard is taken or replaced.  A cache with
  one shard has no other.
-/

import QvCache.Cache.Rotation

namespace QvCache

namespace Cache

variable {V : Type} {cfg : CacheConfig V} {c : Cache V}

/-- A test of the shard at a position, if there is one. -/
theorem decide_index_iff {i : Nat} {size : MiniIndex V → Nat} {bound : Nat} :
    (match c.memoryIndices[i]? with
      | none => false
      | some idx => decide (size idx < bound)) = true ↔
      ∃ idx, c.memoryIndices[i]? = some idx ∧ size idx < bound := by
  cases c.memoryIndices[i]? with
  | none => exact iff_of_false Bool.false_ne_true fun ⟨_, h, _⟩ => nomatch h
  | some idx => simp only [decide_eq_true_iff, Option.some.injEq, exists_eq_left']

theorem shardHasCapacity_iff {i : Nat} :
    c.shardHasCapacity cfg i = true ↔
      ∃ idx, c.memoryIndices[i]? = some idx ∧
        idx.points.size < cfg.memoryIndexMaxPointsPerIndex :=
  decide_index_iff

theorem shardHasInsertSlots_iff {i : Nat} :
    c.shardHasInsertSlots cfg i = true ↔
      ∃ idx, c.memoryIndices[i]? = some idx ∧
        idx.points.size + idx.lazyDeleted < cfg.memoryIndexMaxPointsPerIndex :=
  decide_index_iff

/-- Only the mini-index itself decides about its slots. -/
theorem shardHasInsertSlots_congr {d : Cache V} {i : Nat}
    (h : d.memoryIndices[i]? = c.memoryIndices[i]?) :
    d.shardHasInsertSlots cfg i = c.shardHasInsertSlots cfg i := by
  unfold shardHasInsertSlots
  rw [h]

/-! ## Reclaiming -/

/-- The live points of a shard stay when slots are reclaimed. -/
theorem activeVectors_consolidateShard (c : Cache V) (i j : Nat) :
    (c.consolidateShard i).activeVectors j = c.activeVectors j := by
  unfold consolidateShard
  cases hidx : c.memoryIndices[i]? with
  | none => rfl
  | some idx =>
    dsimp only
    split_ifs
    · rfl
    · obtain ⟨hlt, _⟩ := List.getElem?_eq_some_iff.mp hidx
      unfold activeVectors setIndex
      by_cases hij : i = j
      · subst hij
        rw [List.getElem?_set_self hlt, hidx]
        rfl
      · rw [List.getElem?_set_ne hij]

theorem activeVectors_reclaimInsertSlots (cfg : CacheConfig V) (c : Cache V) (i j : Nat) :
    (c.reclaimInsertSlots cfg i).activeVectors j = c.activeVectors j := by
  unfold reclaimInsertSlots
  split_ifs
  · exact activeVectors_consolidateShard c i j
  · rfl

theorem activeVectors_allReclaimed (cfg : CacheConfig V) (c : Cache V) (j : Nat) :
    (c.allReclaimed cfg).activeVectors j = c.activeVectors j := by
  have hloop : ∀ (shards : List Nat) (d : Cache V) (shard : Nat),
      (shards.foldl (fun c i => if i = shard then c else c.reclaimInsertSlots cfg i) d).activeVectors
        j = d.activeVectors j := by
    intro shards
    induction shards with
    | nil => exact fun _ _ => rfl
    | cons i rest ih =>
      intro d shard
      rw [List.foldl_cons, ih]
      split_ifs
      · rfl
      · exact activeVectors_reclaimInsertSlots cfg d i j
  unfold allReclaimed reclaimOthers
  rw [hloop, activeVectors_reclaimInsertSlots]

/-- After reclaiming, a shard has slots unless its live points fill it. -/
theorem slots_reclaimInsertSlots (c : Cache V) (i : Nat) :
    (c.reclaimInsertSlots cfg i).shardHasInsertSlots cfg i = c.shardHasCapacity cfg i := by
  rw [Bool.eq_iff_iff, shardHasInsertSlots_iff, shardHasCapacity_iff]
  unfold reclaimInsertSlots reclaims consolidateShard
  constructor
  · rintro ⟨idx, hidx, hroom⟩
    -- nothing live was added
    by_cases hslots : c.shardHasInsertSlots cfg i = true
    · obtain ⟨idx', hidx', hroom'⟩ := shardHasInsertSlots_iff.mp hslots
      exact ⟨idx', hidx', by omega⟩
    · by_cases hcap : c.shardHasCapacity cfg i = true
      · exact shardHasCapacity_iff.mp hcap
      · rw [if_neg (by simp [hcap])] at hidx
        exact ⟨idx, hidx, by omega⟩
  · rintro ⟨idx, hidx, hroom⟩
    have hcap : c.shardHasCapacity cfg i = true := shardHasCapacity_iff.mpr ⟨idx, hidx, hroom⟩
    by_cases hslots : c.shardHasInsertSlots cfg i = true
    · rw [if_neg (by simp [hslots])]
      exact shardHasInsertSlots_iff.mp hslots
    · -- the lazily deleted points go
      have hdead : idx.getNumberOfLazyDeletedPoints ≠ 0 := fun hzero =>
        hslots (shardHasInsertSlots_iff.mpr ⟨idx, hidx, by
          rw [show idx.lazyDeleted = 0 from hzero]
          omega⟩)
      rw [if_pos (by simp [hcap, hslots]), hidx]
      dsimp only
      rw [if_neg hdead]
      obtain ⟨hlt, _⟩ := List.getElem?_eq_some_iff.mp hidx
      exact ⟨idx.consolidateDeletes, List.getElem?_set_self hlt, hroom⟩

/-! ## The shard that is returned -/

theorem capacity_of_slots {i : Nat} (h : c.shardHasInsertSlots cfg i = true) :
    1 ≤ cfg.memoryIndexMaxPointsPerIndex := by
  obtain ⟨idx, _, hroom⟩ := shardHasInsertSlots_iff.mp h
  omega

/-- With one shard the points are all in shard 0. -/
theorem lt_of_slots_zero (h : c.shardHasInsertSlots cfg 0 = true) :
    c.activeVectors 0 < cfg.memoryIndexMaxPointsPerIndex := by
  obtain ⟨idx, hidx, hroom⟩ := shardHasInsertSlots_iff.mp h
  unfold activeVectors
  rw [hidx]
  show idx.points.size < _
  omega

/-- A shard with slots is not overlooked. -/
theorem exists_findShardWithCapacity {i : Nat} (h : c.shardHasInsertSlots cfg i = true) :
    ∃ spare, c.findShardWithCapacity cfg = some spare := by
  have hlt : i ∈ List.range c.memoryIndices.length := by
    obtain ⟨idx, hidx, _⟩ := shardHasInsertSlots_iff.mp h
    exact List.mem_range.mpr (List.getElem?_eq_some_iff.mp hidx).1
  rw [findShardWithCapacity_eq]
  -- the loop never forgets a shard it has found
  suffices hloop : ∀ (shards : List Nat) (best : Option Nat), best ≠ none ∨ i ∈ shards →
      ∃ spare, shards.foldl (betterShard cfg c) best = some spare from
    hloop _ none (Or.inr hlt)
  intro shards
  induction shards with
  | nil =>
    rintro best (hbest | hi)
    · exact Option.ne_none_iff_exists'.mp hbest
    · cases hi
  | cons j rest ih =>
    intro best hfound
    rw [List.foldl_cons]
    refine ih _ ?_
    rcases betterShard_cases cfg c best j with ⟨-, hj⟩ | ⟨hbetter, hkept⟩
    · exact Or.inl (hj ▸ Option.some_ne_none j)
    · rw [hbetter]
      rcases hfound with hbest | hi
      · exact Or.inl hbest
      · rcases List.mem_cons.mp hi with rfl | hrest
        · exact Or.inl (hkept h)
        · exact Or.inr hrest

/-- A fresh shard has room. -/
theorem slots_replaced (h : Shaped cfg c) {victim : Nat} (hlt : victim < cfg.numberOfMiniIndexes)
    (hcap : 1 ≤ cfg.memoryIndexMaxPointsPerIndex) :
    (c.replaced cfg victim).shardHasInsertSlots cfg victim = true :=
  shardHasInsertSlots_iff.mpr ⟨_, List.getElem?_set_self (h.length ▸ hlt), hcap⟩

/-- `ensure_admit_shard` returns a shard with free slots, except where shards
    hold no points at all, or the only shard is full of live points. -/
theorem Steady.slots_ensureAdmitShard (h : Steady cfg c) :
    (c.ensureAdmitShard cfg).1.shardHasInsertSlots cfg (c.ensureAdmitShard cfg).2 = true ↔
      1 ≤ cfg.memoryIndexMaxPointsPerIndex ∧
        (2 ≤ cfg.numberOfMiniIndexes ∨
          c.activeVectors 0 < cfg.memoryIndexMaxPointsPerIndex) := by
  have hpos := cfg.someMiniIndex
  have hshaped := h.shaped.allReclaimed
  have hready : Shaped cfg (c.readyToEvict cfg) := hshaped.of_same rfl rfl
  have hzero : ¬ 2 ≤ cfg.numberOfMiniIndexes → c.activeInsertIndexId = 0 := by
    have := h.active
    omega
  obtain ⟨idxs, _, hall⟩ := allReclaimed_eq cfg c
  have hways := admitShard cfg c
  generalize c.ensureAdmitShard cfg = r at hways ⊢
  cases hways with
  | active hslots =>
    refine iff_of_true hslots ⟨capacity_of_slots hslots, ?_⟩
    by_cases htwo : 2 ≤ cfg.numberOfMiniIndexes
    · exact Or.inl htwo
    · rw [hzero htwo] at hslots
      rw [← activeVectors_reclaimInsertSlots cfg c 0 0]
      exact Or.inr (lt_of_slots_zero hslots)
  | spare spare _ hspare =>
    have hslots := slots_of_findShardWithCapacity hspare
    refine iff_of_true hslots ⟨capacity_of_slots hslots, ?_⟩
    by_cases htwo : 2 ≤ cfg.numberOfMiniIndexes
    · exact Or.inl htwo
    · have hlt := hshaped.lt_of_slots hslots
      obtain rfl : spare = 0 := by omega
      rw [← activeVectors_allReclaimed cfg c 0]
      exact Or.inr (lt_of_slots_zero hslots)
  | pending _ hflag =>
    rw [hall] at hflag
    exact nomatch hflag.symm.trans h.resting
  | evicted hfull _ hnone =>
    by_cases htwo : 2 ≤ cfg.numberOfMiniIndexes
    · obtain ⟨front, victim, horder, heq⟩ := hready.performEviction_of_two htwo
      have hlt := hready.lt_of_mem_order
        (horder ▸ List.mem_append_right _ (List.mem_singleton_self victim))
      rw [heq]
      exact ⟨fun hslots => ⟨capacity_of_slots hslots, Or.inl htwo⟩,
        fun hcap => slots_replaced hready hlt hcap.1⟩
    · -- the only shard is returned as it is
      rw [hready.performEviction_of_one (by omega)]
      refine iff_of_false (fun hslots => ?_) (fun hcap => ?_)
      · have hsame : (c.allReclaimed cfg).shardHasInsertSlots cfg _ = true := hslots
        obtain ⟨spare, hspare⟩ := exists_findShardWithCapacity hsame
        exact nomatch hnone.symm.trans hspare
      · refine hfull ?_
        rw [slots_reclaimInsertSlots, shardHasCapacity_iff]
        have hroom := hcap.2.resolve_left htwo
        have hlt := h.active
        rw [← h.shaped.length] at hlt
        refine ⟨c.memoryIndices[c.activeInsertIndexId], List.getElem?_eq_getElem hlt, ?_⟩
        unfold activeVectors at hroom
        rw [← hzero htwo, List.getElem?_eq_getElem hlt] at hroom
        exact hroom

end Cache

end QvCache
