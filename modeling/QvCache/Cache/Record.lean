/-
  QvCache.Cache.Record

  The record of admitted tags (`admit_fifo`, `admit_set`) next to the contents:
  what each function of the cache takes out of the shards, to the point, and
  what it writes to the record.  Of the two ways into a shard,
  `insert_point_into_shard` notes the tag and the admit task does not.
-/

import QvCache.Cache.Room

namespace QvCache

namespace Cache

variable {V : Type} {cfg : CacheConfig V} {c c' : Cache V}

/-! ## What housekeeping takes out -/

theorem holdsAt_consolidateShard (c : Cache V) (i k : Nat) (tag : Tag) (vec : V) :
    (c.consolidateShard i).HoldsAt k tag vec ↔ c.HoldsAt k tag vec := by
  refine ⟨(drops_consolidateShard c i).holds k tag vec, fun hholds => ?_⟩
  unfold consolidateShard
  cases hidx : c.memoryIndices[i]? with
  | none => exact hholds
  | some idx =>
    dsimp only
    split_ifs
    · exact hholds
    · -- consolidation frees slots and keeps the live points
      rw [holdsAt_setIndex]
      split_ifs with hk
      · obtain ⟨idx', hidx', hpoint⟩ := hholds
        rw [hk, hidx] at hidx'
        obtain rfl := Option.some.inj hidx'
        exact ⟨(List.getElem?_eq_some_iff.mp hidx).1, hpoint⟩
      · exact hholds

theorem holdsAt_reclaimInsertSlots (cfg : CacheConfig V) (c : Cache V) (i k : Nat) (tag : Tag)
    (vec : V) : (c.reclaimInsertSlots cfg i).HoldsAt k tag vec ↔ c.HoldsAt k tag vec := by
  unfold reclaimInsertSlots
  split_ifs
  · exact holdsAt_consolidateShard c i k tag vec
  · exact Iff.rfl

theorem holdsAt_allReclaimed (cfg : CacheConfig V) (c : Cache V) (k : Nat) (tag : Tag) (vec : V) :
    (c.allReclaimed cfg).HoldsAt k tag vec ↔ c.HoldsAt k tag vec := by
  unfold allReclaimed reclaimOthers
  rw [← holdsAt_reclaimInsertSlots cfg c c.activeInsertIndexId k tag vec]
  generalize c.reclaimInsertSlots cfg c.activeInsertIndexId = d
  generalize List.range d.memoryIndices.length = shards
  induction shards generalizing d with
  | nil => exact Iff.rfl
  | cons i rest ih =>
    rw [List.foldl_cons, ih]
    split_ifs
    · exact Iff.rfl
    · exact holdsAt_reclaimInsertSlots cfg d i k tag vec

/-- An eviction empties its victim and no other shard. -/
theorem memoryIndices_performEviction (c : Cache V) :
    (c.performEviction cfg).memoryIndices =
      match c.evictionVictim cfg with
      | none => c.memoryIndices
      | some (victim, _) =>
        c.memoryIndices.set victim (MiniIndex.create cfg.memoryIndexMaxPointsPerIndex) := by
  -- the loop that completes the order touches no mini-index
  have hloop : ∀ (shards : List Nat) (d : Cache V), (shards.foldl (fun d i =>
      if d.lruCache.contains i then d else d.touchShard i) d).memoryIndices = d.memoryIndices := by
    intro shards
    induction shards with
    | nil => exact fun _ => rfl
    | cons i rest ih =>
      intro d
      rw [List.foldl_cons, ih]
      split_ifs <;> rfl
  unfold performEviction
  cases c.evictionVictim cfg with
  | none => rfl
  | some victim =>
    obtain ⟨replaced, touch⟩ := victim
    dsimp only
    rw [hloop]
    cases touch <;> rfl

theorem holdsAt_performEviction (c : Cache V) (k : Nat) (tag : Tag) (vec : V) :
    (c.performEviction cfg).HoldsAt k tag vec ↔
      c.HoldsAt k tag vec ∧ (c.evictionVictim cfg).map Prod.fst ≠ some k := by
  have hindices : (c.performEviction cfg).memoryIndices = _ := memoryIndices_performEviction c
  cases hvictim : c.evictionVictim cfg with
  | none =>
    rw [hvictim] at hindices
    rw [holdsAt_congr hindices]
    exact (and_iff_left nofun).symm
  | some victim =>
    obtain ⟨replaced, touch⟩ := victim
    rw [hvictim] at hindices
    have hset : (c.performEviction cfg).HoldsAt k tag vec ↔
        (c.setIndex replaced (MiniIndex.create cfg.memoryIndexMaxPointsPerIndex)).HoldsAt k tag
          vec := holdsAt_congr hindices
    rw [hset, holdsAt_setIndex]
    -- the victim is fresh, the others are as before
    split_ifs with hk
    · refine iff_of_false (fun h => ?_) (fun h => h.2 (hk ▸ rfl))
      simp [MiniIndex.Holds, MiniIndex.create] at h
    · exact (and_iff_left fun heq => hk (Option.some.inj heq).symm).symm

/-- The shard that `ensure_admit_shard` evicts, if it evicts. -/
def admitVictim (cfg : CacheConfig V) (c : Cache V) : Option Nat :=
  if (c.reclaimInsertSlots cfg c.activeInsertIndexId).shardHasInsertSlots cfg
      c.activeInsertIndexId then none
  else
    match (c.allReclaimed cfg).findShardWithCapacity cfg with
    | some _ => none
    | none =>
      if (c.allReclaimed cfg).evictionInProgress then none
      else ((c.readyToEvict cfg).evictionVictim cfg).map Prod.fst

theorem holdsAt_ensureAdmitShard (c : Cache V) (k : Nat) (tag : Tag) (vec : V) :
    (c.ensureAdmitShard cfg).1.HoldsAt k tag vec ↔
      c.HoldsAt k tag vec ∧ c.admitVictim cfg ≠ some k := by
  have hall := holdsAt_allReclaimed cfg c k tag vec
  have hways := admitShard cfg c
  generalize c.ensureAdmitShard cfg = r at hways ⊢
  unfold admitVictim
  cases hways with
  | active hslots =>
    rw [if_pos hslots, holdsAt_reclaimInsertSlots]
    exact (and_iff_left nofun).symm
  | spare spare hfull hspare =>
    rw [if_neg hfull, hspare]
    exact hall.trans (and_iff_left nofun).symm
  | pending hfull hflag hnone =>
    rw [if_neg hfull, hnone]
    dsimp only
    rw [if_pos hflag]
    exact hall.trans (and_iff_left nofun).symm
  | evicted hfull hflag hnone =>
    rw [if_neg hfull, hnone]
    dsimp only
    rw [if_neg (Bool.eq_false_iff.mp hflag), holdsAt_performEviction]
    exact and_congr_left' hall

theorem holdsAt_chooseDataShard (c : Cache V) (k : Nat) (tag : Tag) (vec : V) :
    (c.chooseDataShard cfg).1.HoldsAt k tag vec ↔ c.HoldsAt k tag vec := by
  rw [chooseDataShard_fst]
  exact holdsAt_reclaimInsertSlots cfg c _ k tag vec

/-! ## What is noted -/

/-- The record is as it was. -/
structure SameRecord (c c' : Cache V) : Prop where
  admitSet : c'.admitSet = c.admitSet
  admitFifo : c'.admitFifo = c.admitFifo

theorem sameRecord_performEviction (c : Cache V) : SameRecord c (c.performEviction cfg) :=
  performEviction_induction ⟨rfl, rfl⟩ (fun _ _ h => ⟨h.admitSet, h.admitFifo⟩)
    (fun _ _ _ h => ⟨h.admitSet, h.admitFifo⟩) fun _ h => ⟨h.admitSet, h.admitFifo⟩

theorem sameRecord_ensureAdmitShard (c : Cache V) : SameRecord c (c.ensureAdmitShard cfg).1 := by
  obtain ⟨idxs, _, hreclaimed⟩ := reclaimInsertSlots_eq cfg c c.activeInsertIndexId
  obtain ⟨all, _, hall⟩ := allReclaimed_eq cfg c
  have hsame : SameRecord c (c.allReclaimed cfg) := ⟨by rw [hall], by rw [hall]⟩
  have hways := admitShard cfg c
  generalize c.ensureAdmitShard cfg = r at hways ⊢
  cases hways with
  | active => exact ⟨by rw [hreclaimed], by rw [hreclaimed]⟩
  | spare => exact ⟨hsame.admitSet, hsame.admitFifo⟩
  | pending => exact hsame
  | evicted =>
    have hevicted : SameRecord (c.readyToEvict cfg) ((c.readyToEvict cfg).performEviction cfg) :=
      sameRecord_performEviction _
    exact ⟨hevicted.admitSet.trans hsame.admitSet, hevicted.admitFifo.trans hsame.admitFifo⟩

theorem sameRecord_chooseDataShard (c : Cache V) : SameRecord c (c.chooseDataShard cfg).1 := by
  obtain ⟨idxs, _, hreclaimed⟩ := reclaimInsertSlots_eq cfg c c.activeInsertIndexId
  rw [chooseDataShard_fst]
  exact ⟨by rw [hreclaimed], by rw [hreclaimed]⟩

theorem sameRecord_consolidateShard (c : Cache V) (i : Nat) :
    SameRecord c (c.consolidateShard i) := by
  obtain ⟨idxs, _, heq⟩ := c.consolidateShard_eq i
  exact ⟨by rw [heq], by rw [heq]⟩

theorem sameRecord_lazyDeleteIn (c : Cache V) (i : Nat) (memTag : Tag) :
    SameRecord c (c.lazyDeleteIn i memTag) := by
  obtain ⟨idxs, _, heq⟩ := c.lazyDeleteIn_eq i memTag
  exact ⟨by rw [heq], by rw [heq]⟩

theorem admitSet_noteAdmittedTag (c : Cache V) (memTag : Tag) :
    (c.noteAdmittedTag memTag).admitSet = insert memTag c.admitSet := by
  unfold noteAdmittedTag
  split_ifs with hmem
  · exact (Finset.insert_eq_self.mpr hmem).symm
  · rfl

/-- The tags of `admit_set` wait in `admit_fifo`. -/
def Listed (c : Cache V) : Prop := ∀ tag ∈ c.admitSet, tag ∈ c.admitFifo

theorem Listed.noteAdmittedTag (h : c.Listed) (memTag : Tag) : (c.noteAdmittedTag memTag).Listed := by
  unfold Cache.noteAdmittedTag
  split_ifs
  · exact h
  · intro tag htag
    rcases Finset.mem_insert.mp htag with rfl | hold
    · exact List.mem_append_right _ (List.mem_singleton_self _)
    · exact List.mem_append_left _ (h tag hold)

/-! ## Choosing victims -/

/-- The loop of `evict_oldest_points` that takes up to `n` victims off the
    record. -/
def chooseVictims : Nat → List Tag → Finset Tag → List Tag
  | 0, _, _ => []
  | _ + 1, [], _ => []
  | n + 1, tag :: rest, admitSet =>
    if tag ∈ admitSet then tag :: chooseVictims n rest (admitSet.erase tag)
    else chooseVictims (n + 1) rest admitSet

/-- The victims of `evict_oldest_points(n)`. -/
def oldestPoints (c : Cache V) (n : Nat) : List Tag := chooseVictims n c.admitFifo c.admitSet

theorem mem_of_mem_chooseVictims {n : Nat} {admitFifo : List Tag} {admitSet : Finset Tag} {tag : Tag}
    (h : tag ∈ chooseVictims n admitFifo admitSet) : tag ∈ admitSet := by
  induction admitFifo generalizing n admitSet with
  | nil => cases n <;> cases h
  | cons front rest ih =>
    cases n with
    | zero => cases h
    | succ n =>
      unfold chooseVictims at h
      split_ifs at h with hfront
      · rcases List.mem_cons.mp h with rfl | hrest
        · exact hfront
        · exact Finset.mem_of_mem_erase (ih hrest)
      · exact ih h

/-- With no bound on their number, all listed tags are chosen. -/
theorem mem_chooseVictims {admitFifo : List Tag} {admitSet : Finset Tag} {tag : Tag}
    (hset : tag ∈ admitSet) (hfifo : tag ∈ admitFifo) {n : Nat} (hn : admitFifo.length ≤ n) :
    tag ∈ chooseVictims n admitFifo admitSet := by
  induction admitFifo generalizing n admitSet with
  | nil => cases hfifo
  | cons front rest ih =>
    cases n with
    | zero => cases hn
    | succ n =>
      have hrest : rest.length ≤ n := Nat.le_of_succ_le_succ hn
      unfold chooseVictims
      -- the front is chosen, or skipped and then not the tag
      by_cases htag : tag = front
      · rw [if_pos (htag ▸ hset), htag]
        exact List.mem_cons_self
      · have hmem := (List.mem_cons.mp hfifo).resolve_left htag
        split_ifs
        · exact List.mem_cons_of_mem _ (ih (Finset.mem_erase.mpr ⟨htag, hset⟩) hmem hrest)
        · exact ih hset hmem (Nat.le_succ_of_le hrest)

end Cache

end QvCache
