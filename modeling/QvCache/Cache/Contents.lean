/-
  QvCache.Cache.Contents

  What the functions on the cache do to what it holds.  Housekeeping (reclaiming
  slots, choosing a shard, touching the recency order, eviction) only ever drops
  points (`Drops`); a point is added by `insert_point` alone
  (`indexInsertPoint_cases`), and `lazy_delete` removes one tag from one shard
  (`holdsAt_lazyDeleteIn`).
-/

import QvCache.Cache.Search

namespace QvCache

namespace Cache

variable {V : Type} {cfg : CacheConfig V} {c c' : Cache V}

/-- Shard `i` holds the tag with this vector. -/
def HoldsAt (c : Cache V) (i : Nat) (tag : Tag) (vec : V) : Prop :=
  ∃ idx, c.memoryIndices[i]? = some idx ∧ idx.Holds tag vec

/-- Some shard holds the tag. -/
def LiveTag (c : Cache V) (tag : Tag) : Prop := ∃ i vec, c.HoldsAt i tag vec

theorem holdsAt_congr (h : c'.memoryIndices = c.memoryIndices) {i : Nat} {tag : Tag} {vec : V} :
    c'.HoldsAt i tag vec ↔ c.HoldsAt i tag vec := by
  unfold HoldsAt
  rw [h]

theorem holdsAt_setIndex {i j : Nat} {idx : MiniIndex V} {tag : Tag} {vec : V} :
    (c.setIndex i idx).HoldsAt j tag vec ↔
      if j = i then i < c.memoryIndices.length ∧ idx.Holds tag vec else c.HoldsAt j tag vec := by
  unfold HoldsAt setIndex
  dsimp only
  rw [List.getElem?_set]
  by_cases hij : i = j
  · subst hij
    rw [if_pos rfl, if_pos rfl]
    by_cases hlt : i < c.memoryIndices.length
    · simp [hlt]
    · simp [hlt]
  · rw [if_neg hij, if_neg (Ne.symm hij)]

/-- A shard that holds a point is occupied. -/
theorem activeVectors_pos_of_holdsAt {i : Nat} {tag : Tag} {vec : V} (h : c.HoldsAt i tag vec) :
    0 < c.activeVectors i := by
  obtain ⟨idx, hidx, hholds⟩ := h
  rw [activeVectors, hidx]
  exact List.length_pos_of_mem ((List.mem_dlookup_iff idx.points.nodupKeys).mp hholds)

/-! ## Housekeeping -/

/-- What housekeeping does: points may go, everything a caller relies on stays. -/
structure Drops (c c' : Cache V) : Prop where
  holds : ∀ i tag vec, c'.HoldsAt i tag vec → c.HoldsAt i tag vec
  thresholds : c'.thresholds = c.thresholds
  writeThetaDiscount : c'.writeThetaDiscount = c.writeThetaDiscount
  deletedIds : c'.deletedIds = c.deletedIds

theorem Drops.refl (c : Cache V) : Drops c c := ⟨fun _ _ _ h => h, rfl, rfl, rfl⟩

theorem Drops.trans {c'' : Cache V} (h : Drops c c') (h' : Drops c' c'') : Drops c c'' where
  holds := fun i tag vec hc => h.holds i tag vec (h'.holds i tag vec hc)
  thresholds := h'.thresholds.trans h.thresholds
  writeThetaDiscount := h'.writeThetaDiscount.trans h.writeThetaDiscount
  deletedIds := h'.deletedIds.trans h.deletedIds

/-- A loop of housekeeping steps. -/
theorem Drops.foldl {α : Type} {f : Cache V → α → Cache V} (hf : ∀ c a, Drops c (f c a))
    (l : List α) (c : Cache V) : Drops c (l.foldl f c) := by
  induction l generalizing c with
  | nil => exact .refl c
  | cons a rest ih => exact (hf c a).trans (ih (f c a))

/-- Replacing a shard by one that holds no other points. -/
theorem drops_setIndex {i : Nat} {idx : MiniIndex V}
    (h : ∀ tag vec, idx.Holds tag vec → c.HoldsAt i tag vec) : Drops c (c.setIndex i idx) := by
  refine ⟨fun j tag vec hj => ?_, rfl, rfl, rfl⟩
  rw [holdsAt_setIndex] at hj
  split_ifs at hj with hji
  · exact hji ▸ h tag vec hj.2
  · exact hj

/-- Consolidating a shard leaves everything but the mini-indexes alone. -/
theorem consolidateShard_eq (c : Cache V) (i : Nat) :
    ∃ idxs, idxs.length = c.memoryIndices.length ∧
      c.consolidateShard i = { c with memoryIndices := idxs } := by
  unfold consolidateShard
  cases c.memoryIndices[i]? with
  | none => exact ⟨c.memoryIndices, rfl, rfl⟩
  | some idx =>
    dsimp only
    split_ifs
    · exact ⟨c.memoryIndices, rfl, rfl⟩
    · exact ⟨_, List.length_set, rfl⟩

theorem drops_consolidateShard (c : Cache V) (i : Nat) : Drops c (c.consolidateShard i) := by
  unfold consolidateShard
  cases hidx : c.memoryIndices[i]? with
  | none => exact .refl c
  | some idx =>
    dsimp only
    split_ifs
    · exact .refl c
    · exact drops_setIndex fun tag vec h => ⟨idx, hidx, h⟩

theorem drops_reclaimInsertSlots (c : Cache V) (i : Nat) :
    Drops c (c.reclaimInsertSlots cfg i) := by
  unfold reclaimInsertSlots
  split_ifs
  · exact drops_consolidateShard c i
  · exact .refl c

theorem drops_touchShard (c : Cache V) (i : Nat) : Drops c (c.touchShard i) :=
  ⟨fun _ _ _ h => h, rfl, rfl, rfl⟩

/-- What holds after `perform_eviction`: its parts are the replacement of one
    shard, the touches of that shard and of those the recency order lacks, and the
    flag. -/
theorem performEviction_induction {P : Cache V → Prop} (h : P c)
    (hreplace : ∀ d i, P d → P { d.setIndex i (MiniIndex.create cfg.memoryIndexMaxPointsPerIndex)
      with activeInsertIndexId := i })
    (htouch : ∀ d i, i < cfg.numberOfMiniIndexes ∨ i ∈ c.lruCache.orderList → P d →
      P (d.touchShard i))
    (hflag : ∀ d, P d → P { d with evictionInProgress := false }) :
    P (c.performEviction cfg) := by
  unfold performEviction
  cases hvictim : c.evictionVictim cfg with
  | none => exact hflag c h
  | some victim =>
    obtain ⟨replaced, touch⟩ := victim
    -- a victim that is touched comes from the end of the recency order
    have hreplaced : touch = true → replaced ∈ c.lruCache.orderList := by
      intro htouched
      unfold evictionVictim at hvictim
      cases hlru : c.lruCache.getLruTags 1 with
      | nil =>
        rw [hlru] at hvictim
        obtain ⟨_, rfl⟩ := Prod.mk.inj (Option.some.inj hvictim)
        cases htouched
      | cons last rest =>
        rw [hlru] at hvictim
        dsimp only at hvictim
        split_ifs at hvictim
        obtain ⟨rfl, _⟩ := Prod.mk.inj (Option.some.inj hvictim)
        have hmem : last ∈ c.lruCache.getLruTags 1 := hlru ▸ List.mem_cons_self
        exact List.mem_reverse.mp (List.mem_of_mem_take hmem)
    -- the loop at the end touches shards only
    have hloop : ∀ shards : List Nat, (∀ i ∈ shards, i < cfg.numberOfMiniIndexes) →
        ∀ d : Cache V, P d → P (shards.foldl (fun d i =>
          if d.lruCache.contains i then d else d.touchShard i) d) := by
      intro shards
      induction shards with
      | nil => exact fun _ _ hd => hd
      | cons i rest ih =>
        intro hshards d hd
        refine ih (fun j hj => hshards j (List.mem_cons_of_mem i hj)) _ ?_
        dsimp only
        split_ifs
        · exact hd
        · exact htouch d i (Or.inl (hshards i List.mem_cons_self)) hd
    refine hflag _ (hloop _ (fun i hi => List.mem_range.mp hi) _ ?_)
    dsimp only
    split_ifs with htouched
    · exact htouch _ _ (Or.inr (hreplaced htouched)) (hreplace c replaced h)
    · exact hreplace c replaced h

theorem drops_performEviction (c : Cache V) : Drops c (c.performEviction cfg) := by
  refine performEviction_induction (.refl c) (fun d i h => ?_)
    (fun d i _ h => h.trans (drops_touchShard d i))
    (fun d h => ⟨h.holds, h.thresholds, h.writeThetaDiscount, h.deletedIds⟩)
  have hset : Drops d (d.setIndex i (MiniIndex.create cfg.memoryIndexMaxPointsPerIndex)) :=
    drops_setIndex fun tag vec hempty => by simp [MiniIndex.Holds, MiniIndex.create] at hempty
  have hboth := h.trans hset
  exact ⟨hboth.holds, hboth.thresholds, hboth.writeThetaDiscount, hboth.deletedIds⟩

theorem drops_reclaimOthers (c : Cache V) (shard : Nat) : Drops c (c.reclaimOthers cfg shard) :=
  Drops.foldl (fun c i => by
    split_ifs
    · exact .refl c
    · exact drops_reclaimInsertSlots c i) _ _

/-- All shards with room have reclaimed their slots. -/
def allReclaimed (cfg : CacheConfig V) (c : Cache V) : Cache V :=
  (c.reclaimInsertSlots cfg c.activeInsertIndexId).reclaimOthers cfg c.activeInsertIndexId

/-- The state on which `ensure_admit_shard` calls `perform_eviction`. -/
def readyToEvict (cfg : CacheConfig V) (c : Cache V) : Cache V :=
  { c.allReclaimed cfg with evictionInProgress := true }

/-- The ways through `ensure_admit_shard`. -/
inductive AdmitShard (cfg : CacheConfig V) (c : Cache V) : Cache V × Nat → Prop where
  | active
      (hslots : (c.reclaimInsertSlots cfg c.activeInsertIndexId).shardHasInsertSlots cfg
        c.activeInsertIndexId = true) :
    AdmitShard cfg c (c.reclaimInsertSlots cfg c.activeInsertIndexId, c.activeInsertIndexId)
  | spare (spare : Nat)
      (hfull : (c.reclaimInsertSlots cfg c.activeInsertIndexId).shardHasInsertSlots cfg
        c.activeInsertIndexId ≠ true)
      (hspare : (c.allReclaimed cfg).findShardWithCapacity cfg = some spare) :
    AdmitShard cfg c
      ({ c.allReclaimed cfg with
        activeInsertIndexId := spare
        lruCache := (c.allReclaimed cfg).lruCache.access spare }, spare)
  | pending
      (hfull : (c.reclaimInsertSlots cfg c.activeInsertIndexId).shardHasInsertSlots cfg
        c.activeInsertIndexId ≠ true)
      (hflag : (c.allReclaimed cfg).evictionInProgress = true)
      (hnone : (c.allReclaimed cfg).findShardWithCapacity cfg = none) :
    AdmitShard cfg c (c.allReclaimed cfg, (c.allReclaimed cfg).activeInsertIndexId)
  | evicted
      (hfull : (c.reclaimInsertSlots cfg c.activeInsertIndexId).shardHasInsertSlots cfg
        c.activeInsertIndexId ≠ true)
      (hflag : (c.allReclaimed cfg).evictionInProgress = false)
      (hnone : (c.allReclaimed cfg).findShardWithCapacity cfg = none) :
    AdmitShard cfg c ((c.readyToEvict cfg).performEviction cfg,
      ((c.readyToEvict cfg).performEviction cfg).activeInsertIndexId)

theorem admitShard (cfg : CacheConfig V) (c : Cache V) :
    AdmitShard cfg c (c.ensureAdmitShard cfg) := by
  unfold ensureAdmitShard
  dsimp only
  by_cases hslots : (c.reclaimInsertSlots cfg c.activeInsertIndexId).shardHasInsertSlots cfg
      c.activeInsertIndexId = true
  · rw [if_pos hslots]
    exact .active hslots
  · rw [if_neg hslots]
    cases hspare : ((c.reclaimInsertSlots cfg c.activeInsertIndexId).reclaimOthers cfg
        c.activeInsertIndexId).findShardWithCapacity cfg with
    | some spare => exact .spare spare hslots hspare
    | none =>
      dsimp only
      cases hflag : ((c.reclaimInsertSlots cfg c.activeInsertIndexId).reclaimOthers cfg
          c.activeInsertIndexId).evictionInProgress with
      | true => exact .pending hslots hflag hspare
      | false => exact .evicted hslots hflag hspare

theorem drops_allReclaimed (c : Cache V) : Drops c (c.allReclaimed cfg) :=
  (drops_reclaimInsertSlots c _).trans (drops_reclaimOthers _ _)

theorem drops_ensureAdmitShard (c : Cache V) : Drops c (c.ensureAdmitShard cfg).1 := by
  have hall : Drops c (c.allReclaimed cfg) := drops_allReclaimed c
  have hways := admitShard cfg c
  generalize c.ensureAdmitShard cfg = r at hways ⊢
  cases hways with
  | active => exact drops_reclaimInsertSlots c _
  | spare => exact ⟨hall.holds, hall.thresholds, hall.writeThetaDiscount, hall.deletedIds⟩
  | pending => exact hall
  | evicted =>
    have hready : Drops c (c.readyToEvict cfg) :=
      ⟨hall.holds, hall.thresholds, hall.writeThetaDiscount, hall.deletedIds⟩
    exact hready.trans (drops_performEviction _)

/-- Choosing a shard for an insert changes no more than reclaiming does. -/
theorem chooseDataShard_fst (cfg : CacheConfig V) (c : Cache V) :
    (c.chooseDataShard cfg).1 = c.reclaimInsertSlots cfg c.activeInsertIndexId := by
  unfold chooseDataShard
  dsimp only
  split_ifs <;> rfl

theorem drops_chooseDataShard (c : Cache V) : Drops c (c.chooseDataShard cfg).1 :=
  chooseDataShard_fst cfg c ▸ drops_reclaimInsertSlots c _

/-! ## Points added and deleted -/

/-- The shard takes a point with this tag: a slot is free and the tag is not. -/
def Accepts (c : Cache V) (shard : Nat) (tag : Tag) : Prop :=
  ∃ idx, c.memoryIndices[shard]? = some idx ∧ tag ≠ 0 ∧
    idx.points.size + idx.lazyDeleted < idx.maxPoints ∧ ¬ idx.Live tag

/-- `insert_point` on a shard: refused with nothing changed, or landed in a
    shard that accepts the tag. -/
theorem indexInsertPoint_cases {shard : Nat} {id : UInt32} {vec : V} {ret : Int}
    (h : c.indexInsertPoint shard id vec = some (c', ret)) :
    (c'.memoryIndices = c.memoryIndices ∧ ret = -1 ∧ ¬ c.Accepts shard (1 + id) ∨
      ret = 0 ∧ c.Accepts shard (1 + id) ∧
        ∀ i tag w, c'.HoldsAt i tag w ↔
          c.HoldsAt i tag w ∨ i = shard ∧ tag = 1 + id ∧ w = vec) ∧
    ∃ idxs, idxs.length = c.memoryIndices.length ∧ c' = { c with memoryIndices := idxs } := by
  unfold indexInsertPoint at h
  cases hidx : c.memoryIndices[shard]? with
  | none =>
    rw [hidx] at h
    cases h
  | some idx =>
    rw [hidx] at h
    dsimp only at h
    rw [Option.map_eq_some_iff] at h
    obtain ⟨⟨idx', r⟩, hinsert, heq⟩ := h
    obtain ⟨rfl, rfl⟩ := Prod.mk.inj heq
    have hlt : shard < c.memoryIndices.length := (List.getElem?_eq_some_iff.mp hidx).1
    refine ⟨?_, _, List.length_set, rfl⟩
    obtain ⟨htag, ⟨rfl, hret, hfull⟩ | ⟨hret, hdead, hslot, hpoints, _, _⟩⟩ :=
      MiniIndex.insertPoint_cases hinsert
    · -- a refused point is written back over itself
      refine Or.inl ⟨?_, hret, ?_⟩
      · obtain ⟨hbound, hget⟩ := List.getElem?_eq_some_iff.mp hidx
        exact hget ▸ List.set_getElem_self hbound
      · rintro ⟨idx₁, h₁, _, hslot, hdead⟩
        rw [hidx] at h₁
        obtain rfl := Option.some.inj h₁
        exact hfull ⟨hdead, hslot⟩
    · have hnone : idx.points.lookup (1 + id) = none := Option.not_isSome_iff_eq_none.mp hdead
      refine Or.inr ⟨hret, ⟨idx, hidx, htag, hslot, hdead⟩, fun i tag w => ?_⟩
      rw [holdsAt_setIndex]
      -- only this shard can hold anything new
      by_cases hi : i = shard
      · subst hi
        have hhold : c.HoldsAt i tag w ↔ idx.Holds tag w := by simp [HoldsAt, hidx]
        rw [if_pos rfl, hhold, MiniIndex.Holds, hpoints, Table.lookup_insert_eq]
        by_cases heq : tag = 1 + id
        · subst heq
          simp [hlt, MiniIndex.Holds, hnone, eq_comm]
        · simp [hlt, heq, MiniIndex.Holds]
      · simp [hi]

/-- The bookkeeping of an admitted tag leaves the rest of the cache alone. -/
theorem noteAdmittedTag_eq (c : Cache V) (memTag : Tag) :
    ∃ fifo set, c.noteAdmittedTag memTag = { c with admitFifo := fifo, admitSet := set } := by
  unfold noteAdmittedTag
  split_ifs
  · exact ⟨c.admitFifo, c.admitSet, rfl⟩
  · exact ⟨_, _, rfl⟩

theorem deletedIds_noteAdmittedTag (c : Cache V) (memTag : Tag) :
    (c.noteAdmittedTag memTag).deletedIds = c.deletedIds := by
  obtain ⟨fifo, set, heq⟩ := c.noteAdmittedTag_eq memTag
  rw [heq]

theorem thresholds_noteAdmittedTag (c : Cache V) (memTag : Tag) :
    (c.noteAdmittedTag memTag).thresholds = c.thresholds := by
  obtain ⟨fifo, set, heq⟩ := c.noteAdmittedTag_eq memTag
  rw [heq]

theorem holdsAt_noteAdmittedTag {memTag : Tag} {i : Nat} {tag : Tag} {vec : V} :
    (c.noteAdmittedTag memTag).HoldsAt i tag vec ↔ c.HoldsAt i tag vec := by
  obtain ⟨fifo, set, heq⟩ := c.noteAdmittedTag_eq memTag
  rw [heq]
  rfl

/-- `insert_point_into_shard` past its check adds this point to this shard, if
    the shard has slots and accepts it, and nothing otherwise. -/
theorem insertPointUnchecked_cases {shard : Nat} {id : UInt32} {vec : V} {accepted : Bool}
    (h : c.insertPointUnchecked cfg shard id vec = some (c', accepted)) :
    (∀ i tag w, c'.HoldsAt i tag w ↔
      c.HoldsAt i tag w ∨ (i = shard ∧ tag = 1 + id ∧ w = vec) ∧ accepted = true) ∧
    (accepted = true ↔ c.shardHasInsertSlots cfg shard = true ∧ c.Accepts shard (1 + id)) ∧
    ∃ idxs, idxs.length = c.memoryIndices.length ∧ c' = { c with memoryIndices := idxs } := by
  unfold insertPointUnchecked at h
  split_ifs at h with hslots
  · obtain ⟨⟨c₁, ret⟩, hinsert, heq⟩ := Option.map_eq_some_iff.mp h
    obtain ⟨rfl, rfl⟩ := Prod.mk.inj heq
    obtain ⟨hcases, hsame⟩ := indexInsertPoint_cases hinsert
    refine ⟨fun i tag w => ?_, ?_, hsame⟩
    -- the return code says which: -1 is a refusal, 0 is not
    · rcases hcases with ⟨hidxs, rfl, _⟩ | ⟨rfl, _, hadd⟩
      · exact (holdsAt_congr hidxs).trans (by simp)
      · exact (hadd i tag w).trans (by simp)
    · rcases hcases with ⟨_, rfl, hrefused⟩ | ⟨rfl, haccepts, _⟩
      · simp [hrefused]
      · simp [hslots, haccepts]
  · obtain ⟨rfl, rfl⟩ := Prod.mk.inj (Option.some.inj h)
    refine ⟨fun i tag w => ?_, ?_, c.memoryIndices, rfl, rfl⟩
    · simp
    · simp [hslots]

theorem HoldsAt.lt {i : Nat} {tag : Tag} {vec : V} (h : c.HoldsAt i tag vec) :
    i < c.memoryIndices.length := by
  obtain ⟨idx, hidx, _⟩ := h
  exact (List.getElem?_eq_some_iff.mp hidx).1

theorem Accepts.not_holdsAt {i : Nat} {tag : Tag} (h : c.Accepts i tag) (vec : V) :
    ¬ c.HoldsAt i tag vec := by
  obtain ⟨idx, hidx, _, _, hdead⟩ := h
  rintro ⟨idx', hidx', hlive⟩
  obtain rfl := Option.some.inj (hidx.symm.trans hidx')
  exact hdead (Option.isSome_iff_exists.mpr ⟨vec, hlive⟩)

theorem Accepts.lt {i : Nat} {tag : Tag} (h : c.Accepts i tag) : i < c.memoryIndices.length := by
  obtain ⟨idx, hidx, _⟩ := h
  exact (List.getElem?_eq_some_iff.mp hidx).1

/-- An exception means the tag was 0, which no shard accepts. -/
theorem not_accepts_of_throw {shard : Nat} {id : UInt32} {vec : V}
    (hslots : c.shardHasInsertSlots cfg shard = true)
    (h : c.insertPointUnchecked cfg shard id vec = none) : ¬ c.Accepts shard (1 + id) := by
  rintro ⟨idx, hidx, htag, hslot, hdead⟩
  rw [insertPointUnchecked, if_pos hslots, Option.map_eq_none_iff, indexInsertPoint, hidx] at h
  simp only [Option.map_eq_none_iff] at h
  unfold MiniIndex.insertPoint at h
  -- with a free slot and a dead tag, no other branch throws
  split_ifs at h with hzero
  exact htag hzero

theorem holdsAt_lazyDeleteIn {k i : Nat} {memTag tag : Tag} {vec : V} :
    (c.lazyDeleteIn k memTag).HoldsAt i tag vec ↔
      c.HoldsAt i tag vec ∧ ¬ (i = k ∧ tag = memTag) := by
  unfold lazyDeleteIn
  cases hidx : c.memoryIndices[k]? with
  | none =>
    refine ⟨fun h => ⟨h, ?_⟩, fun h => h.1⟩
    rintro ⟨rfl, rfl⟩
    obtain ⟨idx, h₁, _⟩ := h
    rw [hidx] at h₁
    cases h₁
  | some idx =>
    have hlt : k < c.memoryIndices.length := (List.getElem?_eq_some_iff.mp hidx).1
    dsimp only
    rw [holdsAt_setIndex]
    by_cases hi : i = k
    · subst hi
      have hhold : c.HoldsAt i tag vec ↔ idx.Holds tag vec := by simp [HoldsAt, hidx]
      rw [if_pos rfl, hhold, MiniIndex.Holds, MiniIndex.lookup_lazyDelete]
      -- the deleted tag is gone, every other lookup is the old one
      by_cases htag : tag = memTag
      · simp [htag]
      · simp [hlt, htag, MiniIndex.Holds]
    · simp [hi]

/-- Deleting a point leaves everything but the mini-indexes alone. -/
theorem lazyDeleteIn_eq (c : Cache V) (k : Nat) (memTag : Tag) :
    ∃ idxs, idxs.length = c.memoryIndices.length ∧
      c.lazyDeleteIn k memTag = { c with memoryIndices := idxs } := by
  unfold lazyDeleteIn
  cases c.memoryIndices[k]? with
  | none => exact ⟨c.memoryIndices, rfl, rfl⟩
  | some idx => exact ⟨_, List.length_set, rfl⟩

theorem deletedIds_lazyDeleteIn (c : Cache V) (k : Nat) (memTag : Tag) :
    (c.lazyDeleteIn k memTag).deletedIds = c.deletedIds := by
  obtain ⟨idxs, _, heq⟩ := c.lazyDeleteIn_eq k memTag
  rw [heq]

theorem thresholds_lazyDeleteIn (c : Cache V) (k : Nat) (memTag : Tag) :
    (c.lazyDeleteIn k memTag).thresholds = c.thresholds := by
  obtain ⟨idxs, _, heq⟩ := c.lazyDeleteIn_eq k memTag
  rw [heq]

end Cache

end QvCache
