/-
  QvCache.System.Bookkeeping

  The shards' bookkeeping over whole runs.  The accesses of a run, those of the
  constructor first, determine the recency order; so the shard an eviction
  replaces is the one whose last access is the oldest.
-/

import QvCache.Cache.Rotation
import QvCache.System.Shelf

namespace QvCache

namespace Sys

variable {V β : Type} {cfg : SystemConfig V β}

/-! ## The accesses of a run -/

/-- The calls of `lru_cache->access` in the next step of a call. -/
def callAccesses (cfg : SystemConfig V β) (s : Sys V β) : Call V → Reply V → List Nat
  | .filtered _ _ _ _, .proceed => s.cache.admitAccesses cfg.cache
  | .touching _ _ shard, .proceed => [shard]
  | _, _ => []

/-- The calls of `lru_cache->access` in a step. -/
def accesses (cfg : SystemConfig V β) (s : Sys V β) : Label V → List Nat
  | .search sorters query K resSize => s.cache.lookupAccesses cfg.cache sorters query K resSize
  | .call i reply => (s.calls[i]?.map fun call => s.callAccesses cfg call reply).getD []
  | .evict => s.cache.evictionAccesses cfg.cache
  | _ => []

/-- All accesses of a run, beginning with those of the constructor. -/
def accessLog (cfg : SystemConfig V β) (s : Sys V β) (ls : List (Label V)) : List Nat :=
  List.range cfg.cache.numberOfMiniIndexes ++ Traces.outputs (step cfg) (accesses cfg) s ls

theorem CallMove.lruCache {s : Sys V β} {i : Nat} {call : Call V} {reply : Reply V}
    {next : Next V β} (h : CallMove cfg s i call reply next) :
    next.cache.lruCache =
      (s.callAccesses cfg call reply).foldl LruCache.access s.cache.lruCache := by
  have hchoose : (s.cache.chooseDataShard cfg.cache).1.lruCache = s.cache.lruCache := by
    -- the choice of a shard only reclaims, and reclaiming accesses nothing
    obtain ⟨idxs, _, heq⟩ :=
      Cache.reclaimInsertSlots_eq cfg.cache s.cache s.cache.activeInsertIndexId
    rw [Cache.chooseDataShard_fst, heq]
  cases h with
  | placed => exact Cache.lruCache_ensureAdmitShard s.cache
  | chose => exact hchoose
  | gaveUp => exact hchoose
  | landed id vec shard cache accepted hland =>
    obtain ⟨_, _, idxs, _, rfl⟩ := Cache.insertPointUnchecked_cases hland
    rfl
  | noted id =>
    obtain ⟨fifo, set, hnote⟩ := Cache.noteAdmittedTag_eq s.cache (1 + id)
    show (s.cache.noteAdmittedTag (1 + id)).lruCache = s.cache.lruCache
    rw [hnote]
  | deleted id shard =>
    obtain ⟨idxs, _, heq⟩ := s.cache.lazyDeleteIn_eq shard (1 + id)
    show (s.cache.lazyDeleteIn shard (1 + id)).lruCache = s.cache.lruCache
    rw [heq]
  | lowered id vec => cases vec <;> rfl
  | _ => rfl

theorem lruCache_step {s s' : Sys V β} {l : Label V} (h : step cfg s l = some s') :
    s'.cache.lruCache = (accesses cfg s l).foldl LruCache.access s.cache.lruCache := by
  cases move_of_step h with
  | search sorters query K resSize => exact Cache.lruCache_lookup sorters s.cache query K resSize
  | call i reply call next hcall hmove =>
    show next.cache.lruCache = _
    rw [accesses, hcall, Option.map_some, Option.getD_some]
    exact hmove.lruCache
  | inserted w task id vec rest hworker cache ret hinsert =>
    obtain ⟨_, idxs, _, rfl⟩ := Cache.indexInsertPoint_cases hinsert
    rfl
  | finished w task =>
    obtain ⟨th, hth⟩ := finished_eq cfg s task
    show (s.finished cfg task).lruCache = _
    rw [hth]
    rfl
  | evict => exact Cache.lruCache_performEviction s.cache
  | consolidate shard =>
    obtain ⟨idxs, _, heq⟩ := s.cache.consolidateShard_eq shard
    show (s.cache.consolidateShard shard).lruCache = s.cache.lruCache
    rw [heq]
  | _ => rfl

/-- Only shards are accessed. -/
theorem accesses_lt {s : Sys V β} (hs : Shaped cfg s) (l : Label V) :
    ∀ i ∈ accesses cfg s l, i < cfg.cache.numberOfMiniIndexes := by
  cases l with
  | search sorters query K resSize => exact hs.cache.lookupAccesses_lt sorters query K resSize
  | call i reply =>
    show ∀ j ∈ (s.calls[i]?.map fun call => s.callAccesses cfg call reply).getD [], _
    cases hcall : s.calls[i]? with
    | none =>
      intro j hj
      cases hj
    | some call =>
      rw [Option.map_some, Option.getD_some]
      unfold callAccesses
      split
      · exact hs.cache.admitAccesses_lt
      · intro j hj
        rw [List.mem_singleton.mp hj]
        exact hs.calls i _ hcall
      · exact nofun
  | evict => exact hs.cache.evictionAccesses_lt
  | _ => exact nofun

/-- The constructor's loop. -/
theorem orderList_init (n cap : Nat) (hcap : n ≤ cap) :
    ((List.range n).foldl LruCache.access ⟨[], cap⟩).orderList = Recency.order (List.range n) := by
  induction n with
  | zero => rfl
  | succ n ih =>
    obtain ⟨hcomplete, hmax⟩ := Cache.complete_foldl_access n cap (by omega)
    -- n shards so far, all within the capacity: the access drops none
    have hlen : ((List.range n).foldl LruCache.access ⟨[], cap⟩).orderList.length = n := by
      rw [hcomplete.length_eq, List.length_range]
    rw [List.range_succ, List.foldl_append, Recency.order_concat, List.foldl_cons, List.foldl_nil,
      LruCache.orderList_access (Or.inr (by omega)), ih (by omega)]
    rfl

/-- The recency order is the one the accesses of the run leave. -/
theorem orderList_run {backend : β} {radius : Nat} {alpha : ℚ} {threads : Nat} {s : Sys V β}
    {ls : List (Label V)}
    (hrun : Traces.run (step cfg) (init cfg backend radius alpha threads) ls = some s) :
    s.cache.lruCache.orderList =
      Recency.order (accessLog cfg (init cfg backend radius alpha threads) ls) := by
  have hinit : Shaped cfg (init cfg backend radius alpha threads) :=
    ⟨Cache.shaped_init radius alpha, fun i call hi => by simp [init] at hi⟩
  have hfold := Traces.run_foldl (accesses cfg)
    (fun s : Sys V β => s.cache.lruCache.orderList) Recency.access
    (fun s l s' hs hstep => shaped_step hs hstep) (fun s l s' hs hstep => ?_) hinit hrun
  · rw [accessLog, Recency.order_append, ← orderList_init _ _ (le_refl _)]
    exact hfold
  · show s'.cache.lruCache.orderList = _
    rw [lruCache_step hstep]
    exact hs.cache.lru.orderList_foldl (accesses_lt hs l)

/-! ## The insert target -/

theorem CallMove.steady {s : Sys V β} {i : Nat} {call : Call V} {reply : Reply V} {next : Next V β}
    (h : CallMove cfg s i call reply next) (hcall : call.InRange cfg.cache.numberOfMiniIndexes)
    (hs : Cache.Steady cfg.cache s.cache) : Cache.Steady cfg.cache next.cache := by
  have hshaped := (h.shaped hs.shaped hcall).1
  cases h with
  | placed => exact hs.ensureAdmitShard
  | chose => exact hs.chooseDataShard
  | gaveUp => exact hs.chooseDataShard
  | landed id vec shard cache accepted hland =>
    obtain ⟨_, _, idxs, _, rfl⟩ := Cache.insertPointUnchecked_cases hland
    exact hs.of_same hshaped rfl rfl
  | noted id =>
    obtain ⟨fifo, set, hnote⟩ := Cache.noteAdmittedTag_eq s.cache (1 + id)
    refine hs.of_same hshaped ?_ ?_
    · show (s.cache.noteAdmittedTag (1 + id)).activeInsertIndexId = _
      rw [hnote]
    · show (s.cache.noteAdmittedTag (1 + id)).evictionInProgress = _
      rw [hnote]
  | deleted id shard =>
    obtain ⟨idxs, _, heq⟩ := s.cache.lazyDeleteIn_eq shard (1 + id)
    refine hs.of_same hshaped ?_ ?_
    · show (s.cache.lazyDeleteIn shard (1 + id)).activeInsertIndexId = _
      rw [heq]
    · show (s.cache.lazyDeleteIn shard (1 + id)).evictionInProgress = _
      rw [heq]
  | lowered id vec => cases vec <;> exact hs.of_same hshaped rfl rfl
  | _ => exact hs.of_same hshaped rfl rfl

theorem steady_step {s s' : Sys V β} {l : Label V} (hshaped : Shaped cfg s)
    (hs : Cache.Steady cfg.cache s.cache) (h : step cfg s l = some s') :
    Cache.Steady cfg.cache s'.cache := by
  have hshaped' := (shaped_step hshaped h).cache
  cases move_of_step h with
  | search sorters query K resSize => exact hs.lookup sorters query K resSize
  | call i reply call next hcall hmove => exact hmove.steady (hshaped.calls i call hcall) hs
  | inserted w task id vec rest hworker cache ret hinsert =>
    obtain ⟨_, idxs, _, rfl⟩ := Cache.indexInsertPoint_cases hinsert
    exact hs.of_same hshaped' rfl rfl
  | finished w task =>
    obtain ⟨th, hth⟩ := finished_eq cfg s task
    refine hs.of_same hshaped' ?_ ?_
    · show (s.finished cfg task).activeInsertIndexId = _
      rw [hth]
    · show (s.finished cfg task).evictionInProgress = _
      rw [hth]
  | evict => exact Cache.steady_performEviction hs.shaped hs.active
  | consolidate shard =>
    obtain ⟨idxs, _, heq⟩ := s.cache.consolidateShard_eq shard
    refine hs.of_same hshaped' ?_ ?_
    · show (s.cache.consolidateShard shard).activeInsertIndexId = _
      rw [heq]
    · show (s.cache.consolidateShard shard).evictionInProgress = _
      rw [heq]
  | _ => exact hs.of_same hshaped' rfl rfl

theorem steady_of_reachable {s : Sys V β} (h : Reachable cfg s) :
    Cache.Steady cfg.cache s.cache := by
  obtain ⟨backend, radius, alpha, threads, hreach⟩ := h
  have hboth := Traces.reachable_invariant
    (I := fun s => Shaped cfg s ∧ Cache.Steady cfg.cache s.cache)
    (fun s l s' hs hstep => ⟨shaped_step hs.1 hstep, steady_step hs.1 hs.2 hstep⟩)
    ⟨⟨Cache.shaped_init radius alpha, fun _ _ hi => by simp [init] at hi⟩,
      Cache.steady_init radius alpha⟩ hreach
  exact hboth.2

/-! ## The bookkeeping after a run -/

/-- Shard `victim` was replaced, and is the next insert target and the most
    recently used; the other shards are as they were. -/
structure Rotates (cfg : CacheConfig V) (c : Cache V) (victim : Nat) (c' : Cache V) : Prop where
  fresh : c'.memoryIndices[victim]? = some (MiniIndex.create cfg.memoryIndexMaxPointsPerIndex)
  others : ∀ i, i ≠ victim → c'.memoryIndices[i]? = c.memoryIndices[i]?
  active : c'.activeInsertIndexId = victim
  recent : c'.lruCache.orderList = victim :: c.lruCache.orderList.erase victim

/-- What the shards' bookkeeping says after a run with these accesses. -/
structure Booked (cfg : CacheConfig V) (log : List Nat) (c : Cache V) : Prop where
  order : c.lruCache.orderList.Perm (List.range cfg.numberOfMiniIndexes)
  active : c.activeInsertIndexId < cfg.numberOfMiniIndexes
  shards : c.memoryIndices.length = cfg.numberOfMiniIndexes
  resting : c.evictionInProgress = false
  /-- `perform_eviction`, called as it is or by `ensure_admit_shard`. -/
  evicts : 2 ≤ cfg.numberOfMiniIndexes → ∀ d, d = c ∨ d = c.readyToEvict cfg →
    ∃ victim, Recency.Oldest log victim ∧ Rotates cfg d victim (d.performEviction cfg)
  /-- `search_sequential` looks at every shard with vectors, and at each once. -/
  searched : ∀ query K i, ((c.sequentialSearched cfg query K).map Prod.fst).count i =
    if 0 < c.activeVectors i then 1 else 0

theorem rotates_replaced {cfg : CacheConfig V} {c : Cache V} {victim : Nat}
    (h : Cache.Shaped cfg c) (hlt : victim < cfg.numberOfMiniIndexes) :
    Rotates cfg c victim (c.replaced cfg victim) where
  fresh := List.getElem?_set_self (h.length ▸ hlt)
  others _ hi := List.getElem?_set_ne (Ne.symm hi)
  active := rfl
  recent := LruCache.orderList_access (Or.inl (h.lru.mem_iff.mpr (List.mem_range.mpr hlt)))

theorem count_sequentialSearched {cfg : CacheConfig V} {c : Cache V} (h : Cache.Shaped cfg c)
    (query : V) (K i : Nat) :
    ((c.sequentialSearched cfg query K).map Prod.fst).count i =
      if 0 < c.activeVectors i then 1 else 0 := by
  have hnodup : (c.occupiedShards cfg).Nodup := List.nodup_range.filter _
  have hmem : i ∈ c.occupiedShards cfg ↔ 0 < c.activeVectors i := by
    unfold Cache.occupiedShards
    rw [List.mem_filter, List.mem_range, decide_eq_true_iff, and_iff_right_iff_imp]
    intro hpos
    -- past the last shard there is nothing
    by_contra hge
    unfold Cache.activeVectors at hpos
    rw [List.getElem?_eq_none (by rw [h.length]; omega)] at hpos
    exact absurd hpos (Nat.lt_irrefl 0)
  rw [(h.sequentialSearched query K).count_eq, hnodup.count]
  exact if_congr hmem rfl rfl

/-- After every run the shards are in order. -/
theorem booked_of_run {backend : β} {radius : Nat} {alpha : ℚ} {threads : Nat} {s : Sys V β}
    {ls : List (Label V)}
    (hrun : Traces.run (step cfg) (init cfg backend radius alpha threads) ls = some s) :
    Booked cfg.cache (accessLog cfg (init cfg backend radius alpha threads) ls) s.cache := by
  have hsteady := steady_of_reachable ⟨backend, radius, alpha, threads, ls, hrun⟩
  have horder := orderList_run hrun
  refine
    { order := hsteady.shaped.lru
      active := hsteady.active
      shards := hsteady.shaped.length
      resting := hsteady.resting
      evicts := fun htwo d hd => ?_
      searched := count_sequentialSearched hsteady.shaped }
  -- reclaiming first changes neither the shards' number nor their order
  have hboth : Cache.Shaped cfg.cache d ∧ d.lruCache = s.cache.lruCache := by
    rcases hd with rfl | rfl
    · exact ⟨hsteady.shaped, rfl⟩
    · obtain ⟨idxs, _, hall⟩ := Cache.allReclaimed_eq cfg.cache s.cache
      refine ⟨hsteady.shaped.allReclaimed.of_same rfl rfl, ?_⟩
      show (s.cache.allReclaimed cfg.cache).lruCache = _
      rw [hall]
  obtain ⟨hshaped, hlru⟩ := hboth
  -- the victim is the last of the order, hence the oldest of the log
  obtain ⟨front, victim, hlast, heq⟩ := hshaped.performEviction_of_two htwo
  have hend : Recency.order
      (accessLog cfg (init cfg backend radius alpha threads) ls) = front ++ [victim] := by
    rw [← horder, ← hlru, hlast]
  refine ⟨victim, Recency.oldest_of_order hend, ?_⟩
  rw [heq]
  exact rotates_replaced hshaped (hshaped.lt_of_mem_order
    (hlast ▸ List.mem_append_right _ (List.mem_singleton_self victim)))

/-- Two shards. -/
def duoSystem : SystemConfig Nat Shelf := lineSystem 2 Nat.two_pos false false

/-- Two misses fill both shards, so the next one evicts. -/
def fillBoth : List (Label Nat) :=
  [.search stableSorters 9 4 0] ++
    missLabels 0 [(1, .fin 1), (2, .fin 2), (3, .fin 3), (4, .fin 4)] false ++
    taskLabels 0 [10, 11, 12, 13] ++
  [.search stableSorters 49 4 0] ++
    missLabels 1 [(5, .fin 1), (6, .fin 2), (7, .fin 3), (8, .fin 4)] false ++
    taskLabels 0 [50, 51, 52, 53]

def eightOnShelf : List (UInt32 × Nat) :=
  [(1, 10), (2, 11), (3, 12), (4, 13), (5, 50), (6, 51), (7, 52), (8, 53)]

theorem booked_of_run_fillBoth :
    ∃ s : Sys Nat Shelf,
      (s.cache.activeVectors 0 = 4 ∧ s.cache.activeVectors 1 = 4 ∧
        s.cache.admitAccesses duoSystem.cache = [0]) ∧
      Booked duoSystem.cache (accessLog duoSystem (shelfStart duoSystem eightOnShelf) fillBoth)
        s.cache := by
  have hruns : (Traces.run (step duoSystem) (shelfStart duoSystem eightOnShelf) fillBoth).any
      (fun s => decide (s.cache.activeVectors 0 = 4 ∧ s.cache.activeVectors 1 = 4 ∧
        s.cache.admitAccesses duoSystem.cache = [0])) = true := by
    decide +kernel
  obtain ⟨s, hrun, htest⟩ := Traces.exists_run hruns
  exact ⟨s, of_decide_eq_true htest, booked_of_run hrun⟩

end Sys

end QvCache
