/-
  QvCache.System.Thetas

  What a step of the system does to the regional thresholds: it runs operations
  of the regional store (`thetaChange_step`).  A search runs hit tests for its
  query, a miss or a worker one update, a write one tightening.  The effects of
  the operations carry over from there: `discounted_of_reachable` is their
  invariant, and `reset_step` says which steps bring a discount back to 1.
-/

import QvCache.System.Moves
import QvCache.Theta.History

namespace QvCache

open PcaUtils

namespace Sys

variable {V β : Type} {cfg : SystemConfig V β}

/-- The regional store. -/
def store (s : Sys V β) : PcaUtils := s.cache.thresholds.pcaUtils

/-- The region of a query. -/
def regionOf (cfg : SystemConfig V β) (query : V) : RegionKey :=
  cfg.cache.theta.pca.computeRegionKey query

/-- The step applies the theta update of miss `m`, measured for `query`: at once,
    or at the end of the miss's task. -/
inductive Applies (cfg : SystemConfig V β) (s : Sys V β) : Label V → Nat → V → Prop where
  | atOnce (i : Nat) (query : V) (K : Nat) (answer : BackendAnswer) (ids : List UInt32) (shard : Nat)
      (hcall : s.calls[i]? = some (.placed query K answer ids shard)) :
    Applies cfg s (.call i .proceed) i query
  | lazily (w : Nat) (task : Task V) (query : V)
      (hworker : s.workers[w]? = some (some (.inserting task [])))
      (hquery : task.query = some query) :
    Applies cfg s (.worker w .proceed) task.miss query

/-- What a step can do to the regional store. -/
inductive ThetaChange (cfg : SystemConfig V β) (s : Sys V β) (l : Label V) (store' : PcaUtils) :
    Prop where
  | same (hstore : store' = s.store)
  /-- Hit tests for one query. -/
  | tested (query : V) (ops : List (ThetaOp V))
      (hops : ∀ op ∈ ops, ∃ K distances num dev, op = .isHit query K distances num dev)
      (hstore : store' = ops.foldl (fun st op => op.apply cfg.cache.theta.pca st) s.store)
  /-- The update of a miss. -/
  | updated (m : Nat) (query : V) (K : Nat) (d : Double) (happlies : Applies cfg s l m query)
      (hstore : store' = (ThetaOp.updateTheta query K d cfg.cache.theta.p).apply
        cfg.cache.theta.pca s.store)
  /-- The penalty of a write. -/
  | tightened (vec : V)
      (hstore : store' = (ThetaOp.tightenThetaForVector vec s.cache.writeThetaDiscount).apply
        cfg.cache.theta.pca s.store)
  | resized (radius : Nat)
      (hstore : store' = (ThetaOp.setWriteL1Radius radius : ThetaOp V).apply
        cfg.cache.theta.pca s.store)

/-! ## A search runs hit tests -/

theorem tests_isHitReport (c : CacheConfig V) (cache : Cache V) (query : V) (K : Nat)
    (report : Report) :
    ∃ ops : List (ThetaOp V),
      (∀ op ∈ ops, ∃ K distances num dev, op = .isHit query K distances num dev) ∧
      (cache.isHitReport c query K report).1.thresholds.pcaUtils =
        ops.foldl (fun st op => op.apply c.theta.pca st) cache.thresholds.pcaUtils := by
  unfold Cache.isHitReport Cache.isHit
  split_ifs
  · exact ⟨[], by simp, rfl⟩
  · dsimp only
    unfold Thresholds.isHit
    -- without regional thetas a test reads the global map only
    by_cases hmode : c.theta.useRegionalTheta = true
    · refine ⟨[.isHit query K (some (report.map fun td => .fin td.2))
        cache.getNumberOfVectorsInMemoryIndex c.theta.deviationFactor], by simp, ?_⟩
      rw [if_pos hmode]
      rfl
    · refine ⟨[], by simp, ?_⟩
      rw [if_neg hmode]
      dsimp only
      unfold Thresholds.subscript
      split_ifs
      · rfl
      · cases cache.thresholds.thetaMap.lookup K <;> rfl
      · cases cache.thresholds.thetaMap.lookup K <;> rfl

theorem tests_firstHit (c : CacheConfig V) (query : V) (K : Nat) (attempts : List Cache.Attempt)
    (cache : Cache V) :
    ∃ ops : List (ThetaOp V),
      (∀ op ∈ ops, ∃ K distances num dev, op = .isHit query K distances num dev) ∧
      (Cache.firstHit c query K cache attempts).1.thresholds.pcaUtils =
        ops.foldl (fun st op => op.apply c.theta.pca st) cache.thresholds.pcaUtils := by
  induction attempts generalizing cache with
  | nil => exact ⟨[], by simp, rfl⟩
  | cons a rest ih =>
    obtain ⟨ops, hops, hstore⟩ := tests_isHitReport c cache query K a.report
    rw [Cache.firstHit]
    dsimp only
    -- a hit ends the search, a miss goes on to the next report
    split_ifs
    · exact ⟨ops, hops, by rw [Cache.thresholds_touch, hstore]⟩
    · obtain ⟨ops', hops', hstore'⟩ := ih (cache.isHitReport c query K a.report).1
      refine ⟨ops ++ ops', ?_, by rw [hstore', hstore, List.foldl_append]⟩
      intro op hop
      exact (List.mem_append.mp hop).elim (hops op) (hops' op)
    · exact ih cache

/-! ## One step -/

/-- An update acts on the regional store, or there is no such store in use. -/
theorem pcaUtils_updateTheta (c : CacheConfig V) (cache : Cache V) (query : V) (K : Nat) (d : Double) :
    (cache.updateTheta c query K d).thresholds.pcaUtils = cache.thresholds.pcaUtils ∨
      (cache.updateTheta c query K d).thresholds.pcaUtils =
        (ThetaOp.updateTheta query K d c.theta.p).apply c.theta.pca cache.thresholds.pcaUtils := by
  unfold Cache.updateTheta Thresholds.updateTheta
  split_ifs
  · exact Or.inr rfl
  · left
    dsimp only
    unfold Thresholds.subscript
    cases cache.thresholds.thetaMap.lookup K <;> rfl

theorem pcaUtils_staleWriteRegions (c : CacheConfig V) (cache : Cache V) (vec : V) :
    (cache.staleWriteRegions c (some vec)).thresholds.pcaUtils = cache.thresholds.pcaUtils ∨
      (cache.staleWriteRegions c (some vec)).thresholds.pcaUtils =
        (ThetaOp.tightenThetaForVector vec cache.writeThetaDiscount).apply c.theta.pca
          cache.thresholds.pcaUtils := by
  unfold Cache.staleWriteRegions Thresholds.staleWriteRegions
  dsimp only
  split_ifs
  · exact Or.inr rfl
  · exact Or.inl rfl

theorem thetaChange_step {s s' : Sys V β} {l : Label V} (h : step cfg s l = some s') :
    ThetaChange cfg s l s'.store := by
  cases move_of_step h with
  | search sorters query K resSize =>
    obtain ⟨attempts, heq, _⟩ := Cache.lookup_attempts cfg.cache s.cache query K sorters resSize
    obtain ⟨ops, hops, hstore⟩ := tests_firstHit cfg.cache query K attempts s.cache
    exact .tested query ops hops (by rw [store, heq, hstore]; rfl)
  | call i reply call next hcall hmove =>
    cases hmove with
    | placed => exact .same (congrArg Thresholds.pcaUtils (Cache.drops_ensureAdmitShard _).thresholds)
    | learned query K answer ids shard =>
      rcases pcaUtils_updateTheta cfg.cache s.cache query K (missKthDistance K answer) with hs | hs
      · exact .same hs
      · exact .updated i query K (missKthDistance K answer)
          (.atOnce i query K answer ids shard hcall) hs
    | chose => exact .same (congrArg Thresholds.pcaUtils (Cache.drops_chooseDataShard _).thresholds)
    | gaveUp => exact .same (congrArg Thresholds.pcaUtils (Cache.drops_chooseDataShard _).thresholds)
    | landed id vec shard cache accepted hland =>
      obtain ⟨_, _, idxs, _, rfl⟩ := Cache.insertPointUnchecked_cases hland
      exact .same rfl
    | penalised id vec =>
      rcases pcaUtils_staleWriteRegions cfg.cache s.cache vec with hs | hs
      · exact .same hs
      · exact .tightened vec hs
    | lowered id vec =>
      cases vec with
      | none => exact .same rfl
      | some vec =>
        rcases pcaUtils_staleWriteRegions cfg.cache s.cache vec with hs | hs
        · exact .same hs
        · exact .tightened vec hs
    | noted id =>
      exact .same (congrArg Thresholds.pcaUtils (Cache.thresholds_noteAdmittedTag _ _))
    | deleted id shard =>
      exact .same (congrArg Thresholds.pcaUtils (Cache.thresholds_lazyDeleteIn _ _ _))
    | _ => exact .same rfl
  | inserted w task id vec rest hworker cache ret hinsert =>
    obtain ⟨_, idxs, _, rfl⟩ := Cache.indexInsertPoint_cases hinsert
    exact .same rfl
  | finished w task hworker =>
    cases hquery : task.query with
    | none =>
      have hfinished : s.finished cfg task = s.cache := by rw [finished, hquery]
      exact .same (congrArg (fun c : Cache V => c.thresholds.pcaUtils) hfinished)
    | some query =>
      have hfinished : s.finished cfg task =
          s.cache.updateTheta cfg.cache query task.K task.queryDistance := by rw [finished, hquery]
      have hstore := congrArg (fun c : Cache V => c.thresholds.pcaUtils) hfinished
      rcases pcaUtils_updateTheta cfg.cache s.cache query task.K task.queryDistance with hs | hs
      · exact .same (hstore.trans hs)
      · exact .updated task.miss query task.K task.queryDistance
          (.lazily w task query hworker hquery) (hstore.trans hs)
  | evict => exact .same (congrArg Thresholds.pcaUtils (Cache.drops_performEviction _).thresholds)
  | consolidate shard =>
    exact .same (congrArg Thresholds.pcaUtils (Cache.drops_consolidateShard _ shard).thresholds)
  | setWriteL1Radius radius => exact .resized radius rfl
  | _ => exact .same rfl

/-! ## Discounts -/

theorem discounted_foldl {c : PcaConfig V} {st : PcaUtils} (hs : Discounted st)
    (ops : List (ThetaOp V)) : Discounted (ops.foldl (fun st op => op.apply c st) st) := by
  induction ops generalizing st with
  | nil => exact hs
  | cons op rest ih => exact ih (discounted_apply hs op)

theorem discounted_step {s s' : Sys V β} {l : Label V} (hs : Discounted s.store)
    (h : step cfg s l = some s') : Discounted s'.store := by
  cases thetaChange_step h with
  | same hstore => exact hstore ▸ hs
  | tested query ops _ hstore => exact hstore ▸ discounted_foldl hs ops
  | updated m query K d _ hstore => exact hstore ▸ discounted_apply hs _
  | tightened vec hstore => exact hstore ▸ discounted_apply hs _
  | resized radius hstore =>
    exact hstore ▸ discounted_apply (c := cfg.cache.theta.pca) hs (.setWriteL1Radius radius)

theorem discounted_of_reachable {s : Sys V β} (h : Reachable cfg s) : Discounted s.store := by
  obtain ⟨backend, radius, alpha, threads, hreach⟩ := h
  exact Traces.reachable_invariant (I := fun s : Sys V β => Discounted s.store)
    (fun s l s' hs hstep => discounted_step hs hstep) (fun _ _ => rfl) hreach

/-- A hit test keeps the discount of a region, or drops the region. -/
theorem discount_isHit {c : PcaConfig V} {st : PcaUtils} (hs : Discounted st) (query : V) (K : Nat)
    (distances : Option (List Double)) (num : Nat) (dev : ℚ) (r : RegionKey) :
    ((ThetaOp.isHit query K distances num dev).apply c st).discount r = st.discount r ∨
      r ≠ c.computeRegionKey query ∧
        ((ThetaOp.isHit query K distances num dev).apply c st).regionThetaMap.lookup r = none := by
  rcases isHit_fst (c := c) (s := st) query K distances num dev with h | h
  · exact Or.inl (by rw [ThetaOp.apply, h])
  · rw [ThetaOp.apply, h]
    -- creating the query's region may push out the oldest one
    by_cases hdrop : r ≠ c.computeRegionKey query ∧ evictee c st (c.computeRegionKey query) = some r
    · exact Or.inr ⟨hdrop.1, (access_dropped K hdrop.1 hdrop.2).1⟩
    · have hkeep : r = c.computeRegionKey query ∨
          evictee c st (c.computeRegionKey query) ≠ some r := by
        by_contra hcon
        exact hdrop (by tauto)
      exact Or.inl (access_same hs (c.computeRegionKey query) r K hkeep).2.2.2

/-- A hit test creates no region but that of its query. -/
theorem absent_isHit {c : PcaConfig V} {st : PcaUtils} {query : V} {r : RegionKey}
    (hr : r ≠ c.computeRegionKey query) (habsent : st.regionThetaMap.lookup r = none) (K : Nat)
    (distances : Option (List Double)) (num : Nat) (dev : ℚ) :
    ((ThetaOp.isHit query K distances num dev).apply c st).regionThetaMap.lookup r = none := by
  rcases isHit_fst (c := c) (s := st) query K distances num dev with h | h
  · rw [ThetaOp.apply, h, habsent]
  · rw [ThetaOp.apply, h, lookup_access, if_neg hr]
    split_ifs
    · rfl
    · exact habsent

theorem absent_tests {c : PcaConfig V} {st : PcaUtils} {query : V} {ops : List (ThetaOp V)}
    (hops : ∀ op ∈ ops, ∃ K distances num dev, op = .isHit query K distances num dev) {r : RegionKey}
    (hr : r ≠ c.computeRegionKey query) (habsent : st.regionThetaMap.lookup r = none) :
    (ops.foldl (fun st op => op.apply c st) st).regionThetaMap.lookup r = none := by
  induction ops generalizing st with
  | nil => exact habsent
  | cons op rest ih =>
    obtain ⟨K, distances, num, dev, rfl⟩ := hops op List.mem_cons_self
    exact ih (fun op' hop' => hops op' (List.mem_cons_of_mem _ hop'))
      (absent_isHit hr habsent K distances num dev)

/-- The hit tests of a search keep the discount of a region, or drop the region. -/
theorem discount_tests {c : PcaConfig V} {st : PcaUtils} (hs : Discounted st) {query : V}
    {ops : List (ThetaOp V)}
    (hops : ∀ op ∈ ops, ∃ K distances num dev, op = .isHit query K distances num dev)
    (r : RegionKey) :
    (ops.foldl (fun st op => op.apply c st) st).discount r = st.discount r ∨
      (ops.foldl (fun st op => op.apply c st) st).regionThetaMap.lookup r = none := by
  induction ops generalizing st with
  | nil => exact Or.inl rfl
  | cons op rest ih =>
    have hrest := fun op' hop' => hops op' (List.mem_cons_of_mem op hop')
    obtain ⟨K, distances, num, dev, rfl⟩ := hops op List.mem_cons_self
    rcases discount_isHit (c := c) hs query K distances num dev r with hkept | ⟨hr, habsent⟩
    · rcases ih (discounted_apply hs _) hrest with h | h
      · exact Or.inl (h.trans hkept)
      · exact Or.inr h
    · -- the rest of the search does not create the region again
      exact Or.inr (absent_tests hrest hr habsent)

/-- Only the update of a miss brings the discount of a region back to 1 while the
    region stays. -/
theorem reset_step {s s' : Sys V β} {l : Label V} (hs : Discounted s.store)
    (h : step cfg s l = some s') {r : RegionKey} (hbefore : s.store.discount r ≠ 1)
    (hafter : s'.store.discount r = 1) (hkept : (s'.store.regionThetaMap.lookup r).isSome) :
    ∃ m query, Applies cfg s l m query ∧ regionOf cfg query = r := by
  have hpresent : s'.store.regionThetaMap.lookup r ≠ none := Option.isSome_iff_ne_none.mp hkept
  cases thetaChange_step h with
  | same hstore => exact absurd (hstore ▸ hafter) hbefore
  | tested query ops hops hstore =>
    rcases discount_tests (c := cfg.cache.theta.pca) hs hops r with hsame | habsent
    · exact absurd ((hsame.symm.trans (hstore ▸ rfl)).trans hafter) hbefore
    · exact absurd (hstore ▸ habsent) hpresent
  | updated m query K d happlies hstore =>
    cases apply_effect (c := cfg.cache.theta.pca) hs (.updateTheta query K d cfg.cache.theta.p) r with
    | dropped habsent => exact absurd (hstore ▸ habsent) hpresent
    | same _ _ _ hdiscount => exact absurd (hdiscount.symm.trans (hstore ▸ hafter)) hbefore
    | learned query' _ _ _ hop hregion =>
      obtain ⟨rfl, _⟩ := ThetaOp.updateTheta.inj hop
      exact ⟨m, query, happlies, hregion⟩
    | lowered _ _ hop => cases hop
  | tightened vec hstore =>
    cases apply_effect (c := cfg.cache.theta.pca) hs
        (.tightenThetaForVector vec s.cache.writeThetaDiscount) r with
    | dropped habsent => exact absurd (hstore ▸ habsent) hpresent
    | same _ _ _ hdiscount => exact absurd (hdiscount.symm.trans (hstore ▸ hafter)) hbefore
    | learned _ _ _ _ hop => cases hop
    -- a lowered discount is below 1
    | lowered _ alpha _ halpha _ _ _ _ hdiscount =>
      exact absurd (hdiscount.symm.trans (hstore ▸ hafter)) halpha.2.ne
  | resized radius hstore =>
    rw [hstore] at hafter
    exact absurd hafter hbefore

end Sys

end QvCache
