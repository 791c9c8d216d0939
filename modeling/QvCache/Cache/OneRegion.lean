/-
  QvCache.Cache.OneRegion

  Global and regional thresholds as one policy.  The hit test and the update of
  a threshold are written twice, in include/qvcache/qvcache.h for the one global
  table and in include/qvcache/pca_utils.h for the table of a region.  With one
  bucket for each dimension every query is in one region (`computeRegionKey_eq`),
  and then both give the same answers to any history of calls
  (`answers_oneRegion`).
-/

import QvCache.Cache.Search
import QvCache.Theta.PcaFile

namespace QvCache

open PcaUtils

/-! ## One bucket -/

namespace PcaFile

variable {α β : Type}

/-- With one bucket every component has the code 0, whatever the arithmetic. -/
theorem keyByte_one (a : Arith α) (minv maxv val : α) : a.keyByte 1 minv maxv val = 0 := by
  rw [Arith.keyByte]
  split_ifs with hflat
  · rfl
  · have hnot : ∀ bucket : UInt64, ¬ bucket < 1 - 1 := by
      intro bucket hlt
      exact absurd (UInt64.lt_iff_toNat_lt.mp hlt) (Nat.not_lt_zero _)
    dsimp only
    rw [if_neg (hnot _)]
    rfl

theorem memberKey_one (a : Arith α) {sz : PcaSizes} (hone : sz.bucketsPerDim = 1)
    (m : PcaMembers α) (vec : List α) :
    memberKey a sz m vec = List.replicate sz.pcaDim.toNat 0 := by
  refine List.eq_replicate_iff.mpr ⟨?_, fun code hcode => ?_⟩
  · rw [memberKey, List.length_map, List.length_range]
  · obtain ⟨i, -, rfl⟩ := List.mem_map.mp hcode
    rw [hone, keyByte_one]

/-- All vectors are in one region. -/
theorem computeRegionKey_eq (t : Arith α) (f : Arith β) (cast : α → β) {sz : PcaSizes}
    (hone : sz.bucketsPerDim = 1) (isFloating : Bool) (tables : PcaTables α β)
    (vec vec' : List α) :
    computeRegionKey t f cast sz isFloating tables vec =
      computeRegionKey t f cast sz isFloating tables vec' := by
  rw [computeRegionKey, computeRegionKey]
  split_ifs
  · rw [memberKey_one t hone, memberKey_one t hone]
  · rw [memberKey_one f hone, memberKey_one f hone]

/-- What the constructor of `PCAUtils` fixes, with the learned tables. -/
def pcaConfig (t : Arith α) (f : Arith β) (cast : α → β) (sz : PcaSizes) (isFloating : Bool)
    (tables : PcaTables α β) (metric : Metric) (maxRegions : Nat) : PcaConfig (List α) where
  metric := metric
  bucketsPerDim := sz.bucketsPerDim.toNat
  maxRegions := maxRegions
  computeRegionKey := computeRegionKey t f cast sz isFloating tables

end PcaFile

/-! ## The two modes -/

/-- The same cache with `use_regional_theta` set or not. -/
def ThetaConfig.withRegional {V : Type} (cfg : ThetaConfig V) (useRegionalTheta : Bool) :
    ThetaConfig V :=
  { cfg with useRegionalTheta := useRegionalTheta }

def CacheConfig.withRegional {V : Type} (cfg : CacheConfig V) (useRegionalTheta : Bool) :
    CacheConfig V :=
  { cfg with theta := cfg.theta.withRegional useRegionalTheta }

namespace Thresholds

variable {V : Type} {cfg : ThetaConfig V}

/-- Both modes read the same threshold for every query and K. -/
def SameSeen (cfg : ThetaConfig V) (regional global : Thresholds) : Prop :=
  ∀ query K, regional.seen (cfg.withRegional true) query K =
    global.seen (cfg.withRegional false) query K

/-- The eager initialisation of the global table and the lazy one of a region. -/
theorem sameSeen_init (cfg : ThetaConfig V) (radius : Nat) :
    SameSeen cfg (init (cfg.withRegional true) radius) (init (cfg.withRegional false) radius) := by
  intro query K
  rw [seen, seen, if_pos (show (cfg.withRegional true).useRegionalTheta = true from rfl),
    if_neg (show ¬ (cfg.withRegional false).useRegionalTheta = true from Bool.false_ne_true)]
  rfl

variable {regional global : Thresholds}
  (hregion : ∀ query query', cfg.pca.computeRegionKey query = cfg.pca.computeRegionKey query')

include hregion

theorem sameTheta (useRegionalTheta : Bool) (query query' : V) :
    SameTheta (cfg.withRegional useRegionalTheta) query query' := fun _ => hregion query query'

omit hregion in
/-- The two hit tests. -/
theorem SameSeen.isHit_eq (h : SameSeen cfg regional global) (query : V) (K : Nat)
    (distances : Option (List Double)) (num : Nat) :
    (regional.isHit (cfg.withRegional true) query K distances num).2 =
      (global.isHit (cfg.withRegional false) query K distances num).2 := by
  rw [Bool.eq_iff_iff, isHit_iff, isHit_iff, Learned, Learned, h query K]
  exact Iff.rfl

theorem SameSeen.isHit (h : SameSeen cfg regional global) (query : V) (K : Nat)
    (distances : Option (List Double)) (num : Nat) :
    SameSeen cfg (regional.isHit (cfg.withRegional true) query K distances num).1
      (global.isHit (cfg.withRegional false) query K distances num).1 := by
  intro query' K'
  rw [seen_congr (sameTheta hregion true query' query),
    seen_congr (sameTheta hregion false query' query), seen_isHit, seen_isHit]
  exact h query K'

/-- The two updates. -/
theorem SameSeen.updateTheta (h : SameSeen cfg regional global) (query : V) (K : Nat) (d : Double) :
    SameSeen cfg (regional.updateTheta (cfg.withRegional true) query K d)
      (global.updateTheta (cfg.withRegional false) query K d) := by
  intro query' K'
  have htrue := sameTheta hregion true query query'
  have hfalse := sameTheta hregion false query query'
  by_cases hK : K' = K
  · rw [hK, seen_updateTheta htrue, seen_updateTheta hfalse, h query K]
    rfl
  · rw [seen_updateTheta_other htrue hK, seen_updateTheta_other hfalse hK]
    exact h query' K'

end Thresholds

/-! ## Histories -/

/-- The two calls that use thresholds. -/
inductive ThetaCall (V : Type) where
  | isHit (query : V) (K : Nat) (distances : Option (List Double)) (tags : Option (List Tag))
      (numResults : Nat)
  | updateTheta (query : V) (K : Nat) (queryDistance : Double)

/-- What a call finds: the mini-indexes and the tombstones. -/
structure Surroundings (V : Type) where
  memoryIndices : List (MiniIndex V)
  deletedIds : Finset UInt32

namespace Cache

variable {V : Type}

def within (c : Cache V) (around : Surroundings V) : Cache V :=
  { c with memoryIndices := around.memoryIndices, deletedIds := around.deletedIds }

/-- What the hit tests of a history answer. -/
def answers (cfg : CacheConfig V) : Cache V → List (Surroundings V × ThetaCall V) → List Bool
  | _, [] => []
  | c, (around, .isHit query K distances tags numResults) :: rest =>
    let r := (c.within around).isHit cfg query K distances tags numResults
    r.2 :: answers cfg r.1 rest
  | c, (around, .updateTheta query K queryDistance) :: rest =>
    answers cfg ((c.within around).updateTheta cfg query K queryDistance) rest

/-- Where all queries are in one region, caches that read the same thresholds
    answer alike. -/
theorem answers_congr {cfg : CacheConfig V}
    (hregion : ∀ query query',
      cfg.theta.pca.computeRegionKey query = cfg.theta.pca.computeRegionKey query')
    {regional global : Cache V}
    (h : Thresholds.SameSeen cfg.theta regional.thresholds global.thresholds)
    (calls : List (Surroundings V × ThetaCall V)) :
    answers (cfg.withRegional true) regional calls =
      answers (cfg.withRegional false) global calls := by
  induction calls generalizing regional global with
  | nil => rfl
  | cons step rest ih =>
    obtain ⟨around, call⟩ := step
    cases call with
    | isHit query K distances tags numResults =>
      have hlive : (regional.within around).hasKLiveResults K tags numResults =
          (global.within around).hasKLiveResults K tags numResults := rfl
      have hnum : (regional.within around).getNumberOfVectorsInMemoryIndex =
          (global.within around).getNumberOfVectorsInMemoryIndex := rfl
      simp only [answers, isHit, hlive, hnum]
      by_cases hguard : (!(global.within around).hasKLiveResults K tags numResults) = true
      · rw [if_pos hguard, if_pos hguard]
        exact congrArg (false :: ·) (ih h)
      · rw [if_neg hguard, if_neg hguard]
        exact congrArg₂ List.cons (h.isHit_eq query K distances _)
          (ih (h.isHit hregion query K distances _))
    | updateTheta query K queryDistance => exact ih (h.updateTheta hregion query K queryDistance)

/-- With one bucket for each dimension, regional and global thresholds answer
    every history alike. -/
theorem answers_oneRegion {α β : Type} (t : PcaFile.Arith α) (f : PcaFile.Arith β)
    (cast : α → β) {sz : PcaSizes} (hone : sz.bucketsPerDim = 1) (isFloating : Bool)
    (tables : PcaTables α β) (metric : Metric) (maxRegions : Nat) (cfg : CacheConfig (List α))
    (hpca : cfg.theta.pca =
      PcaFile.pcaConfig t f cast sz isFloating tables metric maxRegions)
    (writeL1Radius : Nat) (writeThetaDiscount : ℚ)
    (calls : List (Surroundings (List α) × ThetaCall (List α))) :
    answers (cfg.withRegional true)
        (init (cfg.withRegional true) writeL1Radius writeThetaDiscount) calls =
      answers (cfg.withRegional false)
        (init (cfg.withRegional false) writeL1Radius writeThetaDiscount) calls := by
  refine answers_congr (fun query query' => ?_) (Thresholds.sameSeen_init cfg.theta _) calls
  rw [hpca]
  exact PcaFile.computeRegionKey_eq t f cast hone isFloating tables query query'

/-- A cache over one dimension, with one bucket. -/
def oneBucket : CacheConfig (List ℚ) where
  theta := {
    useRegionalTheta := true
    p := 9 / 10
    deviationFactor := 1 / 10
    pca := PcaFile.pcaConfig PcaFile.exactArith PcaFile.exactArith id (PcaFile.unitSizes 1) true
      ⟨⟨[0], [1], [0], [2]⟩, ⟨[], [], [], []⟩⟩ .L2 1 }
  search := SearchWithTags.exact fun _ _ => 0
  numberOfMiniIndexes := 1
  someMiniIndex := Nat.one_pos
  memoryIndexMaxPointsPerIndex := 4
  maxSearchThreads := 1
  lazyThetaUpdates := false

/-- One vector in memory, and no tombstones. -/
def oneVector : Surroundings (List ℚ) where
  memoryIndices := [{
    points := (∅ : Table Tag (List ℚ)).insert 5 [2]
    lazyDeleted := 0
    maxPoints := 4
    fits := by decide }]
  deletedIds := ∅

/-- A miss, the update after it, and a hit elsewhere in the one region. -/
def missThenHit : List (Surroundings (List ℚ) × ThetaCall (List ℚ)) :=
  [(oneVector, .isHit [1] 1 (some [.fin 3]) (some [5]) 1),
    (oneVector, .updateTheta [1] 1 (.fin 3)),
    (oneVector, .isHit [2] 1 (some [.fin 3]) (some [5]) 1)]

theorem answers_missThenHit :
    answers (oneBucket.withRegional true) (init (oneBucket.withRegional true) 0 1) missThenHit =
      [false, true] := by
  have hone : (PcaFile.unitSizes 1).bucketsPerDim = 1 := rfl
  rw [answers_oneRegion PcaFile.exactArith PcaFile.exactArith id hone true _ .L2 1 oneBucket rfl
    0 1 missThenHit]
  decide +kernel

end Cache

end QvCache
