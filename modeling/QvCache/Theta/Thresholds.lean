/-
  QvCache.Theta.Thresholds

  The thresholds as QVCache uses them (include/qvcache/qvcache.h): `isHit`,
  `update_theta` and `stale_write_regions` hand over to `PCAUtils` when
  `use_regional_theta` is set and work on the one global `theta_map` when it is
  not.  Both functions hold `theta_map_mutex` throughout.

  `seen` is the threshold that the two read for a query and K in either mode;
  `isHit_iff`, `seen_updateTheta` and `seen_isHit` say what they do with it.
-/

import QvCache.Theta.RegionSpec

namespace QvCache

open PcaUtils

/-- The members of `QVCache` that fix how thresholds are used. -/
structure ThetaConfig (V : Type) where
  useRegionalTheta : Bool
  p : ℚ
  deviationFactor : ℚ
  pca : PcaConfig V

/-- What `BackendInterface::search` writes: K ids with their distances. -/
abbrev BackendAnswer := List (UInt32 × Double)

/-- The K-th distance `handle_backend_miss` hands to `update_theta`. -/
def missKthDistance (K : Nat) (answer : BackendAnswer) : Double :=
  if 0 < K then PcaUtils.kthDistance (answer.map Prod.snd) K else 0

/-- `theta_map` and `pca_utils`. -/
structure Thresholds where
  thetaMap : ThetaEntry
  pcaUtils : PcaUtils

namespace Thresholds

variable {V : Type} (cfg : ThetaConfig V)

/-- The thresholds the constructor leaves. -/
def init (writeL1Radius : Nat) : Thresholds where
  thetaMap := if cfg.useRegionalTheta then ∅ else freshEntry cfg.pca.metric
  pcaUtils := PcaUtils.empty writeL1Radius

/-- Reading `theta_map[K]`. -/
def subscript (th : Thresholds) (K : Nat) : Thresholds × Double :=
  match th.thetaMap.lookup K with
  | some theta => (th, theta)
  | none => ({ th with thetaMap := th.thetaMap.insert K 0 }, 0)

/-- `QVCache::isHit` from the point where the thresholds are locked. -/
def isHit (th : Thresholds) (query : V) (K : Nat) (distances : Option (List Double))
    (numVectorsInMemory : Nat) : Thresholds × Bool :=
  if cfg.useRegionalTheta then
    let r := PcaUtils.isHit cfg.pca th.pcaUtils query K distances numVectorsInMemory
      cfg.deviationFactor
    ({ th with pcaUtils := r.1 }, r.2)
  else
    -- the global test makes the same comparisons, in its own order
    match distances with
    | none => (th, false)
    | some ds =>
      if numVectorsInMemory < K ∨ K = 0 then (th, false)
      else
        let r := th.subscript K
        if isUninitializedTheta cfg.pca.metric r.2 then (r.1, false)
        else (r.1, decide (kthDistance ds K ≤ (1 + cfg.deviationFactor) * r.2))

/-- `QVCache::update_theta`. -/
def updateTheta (th : Thresholds) (query : V) (K : Nat) (queryDistance : Double) : Thresholds :=
  if cfg.useRegionalTheta then
    { th with pcaUtils := PcaUtils.updateTheta cfg.pca th.pcaUtils query K queryDistance cfg.p }
  else
    let r := th.subscript K
    { r.1 with
      thetaMap := r.1.thetaMap.insert K (movedTheta cfg.pca.metric r.2 queryDistance cfg.p) }

/-- `QVCache::stale_write_regions`; `vec` is `none` for a null pointer. -/
def staleWriteRegions (th : Thresholds) (vec : Option V) (writeThetaDiscount : ℚ) : Thresholds :=
  match vec with
  | none => th
  | some v =>
    if cfg.useRegionalTheta then
      { th with pcaUtils := (tightenThetaForVector cfg.pca th.pcaUtils v writeThetaDiscount).1 }
    -- `theta_map` is never discounted
    else th

/-! ## The threshold that is read -/

/-- The threshold `isHit` and `update_theta` read for a query and K. -/
def seen (th : Thresholds) (query : V) (K : Nat) : Double :=
  if cfg.useRegionalTheta then thetaSeen cfg.pca th.pcaUtils (cfg.pca.computeRegionKey query) K
  else (th.thetaMap.lookup K).getD 0

/-- Two queries read the same thresholds. -/
def SameTheta (query query' : V) : Prop :=
  cfg.useRegionalTheta = true → cfg.pca.computeRegionKey query = cfg.pca.computeRegionKey query'

/-- The threshold is one an update has stored, as far as the hit test can tell. -/
def Learned (th : Thresholds) (query : V) (K : Nat) : Prop :=
  isUninitializedTheta cfg.pca.metric (th.seen cfg query K) = false

/-- The threshold that is stored for a query and K. -/
def stored (th : Thresholds) (query : V) (K : Nat) : Option Double :=
  if cfg.useRegionalTheta then th.pcaUtils.theta? (cfg.pca.computeRegionKey query) K
  else th.thetaMap.lookup K

variable {cfg} {th : Thresholds}

theorem subscript_snd (K : Nat) : (th.subscript K).2 = (th.thetaMap.lookup K).getD 0 := by
  unfold subscript
  cases th.thetaMap.lookup K <;> rfl

theorem lookup_subscript (K K' : Nat) :
    (th.subscript K).1.thetaMap.lookup K' =
      if K' = K then some ((th.thetaMap.lookup K).getD 0) else th.thetaMap.lookup K' := by
  have htouch : (th.subscript K).1.thetaMap = touch th.thetaMap K := by
    unfold subscript touch
    cases th.thetaMap.lookup K <;> rfl
  rw [htouch, lookup_touch]

/-- The hit test in either mode. -/
theorem isHit_iff {query : V} {K : Nat} {distances : Option (List Double)} {num : Nat} :
    (th.isHit cfg query K distances num).2 = true ↔
      ∃ ds, distances = some ds ∧ K ≤ num ∧ K ≠ 0 ∧ th.Learned cfg query K ∧
        kthDistance ds K ≤ (1 + cfg.deviationFactor) * th.seen cfg query K := by
  unfold isHit Learned seen
  by_cases hmode : cfg.useRegionalTheta = true
  · simp only [hmode, if_true]
    exact isHit_snd_iff
  · rw [if_neg hmode, if_neg hmode, ← subscript_snd]
    rw [← hitTest_iff]
    cases distances <;> rfl

/-- A hit test that accepts leaves the threshold it compared with stored. -/
theorem stored_of_isHit {query : V} {K : Nat} {distances : Option (List Double)} {num : Nat}
    (h : (th.isHit cfg query K distances num).2 = true) :
    (th.isHit cfg query K distances num).1.stored cfg query K = some (th.seen cfg query K) := by
  obtain ⟨ds, rfl, hnum, hK, _, _⟩ := isHit_iff.mp h
  have hguard : ¬ (num < K ∨ K = 0) := by omega
  unfold isHit stored seen
  by_cases hmode : cfg.useRegionalTheta = true
  · simp only [hmode, if_true]
    have hfst : (PcaUtils.isHit cfg.pca th.pcaUtils query K (some ds) num cfg.deviationFactor).1 =
        (access cfg.pca th.pcaUtils (cfg.pca.computeRegionKey query) K).1 := by
      unfold PcaUtils.isHit access
      dsimp only
      rw [if_neg hguard]
      split_ifs <;> rfl
    rw [hfst, theta?_access_self, if_pos rfl]
  · simp only [hmode, Bool.false_eq_true, if_false, hguard]
    have hlook : (th.subscript K).1.thetaMap.lookup K = some ((th.thetaMap.lookup K).getD 0) := by
      rw [lookup_subscript, if_pos rfl]
    split_ifs
    · exact hlook
    · exact hlook

/-- After an update the queries that share its threshold read what it stored. -/
theorem seen_updateTheta {query query' : V} (hsame : SameTheta cfg query query') (K : Nat)
    (d : Double) :
    (th.updateTheta cfg query K d).seen cfg query' K =
      movedTheta cfg.pca.metric (th.seen cfg query K) d cfg.p := by
  unfold updateTheta seen
  by_cases hmode : cfg.useRegionalTheta = true
  · simp only [hmode, if_true]
    rw [← hsame hmode]
    exact thetaSeen_of_theta? (theta?_updateTheta_self query K d cfg.p)
  · rw [if_neg hmode, if_neg hmode, if_neg hmode, Table.lookup_insert_eq, if_pos rfl, subscript_snd]
    rfl

/-- The queries that share a threshold read the same one. -/
theorem seen_congr {query query' : V} (hsame : SameTheta cfg query query') (K : Nat) :
    th.seen cfg query K = th.seen cfg query' K := by
  unfold seen
  split_ifs with hmode
  · rw [hsame hmode]
  · rfl

/-- An update of K leaves the thresholds for other K as they were. -/
theorem seen_updateTheta_other {query query' : V} (hsame : SameTheta cfg query query')
    {K K' : Nat} (hK : K' ≠ K) (d : Double) :
    (th.updateTheta cfg query K d).seen cfg query' K' = th.seen cfg query' K' := by
  rw [← seen_congr hsame, ← seen_congr hsame]
  unfold updateTheta seen
  by_cases hmode : cfg.useRegionalTheta = true
  · simp only [hmode, if_true]
    exact thetaSeen_updateTheta_other query d cfg.p hK
  · rw [if_neg hmode, if_neg hmode, if_neg hmode, Table.lookup_insert_eq, if_neg hK,
      lookup_subscript, if_neg hK]

/-- A hit test does not change the thresholds that the query reads. -/
theorem seen_isHit (query : V) (K : Nat) (distances : Option (List Double)) (num : Nat)
    {K' : Nat} :
    (th.isHit cfg query K distances num).1.seen cfg query K' = th.seen cfg query K' := by
  unfold isHit seen
  by_cases hmode : cfg.useRegionalTheta = true
  · simp only [hmode, if_true]
    rcases isHit_fst (c := cfg.pca) (s := th.pcaUtils) query K distances num cfg.deviationFactor
      with h | h
    · rw [h]
    · rw [h, thetaSeen_access]
  · simp only [hmode, if_false, Bool.false_eq_true]
    cases distances with
    | none => rfl
    | some ds =>
      have hlook : ((th.subscript K).1.thetaMap.lookup K').getD 0 =
          (th.thetaMap.lookup K').getD 0 := by
        rw [lookup_subscript]
        split_ifs with hK
        · rw [hK]
          rfl
        · rfl
      dsimp only
      split_ifs
      · rfl
      · exact hlook
      · exact hlook

/-! ## Global mode -/

section Global

variable (hmode : cfg.useRegionalTheta = false)
include hmode

/-- A hit test changes no threshold that can be read. -/
theorem getD_isHit (query : V) (K : Nat) (distances : Option (List Double)) (num K' : Nat) :
    ((th.isHit cfg query K distances num).1.thetaMap.lookup K').getD 0 =
      (th.thetaMap.lookup K').getD 0 := by
  have hseen : (th.isHit cfg query K distances num).1.seen cfg query K' = th.seen cfg query K' :=
    seen_isHit query K distances num
  rwa [seen, seen, hmode, if_neg Bool.false_ne_true, if_neg Bool.false_ne_true] at hseen

theorem lookup_updateTheta_self (query : V) (K : Nat) (d : Double) :
    (th.updateTheta cfg query K d).thetaMap.lookup K =
      some (movedTheta cfg.pca.metric ((th.thetaMap.lookup K).getD 0) d cfg.p) := by
  simp only [updateTheta, hmode, Bool.false_eq_true, if_false, Table.lookup_insert_eq, if_true,
    subscript_snd]

theorem getD_updateTheta_other {query : V} {K K' : Nat} (hK : K' ≠ K) (d : Double) :
    ((th.updateTheta cfg query K d).thetaMap.lookup K').getD 0 = (th.thetaMap.lookup K').getD 0 := by
  simp only [updateTheta, hmode, Bool.false_eq_true, if_false, Table.lookup_insert_eq, hK,
    lookup_subscript]

end Global

/-- The threshold 0 admits the distance 0. -/
theorem isHit_of_seen_zero {query : V} {K : Nat} (hK : K ≠ 0) (hzero : th.seen cfg query K = 0) :
    (th.isHit cfg query K (some (List.replicate K 0)) K).2 = true := by
  refine isHit_iff.mpr ⟨_, rfl, le_refl K, hK, ?_, ?_⟩
  · rw [Learned, hzero]
    exact not_isUninitialized_zero cfg.pca.metric
  · rw [kthDistance_replicate hK, hzero, Double.zero_def, Double.mul_fin, mul_zero]
    exact Double.fin_le_fin.mpr (le_refl 0)

end Thresholds

end QvCache
