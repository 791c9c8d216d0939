/-
  QvCache.Theta.Padding

  What an incomplete backend answer does to a threshold.  A backend that finds
  fewer than K ids fills the rest of its answer with an invalid id and a huge
  distance; the last of these is the K-th distance that `handle_backend_miss`
  passes to `update_theta`, at once or through the worker queue.

  `PadHarmless` is the condition on the threshold and the padding under which
  the cache accepts nothing after the update that it rejected before.
-/

import QvCache.Theta.Thresholds
import Mathlib.Tactic.Ring

namespace QvCache

open Thresholds
open PcaUtils (movedTheta)

/-! ## Answers -/

/-- What a backend fills an answer up with. -/
structure Padding where
  id : UInt32
  distance : Double
deriving DecidableEq

/-- The paddings of the shipped backends: id `UINT32_MAX` or 0 with distance
    `+inf` or `FLT_MAX`. -/
def Padding.Shipped (pad : Padding) : Prop :=
  (pad.id = 0xFFFFFFFF ∨ pad.id = 0) ∧
    (pad.distance = .posInf ∨ pad.distance = .fin Double.fltMax)

/-- An answer with the ids that were found, filled up to K. -/
def paddedAnswer (found : BackendAnswer) (K : Nat) (pad : Padding) : BackendAnswer :=
  found ++ List.replicate (K - found.length) (pad.id, pad.distance)

/-- The K-th distance of an incomplete answer is the padding. -/
theorem missKthDistance_padded {found : BackendAnswer} {K : Nat} (hshort : found.length < K)
    (pad : Padding) : missKthDistance K (paddedAnswer found K pad) = pad.distance := by
  have hK : 0 < K := by omega
  have hright : found.length ≤ K - 1 := by omega
  have hlt : K - 1 - found.length < K - found.length := by omega
  rw [missKthDistance, if_pos hK, PcaUtils.kthDistance, paddedAnswer, List.map_append,
    List.map_replicate, List.getD_eq_getElem?_getD,
    List.getElem?_append_right (by rw [List.length_map]; exact hright), List.length_map,
    List.getElem?_replicate, if_pos hlt]
  rfl

/-! ## Permissiveness -/

/-- A learned threshold lets a K-th distance through. -/
def Accepts {V : Type} (cfg : ThetaConfig V) (theta d : Double) : Prop :=
  isUninitializedTheta cfg.pca.metric theta = false ∧ d ≤ (1 + cfg.deviationFactor) * theta

/-- After a step from `th` to `th'` no query that reads the threshold of
    `query` gets a hit for K it would not have got before, and an unlearned
    threshold is still unlearned. -/
def NoMorePermissive {V : Type} (cfg : ThetaConfig V) (th th' : Thresholds) (query : V) (K : Nat) :
    Prop :=
  (∀ query', SameTheta cfg query query' → ∀ ds num,
    (th'.isHit cfg query' K ds num).2 = true → (th.isHit cfg query' K ds num).2 = true) ∧
  (¬ th.Learned cfg query K → ¬ th'.Learned cfg query K)

/-- The condition on the threshold `theta` and the padding distance.  Unlearned:
    the padding has to look unlearned too.  Learned and finite: either the
    average with the padding looks unlearned, is NaN or minus infinity, or it
    moves the tolerance down.  A threshold that is not finite takes no harm. -/
def PadHarmless {V : Type} (cfg : ThetaConfig V) (theta pad : Double) : Prop :=
  if isUninitializedTheta cfg.pca.metric theta = true then
    cfg.pca.metric ≠ .cosine ∧ pad = .posInf
  else
    match theta, pad with
    | .fin x, .fin m =>
      (1 + cfg.deviationFactor) * (cfg.p * (m - x)) ≤ 0 ∨
        cfg.pca.metric ≠ .cosine ∧ Double.dblMax * (1 / 2) ≤ cfg.p * m + (1 - cfg.p) * x
    | .fin _, _ =>
      (0 < cfg.p → cfg.pca.metric = .cosine → 1 + cfg.deviationFactor ≤ 0) ∧
        (cfg.p < 0 → cfg.pca.metric ≠ .cosine → 0 ≤ 1 + cfg.deviationFactor)
    | _, _ => True

section

variable {V : Type} {cfg : ThetaConfig V} {th th' : Thresholds} {query : V} {K : Nat}

/-- Permissiveness is about the two thresholds only. -/
theorem noMorePermissive_iff (hK : K ≠ 0)
    (hsame : ∀ query', SameTheta cfg query query' → th'.seen cfg query' K = th'.seen cfg query K) :
    NoMorePermissive cfg th th' query K ↔
      (∀ d, Accepts cfg (th'.seen cfg query K) d → Accepts cfg (th.seen cfg query K) d) ∧
      (isUninitializedTheta cfg.pca.metric (th.seen cfg query K) = true →
        isUninitializedTheta cfg.pca.metric (th'.seen cfg query K) = true) := by
  unfold NoMorePermissive Learned
  refine and_congr ?_ (by simp only [Bool.not_eq_false])
  constructor
  · intro h d hd
    have hhit := h query (fun _ => rfl) (some (List.replicate K d)) K
      (isHit_iff.mpr ⟨_, rfl, le_refl K, hK, hd.1, by
        rw [PcaUtils.kthDistance_replicate hK]
        exact hd.2⟩)
    obtain ⟨ds, hds, _, _, hlearned, hle⟩ := isHit_iff.mp hhit
    obtain rfl := Option.some.inj hds
    rw [PcaUtils.kthDistance_replicate hK] at hle
    exact ⟨hlearned, hle⟩
  · intro h query' hq ds num hhit
    obtain ⟨ds', hds, hnum, _, hlearned, hle⟩ := isHit_iff.mp hhit
    rw [Learned, hsame query' hq] at hlearned
    rw [hsame query' hq] at hle
    obtain ⟨hlearned', hle'⟩ := h _ ⟨hlearned, hle⟩
    rw [seen_congr hq] at hlearned' hle'
    exact isHit_iff.mpr ⟨ds', hds, hnum, hK, hlearned', hle'⟩

/-- A learned threshold does not get more permissive exactly if its successor
    looks unlearned, has no tolerance, or a tolerance no larger. -/
theorem accepts_mono_iff {theta theta' : Double}
    (hlearned : isUninitializedTheta cfg.pca.metric theta = false) :
    (∀ d, Accepts cfg theta' d → Accepts cfg theta d) ↔
      isUninitializedTheta cfg.pca.metric theta' = true ∨
        (1 + cfg.deviationFactor) * theta' = .nan ∨
        (1 + cfg.deviationFactor) * theta' ≤ (1 + cfg.deviationFactor) * theta := by
  constructor
  · intro h
    by_contra hcon
    obtain ⟨hun, hnan, hle⟩ := by simpa only [not_or] using hcon
    exact hle (h _ ⟨Bool.eq_false_iff.mpr hun, Double.le_refl_of_ne_nan hnan⟩).2
  · rintro (hun | hnan | hle) d ⟨hlearned', hd⟩
    · rw [hun] at hlearned'
      cases hlearned'
    · rw [hnan] at hd
      exact absurd hd (Double.not_le_nan d)
    · exact ⟨hlearned, Double.le_trans hd hle⟩

theorem isUninitialized_fin {metric : Metric} {x : ℚ} :
    isUninitializedTheta metric (.fin x) = true ↔
      metric ≠ .cosine ∧ Double.dblMax * (1 / 2) ≤ x := by
  unfold isUninitializedTheta
  split_ifs with h <;> simp [h]

theorem isUninitialized_posInf {metric : Metric} :
    isUninitializedTheta metric .posInf = true ↔ metric ≠ .cosine := by
  unfold isUninitializedTheta
  split_ifs with h <;> simp [h]

theorem isUninitialized_negInf {metric : Metric} :
    isUninitializedTheta metric .negInf = true ↔ metric = .cosine := by
  unfold isUninitializedTheta
  split_ifs with h <;> simp [h]

theorem isUninitialized_shipped {pad : Double} (hpad : pad = .posInf ∨ pad = .fin Double.fltMax)
    {metric : Metric} :
    isUninitializedTheta metric pad = true ↔ metric ≠ .cosine ∧ pad = .posInf := by
  have hsmall : ¬ Double.dblMax * (1 / 2) ≤ Double.fltMax := by decide +kernel
  rcases hpad with rfl | rfl
  · simp [isUninitialized_posInf]
  · rw [isUninitialized_fin]
    exact iff_of_false (fun h => hsmall h.2) (fun h => Double.noConfusion h.2)

/-- Averaging an infinite or NaN threshold with a padding leaves it, gives NaN,
    or gives the sentinel. -/
theorem moved_not_finite {metric : Metric} {theta pad : Double} {p : ℚ}
    (hlearned : isUninitializedTheta metric theta = false) (hfin : ∀ x, theta ≠ .fin x)
    (hpad : pad = .posInf ∨ pad = .fin Double.fltMax) :
    p * pad + (1 - p) * theta = theta ∨ p * pad + (1 - p) * theta = .nan ∨
      isUninitializedTheta metric (p * pad + (1 - p) * theta) = true := by
  cases theta with
  | nan =>
    right; left
    rw [Double.mul_nan, Double.add_nan]
  | fin x => exact absurd rfl (hfin x)
  | negInf =>
    -- learned only if the metric does not take it for the sentinel
    have hmetric : metric ≠ .cosine := by
      rw [Bool.eq_false_iff, ne_eq, isUninitialized_negInf] at hlearned
      exact hlearned
    -- the sign of the old value's weight decides which infinity it adds
    rcases lt_trichotomy (1 - p) 0 with hq | hq | hq
    · have hp : 0 < p := by linarith
      right; right
      rw [Double.mul_negInf_of_neg hq]
      rcases hpad with rfl | rfl
      · rw [Double.mul_posInf hp, Double.posInf_add_posInf]
        exact isUninitialized_posInf.mpr hmetric
      · rw [Double.mul_fin, Double.fin_add_posInf]
        exact isUninitialized_posInf.mpr hmetric
    · right; left
      rw [hq, Double.zero_mul_negInf, Double.add_nan]
    · rw [Double.mul_negInf hq]
      rcases hpad with rfl | rfl
      · rcases lt_trichotomy p 0 with hp | rfl | hp
        · left
          rw [Double.mul_posInf_of_neg hp, Double.negInf_add_negInf]
        · right; left
          rw [Double.zero_mul_posInf, Double.nan_add]
        · right; left
          rw [Double.mul_posInf hp, Double.posInf_add_negInf]
      · left
        rw [Double.mul_fin, Double.fin_add_negInf]
  | posInf =>
    have hmetric : metric = .cosine := by
      rw [Bool.eq_false_iff, ne_eq, isUninitialized_posInf] at hlearned
      exact not_not.mp hlearned
    rcases lt_trichotomy (1 - p) 0 with hq | hq | hq
    · have hp : 0 < p := by linarith
      rw [Double.mul_posInf_of_neg hq]
      rcases hpad with rfl | rfl
      · right; left
        rw [Double.mul_posInf hp, Double.posInf_add_negInf]
      · right; right
        rw [Double.mul_fin, Double.fin_add_negInf]
        exact isUninitialized_negInf.mpr hmetric
    · right; left
      rw [hq, Double.zero_mul_posInf, Double.add_nan]
    · rw [Double.mul_posInf hq]
      rcases hpad with rfl | rfl
      · rcases lt_trichotomy p 0 with hp | rfl | hp
        · right; left
          rw [Double.mul_posInf_of_neg hp, Double.negInf_add_posInf]
        · right; left
          rw [Double.zero_mul_posInf, Double.nan_add]
        · left
          rw [Double.mul_posInf hp, Double.posInf_add_posInf]
      · left
        rw [Double.mul_fin, Double.fin_add_posInf]

/-- The average of a finite threshold with the padding `+inf`. -/
theorem moved_posInf {x : ℚ} (hlearned : isUninitializedTheta cfg.pca.metric (.fin x) = false) :
    (∀ d, Accepts cfg (cfg.p * Double.posInf + (1 - cfg.p) * Double.fin x) d →
        Accepts cfg (.fin x) d) ↔
      (0 < cfg.p → cfg.pca.metric = .cosine → 1 + cfg.deviationFactor ≤ 0) ∧
        (cfg.p < 0 → cfg.pca.metric ≠ .cosine → 0 ≤ 1 + cfg.deviationFactor) := by
  rw [accepts_mono_iff hlearned, Double.mul_fin, Double.mul_fin]
  rcases lt_trichotomy cfg.p 0 with hp | hp | hp
  · rw [Double.mul_posInf_of_neg hp, Double.negInf_add_fin, isUninitialized_negInf]
    rcases lt_trichotomy (1 + cfg.deviationFactor) 0 with ha | ha | ha
    · simp [Double.mul_negInf_of_neg ha, hp, hp.not_gt, ha.not_ge]
    · simp [ha]
    · simp [Double.mul_negInf ha, hp.not_gt, ha.le]
  · simp [hp]
  · rw [Double.mul_posInf hp, Double.posInf_add_fin, isUninitialized_posInf]
    rcases lt_trichotomy (1 + cfg.deviationFactor) 0 with ha | ha | ha
    · simp [Double.mul_posInf_of_neg ha, hp.not_gt, ha.le]
    · simp [ha]
    · simp [Double.mul_posInf ha, hp, hp.not_gt, ha.not_ge]

/-- The average of a finite threshold with the padding `FLT_MAX`. -/
theorem moved_fin {x m : ℚ} (hlearned : isUninitializedTheta cfg.pca.metric (.fin x) = false) :
    (∀ d, Accepts cfg (cfg.p * Double.fin m + (1 - cfg.p) * Double.fin x) d →
        Accepts cfg (.fin x) d) ↔
      (1 + cfg.deviationFactor) * (cfg.p * (m - x)) ≤ 0 ∨
        cfg.pca.metric ≠ .cosine ∧ Double.dblMax * (1 / 2) ≤ cfg.p * m + (1 - cfg.p) * x := by
  rw [accepts_mono_iff hlearned, Double.mul_fin, Double.mul_fin, Double.fin_add_fin,
    isUninitialized_fin, Double.mul_fin, Double.mul_fin, Double.fin_le_fin]
  have hdiff : (1 + cfg.deviationFactor) * (cfg.p * m + (1 - cfg.p) * x) =
      (1 + cfg.deviationFactor) * x + (1 + cfg.deviationFactor) * (cfg.p * (m - x)) := by
    ring
  rw [hdiff]
  simp only [reduceCtorEq, false_or, add_le_iff_nonpos_right]
  exact or_comm

/-- What an update with a padding does to the thresholds that are accepted. -/
theorem padHarmless_iff {theta pad : Double} (hpad : pad = .posInf ∨ pad = .fin Double.fltMax) :
    ((∀ d, Accepts cfg (movedTheta cfg.pca.metric theta pad cfg.p) d → Accepts cfg theta d) ∧
      (isUninitializedTheta cfg.pca.metric theta = true →
        isUninitializedTheta cfg.pca.metric (movedTheta cfg.pca.metric theta pad cfg.p) = true)) ↔
      PadHarmless cfg theta pad := by
  unfold movedTheta PadHarmless
  by_cases hun : isUninitializedTheta cfg.pca.metric theta = true
  · rw [if_pos hun, if_pos hun, ← isUninitialized_shipped hpad]
    constructor
    · exact fun h => h.2 hun
    · intro hpadun
      refine ⟨fun d hd => ?_, fun _ => hpadun⟩
      have hfalse := hd.1
      rw [hpadun] at hfalse
      cases hfalse
  · have hlearned := Bool.eq_false_iff.mpr hun
    rw [if_neg hun, if_neg hun]
    simp only [hun, Bool.false_eq_true, false_implies, and_true]
    by_cases hfin : ∃ x, theta = .fin x
    · obtain ⟨x, rfl⟩ := hfin
      rcases hpad with rfl | rfl
      · exact moved_posInf hlearned
      · exact moved_fin hlearned
    · -- an infinite or NaN threshold accepts no more than before, whatever p is
      have hfin' : ∀ x, theta ≠ .fin x := fun x hx => hfin ⟨x, hx⟩
      have hmono : ∀ d, Accepts cfg (cfg.p * pad + (1 - cfg.p) * theta) d → Accepts cfg theta d := by
        rw [accepts_mono_iff hlearned]
        rcases moved_not_finite hlearned hfin' hpad with h | h | h
        · rw [h]
          by_cases hnan : (1 + cfg.deviationFactor) * theta = .nan
          · exact Or.inr (Or.inl hnan)
          · exact Or.inr (Or.inr (Double.le_refl_of_ne_nan hnan))
        · rw [h, Double.mul_nan]
          exact Or.inr (Or.inl rfl)
        · exact Or.inl h
      cases theta with
      | fin x => exact absurd rfl (hfin' x)
      | nan => exact iff_of_true hmono trivial
      | negInf => exact iff_of_true hmono trivial
      | posInf => exact iff_of_true hmono trivial

/-- The condition for a weight in `(0, 1]` and a tolerance above 0. -/
theorem padHarmless_of_weight {theta pad : Double} (hp : 0 < cfg.p) (hp1 : cfg.p ≤ 1)
    (hdev : -1 < cfg.deviationFactor) (hpad : pad = .posInf ∨ pad = .fin Double.fltMax) :
    PadHarmless cfg theta pad ↔
      (cfg.pca.metric ≠ .cosine ∧ pad = .posInf) ∨
        isUninitializedTheta cfg.pca.metric theta = false ∧ ∀ x, theta = .fin x → pad ≤ .fin x := by
  have ha : 0 < 1 + cfg.deviationFactor := by linarith
  unfold PadHarmless
  by_cases hun : isUninitializedTheta cfg.pca.metric theta = true
  · simp [hun]
  · have hlearned := Bool.eq_false_iff.mpr hun
    rw [if_neg hun]
    cases theta with
    | nan => simp [hlearned]
    | negInf => simp [hlearned]
    | posInf => simp [hlearned]
    | fin x =>
      rcases hpad with rfl | rfl
      · simp [hp, hp.not_gt, ha.not_ge]
      · have hmax : Double.fltMax < Double.dblMax * (1 / 2) := by decide +kernel
        have hx : cfg.pca.metric ≠ .cosine → x < Double.dblMax * (1 / 2) := by
          intro hmetric
          by_contra hge
          exact hun (isUninitialized_fin.mpr ⟨hmetric, not_lt.mp hge⟩)
        -- the average of two small values is not taken for the sentinel
        have haverage : ¬ (cfg.pca.metric ≠ .cosine ∧
            Double.dblMax * (1 / 2) ≤ cfg.p * Double.fltMax + (1 - cfg.p) * x) := by
          rintro ⟨hmetric, hle⟩
          have h1 : cfg.p * Double.fltMax < cfg.p * (Double.dblMax * (1 / 2)) :=
            mul_lt_mul_of_pos_left hmax hp
          have h2 : (1 - cfg.p) * x ≤ (1 - cfg.p) * (Double.dblMax * (1 / 2)) :=
            mul_le_mul_of_nonneg_left (hx hmetric).le (by linarith)
          linarith
        have hdown : (1 + cfg.deviationFactor) * (cfg.p * (Double.fltMax - x)) ≤ 0 ↔
            Double.fltMax ≤ x := by
          rw [← mul_assoc]
          constructor
          · intro h
            exact sub_nonpos.mp (nonpos_of_mul_nonpos_right h (mul_pos ha hp))
          · intro h
            exact mul_nonpos_of_nonneg_of_nonpos (mul_pos ha hp).le (sub_nonpos.mpr h)
        dsimp only
        rw [hdown]
        simp only [haverage, or_false, reduceCtorEq, and_false, false_or, hlearned, true_and,
          Double.fin.injEq, forall_eq', Double.fin_le_fin]

/-- Regional thresholds with one principal component, for either metric. -/
def lineRegional (metric : Metric) : ThetaConfig Nat where
  useRegionalTheta := true
  p := 9 / 10
  deviationFactor := 1 / 4
  pca := { metric, bucketsPerDim := 4, maxRegions := 8, computeRegionKey := fun v => [UInt8.ofNat v] }

/-- An incomplete answer, padded as a shipped backend pads, makes the cache no
    more permissive exactly when the padding is harmless to the threshold. -/
theorem padded_miss_iff (cfg : ThetaConfig V) (th : Thresholds) (query : V)
    {found : BackendAnswer} {K : Nat} (hshort : found.length < K) {pad : Padding}
    (hpad : pad.Shipped) :
    NoMorePermissive cfg th
        (th.updateTheta cfg query K (missKthDistance K (paddedAnswer found K pad))) query K ↔
      PadHarmless cfg (th.seen cfg query K) pad.distance := by
  rw [missKthDistance_padded hshort, noMorePermissive_iff (by omega),
    seen_updateTheta fun _ => rfl, padHarmless_iff hpad.2]
  intro query' hsame
  rw [seen_updateTheta hsame, seen_updateTheta fun _ => rfl]

end

/-- With L2, `+inf` over an unlearned threshold is harmless. -/
theorem padded_miss_iff_l2 :
    NoMorePermissive (lineRegional .L2) (init (lineRegional .L2) 0)
      ((init (lineRegional .L2) 0).updateTheta (lineRegional .L2) 0 5
        (missKthDistance 5 (paddedAnswer [(7, .fin 2)] 5 ⟨0xFFFFFFFF, .posInf⟩))) 0 5 := by
  refine (padded_miss_iff (lineRegional .L2) (init (lineRegional .L2) 0) 0 (by decide)
    ⟨Or.inl rfl, Or.inl rfl⟩).mpr ?_
  unfold PadHarmless
  rw [if_pos (by decide +kernel)]
  exact ⟨by decide, rfl⟩

/-- With COSINE the same answer makes the region accept every distance; with L2
    and the padding `FLT_MAX` it accepts every distance up to that. -/
theorem padded_miss_admits :
    ¬ NoMorePermissive (lineRegional .cosine) (init (lineRegional .cosine) 0)
        ((init (lineRegional .cosine) 0).updateTheta (lineRegional .cosine) 0 5
          (missKthDistance 5 (paddedAnswer [(7, .fin 2)] 5 ⟨0xFFFFFFFF, .posInf⟩))) 0 5 ∧
      ¬ NoMorePermissive (lineRegional .L2) (init (lineRegional .L2) 0)
        ((init (lineRegional .L2) 0).updateTheta (lineRegional .L2) 0 5
          (missKthDistance 5 (paddedAnswer [(7, .fin 2)] 5 ⟨0, .fin Double.fltMax⟩))) 0 5 := by
  constructor
  · intro h
    have hhit := h.1 0 (fun _ => rfl) (some (List.replicate 5 (.fin 1000))) 5
    revert hhit
    decide +kernel
  · intro h
    have hhit := h.1 0 (fun _ => rfl) (some (List.replicate 5 (.fin 1000))) 5
    revert hhit
    decide +kernel

end QvCache
