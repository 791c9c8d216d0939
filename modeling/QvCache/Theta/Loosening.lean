/-
  QvCache.Theta.Loosening

  Whether the write penalty can make a region more permissive.  It multiplies
  every learned threshold by a factor below 1, which lowers a positive one and
  raises a negative one, as inner products produce them.
-/

import QvCache.Theta.WriteRadius

namespace QvCache

namespace PcaUtils

variable {V : Type} {c : PcaConfig V} {s : PcaUtils} {metric : Metric} {alpha dev : ℚ}

/-- Everything the hit test accepts in `s'` it accepts in `s`. -/
def NoLooser (c : PcaConfig V) (s s' : PcaUtils) (dev : ℚ) : Prop :=
  ∀ query K distances num, (isHit c s' query K distances num dev).2 = true →
    (isHit c s query K distances num dev).2 = true

/-- Every learned threshold is a finite number. -/
def FiniteThetas (c : PcaConfig V) (s : PcaUtils) : Prop :=
  ∀ r K theta, s.theta? r K = some theta → isUninitializedTheta c.metric theta = false →
    ∃ x, theta = .fin x

/-- A threshold lets a K-th distance through. -/
def Admits (metric : Metric) (dev : ℚ) (theta d : Double) : Prop :=
  isUninitializedTheta metric theta = false ∧ d ≤ (1 + dev) * theta

/-! ## One threshold -/

theorem not_uninitialized_of_neg {x : ℚ} (h : x < 0) :
    isUninitializedTheta metric (.fin x) = false := by
  have hpos : (0 : ℚ) < Double.dblMax * (1 / 2) := by decide +kernel
  unfold isUninitializedTheta
  split_ifs
  · rfl
  · simp only [Double.fin_le_fin, decide_eq_false_iff_not, not_le]
    linarith

/-- A finite learned threshold admits no more after it was scaled exactly if it
    is not negative. -/
theorem scaleLive_noLooser_iff (h0 : 0 < alpha) (h1 : alpha < 1) (hdev : 0 ≤ dev) {x : ℚ}
    (hlearned : isUninitializedTheta metric (.fin x) = false) :
    (∀ d, Admits metric dev (scaleLive metric alpha (.fin x)) d → Admits metric dev (.fin x) d) ↔
      0 ≤ x := by
  have hscale : scaleLive metric alpha (.fin x) = .fin (alpha * x) := by
    rw [scaleLive, hlearned]
    rfl
  have hdev' : 0 < 1 + dev := by linarith
  rw [hscale]
  constructor
  · intro h
    by_contra hneg
    have hx : x < 0 := not_le.mp hneg
    have hscaled : alpha * x < 0 := mul_neg_of_pos_of_neg h0 hx
    -- the raised tolerance itself gets through after the write only
    have hadmitted := h (.fin ((1 + dev) * (alpha * x)))
      ⟨not_uninitialized_of_neg hscaled, by rw [Double.mul_fin, Double.fin_le_fin]⟩
    have hle := hadmitted.2
    rw [Double.mul_fin, Double.fin_le_fin] at hle
    have hle' : alpha * x ≤ x := le_of_mul_le_mul_left hle hdev'
    have hraised : x < alpha * x := by nlinarith
    linarith
  · rintro hx d ⟨_, hd⟩
    refine ⟨hlearned, Double.le_trans hd ?_⟩
    rw [Double.mul_fin, Double.mul_fin, Double.fin_le_fin]
    have hle : alpha * x ≤ x := by nlinarith
    exact mul_le_mul_of_nonneg_left hle hdev'.le

/-! ## The store -/

theorem isHit_snd_iff_admits {query : V} {K : Nat} {distances : Option (List Double)} {num : Nat} :
    (isHit c s query K distances num dev).2 = true ↔
      ∃ ds, distances = some ds ∧ K ≤ num ∧ K ≠ 0 ∧
        Admits c.metric dev (thetaSeen c s (c.computeRegionKey query) K) (kthDistance ds K) :=
  isHit_snd_iff

/-- The comparison of two stores goes threshold by threshold. -/
theorem noLooser_iff {s' : PcaUtils} :
    NoLooser c s s' dev ↔ ∀ query K, K ≠ 0 → ∀ d,
      Admits c.metric dev (thetaSeen c s' (c.computeRegionKey query) K) d →
        Admits c.metric dev (thetaSeen c s (c.computeRegionKey query) K) d := by
  constructor
  · intro h query K hK d hd
    have hhit := h query K (some (List.replicate K d)) K (isHit_snd_iff_admits.mpr
      ⟨_, rfl, le_refl K, hK, by rwa [kthDistance_replicate hK]⟩)
    obtain ⟨ds, hds, _, _, hadmits⟩ := isHit_snd_iff_admits.mp hhit
    obtain rfl := Option.some.inj hds
    rwa [kthDistance_replicate hK] at hadmits
  · intro h query K distances num hhit
    obtain ⟨ds, hds, hnum, hK, hadmits⟩ := isHit_snd_iff_admits.mp hhit
    exact isHit_snd_iff_admits.mpr ⟨ds, hds, hnum, hK, h query K hK _ hadmits⟩

/-! ## Finite thresholds -/

theorem finiteThetas_empty (radius : Nat) : FiniteThetas c (empty radius) := by
  intro r K theta htheta
  rw [theta?_eq_none (AList.lookup_empty r)] at htheta
  cases htheta

theorem finite_thetaSeen (hs : FiniteThetas c s) {r : RegionKey} {K : Nat}
    (hlearned : isUninitializedTheta c.metric (thetaSeen c s r K) = false) :
    ∃ x, thetaSeen c s r K = .fin x := by
  cases htheta : s.theta? r K with
  | some theta =>
    rw [thetaSeen_of_theta? htheta] at hlearned ⊢
    exact hs r K theta htheta hlearned
  | none =>
    -- nothing stored: the sentinel of a new table, or the default of `operator[]`
    cases hlook : s.regionThetaMap.lookup r with
    | none =>
      rw [thetaSeen_of_absent hlook] at hlearned ⊢
      split_ifs at hlearned ⊢ with hK
      · rw [isUninitialized_uninitialized] at hlearned
        cases hlearned
      · exact ⟨0, rfl⟩
    | some entry =>
      refine ⟨0, ?_⟩
      rw [theta?_eq_of_lookup hlook] at htheta
      unfold thetaSeen entryOf
      rw [hlook, Option.getD_some, htheta]
      rfl

/-- Updates with finite distances learn finite thresholds. -/
theorem finiteThetas_updateTheta (hs : FiniteThetas c s) (query : V) (K : Nat) (d p : ℚ) :
    FiniteThetas c (updateTheta c s query K (.fin d) p) := by
  intro r K' theta htheta hlearned
  by_cases hr : r = c.computeRegionKey query
  · subst hr
    by_cases hK : K' = K
    · subst hK
      rw [theta?_updateTheta_self] at htheta
      obtain rfl := Option.some.inj htheta
      unfold movedTheta
      split_ifs with hun
      · exact ⟨d, rfl⟩
      · obtain ⟨x, hx⟩ := finite_thetaSeen hs (Bool.eq_false_iff.mpr hun)
        exact ⟨p * d + (1 - p) * x, by rw [hx, Double.mul_fin, Double.mul_fin, Double.fin_add_fin]⟩
    · rw [theta?_updateTheta_other query _ _ hK] at htheta
      cases hlook : s.regionThetaMap.lookup (c.computeRegionKey query) with
      | some entry =>
        rw [entryOf, hlook, Option.getD_some] at htheta
        exact hs _ _ theta ((theta?_eq_of_lookup hlook).trans htheta) hlearned
      | none =>
        rw [entryOf, hlook, Option.getD_none, lookup_freshEntry] at htheta
        split_ifs at htheta
        obtain rfl := Option.some.inj htheta
        rw [isUninitialized_uninitialized] at hlearned
        cases hlearned
  · unfold theta? at htheta
    rw [lookup_updateTheta, if_neg hr] at htheta
    split_ifs at htheta with hdrop
    · cases htheta
    · exact hs r K' theta htheta hlearned

/-- A threshold that a region has not stored yet is read as 0, before a write and
    after it. -/
theorem thetaSeen_of_unset {key : RegionKey} {K : Nat} (hlive : Live c s key)
    (h : s.theta? key K = none) : thetaSeen c s key K = 0 := by
  obtain ⟨entry, hentry, _⟩ := hlive
  rw [theta?_eq_of_lookup hentry] at h
  unfold thetaSeen entryOf
  rw [hentry, Option.getD_some, h, Option.getD_none]

/-- A write makes the store no looser exactly if the regions it lowers have no
    negative threshold. -/
theorem tighten_noLooser_iff (c : PcaConfig V) (s : PcaUtils) (vec : V) (alpha dev : ℚ)
    (hdev : 0 ≤ dev) (hfinite : FiniteThetas c s) :
    NoLooser c s (tightenThetaForVector c s vec alpha).1 dev ↔
      alpha ≤ 0 ∨ 1 ≤ alpha ∨ ∀ query K x, K ≠ 0 →
        c.computeRegionKey query ∈ visited c s.writeL1Radius (c.computeRegionKey vec) →
        Lowered c s (c.computeRegionKey query) alpha →
        s.theta? (c.computeRegionKey query) K = some (.fin x) → 0 ≤ x := by
  rw [noLooser_iff]
  constructor
  · intro h
    by_cases hlow : alpha ≤ 0
    · exact Or.inl hlow
    by_cases hhigh : 1 ≤ alpha
    · exact Or.inr (Or.inl hhigh)
    refine Or.inr (Or.inr fun query K x hK hvisited hlowered htheta => ?_)
    by_contra hneg
    have hlearned : isUninitializedTheta c.metric (.fin x) = false :=
      not_uninitialized_of_neg (not_le.mp hneg)
    rcases thetaSeen_tighten (c := c) (s := s) vec alpha (c.computeRegionKey query) K with
      ⟨h0, h1, _, _, hseen⟩ | ⟨hnot, _⟩
    · have hmono := h query K hK
      rw [hseen, thetaSeen_of_theta? htheta] at hmono
      exact hneg ((scaleLive_noLooser_iff h0 h1 hdev hlearned).mp hmono)
    · exact hnot ⟨not_le.mp hlow, not_le.mp hhigh, hvisited, hlowered⟩
  · intro h query K hK d hadmits
    rcases thetaSeen_tighten (c := c) (s := s) vec alpha (c.computeRegionKey query) K with
      ⟨h0, h1, hvisited, hlowered, hseen⟩ | ⟨_, hseen⟩
    · rw [hseen] at hadmits
      rcases h with h | h | h
      · exact absurd h0 (not_lt.mpr h)
      · exact absurd h1 (not_lt.mpr h)
      · by_cases hlearned : isUninitializedTheta c.metric
            (thetaSeen c s (c.computeRegionKey query) K) = false
        · cases htheta : s.theta? (c.computeRegionKey query) K with
          | none =>
            rw [thetaSeen_of_unset hlowered.1 htheta] at hadmits ⊢
            rwa [scaleLive_zero] at hadmits
          | some theta =>
            rw [thetaSeen_of_theta? htheta] at hadmits hlearned ⊢
            obtain ⟨x, rfl⟩ := hfinite _ _ _ htheta hlearned
            exact (scaleLive_noLooser_iff h0 h1 hdev hlearned).mpr
              (h query K x hK hvisited hlowered htheta) d hadmits
        · rw [scaleLive, if_pos (Bool.not_eq_false _ ▸ hlearned)] at hadmits
          exact hadmits
    · rwa [hseen] at hadmits

/-- A region with the threshold 2 gets no looser. -/
theorem tighten_noLooser_iff_positive :
    NoLooser lineConfig (learnedLine 0) (tightenThetaForVector lineConfig (learnedLine 0) 0 (1 / 2)).1
      (1 / 4) := by
  refine (tighten_noLooser_iff lineConfig (learnedLine 0) 0 (1 / 2) (1 / 4) (by decide +kernel)
    (finiteThetas_updateTheta (finiteThetas_empty 0) 0 5 2 1)).mpr (Or.inr (Or.inr ?_))
  intro query K x hK hvisited _ htheta
  have honly : visited lineConfig (learnedLine 0).writeL1Radius (lineConfig.computeRegionKey 0) =
      [[0]] := by
    decide +kernel
  rw [honly, List.mem_singleton] at hvisited
  rw [hvisited] at htheta
  have htable : (learnedLine 0).theta? [0] = fun K =>
      if K = 5 then some (.fin 2)
      else if K ∈ initialKs then some (.fin Double.dblMax) else none := by
    funext K
    by_cases hfive : K = 5
    · subst hfive
      decide +kernel
    · rw [if_neg hfive]
      exact (theta?_updateTheta_other (c := lineConfig) (s := empty 0) 0 (.fin 2) 1 hfive).trans
        (lookup_freshEntry .L2 K)
  rw [htable] at htheta
  have hmax : (0 : ℚ) ≤ Double.dblMax := by decide +kernel
  dsimp only at htheta
  split_ifs at htheta
  · obtain rfl := Double.fin.inj (Option.some.inj htheta)
    decide +kernel
  · obtain rfl := Double.fin.inj (Option.some.inj htheta)
    exact hmax

/-- A region of inner products that learned the threshold -4. -/
def productLine : PcaUtils :=
  updateTheta { lineConfig with metric := .innerProduct } (empty 0) 0 1 (.fin (-4)) 1

/-- The write halves it to -2, and the distance -3 is accepted. -/
theorem negative_theta_loosens :
    (isHit { lineConfig with metric := .innerProduct } productLine 0 1 (some [.fin (-3)]) 1 0).2 =
        false ∧
      ¬ NoLooser { lineConfig with metric := .innerProduct } productLine
        (tightenThetaForVector { lineConfig with metric := .innerProduct } productLine 0
          (1 / 2)).1 0 := by
  have hbefore : (isHit { lineConfig with metric := .innerProduct } productLine 0 1
      (some [.fin (-3)]) 1 0).2 = false := by
    decide +kernel
  refine ⟨hbefore, fun h => ?_⟩
  have hafter := h 0 1 (some [.fin (-3)]) 1 (by decide +kernel)
  rw [hbefore] at hafter
  cases hafter

end PcaUtils

end QvCache
