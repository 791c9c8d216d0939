/-
  QvCache.Theta.Evidence

  A threshold never exceeds what the backend reported: with exact arithmetic, a
  learned threshold lies between 0 and the largest K-th distance that its
  region received for that K since the region was created.

  A hit is backed by a reported distance whenever the threshold it was tested
  against came from one.  The exception is the threshold 0.0 that `operator[]`
  creates for a K outside `initialKs`: it lets a K-th distance of 0 through
  before anything was reported.
-/

import QvCache.Theta.History

namespace QvCache

open PcaUtils

variable {V : Type} {c : PcaConfig V}

/-- The arguments the exact-arithmetic reading allows: weights in `[0, 1]` and
    finite, nonnegative distances. -/
def ThetaOp.Exact : ThetaOp V → Prop
  | .updateTheta _ _ d p => 0 ≤ p ∧ p ≤ 1 ∧ ∃ x : ℚ, 0 ≤ x ∧ d = .fin x
  | _ => True

/-- The largest reported distance, 0 if there is none. -/
def maxReported : List Update → ℚ
  | [] => 0
  | u :: rest =>
    match u.reported with
    | .fin x => max x (maxReported rest)
    | _ => maxReported rest

theorem maxReported_nonneg (log : List Update) : 0 ≤ maxReported log := by
  induction log with
  | nil => exact le_refl 0
  | cons u rest ih =>
    unfold maxReported
    split
    · exact le_max_of_le_right ih
    · exact ih

theorem le_maxReported {log : List Update} {u : Update} {y : ℚ} (hu : u ∈ log)
    (hy : u.reported = .fin y) : y ≤ maxReported log := by
  induction log with
  | nil => cases hu
  | cons v rest ih =>
    rcases List.mem_cons.mp hu with rfl | hmem
    · simp only [maxReported, hy]
      exact le_max_left _ _
    · have hrest := ih hmem
      unfold maxReported
      split
      · exact le_max_of_le_right hrest
      · exact hrest

/-- The distance `y` is one of those in the log. -/
def Reports (log : List Update) (y : ℚ) : Prop := ∃ u ∈ log, u.reported = .fin y

/-- What the log of a region and K says about the threshold read for it: it is
    the sentinel, or at most some reported distance (and 0 only if 0 was
    reported), or the default 0 of a K that has no initial threshold. -/
def Backed (metric : Metric) (K : Nat) (theta : Double) (log : List Update) : Prop :=
  isUninitializedTheta metric theta = true ∨
    (∃ x y, theta = .fin x ∧ 0 ≤ x ∧ x ≤ y ∧ Reports log y ∧ (x = 0 → Reports log 0)) ∨
    (theta = 0 ∧ K ∉ initialKs)

theorem backed_absent {metric : Metric} {K : Nat} :
    Backed metric K (if K ∈ initialKs then uninitializedTheta metric else 0) [] := by
  by_cases hK : K ∈ initialKs
  · rw [if_pos hK]
    exact Or.inl (isUninitialized_uninitialized metric)
  · rw [if_neg hK]
    exact Or.inr (Or.inr ⟨rfl, hK⟩)

theorem Reports.cons {log : List Update} {y : ℚ} (h : Reports log y) (u : Update) :
    Reports (u :: log) y := by
  obtain ⟨v, hv, hy⟩ := h
  exact ⟨v, List.mem_cons_of_mem u hv, hy⟩

/-- The moving average of two values, each at most a reported distance. -/
theorem backed_moved {metric : Metric} {K : Nat} {theta stored : Double} {log : List Update}
    {p d : ℚ} (hp0 : 0 ≤ p) (hp1 : p ≤ 1) (hd : 0 ≤ d) (h : Backed metric K theta log) :
    Backed metric K (movedTheta metric theta (.fin d) p) (⟨.fin d, stored⟩ :: log) := by
  have hnew : Reports (⟨.fin d, stored⟩ :: log) d := ⟨_, List.mem_cons_self, rfl⟩
  unfold movedTheta
  split_ifs with hun
  · exact Or.inr (Or.inl ⟨d, d, rfl, hd, le_refl d, hnew, fun h0 => h0 ▸ hnew⟩)
  · rcases h with h | ⟨x, y, rfl, hx, hxy, hy, hzero⟩ | ⟨rfl, hK⟩
    · exact absurd h hun
    · -- an average is at most the larger of the two reports
      right; left
      have hq : 0 ≤ 1 - p := by linarith
      have hmax : p * d + (1 - p) * x ≤ max d y := by
        have h1 : p * d ≤ p * max d y := mul_le_mul_of_nonneg_left (le_max_left d y) hp0
        have h2 : (1 - p) * x ≤ (1 - p) * max d y :=
          mul_le_mul_of_nonneg_left (hxy.trans (le_max_right d y)) hq
        linarith
      have hzero' : p * d + (1 - p) * x = 0 → Reports (⟨.fin d, stored⟩ :: log) 0 := by
        intro hsum
        have hpd := mul_nonneg hp0 hd
        have hqx := mul_nonneg hq hx
        have hpd0 : p * d = 0 := by linarith
        rcases mul_eq_zero.mp hpd0 with hp | hd0
        · refine (hzero ?_).cons _
          rw [hp] at hsum
          linarith
        · exact hd0 ▸ hnew
      refine ⟨p * d + (1 - p) * x, max d y, rfl, by positivity, hmax, ?_, hzero'⟩
      rcases max_choice d y with hm | hm
      · rw [hm]
        exact hnew
      · rw [hm]
        exact hy.cons _
    · -- over the default threshold only a share of the report is stored
      have hval : p * (Double.fin d) + (1 - p) * (0 : Double) = .fin (p * d) := by
        rw [Double.zero_def, Double.mul_fin, Double.mul_fin, Double.fin_add_fin, mul_zero, add_zero]
      rw [hval]
      by_cases h0 : p * d = 0
      · right; right
        exact ⟨by rw [h0]; rfl, hK⟩
      · right; left
        exact ⟨p * d, d, rfl, mul_nonneg hp0 hd, by nlinarith, hnew, fun hz => absurd hz h0⟩

theorem backed_scaled {metric : Metric} {K : Nat} {theta : Double} {log : List Update} {alpha : ℚ}
    (h0 : 0 < alpha) (h1 : alpha < 1) (h : Backed metric K theta log) :
    Backed metric K (scaleLive metric alpha theta) log := by
  rcases h with hun | ⟨x, y, rfl, hx, hxy, hy, hzero⟩ | ⟨rfl, hK⟩
  · left
    rw [scaleLive, if_pos hun]
    exact hun
  · right; left
    unfold scaleLive
    split_ifs
    · exact ⟨x, y, rfl, hx, hxy, hy, hzero⟩
    · refine ⟨alpha * x, y, rfl, mul_nonneg h0.le hx, ?_, hy, fun hz => hzero ?_⟩
      · nlinarith
      · exact (mul_eq_zero.mp hz).resolve_left h0.ne'
  · rw [scaleLive_zero]
    exact Or.inr (Or.inr ⟨rfl, hK⟩)

/-! ## Runs -/

/-- Every threshold that can be read is backed by the log of its region. -/
def EvidenceBacked (a : Audit c) : Prop :=
  ∀ r K, Backed c.metric K (thetaSeen c a.store r K) (a.log r K)

theorem evidenceBacked_step {a : Audit c} {op : ThetaOp V} (h : EvidenceBacked a)
    (hexact : op.Exact) : EvidenceBacked (a.step op) := by
  intro r K
  cases a.step_change op r with
  | dropped habsent hlog _ =>
    rw [thetaSeen_of_absent habsent, hlog K]
    exact backed_absent
  | same _ hseen _ hlog _ =>
    rw [hseen K, hlog K]
    exact h r K
  | learned query K' d p hop _ hself _ hseen _ hlog hlogs =>
    by_cases hK : K = K'
    · subst hK
      rw [hop] at hexact
      obtain ⟨hp0, hp1, x, hx, rfl⟩ := hexact
      rw [thetaSeen_of_theta? hself, hlog]
      exact backed_moved hp0 hp1 hx (h r K)
    · rw [hseen K hK, hlogs K hK]
      exact h r K
  | lowered _ _ _ halpha _ _ _ hseen _ hlog =>
    rw [hseen K, hlog K]
    exact backed_scaled halpha.1 halpha.2 (h r K)

theorem evidenceBacked_run {radius : Nat} {ops : List (ThetaOp V)} {a : Audit c}
    (hexact : ∀ op ∈ ops, op.Exact)
    (hrun : Traces.run Audit.next (Audit.init c radius) ops = some a) : EvidenceBacked a := by
  refine Traces.run_invariant_along (P := fun _ op => op.Exact) ?_ ?_
    (Traces.along_of_forall hexact) hrun
  · intro a op a' h hop hstep
    obtain rfl := Option.some.inj hstep
    exact evidenceBacked_step h hop
  · intro r K
    rw [thetaSeen_of_absent (by rfl)]
    exact backed_absent

/-! ## Thresholds and hits -/

/-- A learned threshold of `r` lies between 0 and the largest distance that was
    reported for it. -/
def BoundedByEvidence (a : Audit c) (r : RegionKey) (K : Nat) : Prop :=
  ∀ theta, a.store.theta? r K = some theta → isUninitializedTheta c.metric theta = false →
    ∃ x, theta = .fin x ∧ 0 ≤ x ∧ x ≤ maxReported (a.log r K)

/-- Every hit of the query for K has a K-th distance of at most the tolerance
    times a distance that was reported in the region of the query. -/
def HitsBacked (a : Audit c) (query : V) (K : Nat) (dev : ℚ) : Prop :=
  ∀ ds num x, (PcaUtils.isHit c a.store query K (some ds) num dev).2 = true →
    kthDistance ds K = .fin x → 0 ≤ x →
    ∃ K' y, Reports (a.log (c.computeRegionKey query) K') y ∧ x ≤ (1 + dev) * y

theorem boundedByEvidence {a : Audit c} (h : EvidenceBacked a) (r : RegionKey) (K : Nat) :
    BoundedByEvidence a r K := by
  intro theta htheta hlearned
  have hbacked := h r K
  rw [thetaSeen_of_theta? htheta] at hbacked
  rcases hbacked with hun | ⟨x, y, rfl, hx, hxy, ⟨u, hu, hy⟩, _⟩ | ⟨rfl, _⟩
  · rw [hun] at hlearned
    cases hlearned
  · exact ⟨x, rfl, hx, hxy.trans (le_maxReported hu hy)⟩
  · exact ⟨0, rfl, le_refl 0, maxReported_nonneg _⟩

/-- A K-th distance within the tolerance of a threshold is within the tolerance
    of the report the threshold came from. -/
theorem within_reported {log : List Update} {dev x theta y : ℚ} (hx : 0 ≤ x)
    (hhit : x ≤ (1 + dev) * theta) (htheta : 0 ≤ theta) (hle : theta ≤ y) (hy : Reports log y)
    (hzero : theta = 0 → Reports log 0) : ∃ y, Reports log y ∧ x ≤ (1 + dev) * y := by
  by_cases hdev : 0 ≤ 1 + dev
  · exact ⟨y, hy, hhit.trans (mul_le_mul_of_nonneg_left hle hdev)⟩
  · -- a negative tolerance lets only 0 through, at the threshold 0
    have hneg : 1 + dev < 0 := not_le.mp hdev
    have htheta0 : theta = 0 := by nlinarith
    rw [htheta0] at hhit
    exact ⟨0, hzero htheta0, hhit⟩

theorem isHit_of_zero {s : PcaUtils} {query : V} {K : Nat} {dev : ℚ} (hK : K ≠ 0)
    (hzero : thetaSeen c s (c.computeRegionKey query) K = 0) :
    (PcaUtils.isHit c s query K (some (List.replicate K 0)) K dev).2 = true := by
  refine isHit_snd_iff.mpr ⟨_, rfl, le_refl K, hK, ?_, ?_⟩
  · rw [hzero]
    exact not_isUninitialized_zero c.metric
  · rw [kthDistance_replicate hK, hzero, Double.zero_def, Double.mul_fin, mul_zero]
    exact Double.fin_le_fin.mpr (le_refl 0)

/-- In every run with exact arithmetic the thresholds are bounded by the
    evidence, and the hits of a query for K are backed by it exactly when K has
    an initial threshold, the threshold read is not 0, or a report that covers
    the distance 0 exists. -/
theorem evidence_iff {radius : Nat} {ops : List (ThetaOp V)} {a : Audit c}
    (hexact : ∀ op ∈ ops, op.Exact)
    (hrun : Traces.run Audit.next (Audit.init c radius) ops = some a)
    (query : V) (K : Nat) (dev : ℚ) :
    ((∀ r K', BoundedByEvidence a r K') ∧ HitsBacked a query K dev) ↔
      K = 0 ∨ K ∈ initialKs ∨ thetaSeen c a.store (c.computeRegionKey query) K ≠ 0 ∨
        ∃ K' y, Reports (a.log (c.computeRegionKey query) K') y ∧ 0 ≤ (1 + dev) * y := by
  have hbacked := evidenceBacked_run hexact hrun
  constructor
  · rintro ⟨_, hhits⟩
    by_contra hcon
    simp only [not_or, ne_eq, not_not] at hcon
    obtain ⟨hK, hinit, hseen, hnone⟩ := hcon
    -- a threshold of 0 accepts the distance 0, which nothing backs
    exact hnone (hhits _ K 0 (isHit_of_zero hK hseen) (kthDistance_replicate hK 0) (le_refl 0))
  · intro hcond
    refine ⟨boundedByEvidence hbacked, ?_⟩
    intro ds num x hhit hkth hx
    obtain ⟨_, hds, _, hK, hlearned, hle⟩ := isHit_snd_iff.mp hhit
    obtain rfl := Option.some.inj hds
    rw [hkth] at hle
    rcases hbacked (c.computeRegionKey query) K with hun | ⟨theta, y, heq, h0, hty, hy, hzero⟩ |
        ⟨heq, hinit⟩
    · rw [hun] at hlearned
      cases hlearned
    · rw [heq, Double.mul_fin, Double.fin_le_fin] at hle
      obtain ⟨y', hy', hxy⟩ := within_reported hx hle h0 hty hy hzero
      exact ⟨K, y', hy', hxy⟩
    · -- the default threshold: only the distance 0 passes
      rw [heq, Double.zero_def, Double.mul_fin, mul_zero, Double.fin_le_fin] at hle
      rcases hcond with h | h | h | ⟨K', y, hy, h0⟩
      · exact absurd h hK
      · exact absurd h hinit
      · exact absurd heq h
      · exact ⟨K', y, hy, hle.trans h0⟩

/-- One report for K = 3 backs every later hit for K = 3. -/
theorem evidence_iff_reported :
    ∃ a : Audit lineConfig,
      Traces.run Audit.next (Audit.init lineConfig 0) [.updateTheta 0 3 (.fin 10) (1 / 2)] = some a ∧
        (∀ r K', BoundedByEvidence a r K') ∧ HitsBacked a 0 3 (1 / 4) := by
  have hexact : ∀ op ∈ [ThetaOp.updateTheta 0 3 (.fin 10) (1 / 2)], op.Exact (V := Nat) := by
    intro op hop
    rw [List.mem_singleton.mp hop]
    exact ⟨by decide +kernel, by decide +kernel, 10, by decide +kernel, rfl⟩
  have hrun : Traces.run Audit.next (Audit.init lineConfig 0)
      [.updateTheta 0 3 (.fin 10) (1 / 2)] = some _ := rfl
  exact ⟨_, rfl, (evidence_iff hexact hrun 0 3 (1 / 4)).mpr
    (Or.inr (Or.inr (Or.inl (by decide +kernel))))⟩

/-- A K that is none of 1, 5, 10 and 100 hits a duplicate of its query in a
    region nothing was reported for. -/
theorem unreported_hit :
    ¬ HitsBacked (Audit.init lineConfig 0) 0 3 (1 / 4) := by
  intro h
  obtain ⟨K', y, ⟨u, hu, _⟩, _⟩ := h [0, 0, 0] 3 0 (by decide +kernel) rfl (le_refl 0)
  cases hu

end QvCache
