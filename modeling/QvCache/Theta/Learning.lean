/-
  QvCache.Theta.Learning

  Do only learned thresholds admit hits?  Before the first update for K in a
  region, the threshold that is read is the sentinel if K is one of
  `initialKs`, and the 0.0 that `operator[]` creates otherwise.  The second is
  not taken for a sentinel: it admits the K-th distance 0, the first update
  averages with it, and creating it makes its region count as live.

  The global mode has the same two kinds of K.  Its history is the list of the
  K that were updated.
-/

import QvCache.Theta.History
import QvCache.Theta.Thresholds

namespace QvCache

open PcaUtils

variable {V : Type}

/-- The threshold a region starts with, stored or not. -/
def initialTheta (metric : Metric) (K : Nat) : Double :=
  if K ∈ initialKs then uninitializedTheta metric else 0

theorem scaleLive_initialTheta (metric : Metric) (alpha : ℚ) (K : Nat) :
    scaleLive metric alpha (initialTheta metric K) = initialTheta metric K := by
  unfold initialTheta
  split_ifs
  · rw [scaleLive, if_pos (isUninitialized_uninitialized metric)]
  · exact scaleLive_zero metric alpha

theorem learned_initialTheta {metric : Metric} {K : Nat} :
    isUninitializedTheta metric (initialTheta metric K) = true ↔ K ∈ initialKs := by
  unfold initialTheta
  split_ifs with hK
  · exact iff_of_true (isUninitialized_uninitialized metric) hK
  · rw [not_isUninitialized_zero]
    exact iff_of_false Bool.false_ne_true hK

/-- Over the sentinel an update stores exactly what it got; over the default 0
    it does not, whatever the metric. -/
theorem movedTheta_initialTheta (metric : Metric) {K : Nat} :
    (∀ d p, movedTheta metric (initialTheta metric K) d p = d) ↔ K ∈ initialKs := by
  constructor
  · intro h
    by_contra hK
    have hone := h (.fin 1) 0
    have hinit : initialTheta metric K = 0 := if_neg hK
    rw [movedTheta, hinit, not_isUninitialized_zero] at hone
    revert hone
    decide +kernel
  · intro hK d p
    rw [movedTheta, if_pos (learned_initialTheta.mpr hK)]

/-! ## Regional thresholds -/

section Regional

variable {c : PcaConfig V}

/-- A region that has no update for K still reads the initial threshold. -/
def Fresh (a : Audit c) : Prop :=
  ∀ r K, a.log r K = [] → thetaSeen c a.store r K = initialTheta c.metric K

theorem fresh_step {a : Audit c} (op : ThetaOp V) (h : Fresh a) : Fresh (a.step op) := by
  intro r K hnil
  cases a.step_change op r with
  | dropped habsent _ _ => exact thetaSeen_of_absent habsent K
  | same _ hseen _ hlog _ =>
    rw [hseen K]
    exact h r K (hlog K ▸ hnil)
  | learned query K' d p _ _ _ _ hseen _ hlog hlogs =>
    by_cases hK : K = K'
    · subst hK
      rw [hlog] at hnil
      cases hnil
    · rw [hseen K hK]
      exact h r K (hlogs K hK ▸ hnil)
  | lowered _ _ _ _ _ _ _ hseen _ hlog =>
    rw [hseen K, h r K (hlog K ▸ hnil), scaleLive_initialTheta]

theorem fresh_reachable {a : Audit c} (h : a.Reachable) : Fresh a := by
  obtain ⟨radius, hreach⟩ := h
  refine Traces.reachable_invariant (I := Fresh) ?_ ?_ hreach
  · intro a op a' ha hstep
    obtain rfl := Option.some.inj hstep
    exact fresh_step op ha
  · intro r K _
    exact thetaSeen_of_absent (by rfl) K

/-- Only learned thresholds admit hits, for a query and K: before the first
    update no distances are a hit and the first update stores what it gets, and
    no hit test makes a region live. -/
def LearnedOnly (a : Audit c) (query : V) (K : Nat) : Prop :=
  (a.log (c.computeRegionKey query) K = [] →
    (∀ ds num dev, (PcaUtils.isHit c a.store query K ds num dev).2 = false) ∧
    ∀ d p, (PcaUtils.updateTheta c a.store query K d p).theta? (c.computeRegionKey query) K =
      some d) ∧
  ∀ ds num dev r, Live c (PcaUtils.isHit c a.store query K ds num dev).1 r → Live c a.store r

/-- A learned threshold that a region has or gets is stored already. -/
theorem stored_of_entryOf {s : PcaUtils} {r : RegionKey} {K : Nat} {theta : Double}
    (h : (entryOf c s r).lookup K = some theta)
    (hlearned : isUninitializedTheta c.metric theta = false) : s.theta? r K = some theta := by
  cases hentry : s.regionThetaMap.lookup r with
  | some entry => simpa [entryOf, theta?, hentry] using h
  | none =>
    rw [entryOf, hentry, Option.getD_none, lookup_freshEntry] at h
    split_ifs at h
    obtain rfl := Option.some.inj h
    rw [isUninitialized_uninitialized] at hlearned
    cases hlearned

/-- Reading the threshold for K adds no live one if K has an initial threshold
    or has been updated. -/
theorem live_access {a : Audit c} (h : Fresh a) {region : RegionKey} {K : Nat}
    (hcond : K ∈ initialKs ∨ a.log region K ≠ []) {r : RegionKey}
    (hlive : Live c (access c a.store region K).1 r) : Live c a.store r := by
  obtain ⟨K', theta, htheta, hlearned⟩ := live_iff.mp hlive
  refine live_iff.mpr ⟨K', theta, ?_, hlearned⟩
  by_cases hr : r = region
  · subst hr
    rw [theta?_access_self] at htheta
    split_ifs at htheta with hK
    · subst hK
      by_cases hnil : a.log r K' = []
      · -- nothing was learned for K, so what was read is a sentinel
        rw [h r K' hnil] at htheta
        obtain rfl := Option.some.inj htheta
        rw [learned_initialTheta.mpr (hcond.resolve_right fun hne => hne hnil)] at hlearned
        cases hlearned
      · obtain ⟨stored, hstored⟩ := Option.isSome_iff_exists.mp (a.logged r K' hnil)
        rw [thetaSeen_of_theta? hstored] at htheta
        rw [hstored, htheta]
    · exact stored_of_entryOf htheta hlearned
  · rw [theta?, lookup_access, if_neg hr] at htheta
    split_ifs at htheta
    · cases htheta
    · exact htheta

theorem learnedOnly_iff_regional {a : Audit c} (hreach : a.Reachable) (query : V) (K : Nat) :
    LearnedOnly a query K ↔ K ∈ initialKs ∨ a.log (c.computeRegionKey query) K ≠ [] := by
  have hfresh := fresh_reachable hreach
  constructor
  · intro hlearned
    by_contra hcon
    obtain ⟨hK, hnil⟩ := not_or.mp hcon
    have hnil := not_not.mp hnil
    -- the first update would store its distance, so K starts with the sentinel
    refine hK ((movedTheta_initialTheta c.metric).mp fun d p => ?_)
    have hstore := (hlearned.1 hnil).2 d p
    rw [theta?_updateTheta_self, hfresh _ K hnil] at hstore
    exact Option.some.inj hstore
  · intro hcond
    constructor
    · intro hnil
      have hK := hcond.resolve_right fun hne => hne hnil
      constructor
      · intro ds num dev
        rw [Bool.eq_false_iff, ne_eq, isHit_snd_iff]
        rintro ⟨_, _, _, _, hun, _⟩
        rw [hfresh _ K hnil, learned_initialTheta.mpr hK] at hun
        cases hun
      · intro d p
        rw [theta?_updateTheta_self, hfresh _ K hnil, (movedTheta_initialTheta _).mpr hK]
    · intro ds num dev r hlive
      rcases isHit_fst (c := c) (s := a.store) query K ds num dev with h | h
      · rwa [h] at hlive
      · rw [h] at hlive
        exact live_access hfresh hcond hlive

end Regional

/-! ## The global threshold map -/

/-- The operations on the thresholds in global mode. -/
inductive GlobalOp (V : Type) where
  | isHit (query : V) (K : Nat) (distances : Option (List Double)) (numVectorsInMemory : Nat)
  | updateTheta (query : V) (K : Nat) (queryDistance : Double)

/-- The thresholds and, for each K, the distances reported so far. -/
structure GlobalAudit where
  th : Thresholds
  log : Nat → List Double

namespace GlobalAudit

variable (cfg : ThetaConfig V)

def init (radius : Nat) : GlobalAudit := ⟨Thresholds.init cfg radius, fun _ => []⟩

def next (a : GlobalAudit) : GlobalOp V → Option GlobalAudit
  | .isHit query K distances num => some { a with th := (a.th.isHit cfg query K distances num).1 }
  | .updateTheta query K d => some
    { th := a.th.updateTheta cfg query K d
      log := fun K' => if K' = K then d :: a.log K else a.log K' }

end GlobalAudit

section Global

variable {cfg : ThetaConfig V}

/-- A K without an update still reads the initial threshold. -/
def GlobalFresh (metric : Metric) (a : GlobalAudit) : Prop :=
  ∀ K, a.log K = [] → (a.th.thetaMap.lookup K).getD 0 = initialTheta metric K

theorem globalFresh_next (hmode : cfg.useRegionalTheta = false) {a a' : GlobalAudit}
    {op : GlobalOp V} (h : GlobalFresh cfg.pca.metric a) (hstep : a.next cfg op = some a') :
    GlobalFresh cfg.pca.metric a' := by
  intro K hnil
  cases op with
  | isHit query K' distances num =>
    obtain rfl := Option.some.inj hstep
    rw [Thresholds.getD_isHit hmode]
    exact h K hnil
  | updateTheta query K' d =>
    obtain rfl := Option.some.inj hstep
    dsimp only at hnil
    split_ifs at hnil with hK
    rw [Thresholds.getD_updateTheta_other hmode hK]
    exact h K hnil

/-- `LearnedOnly` for the global map; there are no regions to make live. -/
def GlobalLearnedOnly (cfg : ThetaConfig V) (a : GlobalAudit) (query : V) (K : Nat) : Prop :=
  a.log K = [] →
    (∀ ds num, (a.th.isHit cfg query K ds num).2 = false) ∧
    ∀ d, (a.th.updateTheta cfg query K d).thetaMap.lookup K = some d

theorem learnedOnly_iff_global (hmode : cfg.useRegionalTheta = false) {radius : Nat}
    {ops : List (GlobalOp V)} {a : GlobalAudit}
    (hrun : Traces.run (GlobalAudit.next cfg) (GlobalAudit.init cfg radius) ops = some a)
    (query : V) {K : Nat} (hK : 1 ≤ K) :
    GlobalLearnedOnly cfg a query K ↔ K ∈ initialKs ∨ a.log K ≠ [] := by
  have hfresh : GlobalFresh cfg.pca.metric a := by
    refine Traces.run_invariant (fun a op a' ha hstep => globalFresh_next hmode ha hstep) ?_ hrun
    intro K _
    simp only [GlobalAudit.init, Thresholds.init, hmode, Bool.false_eq_true, if_false,
      lookup_freshEntry, initialTheta]
    split_ifs <;> rfl
  have hseen : a.log K = [] → a.th.seen cfg query K = initialTheta cfg.pca.metric K := by
    intro hnil
    rw [Thresholds.seen, hmode]
    exact hfresh K hnil
  constructor
  · intro hlearned
    by_contra hcon
    obtain ⟨hinit, hnil⟩ := not_or.mp hcon
    have hnil := not_not.mp hnil
    have hzero : a.th.seen cfg query K = 0 := (hseen hnil).trans (if_neg hinit)
    -- and a threshold of 0 accepts the distance 0
    have hmiss := (hlearned hnil).1 (some (List.replicate K 0)) K
    rw [Thresholds.isHit_of_seen_zero (by omega) hzero] at hmiss
    cases hmiss
  · intro hcond hnil
    have hinit := hcond.resolve_right fun hne => hne hnil
    constructor
    · intro ds num
      rw [Bool.eq_false_iff, ne_eq, Thresholds.isHit_iff]
      rintro ⟨_, _, _, _, hun, _⟩
      rw [Thresholds.Learned, hseen hnil, learned_initialTheta.mpr hinit] at hun
      cases hun
    · intro d
      rw [Thresholds.lookup_updateTheta_self hmode, hfresh K hnil,
        (movedTheta_initialTheta _).mpr hinit]

end Global

/-! ## Both modes -/

/-- In every state some run reaches and for every K from 1 on, only learned
    thresholds admit hits if and only if K is one of `initialKs` or was updated
    (in the region of the query since its creation; in global mode, ever). -/
theorem learnedOnly_iff :
    (∀ (c : PcaConfig V) (a : Audit c), a.Reachable → ∀ (query : V) (K : Nat), 1 ≤ K →
      (LearnedOnly a query K ↔
        K ∈ initialKs ∨ a.log (c.computeRegionKey query) K ≠ [])) ∧
    ∀ (cfg : ThetaConfig V), cfg.useRegionalTheta = false →
      ∀ (radius : Nat) (ops : List (GlobalOp V)) (a : GlobalAudit),
        Traces.run (GlobalAudit.next cfg) (GlobalAudit.init cfg radius) ops = some a →
        ∀ (query : V) (K : Nat), 1 ≤ K →
          (GlobalLearnedOnly cfg a query K ↔ K ∈ initialKs ∨ a.log K ≠ []) :=
  ⟨fun _ _ hreach query K _ => learnedOnly_iff_regional hreach query K,
    fun _ hmode _ _ _ hrun query _ hK => learnedOnly_iff_global hmode hrun query hK⟩

/-- The global thresholds over `lineConfig`. -/
def lineGlobal : ThetaConfig Nat where
  useRegionalTheta := false
  p := 9 / 10
  deviationFactor := 1 / 4
  pca := lineConfig

/-- With room for one region, that of the query is made, dropped for another one and
    made again, and has forgotten its update; in global mode another K was updated. -/
theorem learnedOnly_iff_remade :
    let c : PcaConfig Nat := { lineConfig with maxRegions := 1 }
    (∃ a : Audit c, a.Reachable ∧ a.store.regionInsertionOrder = [[0]] ∧ a.log [0] 10 = [] ∧
      LearnedOnly a 0 10) ∧
    ∃ a : GlobalAudit, Traces.run (GlobalAudit.next lineGlobal) (GlobalAudit.init lineGlobal 0)
        [.isHit 0 3 (some [0, 0, 0]) 3, .updateTheta 0 3 (.fin 10)] = some a ∧
      GlobalLearnedOnly lineGlobal a 0 10 := by
  intro c
  have hruns : (Traces.run Audit.next (Audit.init c 0)
      [.updateTheta 0 10 (.fin 4) (9 / 10), .updateTheta 1 5 (.fin 6) (9 / 10),
        .isHit 0 10 (some []) 10 (1 / 4)]).any (fun a =>
          decide (a.store.regionInsertionOrder = [[0]] ∧ a.log [0] 10 = [])) = true := by
    decide +kernel
  obtain ⟨a, hrun, htest⟩ := Traces.exists_run hruns
  obtain ⟨horder, hlog⟩ := of_decide_eq_true htest
  have hreach : a.Reachable := ⟨0, _, hrun⟩
  have hglobal := learnedOnly_iff.2 lineGlobal rfl 0
    [.isHit 0 3 (some [0, 0, 0]) 3, .updateTheta 0 3 (.fin 10)] _ rfl 0 10 (by decide)
  exact ⟨⟨a, hreach, horder, hlog,
      (learnedOnly_iff.1 c a hreach 0 10 (by decide)).mpr (Or.inl (by decide))⟩,
    _, rfl, hglobal.mpr (Or.inl (by decide))⟩

/-- For K = 3 the first hit test, before anything was reported, accepts the
    distances 0, 0, 0 in either mode, leaves the region live, and the first
    update stores nine tenths of what it gets. -/
theorem default_theta_admits :
    ¬ LearnedOnly (Audit.init lineConfig 0) 0 3 ∧
      ¬ GlobalLearnedOnly lineGlobal (GlobalAudit.init lineGlobal 0) 0 3 ∧
      (PcaUtils.isHit lineConfig (PcaUtils.empty 0) 0 3 (some [0, 0, 0]) 3 (1 / 4)).2 = true ∧
      (PcaUtils.updateTheta lineConfig (PcaUtils.empty 0) 0 3 (.fin 10) (9 / 10)).theta? [0] 3 =
        some (.fin 9) := by
  refine ⟨fun h => ?_, fun h => ?_, by decide +kernel, by decide +kernel⟩
  · have hmiss := (h.1 rfl).1 (some [0, 0, 0]) 3 (1 / 4)
    revert hmiss
    decide +kernel
  · have hmiss := (h rfl).1 (some [0, 0, 0]) 3
    revert hmiss
    decide +kernel

end QvCache
