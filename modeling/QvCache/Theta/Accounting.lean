/-
  QvCache.Theta.Accounting

  Discount accounting: when does a stored threshold equal the discount of its
  region times the value its last update stored?

  A region has one discount for all its K.  `update_theta` resets it although
  it relearns one K only, and a lowering write overwrites it although it scales
  what earlier writes have scaled already.  `KeepsAccount` is the condition on a
  single operation under which neither goes wrong, and a run keeps the account
  if and only if all its operations meet it.
-/

import QvCache.Theta.History

namespace QvCache

open PcaUtils

variable {V : Type} {c : PcaConfig V}

/-- The learned thresholds of `r` are the discount of `r` times the value right
    after their last update. -/
def AccountedIn (a : Audit c) (r : RegionKey) : Prop :=
  ∀ K u, (a.log r K).head? = some u →
    a.store.theta? r K = some (a.store.discount r * u.stored)

def Accounted (a : Audit c) : Prop := ∀ r, AccountedIn a r

/-- The condition on one operation, for one region.  An update of K needs a
    region without discount, or one whose other learned thresholds no discount
    changes.  A write that lowers the region needs, for each learned threshold,
    that no discount changes it, or that the region has no discount yet and the
    threshold is not taken for the sentinel. -/
def KeepsAccountIn (a : Audit c) (r : RegionKey) : ThetaOp V → Prop
  | .updateTheta query K _ _ =>
    c.computeRegionKey query = r →
      a.store.discount r = 1 ∨
        ∀ K' theta, K' ≠ K → a.log r K' ≠ [] → a.store.theta? r K' = some theta → theta.Immovable
  | .tightenThetaForVector vec alpha =>
    0 < alpha → alpha < 1 → r ∈ visited c a.store.writeL1Radius (c.computeRegionKey vec) →
      Lowered c a.store r alpha →
        ∀ K theta, a.log r K ≠ [] → a.store.theta? r K = some theta →
          theta.Immovable ∨ a.store.discount r = 1 ∧ isUninitializedTheta c.metric theta = false
  | _ => True

def KeepsAccount (a : Audit c) (op : ThetaOp V) : Prop := ∀ r, KeepsAccountIn a r op

/-- Discounts are positive and at most 1. -/
def DiscountsInRange (a : Audit c) : Prop :=
  ∀ r, 0 < a.store.discount r ∧ a.store.discount r ≤ 1

theorem discountsInRange_step (a : Audit c) (op : ThetaOp V) (h : DiscountsInRange a) :
    DiscountsInRange (a.step op) := by
  intro r
  cases a.step_change op r with
  | dropped habsent _ _ =>
    rw [(a.step op).discounted r habsent]
    exact ⟨one_pos, le_refl 1⟩
  | same _ _ hdiscount _ _ =>
    rw [hdiscount]
    exact h r
  | learned _ _ _ _ _ _ _ _ _ hdiscount _ _ =>
    rw [hdiscount]
    exact ⟨one_pos, le_refl 1⟩
  | lowered _ _ _ halpha _ _ _ _ hdiscount _ =>
    rw [hdiscount]
    exact ⟨halpha.1, halpha.2.le⟩

/-! ## One operation -/

/-- Scaling a threshold that is accounted for keeps the account exactly when
    no discount was in force, or none matters. -/
theorem scaleLive_accounted (metric : Metric) {alpha d : ℚ} (v : Double) (ha : 0 < alpha)
    (hd : 0 < d) (hlt : alpha < d) :
    scaleLive metric alpha (d * v) = alpha * v ↔
      (d * v).Immovable ∨ d = 1 ∧ isUninitializedTheta metric (d * v) = false := by
  unfold scaleLive
  rw [Double.immovable_mul hd]
  split_ifs with hun
  · rw [Double.mul_eq_mul_iff hd ha]
    simp [hun, hlt.ne']
  · rw [Double.mul_assoc_of_pos ha hd, Double.mul_eq_mul_iff (mul_pos ha hd) ha]
    simp [hun, ha.ne', or_comm]

theorem head?_of_ne_nil {α : Type} {l : List α} (h : l ≠ []) : ∃ a, l.head? = some a :=
  Option.isSome_iff_exists.mp (List.isSome_head?.mpr h)

theorem keepsAccountIn_of_quiet {a : Audit c} {r : RegionKey} {op : ThetaOp V}
    (h : op.Quiet c a.store r) : KeepsAccountIn a r op := by
  cases op with
  | updateTheta query K d p => exact fun hr => absurd hr h
  | tightenThetaForVector vec alpha =>
    exact fun h0 h1 hvisited hlowered => absurd hlowered (h h0 h1 hvisited)
  | isHit => trivial
  | setWriteL1Radius => trivial

/-- One operation keeps the account of a region exactly under its condition. -/
theorem accountedIn_step {a : Audit c} (hrange : DiscountsInRange a) (op : ThetaOp V)
    {r : RegionKey} (h : AccountedIn a r) :
    AccountedIn (a.step op) r ↔ KeepsAccountIn a r op := by
  cases a.step_change op r with
  | dropped _ hlog hquiet =>
    refine iff_of_true (fun K u hu => ?_) (keepsAccountIn_of_quiet hquiet)
    rw [hlog K] at hu
    cases hu
  | same hkept _ hdiscount hlog hquiet =>
    refine iff_of_true (fun K u hu => ?_) (keepsAccountIn_of_quiet hquiet)
    rw [hlog K] at hu
    rw [hdiscount]
    exact hkept K _ (h K u hu)
  | learned query K d p hop hregion hself hkept _ hdiscount hlog hlogs =>
    subst hop
    constructor
    · -- another K that carries the discount loses its account
      intro hafter _
      by_contra hcon
      obtain ⟨hd, K', theta, hK, hne, htheta, himm⟩ :
          a.store.discount r ≠ 1 ∧ ∃ K' theta, K' ≠ K ∧ a.log r K' ≠ [] ∧
            a.store.theta? r K' = some theta ∧ ¬ theta.Immovable := by
        push Not at hcon
        exact hcon
      obtain ⟨u, hu⟩ := head?_of_ne_nil hne
      have hbefore := h K' u hu
      have hnow := hafter K' u (by rw [hlogs K' hK]; exact hu)
      rw [hkept K' _ hK hbefore, hdiscount] at hnow
      have heq := (Double.mul_eq_mul_iff (hrange r).1 one_pos).mp (Option.some.inj hnow)
      rw [hbefore] at htheta
      obtain rfl := Option.some.inj htheta
      exact himm ((Double.immovable_mul (hrange r).1).mpr (heq.resolve_left hd))
    · -- the updated K is accounted for by its new entry, the others by the condition
      intro hcond K' u hu
      rw [hdiscount, Double.one_mul]
      by_cases hK : K' = K
      · subst hK
        rw [hlog] at hu
        obtain rfl := Option.some.inj hu
        exact hself
      · rw [hlogs K' hK] at hu
        have hbefore := h K' u hu
        have hne : a.log r K' ≠ [] := by
          intro hnil
          rw [hnil] at hu
          cases hu
        rw [hkept K' _ hK hbefore]
        congr 1
        rcases hcond hregion with hone | himm
        · rw [hone, Double.one_mul]
        · have himm' := (Double.immovable_mul (hrange r).1).mp (himm K' _ hK hne hbefore)
          rw [(Double.mul_eq_mul_iff (hrange r).1 one_pos).mpr (Or.inr himm'), Double.one_mul]
  | lowered vec alpha hop halpha hvisited hlowered hself _ hdiscount hlog =>
    subst hop
    have hscale := fun v : Double =>
      scaleLive_accounted c.metric v halpha.1 (hrange r).1 hlowered.2
    constructor
    · intro hafter _ _ _ _ K theta hne htheta
      obtain ⟨u, hu⟩ := head?_of_ne_nil hne
      have hbefore := h K u hu
      have hnow := hafter K u (by rw [hlog K]; exact hu)
      rw [hself K, hbefore, hdiscount] at hnow
      rw [hbefore] at htheta
      obtain rfl := Option.some.inj htheta
      exact (hscale u.stored).mp (Option.some.inj hnow)
    · intro hcond K u hu
      rw [hlog K] at hu
      have hbefore := h K u hu
      have hne : a.log r K ≠ [] := by
        intro hnil
        rw [hnil] at hu
        cases hu
      rw [hself K, hbefore, hdiscount]
      exact congrArg some ((hscale u.stored).mpr
        (hcond halpha.1 halpha.2 hvisited hlowered K _ hne hbefore))

/-! ## Runs -/

/-- A run from the empty store keeps the account in every state if and only if
    each of its operations meets the condition. -/
theorem accounted_always_iff (radius : Nat) (ops : List (ThetaOp V)) :
    Traces.Always Audit.next Accounted (Audit.init c radius) ops ↔
      Traces.Along Audit.next KeepsAccount (Audit.init c radius) ops := by
  obtain ⟨a, hrun⟩ := Traces.run_total Audit.next_total (Audit.init c radius) ops
  refine Traces.always_iff_along (J := DiscountsInRange) (Q := fun _ _ => True) ?_ ?_ hrun
    (Traces.along_true _ _) ?_ ?_
  · intro a op a' hrange _ hstep
    obtain rfl := Option.some.inj hstep
    exact discountsInRange_step a op hrange
  · intro a op a' hrange _ hacc hstep
    obtain rfl := Option.some.inj hstep
    exact forall_congr' fun r => accountedIn_step hrange op (hacc r)
  · intro r
    exact ⟨one_pos, le_refl 1⟩
  · intro r K u hu
    cases hu

/-- Two writes with an update of another K between them. -/
def relearnedInBetween : List (ThetaOp Nat) :=
  [.updateTheta 0 1 (.fin 10) (9 / 10), .tightenThetaForVector 0 (1 / 2),
   .updateTheta 0 5 (.fin 7) (9 / 10), .tightenThetaForVector 0 (1 / 2)]

/-- The update of K = 5 clears the discount that K = 1 still carries, and the
    second write scales K = 1 again. -/
theorem relearnedInBetween_loses_account :
    ¬ Traces.Always Audit.next Accounted (Audit.init lineConfig 0) relearnedInBetween ∧
      ∃ a, Traces.run Audit.next (Audit.init lineConfig 0) relearnedInBetween = some a ∧
        a.store.discount [0] = 1 / 2 ∧ a.store.theta? [0] 1 = some (.fin (5 / 2)) ∧
        (a.log [0] 1).head? = some ⟨.fin 10, .fin 10⟩ := by
  refine ⟨fun h => ?_, _, rfl, by decide +kernel, by decide +kernel, by decide +kernel⟩
  have hacc := ((h.2 _ rfl).2 _ rfl).2 _ rfl |>.1
  have hone := hacc [0] 1 ⟨.fin 10, .fin 10⟩ (by decide +kernel)
  revert hone
  decide +kernel

end QvCache
