/-
  QvCache.Theta.History

  Runs of the regional store together with a log of the updates each region
  has received since it was created.  The log is not part of the program: it
  records what the properties of the thresholds speak about, the distances
  that were reported for a region and K and the value each update stored.

  `apply_effect` says once what one operation can do to one region; the
  invariants of the store are derived from its four cases.
-/

import QvCache.Lib.Traces
import QvCache.Theta.RegionSpec

namespace QvCache

open PcaUtils

/-- The operations on the regional store, with the arguments they get. -/
inductive ThetaOp (V : Type) where
  | isHit (query : V) (K : Nat) (distances : Option (List Double)) (numVectorsInMemory : Nat)
      (deviationFactor : ℚ)
  | updateTheta (query : V) (K : Nat) (queryDistance : Double) (p : ℚ)
  | tightenThetaForVector (vec : V) (alpha : ℚ)
  | setWriteL1Radius (radius : Nat)

variable {V : Type} {c : PcaConfig V}

namespace ThetaOp

def apply (c : PcaConfig V) (s : PcaUtils) : ThetaOp V → PcaUtils
  | .isHit query K distances num dev => (PcaUtils.isHit c s query K distances num dev).1
  | .updateTheta query K d p => PcaUtils.updateTheta c s query K d p
  | .tightenThetaForVector vec alpha => (PcaUtils.tightenThetaForVector c s vec alpha).1
  | .setWriteL1Radius radius => { s with writeL1Radius := radius }

/-- The distance an operation reports for a region and K. -/
def report (c : PcaConfig V) (r : RegionKey) (K : Nat) : ThetaOp V → Option Double
  | .updateTheta query K' d _ => if c.computeRegionKey query = r ∧ K' = K then some d else none
  | _ => none

/-- The operation neither learns a threshold of `r` nor lowers its region. -/
def Quiet (c : PcaConfig V) (s : PcaUtils) (r : RegionKey) : ThetaOp V → Prop
  | .updateTheta query _ _ _ => c.computeRegionKey query ≠ r
  | .tightenThetaForVector vec alpha =>
    0 < alpha → alpha < 1 → r ∈ visited c s.writeL1Radius (c.computeRegionKey vec) →
      ¬ Lowered c s r alpha
  | _ => True

theorem Quiet.report_eq_none {s : PcaUtils} {r : RegionKey} {op : ThetaOp V}
    (h : op.Quiet c s r) (K : Nat) : op.report c r K = none := by
  cases op with
  | updateTheta query K' d p => rw [report, if_neg fun hr => h hr.1]
  | isHit => rfl
  | tightenThetaForVector => rfl
  | setWriteL1Radius => rfl

end ThetaOp

/-! ## The effect of one operation on one region -/

/-- Everything one operation can do to a region `r`. -/
inductive Effect (c : PcaConfig V) (s : PcaUtils) (op : ThetaOp V) (r : RegionKey) : Prop where
  /-- The region was dropped to make room for a new one. -/
  | dropped (habsent : (op.apply c s).regionThetaMap.lookup r = none)
      (hdiscount : (op.apply c s).discount r = 1)
      (hquiet : op.Quiet c s r)
  /-- No threshold and no discount of the region changed. -/
  | same (habsent : (op.apply c s).regionThetaMap.lookup r = none →
        s.regionThetaMap.lookup r = none)
      (hkept : ∀ K theta, s.theta? r K = some theta → (op.apply c s).theta? r K = some theta)
      (hseen : ∀ K, thetaSeen c (op.apply c s) r K = thetaSeen c s r K)
      (hdiscount : (op.apply c s).discount r = s.discount r)
      (hquiet : op.Quiet c s r)
  /-- One threshold of the region was learned and the discount reset. -/
  | learned (query : V) (K : Nat) (d : Double) (p : ℚ)
      (hop : op = .updateTheta query K d p) (hregion : c.computeRegionKey query = r)
      (hself : (op.apply c s).theta? r K = some (movedTheta c.metric (thetaSeen c s r K) d p))
      (hkept : ∀ K' theta, K' ≠ K → s.theta? r K' = some theta →
        (op.apply c s).theta? r K' = some theta)
      (hseen : ∀ K', K' ≠ K → thetaSeen c (op.apply c s) r K' = thetaSeen c s r K')
      (hdiscount : (op.apply c s).discount r = 1)
  /-- A write lowered the thresholds of the region. -/
  | lowered (vec : V) (alpha : ℚ) (hop : op = .tightenThetaForVector vec alpha)
      (halpha : 0 < alpha ∧ alpha < 1)
      (hvisited : r ∈ visited c s.writeL1Radius (c.computeRegionKey vec))
      (hlowered : Lowered c s r alpha)
      (hself : ∀ K, (op.apply c s).theta? r K = (s.theta? r K).map (scaleLive c.metric alpha))
      (hseen : ∀ K, thetaSeen c (op.apply c s) r K = scaleLive c.metric alpha (thetaSeen c s r K))
      (hdiscount : (op.apply c s).discount r = alpha)

/-- A region that is not in the map has no discount. -/
def Discounted (s : PcaUtils) : Prop :=
  ∀ r, s.regionThetaMap.lookup r = none → s.discount r = 1

/-- Only a missing region makes room for itself. -/
theorem lookup_of_evictee {s : PcaUtils} {key r : RegionKey} (h : evictee c s key = some r) :
    s.regionThetaMap.lookup key = none := by
  unfold evictee at h
  split_ifs at h with hkey
  simpa using hkey

/-- What a read leaves of a region that it does not drop. -/
theorem access_same {s : PcaUtils} (hs : Discounted s) (region r : RegionKey) (K : Nat)
    (hkeep : r = region ∨ evictee c s region ≠ some r) :
    ((access c s region K).1.regionThetaMap.lookup r = none → s.regionThetaMap.lookup r = none) ∧
    (∀ K' theta, s.theta? r K' = some theta → (access c s region K).1.theta? r K' = some theta) ∧
    (∀ K', thetaSeen c (access c s region K).1 r K' = thetaSeen c s r K') ∧
    (access c s region K).1.discount r = s.discount r := by
  by_cases hr : r = region
  · -- the region itself: created if need be, and K with it
    subst hr
    have hlook := lookup_access (c := c) (s := s) r r K
    rw [if_pos rfl] at hlook
    refine ⟨?_, ?_, ?_, ?_⟩
    · intro habsent
      rw [hlook] at habsent
      cases habsent
    · intro K' theta h
      have hentry : (entryOf c s r).lookup K' = some theta := lookup_entryOf_of_theta? h
      rw [theta?_eq_of_lookup hlook, lookup_touch]
      split_ifs with hK
      · rw [← hK, hentry]
        rfl
      · exact hentry
    · exact fun K' => thetaSeen_access r K K'
    · rw [discount, discountMap_access, lookup_discount_lazyInitRegion]
      split_ifs with he
      · exact (hs r (lookup_of_evictee he)).symm
      · rfl
  · -- another region that is not the one dropped
    have hkeep' := hkeep.resolve_left hr
    have hlook := lookup_access (c := c) (s := s) region r K
    rw [if_neg hr, if_neg hkeep'] at hlook
    refine ⟨?_, ?_, ?_, ?_⟩
    · intro habsent
      rwa [hlook] at habsent
    · intro K' theta h
      rwa [theta?, hlook]
    · intro K'
      unfold thetaSeen entryOf
      rw [hlook]
    · rw [discount, discountMap_access, lookup_discount_lazyInitRegion, if_neg hkeep']
      rfl

/-- What a read leaves of a region that it drops. -/
theorem access_dropped {s : PcaUtils} {region r : RegionKey} (K : Nat) (hne : r ≠ region)
    (hdrop : evictee c s region = some r) :
    (access c s region K).1.regionThetaMap.lookup r = none ∧
      (access c s region K).1.discount r = 1 := by
  constructor
  · rw [lookup_access, if_neg hne, if_pos hdrop]
  · rw [discount, discountMap_access, lookup_discount_lazyInitRegion, if_pos hdrop]
    rfl

theorem isHit_effect {s : PcaUtils} (hs : Discounted s) (query : V) (K : Nat)
    (distances : Option (List Double)) (num : Nat) (dev : ℚ) (r : RegionKey) :
    Effect c s (.isHit query K distances num dev) r := by
  rcases isHit_fst (c := c) (s := s) query K distances num dev with h | h
  · have happly : (ThetaOp.isHit query K distances num dev).apply c s = s := h
    exact .same (by rw [happly]; exact id) (fun _ _ ht => by rw [happly]; exact ht)
      (fun _ => by rw [happly]) (by rw [happly]) trivial
  · have happly : (ThetaOp.isHit query K distances num dev).apply c s =
        (access c s (c.computeRegionKey query) K).1 := h
    by_cases hdrop : r ≠ c.computeRegionKey query ∧ evictee c s (c.computeRegionKey query) = some r
    · obtain ⟨habsent, hdisc⟩ := access_dropped K hdrop.1 hdrop.2
      exact .dropped (by rw [happly]; exact habsent) (by rw [happly]; exact hdisc) trivial
    · have hkeep : r = c.computeRegionKey query ∨
          evictee c s (c.computeRegionKey query) ≠ some r := by
        by_contra hcon
        exact hdrop (by tauto)
      obtain ⟨habsent, hkept, hseen, hdisc⟩ :=
        access_same hs (c.computeRegionKey query) r K hkeep
      exact .same (by rw [happly]; exact habsent) (by rw [happly]; exact hkept)
        (by rw [happly]; exact hseen) (by rw [happly]; exact hdisc) trivial

/-- An update of K leaves the other thresholds of its region as they were. -/
theorem updateTheta_others {s : PcaUtils} (query : V) {K : Nat} (d : Double) (p : ℚ) :
    (∀ K' theta, K' ≠ K → s.theta? (c.computeRegionKey query) K' = some theta →
      (PcaUtils.updateTheta c s query K d p).theta? (c.computeRegionKey query) K' = some theta) ∧
    ∀ K', K' ≠ K → thetaSeen c (PcaUtils.updateTheta c s query K d p) (c.computeRegionKey query) K' =
      thetaSeen c s (c.computeRegionKey query) K' := by
  constructor
  · intro K' theta hK h
    rw [theta?_updateTheta_other query d p hK]
    exact lookup_entryOf_of_theta? h
  · exact fun K' hK => thetaSeen_updateTheta_other query d p hK

theorem updateTheta_effect {s : PcaUtils} (query : V) (K : Nat) (d : Double) (p : ℚ)
    (r : RegionKey) : Effect c s (.updateTheta query K d p) r := by
  by_cases hr : c.computeRegionKey query = r
  · subst hr
    obtain ⟨hkept, hseen⟩ := updateTheta_others (c := c) (s := s) query (K := K) d p
    exact .learned query K d p rfl rfl (theta?_updateTheta_self query K d p) hkept hseen
      (by rw [ThetaOp.apply, discount_updateTheta, if_pos rfl])
  · have hr' : r ≠ c.computeRegionKey query := Ne.symm hr
    have hlook := lookup_updateTheta (c := c) (s := s) query K d p r
    have hdisc := discount_updateTheta (c := c) (s := s) query K d p r
    rw [if_neg hr'] at hlook hdisc
    by_cases hdrop : evictee c s (c.computeRegionKey query) = some r
    · rw [if_pos hdrop] at hlook hdisc
      exact .dropped hlook hdisc hr
    · rw [if_neg hdrop] at hlook hdisc
      refine .same (fun h => hlook ▸ h) ?_ ?_ hdisc hr
      · intro K' theta h
        rw [ThetaOp.apply, theta?, hlook]
        exact h
      · intro K'
        rw [ThetaOp.apply]
        unfold thetaSeen entryOf
        rw [hlook]

theorem tighten_effect {s : PcaUtils} (vec : V) (alpha : ℚ) (r : RegionKey) :
    Effect c s (.tightenThetaForVector vec alpha) r := by
  have heq : (ThetaOp.tightenThetaForVector vec alpha).apply c s = _ :=
    tightenThetaForVector_eq (c := c) (s := s) vec alpha
  split_ifs at heq with hguard
  · -- a discount outside (0, 1) does nothing
    exact .same (by rw [heq]; exact id) (fun _ _ ht => by rw [heq]; exact ht)
      (fun _ => by rw [heq]) (by rw [heq])
      fun h0 h1 _ _ => not_guarded_iff.mpr ⟨h0, h1⟩ hguard
  · have halpha := not_guarded_iff.mp hguard
    rcases tightenAll_spec (c := c) (s := s)
      (visited c s.writeL1Radius (c.computeRegionKey vec)) alpha r with
      ⟨hvisited, hlowered, hlook, hdisc⟩ | ⟨hnot, hlook, hdisc⟩
    · -- the walk lowers the region once, however often it comes by
      refine .lowered vec alpha rfl halpha hvisited hlowered ?_ ?_ (by rw [heq]; exact hdisc)
      · intro K
        rw [heq, theta?, hlook, theta?]
        cases s.regionThetaMap.lookup r with
        | none => rfl
        | some entry => exact Table.lookup_mapVals _ _ _
      · intro K
        rw [heq]
        exact thetaSeen_scaled hlowered.1 hlook K
    · refine .same (by rw [heq, hlook]; exact id) ?_ ?_ (by rw [heq]; exact hdisc)
        fun _ _ hvisited hlowered => hnot ⟨hvisited, hlowered⟩
      · intro K theta h
        rw [heq, theta?, hlook]
        exact h
      · intro K
        rw [heq]
        exact thetaSeen_congr hlook K

/-- One operation has one of the four effects on each region. -/
theorem apply_effect {s : PcaUtils} (hs : Discounted s) (op : ThetaOp V) (r : RegionKey) :
    Effect c s op r := by
  cases op with
  | isHit query K distances num dev => exact isHit_effect hs query K distances num dev r
  | updateTheta query K d p => exact updateTheta_effect query K d p r
  | tightenThetaForVector vec alpha => exact tighten_effect vec alpha r
  | setWriteL1Radius radius => exact .same id (fun _ _ h => h) (fun _ => rfl) rfl trivial

theorem discounted_apply {s : PcaUtils} (hs : Discounted s) (op : ThetaOp V) :
    Discounted (op.apply c s) := by
  intro r habsent
  cases apply_effect (c := c) hs op r with
  | dropped _ hdiscount _ => exact hdiscount
  | same hsame _ _ hdiscount _ => exact hdiscount.trans (hs r (hsame habsent))
  | learned _ _ _ _ _ _ _ _ _ hdiscount => exact hdiscount
  | lowered _ _ _ _ _ hlowered hself _ _ =>
    -- a lowered region has a threshold, before and after
    obtain ⟨⟨entry, hlook, hlive⟩, _⟩ := hlowered
    obtain ⟨K, theta, hK, _⟩ := entryHasLiveTheta_iff.mp hlive
    have hafter := hself K
    rw [theta?_eq_of_lookup hlook, hK, theta?_eq_none habsent] at hafter
    cases hafter

/-- A store with one principal component on `0 .. 3`, a bucket for each. -/
def lineConfig : PcaConfig Nat where
  metric := .L2
  bucketsPerDim := 4
  maxRegions := 8
  computeRegionKey v := [UInt8.ofNat (min v 3)]

/-! ## The log -/

/-- One update: the distance it got and the threshold it stored. -/
structure Update where
  reported : Double
  stored : Double
deriving DecidableEq

/-- A store and, for each region and K, the updates since the region was
    created, latest first. -/
structure Audit (c : PcaConfig V) where
  store : PcaUtils
  log : RegionKey → Nat → List Update
  discounted : Discounted store
  logged : ∀ r K, log r K ≠ [] → (store.theta? r K).isSome

namespace Audit

def init (c : PcaConfig V) (radius : Nat) : Audit c where
  store := PcaUtils.empty radius
  log := fun _ _ => []
  discounted := fun _ _ => rfl
  logged := fun _ _ h => absurd rfl h

/-- The log goes on while the region stays in the map and starts anew when it
    is created. -/
def nextLog (a : Audit c) (op : ThetaOp V) (r : RegionKey) (K : Nat) : List Update :=
  let s' := op.apply c a.store
  let kept : List Update :=
    if (a.store.regionThetaMap.lookup r).isSome ∧ (s'.regionThetaMap.lookup r).isSome then a.log r K
    else []
  match op.report c r K with
  | some d => ⟨d, thetaSeen c s' r K⟩ :: kept
  | none => kept

/-- While the region stays, the log is the old one with the new report. -/
theorem nextLog_of_present {a : Audit c} {op : ThetaOp V} {r : RegionKey} {K : Nat}
    (h : ∀ theta, a.store.theta? r K = some theta →
      (op.apply c a.store).regionThetaMap.lookup r ≠ none) :
    a.nextLog op r K = match op.report c r K with
      | some d => ⟨d, thetaSeen c (op.apply c a.store) r K⟩ :: a.log r K
      | none => a.log r K := by
  have hkept : (if (a.store.regionThetaMap.lookup r).isSome ∧
      ((op.apply c a.store).regionThetaMap.lookup r).isSome then a.log r K else []) = a.log r K := by
    split_ifs with hif
    · rfl
    · by_contra hne
      obtain ⟨theta, htheta⟩ := Option.isSome_iff_exists.mp (a.logged r K (Ne.symm hne))
      have hbefore : (a.store.regionThetaMap.lookup r).isSome := by
        cases hlook : a.store.regionThetaMap.lookup r with
        | none => simp [theta?_eq_none hlook] at htheta
        | some entry => rfl
      exact hif ⟨hbefore, Option.isSome_iff_ne_none.mpr (h theta htheta)⟩
  unfold nextLog
  dsimp only
  rw [hkept]

/-- A region that is gone has no log. -/
theorem nextLog_of_absent {a : Audit c} {op : ThetaOp V} {r : RegionKey}
    (habsent : (op.apply c a.store).regionThetaMap.lookup r = none) (K : Nat) :
    a.nextLog op r K = [] := by
  have hreport : op.report c r K = none := by
    cases apply_effect (c := c) a.discounted op r with
    | dropped _ _ hquiet => exact hquiet.report_eq_none K
    | same _ _ _ _ hquiet => exact hquiet.report_eq_none K
    | learned _ _ _ _ _ _ hself _ _ _ =>
      rw [theta?_eq_none habsent] at hself
      cases hself
    | lowered _ _ hop _ _ _ _ _ _ =>
      rw [hop]
      rfl
  simp [nextLog, hreport, habsent]

theorem logged_nextLog (a : Audit c) (op : ThetaOp V) (r : RegionKey) (K : Nat)
    (h : a.nextLog op r K ≠ []) : ((op.apply c a.store).theta? r K).isSome := by
  have hpresent : (op.apply c a.store).regionThetaMap.lookup r ≠ none :=
    fun habsent => h (nextLog_of_absent habsent K)
  rw [nextLog_of_present fun _ _ => hpresent] at h
  have hold : op.report c r K = none → ∃ theta, a.store.theta? r K = some theta := by
    intro hreport
    rw [hreport] at h
    exact Option.isSome_iff_exists.mp (a.logged r K h)
  cases apply_effect (c := c) a.discounted op r with
  | dropped habsent _ _ => exact absurd habsent hpresent
  | same _ hkept _ _ hquiet =>
    -- nothing is reported, so the log was not empty before
    obtain ⟨theta, htheta⟩ := hold (hquiet.report_eq_none K)
    rw [hkept K theta htheta]
    rfl
  | learned query K' d p hop hregion hself hkept _ _ =>
    by_cases hK : K = K'
    · rw [hK, hself]
      rfl
    · have hreport : op.report c r K = none := by
        rw [hop, ThetaOp.report, if_neg fun h => hK h.2.symm]
      obtain ⟨theta, htheta⟩ := hold hreport
      rw [hkept K theta hK htheta]
      rfl
  | lowered _ _ hop _ _ _ hself _ _ =>
    have hreport : op.report c r K = none := by
      rw [hop]
      rfl
    obtain ⟨theta, htheta⟩ := hold hreport
    rw [hself K, htheta]
    rfl

/-- Run one operation and keep the log. -/
def step (a : Audit c) (op : ThetaOp V) : Audit c where
  store := op.apply c a.store
  log := a.nextLog op
  discounted := discounted_apply a.discounted op
  logged := a.logged_nextLog op

/-- The operations as a transition system; every one of them is enabled. -/
def next (a : Audit c) (op : ThetaOp V) : Option (Audit c) := some (a.step op)

theorem next_total (a : Audit c) (op : ThetaOp V) : ∃ a', a.next op = some a' := ⟨_, rfl⟩

/-- A state of the store some sequence of operations leads to. -/
def Reachable (a : Audit c) : Prop := ∃ radius, Traces.Reachable next (init c radius) a

/-- Everything one operation can do to a region and its log. -/
inductive Change (a : Audit c) (op : ThetaOp V) (r : RegionKey) : Prop where
  | dropped (habsent : (a.step op).store.regionThetaMap.lookup r = none)
      (hlog : ∀ K, (a.step op).log r K = []) (hquiet : op.Quiet c a.store r)
  | same (hkept : ∀ K theta, a.store.theta? r K = some theta →
        (a.step op).store.theta? r K = some theta)
      (hseen : ∀ K, thetaSeen c (a.step op).store r K = thetaSeen c a.store r K)
      (hdiscount : (a.step op).store.discount r = a.store.discount r)
      (hlog : ∀ K, (a.step op).log r K = a.log r K) (hquiet : op.Quiet c a.store r)
  | learned (query : V) (K : Nat) (d : Double) (p : ℚ)
      (hop : op = .updateTheta query K d p) (hregion : c.computeRegionKey query = r)
      (hself : (a.step op).store.theta? r K =
        some (movedTheta c.metric (thetaSeen c a.store r K) d p))
      (hkept : ∀ K' theta, K' ≠ K → a.store.theta? r K' = some theta →
        (a.step op).store.theta? r K' = some theta)
      (hseen : ∀ K', K' ≠ K → thetaSeen c (a.step op).store r K' = thetaSeen c a.store r K')
      (hdiscount : (a.step op).store.discount r = 1)
      (hlog : (a.step op).log r K =
        ⟨d, movedTheta c.metric (thetaSeen c a.store r K) d p⟩ :: a.log r K)
      (hlogs : ∀ K', K' ≠ K → (a.step op).log r K' = a.log r K')
  | lowered (vec : V) (alpha : ℚ) (hop : op = .tightenThetaForVector vec alpha)
      (halpha : 0 < alpha ∧ alpha < 1)
      (hvisited : r ∈ visited c a.store.writeL1Radius (c.computeRegionKey vec))
      (hlowered : Lowered c a.store r alpha)
      (hself : ∀ K, (a.step op).store.theta? r K =
        (a.store.theta? r K).map (scaleLive c.metric alpha))
      (hseen : ∀ K, thetaSeen c (a.step op).store r K =
        scaleLive c.metric alpha (thetaSeen c a.store r K))
      (hdiscount : (a.step op).store.discount r = alpha)
      (hlog : ∀ K, (a.step op).log r K = a.log r K)

theorem step_change (a : Audit c) (op : ThetaOp V) (r : RegionKey) : Change a op r := by
  cases apply_effect (c := c) a.discounted op r with
  | dropped habsent _ hquiet => exact .dropped habsent (nextLog_of_absent habsent) hquiet
  | same _ hkept hseen hdiscount hquiet =>
    refine .same hkept hseen hdiscount (fun K => ?_) hquiet
    have hlog : a.nextLog op r K = _ := nextLog_of_present fun theta htheta habsent => by
      have hafter := hkept K theta htheta
      rw [theta?_eq_none habsent] at hafter
      cases hafter
    rw [hquiet.report_eq_none K] at hlog
    exact hlog
  | learned query K d p hop hregion hself hkept hseen hdiscount =>
    have hpresent : (op.apply c a.store).regionThetaMap.lookup r ≠ none := by
      intro habsent
      rw [theta?_eq_none habsent] at hself
      cases hself
    refine .learned query K d p hop hregion hself hkept hseen hdiscount ?_ fun K' hK => ?_
    · -- the K of the update gets a new entry, every other K keeps its log
      have hlog : a.nextLog op r K = _ := nextLog_of_present fun _ _ => hpresent
      have hreport : op.report c r K = some d := by
        rw [hop, ThetaOp.report, if_pos ⟨hregion, rfl⟩]
      rw [hreport, thetaSeen_of_theta? hself] at hlog
      exact hlog
    · have hlog : a.nextLog op r K' = _ := nextLog_of_present fun _ _ => hpresent
      have hreport : op.report c r K' = none := by
        rw [hop, ThetaOp.report, if_neg fun h => hK h.2.symm]
      rw [hreport] at hlog
      exact hlog
  | lowered vec alpha hop halpha hvisited hlowered hself hseen hdiscount =>
    refine .lowered vec alpha hop halpha hvisited hlowered hself hseen hdiscount fun K => ?_
    have hlog : a.nextLog op r K = _ := nextLog_of_present fun theta htheta habsent => by
      have hafter := hself K
      rw [theta?_eq_none habsent, htheta] at hafter
      cases hafter
    have hreport : op.report c r K = none := by
      rw [hop]
      rfl
    rw [hreport] at hlog
    exact hlog

end Audit

end QvCache
