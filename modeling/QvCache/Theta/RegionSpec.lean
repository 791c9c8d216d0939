/-
  QvCache.Theta.RegionSpec

  What each operation of the regional store does, read off through three
  views of it: the table of a region (`lookup`), one threshold (`theta?`) and
  the discount of a region (`discount`).  Later modules argue from these
  lemmas and never unfold the operations.
-/

import QvCache.Theta.RegionStore

namespace QvCache

/-! ## Fresh tables -/

theorem lookup_freshEntry (metric : Metric) (K : Nat) :
    (freshEntry metric).lookup K =
      if K ∈ initialKs then some (uninitializedTheta metric) else none := by
  simp only [freshEntry, initialKs, List.foldl_cons, List.foldl_nil, Table.lookup_insert_eq,
    AList.lookup_empty, List.mem_cons, List.not_mem_nil, or_false]
  split_ifs <;> first | rfl | omega

theorem isUninitialized_uninitialized (metric : Metric) :
    isUninitializedTheta metric (uninitializedTheta metric) = true := by
  unfold isUninitializedTheta uninitializedTheta
  split_ifs with h
  · rfl
  · have hpos : (0 : ℚ) ≤ Double.dblMax := by decide +kernel
    simp only [Double.fin_le_fin, decide_eq_true_eq]
    linarith

/-- The default of `operator[]` is not the sentinel of any metric. -/
theorem not_isUninitialized_zero (metric : Metric) : isUninitializedTheta metric 0 = false := by
  have hpos : (0 : ℚ) < Double.dblMax * (1 / 2) := by decide +kernel
  unfold isUninitializedTheta
  split_ifs with h
  · rfl
  · simp only [Double.zero_def, Double.fin_le_fin, decide_eq_false_iff_not]
    exact not_le.mpr hpos

/-- A table counts as live exactly when some K has a threshold that is not the
    sentinel. -/
theorem entryHasLiveTheta_iff {metric : Metric} {entry : ThetaEntry} :
    entryHasLiveTheta metric entry = true ↔
      ∃ K theta, entry.lookup K = some theta ∧ isUninitializedTheta metric theta = false := by
  simp only [entryHasLiveTheta, List.any_eq_true, Bool.not_eq_true']
  constructor
  · rintro ⟨⟨K, theta⟩, hmem, hlive⟩
    exact ⟨K, theta, (List.mem_dlookup_iff entry.nodupKeys).mpr hmem, hlive⟩
  · rintro ⟨K, theta, hlook, hlive⟩
    exact ⟨⟨K, theta⟩, (List.mem_dlookup_iff entry.nodupKeys).mp hlook, hlive⟩

theorem not_live_freshEntry (metric : Metric) :
    entryHasLiveTheta metric (freshEntry metric) = false := by
  rw [Bool.eq_false_iff, ne_eq, entryHasLiveTheta_iff]
  rintro ⟨K, theta, hlook, hlive⟩
  rw [lookup_freshEntry] at hlook
  split_ifs at hlook
  obtain rfl := Option.some.inj hlook
  rw [isUninitialized_uninitialized] at hlive
  exact Bool.noConfusion hlive

namespace PcaUtils

variable {V : Type} {c : PcaConfig V} {s : PcaUtils}

/-! ## Views -/

/-- The stored threshold of a region for K. -/
def theta? (s : PcaUtils) (region : RegionKey) (K : Nat) : Option Double :=
  (s.regionThetaMap.lookup region).bind fun entry => entry.lookup K

/-- The table a region has, or gets when it is created. -/
def entryOf (c : PcaConfig V) (s : PcaUtils) (region : RegionKey) : ThetaEntry :=
  (s.regionThetaMap.lookup region).getD (freshEntry c.metric)

/-- The threshold that `isHit` and `update_theta` read for a region and K. -/
def thetaSeen (c : PcaConfig V) (s : PcaUtils) (region : RegionKey) (K : Nat) : Double :=
  ((entryOf c s region).lookup K).getD 0

/-- The region counts as having a live theta for a write. -/
def Live (c : PcaConfig V) (s : PcaUtils) (region : RegionKey) : Prop :=
  ∃ entry, s.regionThetaMap.lookup region = some entry ∧
    entryHasLiveTheta c.metric entry = true

/-- A table after `entry[K]` was read. -/
def touch (entry : ThetaEntry) (K : Nat) : ThetaEntry :=
  match entry.lookup K with
  | some _ => entry
  | none => entry.insert K 0

theorem lookup_touch (entry : ThetaEntry) (K K' : Nat) :
    (touch entry K).lookup K' =
      if K' = K then some ((entry.lookup K).getD 0) else entry.lookup K' := by
  unfold touch
  cases h : entry.lookup K with
  | none =>
    rw [Table.lookup_insert_eq]
    rfl
  | some theta =>
    split_ifs with hK
    · rw [hK, h]
      rfl
    · rfl

theorem theta?_eq_of_lookup {r : RegionKey} {K : Nat} {entry : ThetaEntry}
    (h : s.regionThetaMap.lookup r = some entry) : s.theta? r K = entry.lookup K := by
  simp [theta?, h]

theorem theta?_eq_none {r : RegionKey} {K : Nat} (h : s.regionThetaMap.lookup r = none) :
    s.theta? r K = none := by
  simp [theta?, h]

/-- A stored threshold is in the table of its region. -/
theorem lookup_entryOf_of_theta? {r : RegionKey} {K : Nat} {theta : Double}
    (h : s.theta? r K = some theta) : (entryOf c s r).lookup K = some theta := by
  obtain ⟨entry, hr, hentry⟩ := Option.bind_eq_some_iff.mp h
  rw [entryOf, hr]
  exact hentry

/-- A stored threshold is the one that is read. -/
theorem thetaSeen_of_theta? {r : RegionKey} {K : Nat} {theta : Double}
    (h : s.theta? r K = some theta) : thetaSeen c s r K = theta := by
  rw [thetaSeen, lookup_entryOf_of_theta? h]
  rfl

theorem live_iff {r : RegionKey} :
    Live c s r ↔
      ∃ K theta, s.theta? r K = some theta ∧ isUninitializedTheta c.metric theta = false := by
  constructor
  · rintro ⟨entry, hlook, hlive⟩
    obtain ⟨K, theta, hK, hlearned⟩ := entryHasLiveTheta_iff.mp hlive
    exact ⟨K, theta, (theta?_eq_of_lookup hlook).trans hK, hlearned⟩
  · rintro ⟨K, theta, htheta, hlearned⟩
    cases hlook : s.regionThetaMap.lookup r with
    | none => simp [theta?_eq_none hlook] at htheta
    | some entry =>
      rw [theta?_eq_of_lookup hlook] at htheta
      exact ⟨entry, hlook, entryHasLiveTheta_iff.mpr ⟨K, theta, htheta, hlearned⟩⟩

/-- What is read for a region that does not exist. -/
theorem thetaSeen_of_absent {r : RegionKey} (h : s.regionThetaMap.lookup r = none) (K : Nat) :
    thetaSeen c s r K = if K ∈ initialKs then uninitializedTheta c.metric else 0 := by
  unfold thetaSeen entryOf
  rw [h, Option.getD_none, lookup_freshEntry]
  split_ifs <;> rfl

/-! ## Creating a region -/

theorem lookup_lazyInitRegion (key r : RegionKey) :
    (lazyInitRegion c s key).regionThetaMap.lookup r =
      if r = key then some (entryOf c s key)
      else if evictee c s key = some r then none
      else s.regionThetaMap.lookup r := by
  unfold lazyInitRegion evictee entryOf
  by_cases hkey : (s.regionThetaMap.lookup key).isSome
  · simp only [hkey, if_true, reduceCtorEq, if_false]
    split_ifs with hr
    · obtain ⟨entry, he⟩ := Option.isSome_iff_exists.mp hkey
      rw [hr, he]
      rfl
    · rfl
  · -- a new region: what is dropped for it depends on the order and on the room
    have hnone : s.regionThetaMap.lookup key = none := by simpa using hkey
    simp only [hnone, Option.isSome_none, Bool.false_eq_true, if_false, Option.getD_none]
    cases horder : s.regionInsertionOrder with
    | nil => simp [Table.lookup_insert_eq]
    | cons oldest rest =>
      by_cases hfull : c.maxRegions ≤ s.regionThetaMap.size
      · simp only [hfull, if_true, Table.lookup_insert_eq, Table.lookup_erase_eq,
          List.head?_cons, Option.some.injEq]
        by_cases hr : r = key
        · simp [hr]
        · simp only [hr, if_false]
          by_cases ho : oldest = r
          · simp [ho]
          · simp [ho, Ne.symm ho]
      · simp [hfull, Table.lookup_insert_eq]

theorem lookup_discount_lazyInitRegion (key r : RegionKey) :
    (lazyInitRegion c s key).regionDiscountMap.lookup r =
      if evictee c s key = some r then none else s.regionDiscountMap.lookup r := by
  unfold lazyInitRegion evictee
  by_cases hkey : (s.regionThetaMap.lookup key).isSome
  · simp [hkey]
  · have hnone : s.regionThetaMap.lookup key = none := by simpa using hkey
    simp only [hnone, Option.isSome_none, Bool.false_eq_true, if_false]
    cases horder : s.regionInsertionOrder with
    | nil => simp
    | cons oldest rest =>
      by_cases hfull : c.maxRegions ≤ s.regionThetaMap.size
      · simp only [hfull, if_true, Table.lookup_erase_eq, List.head?_cons, Option.some.injEq]
        by_cases ho : oldest = r
        · simp [ho]
        · simp [ho, Ne.symm ho]
      · simp [hfull]

/-! ## Reading a threshold -/

/-- The store after `lazy_init_region(region)` and `region_theta_map[region][K]`,
    the access that `isHit` and `update_theta` share. -/
def access (c : PcaConfig V) (s : PcaUtils) (region : RegionKey) (K : Nat) : PcaUtils × Double :=
  (lazyInitRegion c s region).subscript region K

theorem access_snd (region : RegionKey) (K : Nat) :
    (access c s region K).2 = thetaSeen c s region K := by
  have hlook : (lazyInitRegion c s region).regionThetaMap.lookup region =
      some (entryOf c s region) := by
    rw [lookup_lazyInitRegion, if_pos rfl]
  unfold access subscript thetaSeen
  simp only [hlook, Option.getD_some]
  cases (entryOf c s region).lookup K <;> rfl

theorem lookup_access (region r : RegionKey) (K : Nat) :
    (access c s region K).1.regionThetaMap.lookup r =
      if r = region then some (touch (entryOf c s region) K)
      else if evictee c s region = some r then none
      else s.regionThetaMap.lookup r := by
  have hlook : (lazyInitRegion c s region).regionThetaMap.lookup region =
      some (entryOf c s region) := by
    rw [lookup_lazyInitRegion, if_pos rfl]
  unfold access subscript touch
  simp only [hlook, Option.getD_some]
  cases hK : (entryOf c s region).lookup K with
  | none =>
    simp only [Table.lookup_insert_eq, lookup_lazyInitRegion]
    split_ifs <;> rfl
  | some theta => exact lookup_lazyInitRegion region r

/-- The thresholds of the region that was read: the one for K is stored now. -/
theorem theta?_access_self (region : RegionKey) (K K' : Nat) :
    (access c s region K).1.theta? region K' =
      if K' = K then some (thetaSeen c s region K) else (entryOf c s region).lookup K' := by
  rw [theta?, lookup_access, if_pos rfl, Option.bind_some, lookup_touch]
  rfl

theorem discountMap_access (region : RegionKey) (K : Nat) :
    (access c s region K).1.regionDiscountMap = (lazyInitRegion c s region).regionDiscountMap := by
  unfold access subscript
  dsimp only
  split <;> rfl

/-- Reading a threshold does not change what the next reads of its region see. -/
theorem thetaSeen_access (region : RegionKey) (K K' : Nat) :
    thetaSeen c (access c s region K).1 region K' = thetaSeen c s region K' := by
  rw [thetaSeen, entryOf, lookup_access, if_pos rfl, Option.getD_some, lookup_touch]
  split_ifs with hK
  · rw [hK]
    rfl
  · rfl

/-! ## The hit test -/

theorem kthDistance_replicate {K : Nat} (hK : K ≠ 0) (d : Double) :
    kthDistance (List.replicate K d) K = d := by
  have hlt : K - 1 < K := by omega
  simp [kthDistance, List.getD_eq_getElem?_getD, hlt]

theorem isHit_fst (query : V) (K : Nat) (distances : Option (List Double)) (num : Nat)
    (dev : ℚ) :
    (isHit c s query K distances num dev).1 = s ∨
      (isHit c s query K distances num dev).1 = (access c s (c.computeRegionKey query) K).1 := by
  unfold isHit access
  cases distances with
  | none => exact Or.inl rfl
  | some ds =>
    by_cases hguard : num < K ∨ K = 0
    · exact Or.inl (by simp [hguard])
    · refine Or.inr ?_
      simp only [hguard, if_false]
      split_ifs <;> rfl

/-- The comparisons of a hit test with a threshold `theta`, from the states
    before and after it was read. -/
theorem hitTest_iff {S : Type} {before after : S} {metric : Metric} {theta : Double} {K num : Nat}
    {dev : ℚ} {distances : Option (List Double)} :
    (distances.elim (before, false) fun ds =>
        if num < K ∨ K = 0 then (before, false)
        else if isUninitializedTheta metric theta then (after, false)
        else (after, decide (kthDistance ds K ≤ (1 + dev) * theta))).2 = true ↔
      ∃ ds, distances = some ds ∧ K ≤ num ∧ K ≠ 0 ∧ isUninitializedTheta metric theta = false ∧
        kthDistance ds K ≤ (1 + dev) * theta := by
  cases distances with
  | none => simp
  | some ds =>
    rw [Option.elim_some]
    by_cases hguard : num < K ∨ K = 0
    · simp only [hguard, if_true, Bool.false_eq_true, false_iff]
      rintro ⟨_, _, hnum, hK, _⟩
      rcases hguard with h | h
      · exact absurd hnum (Nat.not_le.mpr h)
      · exact hK h
    · obtain ⟨hnum, hK⟩ := not_or.mp hguard
      rw [if_neg hguard]
      simp only [Option.some.injEq, exists_eq_left', Nat.not_lt.mp hnum, hK, ne_eq,
        not_false_eq_true, true_and]
      split_ifs with hun
      · simp [hun]
      · simp [Bool.eq_false_iff.mpr hun]

/-- The hit test accepts exactly when the threshold read for K is learned and
    the K-th distance is within its tolerance. -/
theorem isHit_snd_iff {query : V} {K : Nat} {distances : Option (List Double)} {num : Nat}
    {dev : ℚ} :
    (isHit c s query K distances num dev).2 = true ↔
      ∃ ds, distances = some ds ∧ K ≤ num ∧ K ≠ 0 ∧
        isUninitializedTheta c.metric (thetaSeen c s (c.computeRegionKey query) K) = false ∧
        kthDistance ds K ≤ (1 + dev) * thetaSeen c s (c.computeRegionKey query) K := by
  rw [← access_snd, ← hitTest_iff]
  unfold isHit access
  cases distances <;> rfl

/-! ## Learning a threshold -/

theorem lookup_updateTheta (query : V) (K : Nat) (d : Double) (p : ℚ) (r : RegionKey) :
    (updateTheta c s query K d p).regionThetaMap.lookup r =
      if r = c.computeRegionKey query then
        some ((touch (entryOf c s r) K).insert K
          (movedTheta c.metric (thetaSeen c s r K) d p))
      else if evictee c s (c.computeRegionKey query) = some r then none
      else s.regionThetaMap.lookup r := by
  have hstore : (updateTheta c s query K d p).regionThetaMap =
      ((access c s (c.computeRegionKey query) K).1.storeTheta (c.computeRegionKey query) K
        (movedTheta c.metric (access c s (c.computeRegionKey query) K).2 d p)).regionThetaMap :=
    rfl
  rw [hstore, storeTheta, Table.lookup_insert_eq, lookup_access, lookup_access, access_snd,
    if_pos rfl, Option.getD_some]
  split_ifs with hr
  · rw [hr]
  · rfl
  · rfl

theorem theta?_updateTheta_self (query : V) (K : Nat) (d : Double) (p : ℚ) :
    (updateTheta c s query K d p).theta? (c.computeRegionKey query) K =
      some (movedTheta c.metric (thetaSeen c s (c.computeRegionKey query) K) d p) := by
  rw [theta?, lookup_updateTheta, if_pos rfl, Option.bind_some, Table.lookup_insert_eq,
    if_pos rfl]

/-- An update of K leaves the other thresholds of its region as they were. -/
theorem theta?_updateTheta_other (query : V) {K K' : Nat} (d : Double) (p : ℚ) (hK : K' ≠ K) :
    (updateTheta c s query K d p).theta? (c.computeRegionKey query) K' =
      (entryOf c s (c.computeRegionKey query)).lookup K' := by
  rw [theta?, lookup_updateTheta, if_pos rfl, Option.bind_some, Table.lookup_insert_eq,
    if_neg hK, lookup_touch, if_neg hK]

/-- An update resets the discount of its region, whatever it was. -/
theorem discount_updateTheta (query : V) (K : Nat) (d : Double) (p : ℚ) (r : RegionKey) :
    (updateTheta c s query K d p).discount r =
      if r = c.computeRegionKey query then 1
      else if evictee c s (c.computeRegionKey query) = some r then 1
      else s.discount r := by
  have hdisc : (updateTheta c s query K d p).regionDiscountMap =
      (access c s (c.computeRegionKey query) K).1.regionDiscountMap.insert
        (c.computeRegionKey query) 1 := rfl
  rw [discount, hdisc, Table.lookup_insert_eq, discountMap_access,
    lookup_discount_lazyInitRegion]
  unfold discount
  split_ifs <;> rfl

/-! ## The write penalty -/

/-- A write with discount `alpha` lowers the region when it visits it. -/
def Lowered (c : PcaConfig V) (s : PcaUtils) (region : RegionKey) (alpha : ℚ) : Prop :=
  Live c s region ∧ alpha < s.discount region

/-- What a lowering write does to one threshold. -/
def scaleLive (metric : Metric) (alpha : ℚ) (theta : Double) : Double :=
  if isUninitializedTheta metric theta then theta else alpha * theta

theorem scaleLive_zero (metric : Metric) (alpha : ℚ) : scaleLive metric alpha 0 = 0 := by
  unfold scaleLive
  rw [Double.zero_def, Double.mul_fin, mul_zero, ite_self]

theorem tightenOne_of_not_lowered {fine : RegionKey} {alpha : ℚ}
    (h : ¬ Lowered c s fine alpha) : tightenOneRegionLocked c s fine alpha = (s, 0) := by
  unfold tightenOneRegionLocked
  cases hlook : s.regionThetaMap.lookup fine with
  | none => rfl
  | some entry =>
    by_cases hlive : entryHasLiveTheta c.metric entry = true
    · have hle : s.discount fine ≤ alpha := by
        by_contra hlt
        exact h ⟨⟨entry, hlook, hlive⟩, not_le.mp hlt⟩
      simp [hlive, hle]
    · simp [Bool.eq_false_iff.mpr hlive]

theorem lookup_tightenOne_of_lowered {fine : RegionKey} {alpha : ℚ}
    (h : Lowered c s fine alpha) (r : RegionKey) :
    (tightenOneRegionLocked c s fine alpha).1.regionThetaMap.lookup r =
      if r = fine then
        (s.regionThetaMap.lookup r).map fun entry => entry.mapVals (scaleLive c.metric alpha)
      else s.regionThetaMap.lookup r := by
  obtain ⟨⟨entry, hlook, hlive⟩, hlt⟩ := h
  unfold tightenOneRegionLocked
  simp only [hlook, hlive, Bool.not_true, Bool.false_eq_true, if_false, not_le.mpr hlt,
    Table.lookup_insert_eq]
  split_ifs with hr
  · rw [hr, hlook]
    rfl
  · rfl

theorem lookup_discount_tightenOne_of_lowered {fine : RegionKey} {alpha : ℚ}
    (h : Lowered c s fine alpha) (r : RegionKey) :
    (tightenOneRegionLocked c s fine alpha).1.regionDiscountMap.lookup r =
      if r = fine then some alpha else s.regionDiscountMap.lookup r := by
  obtain ⟨⟨entry, hlook, hlive⟩, hlt⟩ := h
  have hdisc : (tightenOneRegionLocked c s fine alpha).1.regionDiscountMap =
      s.regionDiscountMap.insert fine alpha := by
    unfold tightenOneRegionLocked
    simp [hlook, hlive, not_le.mpr hlt]
  rw [hdisc, Table.lookup_insert_eq]

/-- What is read for a region depends on its table only. -/
theorem thetaSeen_congr {s' : PcaUtils} {r : RegionKey}
    (h : s'.regionThetaMap.lookup r = s.regionThetaMap.lookup r) (K : Nat) :
    thetaSeen c s' r K = thetaSeen c s r K := by
  unfold thetaSeen entryOf
  rw [h]

/-- An update of K changes nothing that is read of its region for another K. -/
theorem thetaSeen_updateTheta_other (query : V) {K K' : Nat} (d : Double) (p : ℚ) (hK : K' ≠ K) :
    thetaSeen c (updateTheta c s query K d p) (c.computeRegionKey query) K' =
      thetaSeen c s (c.computeRegionKey query) K' := by
  rw [thetaSeen, entryOf, lookup_updateTheta, if_pos rfl, Option.getD_some, Table.lookup_insert_eq,
    if_neg hK, lookup_touch, if_neg hK]
  rfl

/-- What is read for a region whose table was scaled. -/
theorem thetaSeen_scaled {s' : PcaUtils} {r : RegionKey} {alpha : ℚ} (hlive : Live c s r)
    (h : s'.regionThetaMap.lookup r =
      (s.regionThetaMap.lookup r).map fun entry => entry.mapVals (scaleLive c.metric alpha))
    (K : Nat) : thetaSeen c s' r K = scaleLive c.metric alpha (thetaSeen c s r K) := by
  obtain ⟨entry, hentry, _⟩ := hlive
  unfold thetaSeen entryOf
  rw [h, hentry, Option.map_some, Option.getD_some, Option.getD_some, Table.lookup_mapVals]
  cases entry.lookup K with
  | none => exact (scaleLive_zero c.metric alpha).symm
  | some theta => rfl

/-- Visit the regions in order, as the recursion over the L1 ball does. -/
def tightenAll (c : PcaConfig V) (s : PcaUtils) (keys : List RegionKey) (alpha : ℚ) : PcaUtils :=
  keys.foldl (fun s key => (tightenOneRegionLocked c s key alpha).1) s

/-- The effect of a write on a region: scaled once if it is visited and
    lowered, however often it is visited, and untouched otherwise. -/
theorem tightenAll_lookup (keys : List RegionKey) (alpha : ℚ) (r : RegionKey) :
    (r ∈ keys ∧ Lowered c s r alpha ∧
      (tightenAll c s keys alpha).regionThetaMap.lookup r =
        (s.regionThetaMap.lookup r).map (fun entry => entry.mapVals (scaleLive c.metric alpha)) ∧
      (tightenAll c s keys alpha).regionDiscountMap.lookup r = some alpha) ∨
    (¬ (r ∈ keys ∧ Lowered c s r alpha) ∧
      (tightenAll c s keys alpha).regionThetaMap.lookup r = s.regionThetaMap.lookup r ∧
      (tightenAll c s keys alpha).regionDiscountMap.lookup r = s.regionDiscountMap.lookup r) := by
  induction keys generalizing s with
  | nil => exact Or.inr ⟨by simp, rfl, rfl⟩
  | cons key rest ih =>
    have hfold : tightenAll c s (key :: rest) alpha =
        tightenAll c (tightenOneRegionLocked c s key alpha).1 rest alpha := rfl
    rw [hfold]
    by_cases hkey : Lowered c s key alpha
    · have hlook := lookup_tightenOne_of_lowered hkey r
      have hdisc := lookup_discount_tightenOne_of_lowered hkey r
      by_cases hr : r = key
      · subst hr
        rw [if_pos rfl] at hlook hdisc
        -- the discount is `alpha` now, so a second visit does nothing
        have hdone : ¬ Lowered c (tightenOneRegionLocked c s r alpha).1 r alpha := by
          rintro ⟨_, hlt⟩
          rw [discount, hdisc] at hlt
          exact lt_irrefl _ hlt
        rcases ih (s := (tightenOneRegionLocked c s r alpha).1) with ⟨_, hlow, _⟩ | ⟨_, h1, h2⟩
        · exact absurd hlow hdone
        · exact Or.inl ⟨List.mem_cons_self, hkey, h1.trans hlook, h2.trans hdisc⟩
      · -- the visit of another region changes nothing about this one
        rw [if_neg hr] at hlook hdisc
        have hlow : Lowered c (tightenOneRegionLocked c s key alpha).1 r alpha ↔
            Lowered c s r alpha := by
          unfold Lowered Live discount
          rw [hlook, hdisc]
        rcases ih (s := (tightenOneRegionLocked c s key alpha).1) with
          ⟨hmem, hl, h1, h2⟩ | ⟨hnot, h1, h2⟩
        · exact Or.inl ⟨List.mem_cons_of_mem _ hmem, hlow.mp hl, by rw [h1, hlook], h2⟩
        · refine Or.inr ⟨?_, h1.trans hlook, h2.trans hdisc⟩
          rintro ⟨hmem, hl⟩
          rcases List.mem_cons.mp hmem with h | h
          · exact hr h
          · exact hnot ⟨h, hlow.mpr hl⟩
    · -- the first visit does nothing at all
      rw [tightenOne_of_not_lowered hkey]
      rcases ih (s := s) with ⟨hmem, hl, h1, h2⟩ | ⟨hnot, h1, h2⟩
      · exact Or.inl ⟨List.mem_cons_of_mem _ hmem, hl, h1, h2⟩
      · refine Or.inr ⟨?_, h1, h2⟩
        rintro ⟨hmem, hl⟩
        rcases List.mem_cons.mp hmem with h | h
        · exact hkey (h ▸ hl)
        · exact hnot ⟨h, hl⟩

/-- The same with the discount in force. -/
theorem tightenAll_spec (keys : List RegionKey) (alpha : ℚ) (r : RegionKey) :
    (r ∈ keys ∧ Lowered c s r alpha ∧
      (tightenAll c s keys alpha).regionThetaMap.lookup r =
        (s.regionThetaMap.lookup r).map (fun entry => entry.mapVals (scaleLive c.metric alpha)) ∧
      (tightenAll c s keys alpha).discount r = alpha) ∨
    (¬ (r ∈ keys ∧ Lowered c s r alpha) ∧
      (tightenAll c s keys alpha).regionThetaMap.lookup r = s.regionThetaMap.lookup r ∧
      (tightenAll c s keys alpha).discount r = s.discount r) := by
  unfold discount
  rcases tightenAll_lookup (c := c) (s := s) keys alpha r with ⟨hmem, hlow, hlook, hdisc⟩ | h
  · exact Or.inl ⟨hmem, hlow, hlook, by rw [hdisc, Option.getD_some]⟩
  · exact Or.inr ⟨h.1, h.2.1, by rw [h.2.2]⟩

/-! ## The walk over the L1 ball -/

/-- The codes that the recursion of `tighten_l1_ball_locked` visits, in order,
    and the value it leaves in `cur`. -/
def ballVisits (c : PcaConfig V) (center : RegionKey) :
    Nat → Nat → RegionKey → List RegionKey × RegionKey
  | 0, _, cur => ([cur], cur)
  | rest + 1, left, cur =>
    (overDeltas c center (center.length - (rest + 1)) left (fun b left' v =>
      (ballVisits c center rest left' (v.2.set (center.length - (rest + 1)) b)).map (v.1 ++ ·) id)
      ([], cur)).map id fun cur => cur.set (center.length - (rest + 1))
        (center.getD (center.length - (rest + 1)) 0)

/-- The regions a write with radius `radius` around `center` visits. -/
def visited (c : PcaConfig V) (radius : Nat) (center : RegionKey) : List RegionKey :=
  (ballVisits c center center.length radius center).1

/-- The loop over delta keeps a relation that its body keeps. -/
theorem overDeltas_rel {α β : Type} (center : RegionKey) (dimI left : Nat)
    (f : UInt8 → Nat → α → α) (g : UInt8 → Nat → β → β) (R : α → β → Prop)
    (hbody : ∀ b left' x y, R x y → R (f b left' x) (g b left' y)) {a : α} {b : β} (h : R a b) :
    R (overDeltas c center dimI left f a) (overDeltas c center dimI left g b) := by
  unfold overDeltas
  refine List.foldl_rel h ?_
  intro delta _ x y hxy
  cases shifted c center dimI delta with
  | none => exact hxy
  | some code => exact hbody _ _ _ _ hxy

/-- `tighten_one_region_locked` on the store and the count. -/
def tightenVisit (c : PcaConfig V) (alpha : ℚ) (fine : RegionKey) (a : PcaUtils × Nat) :
    PcaUtils × Nat :=
  let r := tightenOneRegionLocked c a.1 fine alpha
  (r.1, a.2 + r.2)

theorem foldl_tightenVisit_fst {alpha : ℚ} (codes : List RegionKey) (a : PcaUtils × Nat) :
    (codes.foldl (fun a key => tightenVisit c alpha key a) a).1 = tightenAll c a.1 codes alpha := by
  induction codes generalizing a with
  | nil => rfl
  | cons key rest ih => exact ih _

/-- The recursion over the ball visits the codes of `ballVisits` one by one. -/
theorem tightenL1Ball_eq (center : RegionKey) (alpha : ℚ) (rest left : Nat) (w : BallWalk) :
    ((tightenL1BallLocked c center alpha rest left w).store,
        (tightenL1BallLocked c center alpha rest left w).n) =
        (ballVisits c center rest left w.cur).1.foldl (fun a key => tightenVisit c alpha key a)
          (w.store, w.n) ∧
      (tightenL1BallLocked c center alpha rest left w).cur =
        (ballVisits c center rest left w.cur).2 := by
  induction rest generalizing left w with
  | zero => exact ⟨rfl, rfl⟩
  | succ rest ih =>
    have hloop := overDeltas_rel (c := c) center (center.length - (rest + 1)) left
      (fun b left' w => tightenL1BallLocked c center alpha rest left'
        { w with cur := w.cur.set (center.length - (rest + 1)) b })
      (fun b left' v =>
        (ballVisits c center rest left' (v.2.set (center.length - (rest + 1)) b)).map (v.1 ++ ·) id)
      (fun (w' : BallWalk) (v : List RegionKey × RegionKey) =>
        (w'.store, w'.n) = v.1.foldl (fun a key => tightenVisit c alpha key a) (w.store, w.n) ∧
          w'.cur = v.2)
      (by
        rintro b left' w' v ⟨hstore, hcur⟩
        obtain ⟨h1, h2⟩ := ih left' { w' with cur := w'.cur.set (center.length - (rest + 1)) b }
        rw [Prod.map_fst, Prod.map_snd, List.foldl_append, ← hstore, ← hcur]
        exact ⟨h1, h2⟩)
      (a := w) (b := ([], w.cur)) ⟨rfl, rfl⟩
    obtain ⟨hstore, hcur⟩ := hloop
    rw [tightenL1BallLocked, ballVisits, BallWalk.restore, Prod.map_fst, Prod.map_snd, ← hcur]
    exact ⟨hstore, rfl⟩

/-- A write visits its regions one by one. -/
theorem tightenThetaForVector_eq_foldl (vec : V) (alpha : ℚ) :
    tightenThetaForVector c s vec alpha =
      if 1 ≤ alpha ∨ alpha ≤ 0 then (s, 0)
      else (visited c s.writeL1Radius (c.computeRegionKey vec)).foldl
        (fun a key => tightenVisit c alpha key a) (s, 0) := by
  unfold tightenThetaForVector visited
  split_ifs with hguard
  · rfl
  · exact (tightenL1Ball_eq _ _ _ _ _).1

/-- The guard of a write lets the discounts between 0 and 1 through. -/
theorem not_guarded_iff {alpha : ℚ} : ¬ (1 ≤ alpha ∨ alpha ≤ 0) ↔ 0 < alpha ∧ alpha < 1 := by
  rw [not_or, not_le, not_le, and_comm]

/-- A write scales exactly the regions it visits. -/
theorem tightenThetaForVector_eq (vec : V) (alpha : ℚ) :
    (tightenThetaForVector c s vec alpha).1 =
      if 1 ≤ alpha ∨ alpha ≤ 0 then s
      else tightenAll c s (visited c s.writeL1Radius (c.computeRegionKey vec)) alpha := by
  rw [tightenThetaForVector_eq_foldl]
  split_ifs with hguard
  · rfl
  · exact foldl_tightenVisit_fst _ _

/-- A write scales what is read for the regions it lowers, and nothing else. -/
theorem thetaSeen_tighten (vec : V) (alpha : ℚ) (r : RegionKey) (K : Nat) :
    (0 < alpha ∧ alpha < 1 ∧ r ∈ visited c s.writeL1Radius (c.computeRegionKey vec) ∧
        Lowered c s r alpha ∧
        thetaSeen c (tightenThetaForVector c s vec alpha).1 r K =
          scaleLive c.metric alpha (thetaSeen c s r K)) ∨
      ¬ (0 < alpha ∧ alpha < 1 ∧ r ∈ visited c s.writeL1Radius (c.computeRegionKey vec) ∧
        Lowered c s r alpha) ∧
        thetaSeen c (tightenThetaForVector c s vec alpha).1 r K = thetaSeen c s r K := by
  rw [tightenThetaForVector_eq]
  split_ifs with hguard
  · refine Or.inr ⟨fun h => ?_, rfl⟩
    exact not_guarded_iff.mpr ⟨h.1, h.2.1⟩ hguard
  · have halpha := not_guarded_iff.mp hguard
    rcases tightenAll_spec (c := c) (s := s)
      (visited c s.writeL1Radius (c.computeRegionKey vec)) alpha r with
      ⟨hvisited, hlowered, hlook, _⟩ | ⟨hnot, hlook, _⟩
    · exact Or.inl ⟨halpha.1, halpha.2, hvisited, hlowered, thetaSeen_scaled hlowered.1 hlook K⟩
    · exact Or.inr ⟨fun h => hnot ⟨h.2.2.1, h.2.2.2⟩, thetaSeen_congr hlook K⟩

end PcaUtils

end QvCache
