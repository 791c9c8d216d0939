/-
  QvCache.Theta.Turnover

  How regions come and go.  The store keeps three containers in step: the
  thresholds, the discounts, and the order of creation.  Every call first
  opens at most one region (`lazy_init_region`) and then only rewrites values
  of regions that exist, so what there is to show about membership is shown
  once, for `lazyInitRegion`.
-/

import QvCache.Theta.History

namespace QvCache

open PcaUtils

/-- The public calls of `PCAUtils` on its containers. -/
inductive RegionOp (V : Type) where
  | theta (op : ThetaOp V)
  | invalidateTheta (vec : V)

variable {V : Type} {c : PcaConfig V} {s : PcaUtils}

namespace RegionOp

def apply (c : PcaConfig V) (s : PcaUtils) : RegionOp V → PcaUtils
  | .theta op => op.apply c s
  | .invalidateTheta vec => PcaUtils.invalidateTheta c s vec

/-- The region a call opens, creating it if it is missing. -/
def opens (c : PcaConfig V) : RegionOp V → Option RegionKey
  | .theta (.isHit query K (some _) num _) =>
    if num < K ∨ K = 0 then none else some (c.computeRegionKey query)
  | .theta (.updateTheta query _ _ _) => some (c.computeRegionKey query)
  | _ => none

/-- The store once the region of the call is open. -/
def opened (c : PcaConfig V) (s : PcaUtils) (op : RegionOp V) : PcaUtils :=
  (op.opens c).elim s (lazyInitRegion c s)

end RegionOp

/-! ## Containers in step -/

/-- The three containers speak of the same regions. -/
structure InStep (c : PcaConfig V) (s : PcaUtils) : Prop where
  nodup : s.regionInsertionOrder.Nodup
  order : ∀ r, r ∈ s.regionInsertionOrder ↔ r ∈ s.regionThetaMap
  discounts : ∀ r, r ∈ s.regionDiscountMap → r ∈ s.regionThetaMap
  size : s.regionThetaMap.size ≤ max 1 c.maxRegions

theorem inStep_empty (radius : Nat) : InStep c (PcaUtils.empty radius) where
  nodup := List.nodup_nil
  order r := by
    show r ∈ [] ↔ r ∈ (∅ : Table RegionKey ThetaEntry)
    simp
  discounts r h := by
    have hempty : r ∉ (∅ : Table RegionKey ℚ) := AList.notMem_empty r
    exact absurd h hempty
  size := Nat.zero_le _

/-- The order lists each region of the map once. -/
theorem size_eq_length (hnodup : s.regionInsertionOrder.Nodup)
    (horder : ∀ r, r ∈ s.regionInsertionOrder ↔ r ∈ s.regionThetaMap) :
    s.regionThetaMap.size = s.regionInsertionOrder.length := by
  have hperm : s.regionThetaMap.keys.Perm s.regionInsertionOrder := by
    rw [List.perm_ext_iff_of_nodup s.regionThetaMap.keys_nodup hnodup]
    intro r
    exact (horder r).symm
  rw [Table.size_eq_length_keys, hperm.length_eq]

/-- `s'` differs from `s` at most in the values stored for the regions of `s`. -/
structure Steady (s s' : PcaUtils) : Prop where
  order : s'.regionInsertionOrder = s.regionInsertionOrder
  regions : ∀ r, r ∈ s'.regionThetaMap ↔ r ∈ s.regionThetaMap
  discounts : ∀ r, r ∈ s'.regionDiscountMap → r ∈ s.regionDiscountMap ∨ r ∈ s.regionThetaMap

theorem Steady.refl (s : PcaUtils) : Steady s s := ⟨rfl, fun _ => Iff.rfl, fun _ => Or.inl⟩

theorem Steady.trans {s₁ s₂ s₃ : PcaUtils} (h : Steady s₁ s₂) (h' : Steady s₂ s₃) :
    Steady s₁ s₃ where
  order := h'.order.trans h.order
  regions r := (h'.regions r).trans (h.regions r)
  discounts r hr := by
    rcases h'.discounts r hr with hr | hr
    · exact h.discounts r hr
    · exact Or.inr ((h.regions r).mp hr)

/-- Rewriting values keeps the containers in step. -/
theorem InStep.of_steady {s' : PcaUtils} (hs : InStep c s) (h : Steady s s') : InStep c s' := by
  have hnodup : s'.regionInsertionOrder.Nodup := h.order ▸ hs.nodup
  have horder : ∀ r, r ∈ s'.regionInsertionOrder ↔ r ∈ s'.regionThetaMap := by
    intro r
    rw [h.order, h.regions]
    exact hs.order r
  refine ⟨hnodup, horder, ?_, ?_⟩
  · intro r hr
    rcases h.discounts r hr with hr | hr
    · exact (h.regions r).mpr (hs.discounts r hr)
    · exact (h.regions r).mpr hr
  · rw [size_eq_length hnodup horder, h.order, ← size_eq_length hs.nodup hs.order]
    exact hs.size

/-! ## Opening a region -/

/-- What is left of the order when there is no room for a new region. -/
def keptOrder (c : PcaConfig V) (s : PcaUtils) : List RegionKey :=
  if c.maxRegions ≤ s.regionThetaMap.size then s.regionInsertionOrder.tail
  else s.regionInsertionOrder

theorem lazyInitRegion_of_mem {key : RegionKey} (h : key ∈ s.regionThetaMap) :
    lazyInitRegion c s key = s := by
  unfold lazyInitRegion
  rw [if_pos (AList.lookup_isSome.mpr h)]

theorem order_lazyInitRegion {key : RegionKey} (h : key ∉ s.regionThetaMap) :
    (lazyInitRegion c s key).regionInsertionOrder = keptOrder c s ++ [key] := by
  have hnone : ¬ (s.regionThetaMap.lookup key).isSome := fun hsome => h (AList.lookup_isSome.mp hsome)
  unfold lazyInitRegion keptOrder
  rw [if_neg hnone]
  cases horder : s.regionInsertionOrder with
  | nil => simp [horder]
  | cons oldest rest =>
    dsimp only
    split_ifs
    · rfl
    · rw [horder]

theorem evictee_of_notMem {key : RegionKey} (h : key ∉ s.regionThetaMap) :
    evictee c s key =
      if c.maxRegions ≤ s.regionThetaMap.size then s.regionInsertionOrder.head? else none := by
  have hnone : ¬ (s.regionThetaMap.lookup key).isSome := fun hsome => h (AList.lookup_isSome.mp hsome)
  rw [evictee, if_neg hnone]

/-- The order loses exactly the region that is dropped. -/
theorem mem_keptOrder {key : RegionKey} (hs : InStep c s) (h : key ∉ s.regionThetaMap)
    (r : RegionKey) :
    r ∈ keptOrder c s ↔ evictee c s key ≠ some r ∧ r ∈ s.regionThetaMap := by
  rw [evictee_of_notMem h, ← hs.order, keptOrder]
  split_ifs with hfull
  · have hnodup := hs.nodup
    cases horder : s.regionInsertionOrder with
    | nil => simp
    | cons oldest rest =>
      rw [horder] at hnodup
      have hnot : oldest ∉ rest := (List.nodup_cons.mp hnodup).1
      simp only [List.tail_cons, List.head?_cons, ne_eq, Option.some.injEq, List.mem_cons]
      constructor
      · intro hr
        exact ⟨fun heq => hnot (heq ▸ hr), Or.inr hr⟩
      · rintro ⟨hne, heq | hr⟩
        · exact absurd heq.symm hne
        · exact hr
  · simp

theorem mem_lazyInitRegion (key r : RegionKey) :
    r ∈ (lazyInitRegion c s key).regionThetaMap ↔
      r = key ∨ (evictee c s key ≠ some r ∧ r ∈ s.regionThetaMap) := by
  rw [← AList.lookup_isSome, lookup_lazyInitRegion, ← AList.lookup_isSome]
  split_ifs with hkey hdrop <;> simp_all

theorem mem_discount_lazyInitRegion (key r : RegionKey) :
    r ∈ (lazyInitRegion c s key).regionDiscountMap ↔
      evictee c s key ≠ some r ∧ r ∈ s.regionDiscountMap := by
  rw [← AList.lookup_isSome, lookup_discount_lazyInitRegion, ← AList.lookup_isSome]
  split_ifs with hdrop <;> simp_all

/-- There is room for the new region, if only by dropping the oldest. -/
theorem length_keptOrder (hs : InStep c s) : (keptOrder c s).length + 1 ≤ max 1 c.maxRegions := by
  have hsize := hs.size
  have hlength := size_eq_length hs.nodup hs.order
  unfold keptOrder
  split_ifs with hfull
  · rw [List.length_tail]
    omega
  · omega

theorem InStep.lazyInitRegion (hs : InStep c s) (key : RegionKey) :
    InStep c (lazyInitRegion c s key) := by
  by_cases hkey : key ∈ s.regionThetaMap
  · rw [lazyInitRegion_of_mem hkey]
    exact hs
  · have hkept := mem_keptOrder hs hkey
    have hnodup : (PcaUtils.lazyInitRegion c s key).regionInsertionOrder.Nodup := by
      have hsub : (keptOrder c s).Nodup := by
        unfold keptOrder
        split_ifs
        · exact hs.nodup.tail
        · exact hs.nodup
      rw [order_lazyInitRegion hkey, List.nodup_append]
      refine ⟨hsub, List.nodup_singleton key, ?_⟩
      rintro r hr r' hr' rfl
      -- a region that is kept exists, the new one does not
      exact hkey (List.mem_singleton.mp hr' ▸ ((hkept r).mp hr).2)
    have horder : ∀ r, r ∈ (PcaUtils.lazyInitRegion c s key).regionInsertionOrder ↔
        r ∈ (PcaUtils.lazyInitRegion c s key).regionThetaMap := by
      intro r
      rw [order_lazyInitRegion hkey, List.mem_append, List.mem_singleton, hkept,
        mem_lazyInitRegion, or_comm]
    refine ⟨hnodup, horder, ?_, ?_⟩
    · intro r hr
      obtain ⟨hne, hmem⟩ := (mem_discount_lazyInitRegion key r).mp hr
      exact (mem_lazyInitRegion key r).mpr (Or.inr ⟨hne, hs.discounts r hmem⟩)
    · rw [size_eq_length hnodup horder, order_lazyInitRegion hkey, List.length_append]
      exact length_keptOrder hs

/-! ## The calls -/

theorem steady_subscript {region : RegionKey} (h : region ∈ s.regionThetaMap) (K : Nat) :
    Steady s (s.subscript region K).1 := by
  unfold subscript
  dsimp only
  split
  · exact Steady.refl s
  · exact ⟨rfl, fun r => Table.mem_insert_of_mem h _ r, fun _ => Or.inl⟩

theorem steady_storeTheta {region : RegionKey} (h : region ∈ s.regionThetaMap) (K : Nat)
    (theta : Double) : Steady s (s.storeTheta region K theta) :=
  ⟨rfl, fun r => Table.mem_insert_of_mem h _ r, fun _ => Or.inl⟩

/-- A discount may be stored for a region that exists. -/
theorem steady_setDiscount {region : RegionKey} (h : region ∈ s.regionThetaMap) (alpha : ℚ) :
    Steady s { s with regionDiscountMap := s.regionDiscountMap.insert region alpha } := by
  refine ⟨rfl, fun _ => Iff.rfl, fun r hr => ?_⟩
  rcases (AList.mem_insert _).mp hr with rfl | hr
  · exact Or.inr h
  · exact Or.inl hr

theorem steady_tightenOne (fine : RegionKey) (alpha : ℚ) :
    Steady s (tightenOneRegionLocked c s fine alpha).1 := by
  by_cases hlow : Lowered c s fine alpha
  · obtain ⟨⟨entry, hlook, hlive⟩, hlt⟩ := hlow
    have hmem : fine ∈ s.regionThetaMap := by
      rw [← AList.lookup_isSome, hlook]
      rfl
    unfold tightenOneRegionLocked
    simp only [hlook, hlive, Bool.not_true, Bool.false_eq_true, if_false, not_le.mpr hlt]
    refine ⟨rfl, fun r => Table.mem_insert_of_mem hmem _ r, ?_⟩
    exact (steady_setDiscount hmem alpha).discounts
  · rw [tightenOne_of_not_lowered hlow]
    exact Steady.refl s

theorem steady_tightenAll (keys : List RegionKey) (alpha : ℚ) :
    Steady s (tightenAll c s keys alpha) := by
  induction keys generalizing s with
  | nil => exact Steady.refl s
  | cons key rest ih => exact (steady_tightenOne key alpha).trans ih

theorem steady_invalidateTheta (vec : V) : Steady s (invalidateTheta c s vec) := by
  unfold invalidateTheta
  cases hlook : s.regionThetaMap.lookup (c.computeRegionKey vec) with
  | none =>
    simp only [hlook]
    exact Steady.refl s
  | some entry =>
    simp only [hlook]
    have hmem : c.computeRegionKey vec ∈ s.regionThetaMap := by
      rw [← AList.lookup_isSome, hlook]
      rfl
    refine ⟨rfl, fun r => Table.mem_insert_of_mem hmem _ r, ?_⟩
    exact (steady_setDiscount hmem 1).discounts

/-- Once its region is open, a call only rewrites values. -/
theorem steady_apply (op : RegionOp V) : Steady (op.opened c s) (op.apply c s) := by
  have hopen : ∀ key, key ∈ (lazyInitRegion c s key).regionThetaMap := fun key =>
    (mem_lazyInitRegion key key).mpr (Or.inl rfl)
  cases op with
  | invalidateTheta vec => exact steady_invalidateTheta vec
  | theta op =>
    cases op with
    | isHit query K distances num dev =>
      unfold RegionOp.opened RegionOp.apply RegionOp.opens ThetaOp.apply PcaUtils.isHit
      cases distances with
      | none => exact Steady.refl s
      | some ds =>
        dsimp only
        by_cases hguard : num < K ∨ K = 0
        · rw [if_pos hguard, if_pos hguard]
          exact Steady.refl s
        · rw [if_neg hguard, if_neg hguard]
          have hread := steady_subscript (hopen (c.computeRegionKey query)) K
          split_ifs <;> exact hread
    | updateTheta query K d p =>
      have hkey := hopen (c.computeRegionKey query)
      have hread := steady_subscript hkey K
      have hread' := (hread.regions _).mpr hkey
      have hstore := steady_storeTheta hread' K
        (movedTheta c.metric ((lazyInitRegion c s (c.computeRegionKey query)).subscript
          (c.computeRegionKey query) K).2 d p)
      exact (hread.trans hstore).trans (steady_setDiscount ((hstore.regions _).mpr hread') 1)
    | tightenThetaForVector vec alpha =>
      show Steady s (PcaUtils.tightenThetaForVector c s vec alpha).1
      rw [tightenThetaForVector_eq]
      split_ifs
      · exact Steady.refl s
      · exact steady_tightenAll _ alpha
    | setWriteL1Radius radius => exact ⟨rfl, fun _ => Iff.rfl, fun _ => Or.inl⟩

theorem InStep.opened (hs : InStep c s) (op : RegionOp V) : InStep c (op.opened c s) := by
  unfold RegionOp.opened
  cases op.opens c with
  | none => exact hs
  | some key => exact hs.lazyInitRegion key

/-- Every call keeps the containers in step. -/
theorem InStep.apply (hs : InStep c s) (op : RegionOp V) : InStep c (op.apply c s) :=
  (hs.opened op).of_steady (steady_apply op)

/-! ## A call that makes a region -/

/-- The call makes the region. -/
def Makes (c : PcaConfig V) (s : PcaUtils) (op : RegionOp V) (key : RegionKey) : Prop :=
  key ∉ s.regionThetaMap ∧ key ∈ (op.apply c s).regionThetaMap

/-- The thresholds a call leaves in a region it has just made: the fresh table,
    in which the call read its own K and an update stored it. -/
def RegionOp.firstEntry (metric : Metric) : RegionOp V → ThetaEntry
  | .theta (.isHit _ K _ _ _) => touch (freshEntry metric) K
  | .theta (.updateTheta _ K d p) =>
    (touch (freshEntry metric) K).insert K
      (movedTheta metric (((freshEntry metric).lookup K).getD 0) d p)
  | _ => freshEntry metric

/-- The discount it leaves there: none is stored before the first update. -/
def RegionOp.firstDiscount : RegionOp V → Option ℚ
  | .theta (.updateTheta _ _ _ _) => some 1
  | _ => none

/-- The call stores a threshold for `K` itself. -/
def RegionOp.Learns (op : RegionOp V) (K : Nat) : Prop :=
  ∃ query d p, op = .theta (.updateTheta query K d p)

/-- A fresh table after a read: sentinels, and the 0 that `operator[]` puts for
    a K outside `initialKs`. -/
theorem lookup_touch_freshEntry {metric : Metric} {K K' : Nat} {theta : Double}
    (h : (touch (freshEntry metric) K).lookup K' = some theta) :
    isUninitializedTheta metric theta = true ∨ (K' ∉ initialKs ∧ theta = 0) := by
  rw [lookup_touch, lookup_freshEntry, lookup_freshEntry] at h
  split_ifs at h with hK hmem hmem
  · obtain rfl := Option.some.inj h
    exact Or.inl (isUninitialized_uninitialized metric)
  · rw [hK]
    exact Or.inr ⟨hmem, (Option.some.inj h).symm⟩
  · obtain rfl := Option.some.inj h
    exact Or.inl (isUninitialized_uninitialized metric)

/-- Whatever a new region has learned, this call has taught it. -/
theorem lookup_firstEntry {metric : Metric} {op : RegionOp V} {K : Nat} {theta : Double}
    (h : (op.firstEntry metric).lookup K = some theta) :
    isUninitializedTheta metric theta = true ∨ (K ∉ initialKs ∧ theta = 0) ∨ op.Learns K := by
  have hfresh : (freshEntry metric).lookup K = some theta →
      isUninitializedTheta metric theta = true := by
    intro hlook
    rw [lookup_freshEntry] at hlook
    split_ifs at hlook
    obtain rfl := Option.some.inj hlook
    exact isUninitialized_uninitialized metric
  cases op with
  | invalidateTheta vec => exact Or.inl (hfresh h)
  | theta op =>
    cases op with
    | isHit query K' distances num dev =>
      rcases lookup_touch_freshEntry h with hun | hzero
      · exact Or.inl hun
      · exact Or.inr (Or.inl hzero)
    | updateTheta query K' d p =>
      by_cases hK : K = K'
      · exact Or.inr (Or.inr ⟨query, d, p, by rw [hK]⟩)
      · have hlook : (touch (freshEntry metric) K').lookup K = some theta := by
          rw [RegionOp.firstEntry, Table.lookup_insert_eq, if_neg hK] at h
          exact h
        rcases lookup_touch_freshEntry hlook with hun | hzero
        · exact Or.inl hun
        · exact Or.inr (Or.inl hzero)
    | tightenThetaForVector vec alpha => exact Or.inl (hfresh h)
    | setWriteL1Radius radius => exact Or.inl (hfresh h)

/-- Only the region that the call opens can be made by it. -/
theorem opens_of_makes {op : RegionOp V} {key : RegionKey} (h : Makes c s op key) :
    op.opens c = some key := by
  obtain ⟨hnot, hmem⟩ := h
  rw [(steady_apply op).regions] at hmem
  unfold RegionOp.opened at hmem
  cases hopens : op.opens c with
  | none =>
    rw [hopens] at hmem
    exact absurd hmem hnot
  | some region =>
    rw [hopens] at hmem
    rcases (mem_lazyInitRegion region key).mp hmem with rfl | ⟨_, hmem⟩
    · rfl
    · exact absurd hmem hnot

/-- A region can only go when another one is made. -/
theorem makes_of_removed {op : RegionOp V} {r : RegionKey} (hmem : r ∈ s.regionThetaMap)
    (hnot : r ∉ (op.apply c s).regionThetaMap) :
    ∃ key, Makes c s op key ∧ evictee c s key = some r := by
  rw [(steady_apply op).regions] at hnot
  unfold RegionOp.opened at hnot
  cases hopens : op.opens c with
  | none =>
    rw [hopens] at hnot
    exact absurd hmem hnot
  | some key =>
    rw [hopens] at hnot
    have hdrop : evictee c s key = some r := by
      by_contra hne
      exact hnot ((mem_lazyInitRegion key r).mpr (Or.inr ⟨hne, hmem⟩))
    refine ⟨key, ⟨?_, ?_⟩, hdrop⟩
    · exact AList.lookup_eq_none.mp (lookup_of_evictee hdrop)
    · rw [(steady_apply op).regions]
      unfold RegionOp.opened
      rw [hopens]
      exact (mem_lazyInitRegion key key).mpr (Or.inl rfl)

/-- A call that opens a region reads one of its thresholds, or stores one. -/
theorem apply_of_opens {op : RegionOp V} {key : RegionKey} (h : op.opens c = some key) :
    (∃ K, op.apply c s = (access c s key K).1 ∧
      op.firstEntry c.metric = touch (freshEntry c.metric) K ∧ op.firstDiscount = none) ∨
    ∃ query K d p, op = .theta (.updateTheta query K d p) ∧ key = c.computeRegionKey query := by
  cases op with
  | invalidateTheta vec => cases h
  | theta op =>
    cases op with
    | isHit query K distances num dev =>
      cases distances with
      | none => cases h
      | some ds =>
        by_cases hguard : num < K ∨ K = 0
        · simp [RegionOp.opens, hguard] at h
        · rw [RegionOp.opens, if_neg hguard] at h
          obtain rfl := Option.some.inj h
          refine Or.inl ⟨K, ?_, rfl, rfl⟩
          show (PcaUtils.isHit c s query K (some ds) num dev).1 = _
          unfold PcaUtils.isHit access
          dsimp only
          rw [if_neg hguard]
          split_ifs <;> rfl
    | updateTheta query K d p => exact Or.inr ⟨query, K, d, p, rfl, (Option.some.inj h).symm⟩
    | tightenThetaForVector vec alpha => cases h
    | setWriteL1Radius radius => cases h

/-- What a call that opens `key` leaves of the other regions. -/
theorem lookup_apply_of_opens {op : RegionOp V} {key : RegionKey} (h : op.opens c = some key)
    {r : RegionKey} (hr : r ≠ key) :
    (op.apply c s).regionThetaMap.lookup r =
        (if evictee c s key = some r then none else s.regionThetaMap.lookup r) ∧
      (op.apply c s).regionDiscountMap.lookup r =
        if evictee c s key = some r then none else s.regionDiscountMap.lookup r := by
  rcases apply_of_opens (s := s) h with ⟨K, happly, _, _⟩ | ⟨query, K, d, p, rfl, rfl⟩
  · rw [happly, lookup_access, if_neg hr, discountMap_access, lookup_discount_lazyInitRegion]
    exact ⟨rfl, rfl⟩
  · have hdisc : ((RegionOp.theta (.updateTheta query K d p)).apply c s).regionDiscountMap =
        (access c s (c.computeRegionKey query) K).1.regionDiscountMap.insert
          (c.computeRegionKey query) 1 := rfl
    constructor
    · show (updateTheta c s query K d p).regionThetaMap.lookup r = _
      rw [lookup_updateTheta, if_neg hr]
    · rw [hdisc, Table.lookup_insert_eq, if_neg hr, discountMap_access,
        lookup_discount_lazyInitRegion]

/-- What a call leaves in the region it has just made. -/
theorem lookup_apply_of_makes {op : RegionOp V} {key : RegionKey} (hs : InStep c s)
    (h : Makes c s op key) :
    (op.apply c s).regionThetaMap.lookup key = some (op.firstEntry c.metric) ∧
      (op.apply c s).regionDiscountMap.lookup key = op.firstDiscount := by
  have habsent : s.regionThetaMap.lookup key = none := AList.lookup_eq_none.mpr h.1
  have hentry : entryOf c s key = freshEntry c.metric := by
    rw [entryOf, habsent]
    rfl
  -- a discount without a region would have survived
  have hdiscount : s.regionDiscountMap.lookup key = none :=
    AList.lookup_eq_none.mpr fun hmem => h.1 (hs.discounts key hmem)
  rcases apply_of_opens (s := s) (opens_of_makes h) with
    ⟨K, happly, hfirst, hfirst'⟩ | ⟨query, K, d, p, rfl, rfl⟩
  · rw [happly, hfirst, hfirst', lookup_access, if_pos rfl, hentry, discountMap_access,
      lookup_discount_lazyInitRegion, hdiscount, ite_self]
    exact ⟨rfl, rfl⟩
  · have hlook := lookup_updateTheta (c := c) (s := s) query K d p (c.computeRegionKey query)
    rw [if_pos rfl, thetaSeen, hentry] at hlook
    refine ⟨hlook, ?_⟩
    show ((access c s (c.computeRegionKey query) K).1.regionDiscountMap.insert
      (c.computeRegionKey query) 1).lookup _ = _
    rw [Table.lookup_insert_eq, if_pos rfl]
    rfl

/-! ## The order of creation -/

/-- A store and, for each region, the number of the call that made it last. -/
structure Chronicle where
  store : PcaUtils
  clock : Nat
  born : RegionKey → Nat

namespace Chronicle

def init (radius : Nat) : Chronicle := ⟨PcaUtils.empty radius, 0, fun _ => 0⟩

def step (c : PcaConfig V) (t : Chronicle) (op : RegionOp V) : Chronicle where
  store := op.apply c t.store
  clock := t.clock + 1
  born r :=
    if r ∉ t.store.regionThetaMap ∧ r ∈ (op.apply c t.store).regionThetaMap then t.clock
    else t.born r

/-- The calls as a transition system; every one of them is enabled. -/
def next (c : PcaConfig V) (t : Chronicle) (op : RegionOp V) : Option Chronicle :=
  some (t.step c op)

/-- A state some sequence of calls leads to. -/
def Reachable (c : PcaConfig V) (t : Chronicle) : Prop :=
  ∃ radius, Traces.Reachable (next c) (init radius) t

/-- `r` is the region that was made before every other one in the map. -/
def Earliest (t : Chronicle) (r : RegionKey) : Prop :=
  r ∈ t.store.regionThetaMap ∧
    ∀ r' ∈ t.store.regionThetaMap, r' ≠ r → t.born r < t.born r'

/-- The order of insertion is the order of the calls that made the regions. -/
structure Dated (c : PcaConfig V) (t : Chronicle) : Prop where
  inStep : InStep c t.store
  sorted : t.store.regionInsertionOrder.Pairwise fun r r' => t.born r < t.born r'
  past : ∀ r ∈ t.store.regionThetaMap, t.born r < t.clock

variable {t : Chronicle}

theorem dated_init (radius : Nat) : Dated c (init radius) where
  inStep := inStep_empty radius
  sorted := List.Pairwise.nil
  past r h := absurd h (AList.notMem_empty r)

/-- A region that stays keeps its date. -/
theorem born_step_of_mem {op : RegionOp V} {r : RegionKey} (h : r ∈ t.store.regionThetaMap) :
    (t.step c op).born r = t.born r := if_neg fun hmade => hmade.1 h

theorem born_step_of_makes {op : RegionOp V} {key : RegionKey} (h : Makes c t.store op key) :
    (t.step c op).born key = t.clock := if_pos h

/-- The order after a call: nothing new, or one region at the end. -/
theorem order_step (op : RegionOp V) :
    (t.step c op).store.regionInsertionOrder = t.store.regionInsertionOrder ∨
      ∃ key, Makes c t.store op key ∧
        (t.step c op).store.regionInsertionOrder = keptOrder c t.store ++ [key] := by
  have hsteady := steady_apply (c := c) (s := t.store) op
  have horder : (t.step c op).store.regionInsertionOrder =
      (op.opened c t.store).regionInsertionOrder := hsteady.order
  rw [horder]
  have hregions := hsteady.regions
  unfold RegionOp.opened at *
  cases hopens : op.opens c with
  | none => exact Or.inl rfl
  | some key =>
    rw [hopens] at hregions
    by_cases hkey : key ∈ t.store.regionThetaMap
    · refine Or.inl ?_
      rw [Option.elim_some, lazyInitRegion_of_mem hkey]
    · refine Or.inr ⟨key, ⟨hkey, ?_⟩, order_lazyInitRegion hkey⟩
      exact (hregions key).mpr ((mem_lazyInitRegion key key).mpr (Or.inl rfl))

theorem mem_of_mem_keptOrder (ht : Dated c t) {r : RegionKey} (h : r ∈ keptOrder c t.store) :
    r ∈ t.store.regionThetaMap := by
  rw [← ht.inStep.order]
  unfold keptOrder at h
  split_ifs at h
  · exact List.mem_of_mem_tail h
  · exact h

theorem Dated.step (ht : Dated c t) (op : RegionOp V) : Dated c (t.step c op) := by
  have hsorted := ht.sorted
  -- the dates that the sorted order compares are those of regions that stay
  have hdates : ∀ l : List RegionKey, (∀ r ∈ l, r ∈ t.store.regionThetaMap) →
      l.Pairwise (fun r r' => t.born r < t.born r') →
      l.Pairwise fun r r' => (t.step c op).born r < (t.step c op).born r' := by
    intro l hmem hl
    refine hl.imp_of_mem ?_
    intro r r' hr hr' hlt
    rw [born_step_of_mem (hmem r hr), born_step_of_mem (hmem r' hr')]
    exact hlt
  refine ⟨ht.inStep.apply op, ?_, ?_⟩
  · rcases order_step (c := c) (t := t) op with horder | ⟨key, hmakes, horder⟩
    · rw [horder]
      exact hdates _ (fun r hr => (ht.inStep.order r).mp hr) hsorted
    · rw [horder, List.pairwise_append]
      refine ⟨hdates _ (fun r hr => mem_of_mem_keptOrder ht hr) ?_, List.pairwise_singleton _ _, ?_⟩
      · unfold keptOrder
        split_ifs
        · exact hsorted.tail
        · exact hsorted
      · -- the new region is the latest
        intro r hr r' hr'
        obtain rfl := List.mem_singleton.mp hr'
        have hmem := mem_of_mem_keptOrder ht hr
        rw [born_step_of_mem hmem, born_step_of_makes hmakes]
        exact ht.past r hmem
  · intro r hr
    show (t.step c op).born r < t.clock + 1
    by_cases hmem : r ∈ t.store.regionThetaMap
    · rw [born_step_of_mem hmem]
      exact Nat.lt_succ_of_lt (ht.past r hmem)
    · rw [born_step_of_makes ⟨hmem, hr⟩]
      exact Nat.lt_succ_self t.clock

theorem dated_of_reachable (h : Reachable c t) : Dated c t := by
  obtain ⟨radius, h⟩ := h
  refine Traces.reachable_invariant ?_ (dated_init radius) h
  intro t op t' ht hstep
  obtain rfl := Option.some.inj hstep
  exact ht.step op

/-- The region that makes room is the one made first. -/
theorem earliest_of_evictee (ht : Dated c t) {key r : RegionKey}
    (h : evictee c t.store key = some r) : t.Earliest r := by
  have hkey := AList.lookup_eq_none.mp (lookup_of_evictee h)
  rw [evictee_of_notMem hkey] at h
  split_ifs at h
  obtain ⟨rest, horder⟩ := List.head?_eq_some_iff.mp h
  have hsorted := ht.sorted
  rw [horder, List.pairwise_cons] at hsorted
  have hmem := ht.inStep.order
  rw [horder] at hmem
  refine ⟨(hmem r).mp List.mem_cons_self, fun r' hr' hne => ?_⟩
  exact hsorted.1 r' ((List.mem_cons.mp ((hmem r').mpr hr')).resolve_left hne)

/-- A full map that is not empty has a region to drop. -/
theorem exists_evictee (ht : Dated c t) {key : RegionKey} (hkey : key ∉ t.store.regionThetaMap)
    (hpos : 0 < t.store.regionThetaMap.size) (hfull : c.maxRegions ≤ t.store.regionThetaMap.size) :
    ∃ r, evictee c t.store key = some r := by
  rw [evictee_of_notMem hkey, if_pos hfull]
  rw [size_eq_length ht.inStep.nodup ht.inStep.order] at hpos
  cases horder : t.store.regionInsertionOrder with
  | nil =>
    rw [horder] at hpos
    exact absurd hpos (Nat.lt_irrefl 0)
  | cons oldest rest => exact ⟨oldest, rfl⟩

/-! ## What a call does to the regions -/

/-- How regions come and go in one call. -/
structure Turnover (c : PcaConfig V) (t : Chronicle) (op : RegionOp V) : Prop where
  /-- A new region in a full map takes the place of the one made first, and no
      other region notices. -/
  replaces : ∀ key, Makes c t.store op key → 0 < t.store.regionThetaMap.size →
    c.maxRegions ≤ t.store.regionThetaMap.size →
    ∃ oldest, t.Earliest oldest ∧
      (t.step c op).store.regionThetaMap.lookup oldest = none ∧
      (t.step c op).store.regionDiscountMap.lookup oldest = none ∧
      ∀ r ∈ t.store.regionThetaMap, r ≠ oldest →
        (t.step c op).store.regionThetaMap.lookup r = t.store.regionThetaMap.lookup r ∧
          (t.step c op).store.regionDiscountMap.lookup r = t.store.regionDiscountMap.lookup r
  /-- No other call drops a region. -/
  removes : ∀ r ∈ t.store.regionThetaMap, r ∉ (t.step c op).store.regionThetaMap →
    t.Earliest r ∧ 0 < t.store.regionThetaMap.size ∧
      c.maxRegions ≤ t.store.regionThetaMap.size ∧ ∃ key, Makes c t.store op key
  /-- A region starts from the table of sentinels and without a discount. -/
  starts : ∀ key, Makes c t.store op key →
    (lazyInitRegion c t.store key).regionThetaMap.lookup key = some (freshEntry c.metric) ∧
      entryHasLiveTheta c.metric (freshEntry c.metric) = false ∧
      (lazyInitRegion c t.store key).regionDiscountMap.lookup key = none
  /-- What the call that makes a region leaves in it does not depend on the past:
      the only threshold that is learned is the one this call stores. -/
  leaves : ∀ key, Makes c t.store op key →
    (t.step c op).store.regionThetaMap.lookup key = some (op.firstEntry c.metric) ∧
      (t.step c op).store.regionDiscountMap.lookup key = op.firstDiscount ∧
      ∀ K theta, (t.step c op).store.theta? key K = some theta →
        isUninitializedTheta c.metric theta = true ∨ (K ∉ initialKs ∧ theta = 0) ∨ op.Learns K

theorem turnover_of_dated (ht : Dated c t) (op : RegionOp V) : Turnover c t op where
  replaces key hmakes hpos hfull := by
    obtain ⟨oldest, hdrop⟩ := exists_evictee ht hmakes.1 hpos hfull
    have hearliest := earliest_of_evictee ht hdrop
    have hopens := opens_of_makes hmakes
    have hne : oldest ≠ key := fun heq => hmakes.1 (heq ▸ hearliest.1)
    obtain ⟨htheta, hdiscount⟩ := lookup_apply_of_opens (s := t.store) hopens hne
    rw [if_pos hdrop] at htheta hdiscount
    refine ⟨oldest, hearliest, htheta, hdiscount, fun r hr hr' => ?_⟩
    have hkeep : evictee c t.store key ≠ some r := fun heq =>
      hr' (Option.some.inj (heq.symm.trans hdrop))
    have hrest := lookup_apply_of_opens (s := t.store) hopens
      (r := r) (fun heq => hmakes.1 (heq ▸ hr))
    rw [if_neg hkeep, if_neg hkeep] at hrest
    exact hrest
  removes r hr hgone := by
    obtain ⟨key, hmakes, hdrop⟩ := makes_of_removed hr hgone
    have hfull := hdrop
    rw [evictee_of_notMem hmakes.1] at hfull
    split_ifs at hfull with hle
    refine ⟨earliest_of_evictee ht hdrop, ?_, hle, key, hmakes⟩
    rw [Table.size_eq_length_keys]
    exact List.length_pos_of_mem hr
  starts key hmakes := by
    refine ⟨?_, not_live_freshEntry c.metric, ?_⟩
    · rw [lookup_lazyInitRegion, if_pos rfl, entryOf, AList.lookup_eq_none.mpr hmakes.1]
      rfl
    · refine AList.lookup_eq_none.mpr fun hmem => hmakes.1 ?_
      exact ht.inStep.discounts key ((mem_discount_lazyInitRegion key key).mp hmem).2
  leaves key hmakes := by
    obtain ⟨htheta, hdiscount⟩ := lookup_apply_of_makes ht.inStep hmakes
    refine ⟨htheta, hdiscount, fun K theta hK => ?_⟩
    have hlook : (t.step c op).store.theta? key K = (op.firstEntry c.metric).lookup K :=
      theta?_eq_of_lookup htheta
    exact lookup_firstEntry (hlook.symm.trans hK)

/-- Whatever the calls were, the containers are in step and the next call
    makes and drops regions as it should. -/
theorem inStep_and_turnover (h : Reachable c t) :
    InStep c t.store ∧ ∀ op : RegionOp V, Turnover c t op :=
  ⟨(dated_of_reachable h).inStep, turnover_of_dated (dated_of_reachable h)⟩

/-- One place for a region: the query of another region takes it over. -/
theorem inStep_and_turnover_single :
    let c : PcaConfig Nat := { lineConfig with maxRegions := 1 }
    ∃ t, Reachable c t ∧ t.store.regionInsertionOrder = [[1]] ∧
      (InStep c t.store ∧ ∀ op : RegionOp Nat, Turnover c t op) := by
  intro c
  have hruns : (Traces.run (next c) (init 0)
      [.theta (.updateTheta 0 10 (.fin 1) 1), .theta (.isHit 1 10 (some []) 10 0)]).any (fun t =>
        decide (t.store.regionInsertionOrder = [[1]])) = true := by decide +kernel
  obtain ⟨t, hrun, htest⟩ := Traces.exists_run hruns
  have hreach : Reachable c t := ⟨0, _, hrun⟩
  exact ⟨t, hreach, of_decide_eq_true htest, inStep_and_turnover hreach⟩

end Chronicle

end QvCache
