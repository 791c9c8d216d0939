/-
  QvCache.Theta.WriteRadius

  What a write does to the regions within `write_l1_radius` of its vector, and
  how that depends on the radius.  Both results rest on the walk of L1Ball and
  on `tightenAll_lookup`: the codes of the ball are visited one by one, and a
  visit changes a region only the first time.
-/

import QvCache.Theta.L1Ball
import QvCache.Theta.Turnover

namespace QvCache

namespace PcaUtils

variable {V : Type} (c : PcaConfig V)

/-! ## What a write owes -/

/-- The codes of the grid within `write_l1_radius` of the region of `vec`. -/
def WithinRadius (s : PcaUtils) (vec : V) (key : RegionKey) : Prop :=
  key.length = (c.computeRegionKey vec).length ∧ (∀ b ∈ key, b.toNat < c.bucketsPerDim) ∧
    codeDistance key (c.computeRegionKey vec) ≤ s.writeL1Radius

/-- The walk visits exactly the codes within the radius, once each, and restores
    `cur`.  The write scales exactly the regions it finds learned and not yet
    discounted, counts them, and has nothing left to do when it is repeated. -/
structure TightensBall (s : PcaUtils) (vec : V) (alpha : ℚ) : Prop where
  walk : ∃ visits, walkL1Ball c (fun key visits => visits ++ [key]) (c.computeRegionKey vec)
      (c.computeRegionKey vec).length s.writeL1Radius (c.computeRegionKey vec, []) =
        some (c.computeRegionKey vec, visits) ∧
    visits.Nodup ∧ ∀ key, key ∈ visits ↔ WithinRadius c s vec key
  write : ∃ (s' : PcaUtils) (touched : List RegionKey),
    tightenThetaInt c s vec alpha = some (s', touched.length) ∧
    touched.Nodup ∧ (∀ key, key ∈ touched ↔ WithinRadius c s vec key ∧ Lowered c s key alpha) ∧
    (∀ key, s'.regionThetaMap.lookup key =
      if key ∈ touched then
        (s.regionThetaMap.lookup key).map fun entry => entry.mapVals (scaleLive c.metric alpha)
      else s.regionThetaMap.lookup key) ∧
    (∀ key, s'.regionDiscountMap.lookup key =
      if key ∈ touched then some alpha else s.regionDiscountMap.lookup key) ∧
    s'.regionInsertionOrder = s.regionInsertionOrder ∧ s'.writeL1Radius = s.writeL1Radius ∧
    tightenThetaInt c s' vec alpha = some (s', 0)

/-- The region was tightened between two states. -/
def Tightened (s s' : PcaUtils) (key : RegionKey) : Prop := s'.discount key < s.discount key

/-- `set_write_l1_radius`, which takes any value. -/
def setWriteL1Radius (s : PcaUtils) (radius : Nat) : PcaUtils := { s with writeL1Radius := radius }

/-- A write that comes to an end with radius `r1` comes to one with `r2`, and
    tightens at least the same regions. -/
def TightensNoLess (s : PcaUtils) (vec : V) (alpha : ℚ) (r1 r2 : Nat) : Prop :=
  ∀ s1 n1, tightenThetaInt c (s.setWriteL1Radius r1) vec alpha = some (s1, n1) →
    ∃ s2 n2, tightenThetaInt c (s.setWriteL1Radius r2) vec alpha = some (s2, n2) ∧
      ∀ key, Tightened s s1 key → Tightened s s2 key

variable {c} {s : PcaUtils} {vec : V} {alpha : ℚ}

/-! ## Visiting a list of codes -/

theorem lowered_tightenOne_other {key fine : RegionKey} (h : key ≠ fine) :
    Lowered c (tightenOneRegionLocked c s fine alpha).1 key alpha ↔ Lowered c s key alpha := by
  by_cases hfine : Lowered c s fine alpha
  · unfold Lowered Live discount
    rw [lookup_tightenOne_of_lowered hfine, lookup_discount_tightenOne_of_lowered hfine, if_neg h,
      if_neg h]
  · rw [tightenOne_of_not_lowered hfine]

theorem tightenOne_snd (fine : RegionKey) :
    (Lowered c s fine alpha → (tightenOneRegionLocked c s fine alpha).2 = 1) ∧
      (¬ Lowered c s fine alpha → (tightenOneRegionLocked c s fine alpha).2 = 0) := by
  constructor
  · rintro ⟨⟨entry, hlook, hlive⟩, hlt⟩
    unfold tightenOneRegionLocked
    simp [hlook, hlive, not_le.mpr hlt]
  · intro h
    rw [tightenOne_of_not_lowered h]

/-- The count is the number of codes that are lowered. -/
theorem foldl_tightenVisit_snd (alpha : ℚ) {codes : List RegionKey} (hnodup : codes.Nodup)
    (s : PcaUtils) (n : Nat) : ∃ touched : List RegionKey, touched.Nodup ∧
      (∀ key, key ∈ touched ↔ key ∈ codes ∧ Lowered c s key alpha) ∧
      (codes.foldl (fun a key => tightenVisit c alpha key a) (s, n)).2 = n + touched.length := by
  induction codes generalizing s n with
  | nil => exact ⟨[], List.nodup_nil, by simp, rfl⟩
  | cons key rest ih =>
    obtain ⟨hkey, hrest⟩ := List.nodup_cons.mp hnodup
    obtain ⟨touched, hdistinct, hmem, hcount⟩ := ih hrest
      (tightenOneRegionLocked c s key alpha).1 (n + (tightenOneRegionLocked c s key alpha).2)
    -- the visit of `key` does not change which of the others are lowered
    have hothers : ∀ k, k ∈ touched ↔ k ∈ rest ∧ Lowered c s k alpha := by
      intro k
      rw [hmem]
      refine and_congr_right fun hk => lowered_tightenOne_other ?_
      rintro rfl
      exact hkey hk
    have hfold : ((key :: rest).foldl (fun a key => tightenVisit c alpha key a) (s, n)).2 =
        n + (tightenOneRegionLocked c s key alpha).2 + touched.length := hcount
    rw [hfold]
    by_cases hlow : Lowered c s key alpha
    · refine ⟨key :: touched, List.nodup_cons.mpr ⟨fun h => hkey ((hothers key).mp h).1, hdistinct⟩,
        fun k => ?_, ?_⟩
      · rw [List.mem_cons, List.mem_cons, hothers]
        constructor
        · rintro (rfl | h)
          · exact ⟨Or.inl rfl, hlow⟩
          · exact ⟨Or.inr h.1, h.2⟩
        · rintro ⟨rfl | h, hk⟩
          · exact Or.inl rfl
          · exact Or.inr ⟨h, hk⟩
      · rw [(tightenOne_snd key).1 hlow, List.length_cons]
        omega
    · refine ⟨touched, hdistinct, fun k => ?_, ?_⟩
      · rw [hothers, List.mem_cons]
        constructor
        · exact fun h => ⟨Or.inr h.1, h.2⟩
        · rintro ⟨rfl | h, hk⟩
          · exact absurd hk hlow
          · exact ⟨h, hk⟩
      · rw [(tightenOne_snd key).2 hlow, Nat.add_zero]

theorem foldl_tightenVisit_of_none_lowered {codes : List RegionKey}
    (h : ∀ key ∈ codes, ¬ Lowered c s key alpha) (n : Nat) :
    codes.foldl (fun a key => tightenVisit c alpha key a) (s, n) = (s, n) := by
  induction codes with
  | nil => rfl
  | cons key rest ih =>
    have hvisit : tightenVisit c alpha key (s, n) = (s, n) := by
      unfold tightenVisit
      rw [tightenOne_of_not_lowered (h key List.mem_cons_self)]
      rfl
    rw [List.foldl_cons, hvisit]
    exact ih fun k hk => h k (List.mem_cons_of_mem _ hk)

theorem radius_tightenAll (keys : List RegionKey) :
    (tightenAll c s keys alpha).writeL1Radius = s.writeL1Radius := by
  induction keys generalizing s with
  | nil => rfl
  | cons key rest ih =>
    have hone : (tightenOneRegionLocked c s key alpha).1.writeL1Radius = s.writeL1Radius := by
      unfold tightenOneRegionLocked
      split
      · rfl
      · split_ifs <;> rfl
    exact ih.trans hone

/-- After a write no visited code is left to lower. -/
theorem not_lowered_tightenAll {keys : List RegionKey} {key : RegionKey} (h : key ∈ keys) :
    ¬ Lowered c (tightenAll c s keys alpha) key alpha := by
  rcases tightenAll_lookup (c := c) (s := s) keys alpha key with
    ⟨_, _, _, hdisc⟩ | ⟨hnot, hlook, hdisc⟩
  · rintro ⟨_, hlt⟩
    rw [discount, hdisc] at hlt
    exact lt_irrefl _ hlt
  · intro hlow
    unfold Lowered Live discount at hlow
    rw [hlook, hdisc] at hlow
    exact hnot ⟨h, hlow⟩

/-! ## The write -/

theorem tightenThetaInt_overflow (halpha : 0 < alpha ∧ alpha < 1)
    (hgrid : InGrid c (c.computeRegionKey vec))
    (h : Overflows (c.computeRegionKey vec) s.writeL1Radius) :
    tightenThetaInt c s vec alpha = none := by
  rw [tightenThetaInt, if_neg (not_guarded_iff.mpr halpha)]
  dsimp only
  rw [walkL1Ball_overflow hgrid h]
  rfl

theorem tightenThetaInt_fits (halpha : 0 < alpha ∧ alpha < 1)
    (hgrid : InGrid c (c.computeRegionKey vec))
    (h : ¬ Overflows (c.computeRegionKey vec) s.writeL1Radius) :
    tightenThetaInt c s vec alpha =
      some ((suffixCodes c (c.computeRegionKey vec) (toInt s.writeL1Radius)).foldl
        (fun a key => tightenVisit c alpha key a) (s, 0)) := by
  rw [tightenThetaInt, if_neg (not_guarded_iff.mpr halpha)]
  dsimp only
  rw [walkL1Ball_fits hgrid h]
  rfl

/-- A write that stays in the range of `int` is the one on unbounded integers. -/
theorem tightenThetaInt_eq (halpha : 0 < alpha ∧ alpha < 1)
    (hgrid : InGrid c (c.computeRegionKey vec))
    (h : ¬ Overflows (c.computeRegionKey vec) s.writeL1Radius) :
    tightenThetaInt c s vec alpha = some (tightenThetaForVector c s vec alpha) := by
  rw [tightenThetaInt_fits halpha hgrid h, tightenThetaForVector_eq_foldl,
    if_neg (not_guarded_iff.mpr halpha), visited_eq]

theorem fits_of_some (halpha : 0 < alpha ∧ alpha < 1) (hgrid : InGrid c (c.computeRegionKey vec))
    {r : PcaUtils × Nat} (h : tightenThetaInt c s vec alpha = some r) :
    ¬ Overflows (c.computeRegionKey vec) s.writeL1Radius := by
  intro hover
  rw [tightenThetaInt_overflow halpha hgrid hover] at h
  cases h

/-- The regions that a write tightens. -/
theorem tightened_iff (halpha : 0 < alpha ∧ alpha < 1) (hgrid : InGrid c (c.computeRegionKey vec))
    {r : PcaUtils × Nat} (h : tightenThetaInt c s vec alpha = some r) (key : RegionKey) :
    Tightened s r.1 key ↔
      key ∈ suffixCodes c (c.computeRegionKey vec) (toInt s.writeL1Radius) ∧
        Lowered c s key alpha := by
  have hfits := fits_of_some halpha hgrid h
  rw [tightenThetaInt_fits halpha hgrid hfits] at h
  have hstore : r.1 = tightenAll c s
      (suffixCodes c (c.computeRegionKey vec) (toInt s.writeL1Radius)) alpha := by
    rw [← foldl_tightenVisit_fst _ (s, 0), Option.some.inj h]
  rw [hstore, Tightened]
  rcases tightenAll_spec (c := c) (s := s)
    (suffixCodes c (c.computeRegionKey vec) (toInt s.writeL1Radius)) alpha key with
    ⟨hmem, hlow, _, hdisc⟩ | ⟨hnot, _, hdisc⟩
  · rw [hdisc]
    exact iff_of_true hlow.2 ⟨hmem, hlow⟩
  · rw [hdisc]
    exact iff_of_false (lt_irrefl _) hnot

/-- With at most 256 buckets and a radius below `2 ^ 31` the ball of the walk is
    the ball around the key within the write radius. -/
theorem inBall_iff_withinRadius (hB : c.bucketsPerDim ≤ 256) (hr : s.writeL1Radius < 2 ^ 31)
    (key : RegionKey) :
    InBall c (c.computeRegionKey vec) (toInt s.writeL1Radius) key ↔ WithinRadius c s vec key := by
  have hbuckets : toInt c.bucketsPerDim = c.bucketsPerDim := toInt_of_lt (by omega)
  rw [inBall_iff (by omega), hbuckets, toInt_of_lt hr, WithinRadius]
  simp only [Nat.cast_lt, Nat.cast_le]

/-- The same write again finds nothing to lower. -/
theorem tightenThetaInt_again (halpha : 0 < alpha ∧ alpha < 1)
    (hgrid : InGrid c (c.computeRegionKey vec))
    (h : ¬ Overflows (c.computeRegionKey vec) s.writeL1Radius) :
    let s' := tightenAll c s (suffixCodes c (c.computeRegionKey vec) (toInt s.writeL1Radius)) alpha
    tightenThetaInt c s' vec alpha = some (s', 0) := by
  intro s'
  have hradius : s'.writeL1Radius = s.writeL1Radius := radius_tightenAll _
  rw [tightenThetaInt_fits halpha hgrid (by rwa [hradius]), hradius,
    foldl_tightenVisit_of_none_lowered fun key hkey => not_lowered_tightenAll hkey]

/-- A write that stays in the range of `int` does what it owes. -/
theorem tightensBall_of_fits (hB : c.bucketsPerDim ≤ 256) (hr : s.writeL1Radius < 2 ^ 31)
    (halpha : 0 < alpha ∧ alpha < 1) (hgrid : InGrid c (c.computeRegionKey vec))
    (hfits : ¬ Overflows (c.computeRegionKey vec) s.writeL1Radius) : TightensBall c s vec alpha := by
  have hradius : 0 ≤ toInt s.writeL1Radius := by
    rw [toInt_of_lt hr]
    exact Int.natCast_nonneg _
  have hbuckets : toInt c.bucketsPerDim ≤ 256 := by
    rw [toInt_of_lt (by omega)]
    omega
  set codes := suffixCodes c (c.computeRegionKey vec) (toInt s.writeL1Radius) with hcodes
  have hmem : ∀ key, key ∈ codes ↔ WithinRadius c s vec key := by
    intro key
    rw [hcodes, mem_suffixCodes fun _ => hradius, inBall_iff_withinRadius hB hr]
  have hnodup : codes.Nodup := nodup_suffixCodes hbuckets _ _
  constructor
  · refine ⟨codes, ?_, hnodup, hmem⟩
    rw [walkL1Ball_fits hgrid hfits, List.foldl_append_eq_append, List.nil_append,
      ← List.flatMap_def, List.flatMap_singleton']
  · obtain ⟨touched, hdistinct, htouched, hcount⟩ :=
      foldl_tightenVisit_snd (c := c) alpha hnodup s 0
    have hlookups := fun key => tightenAll_lookup (c := c) (s := s) codes alpha key
    refine ⟨tightenAll c s codes alpha, touched, ?_, hdistinct, fun key => ?_, fun key => ?_,
      fun key => ?_, (steady_tightenAll codes alpha).order, radius_tightenAll codes,
      tightenThetaInt_again halpha hgrid hfits⟩
    · rw [tightenThetaInt_fits halpha hgrid hfits]
      exact congrArg some (Prod.ext (foldl_tightenVisit_fst codes (s, 0))
        (hcount.trans (Nat.zero_add _)))
    · rw [htouched, hmem]
    · rcases hlookups key with ⟨hkey, hlow, hlook, _⟩ | ⟨hnot, hlook, _⟩
      · rw [if_pos ((htouched key).mpr ⟨hkey, hlow⟩), hlook]
      · rw [if_neg fun h => hnot ((htouched key).mp h), hlook]
    · rcases hlookups key with ⟨hkey, hlow, _, hdisc⟩ | ⟨hnot, _, hdisc⟩
      · rw [if_pos ((htouched key).mpr ⟨hkey, hlow⟩), hdisc]
      · rw [if_neg fun h => hnot ((htouched key).mp h), hdisc]

/-- A write with at most 256 buckets and a radius below `2 ^ 31` does what it
    owes exactly if no `int` of the walk overflows. -/
theorem tightensBall_iff (c : PcaConfig V) (s : PcaUtils) (vec : V) (alpha : ℚ)
    (hB : c.bucketsPerDim ≤ 256) (hkey : ∀ b ∈ c.computeRegionKey vec, b.toNat < c.bucketsPerDim)
    (hr : s.writeL1Radius < 2 ^ 31) (halpha : 0 < alpha ∧ alpha < 1) :
    TightensBall c s vec alpha ↔
      ∀ b ∈ c.computeRegionKey vec, s.writeL1Radius + max 1 b.toNat < 2 ^ 31 := by
  have hgrid : InGrid c (c.computeRegionKey vec) := by
    intro b hb
    have hlt := hkey b hb
    rw [toInt_of_lt (by omega)]
    exact_mod_cast hlt
  have hover : Overflows (c.computeRegionKey vec) s.writeL1Radius ↔
      ∃ b ∈ c.computeRegionKey vec, 2 ^ 31 ≤ s.writeL1Radius + max 1 b.toNat := by
    unfold Overflows
    rw [toInt_of_lt hr]
    constructor
    · rintro ⟨_, hmin | ⟨_, b, hb, hlarge⟩⟩
      · omega
      · exact ⟨b, hb, by omega⟩
    · rintro ⟨b, hb, hlarge⟩
      exact ⟨List.ne_nil_of_mem hb, Or.inr ⟨by omega, b, hb, by omega⟩⟩
  constructor
  · intro h b hb
    by_contra hlarge
    obtain ⟨s', touched, hwrite, _⟩ := h.write
    rw [tightenThetaInt_overflow halpha hgrid (hover.mpr ⟨b, hb, by omega⟩)] at hwrite
    cases hwrite
  · intro h
    refine tightensBall_of_fits hB hr halpha hgrid fun hbad => ?_
    obtain ⟨b, hb, hlarge⟩ := hover.mp hbad
    have hsmall := h b hb
    omega

/-- A region of `lineConfig` that learned a threshold. -/
def learnedLine (radius : Nat) : PcaUtils :=
  updateTheta lineConfig (empty radius) 0 5 (.fin 2) 1

theorem lowered_learnedLine (radius : Nat) : Lowered lineConfig (learnedLine radius) [0] (1 / 2) := by
  constructor
  · refine live_iff.mpr ⟨5, .fin 2, ?_, by decide +kernel⟩
    show (updateTheta lineConfig (empty radius) 0 5 (.fin 2) 1).theta?
      (lineConfig.computeRegionKey 0) 5 = _
    have hseen : thetaSeen lineConfig (empty radius) (lineConfig.computeRegionKey 0) 5 =
        uninitializedTheta .L2 := thetaSeen_of_absent (AList.lookup_empty _) 5
    rw [theta?_updateTheta_self, hseen]
    decide +kernel
  · show 1 / 2 < (updateTheta lineConfig (empty radius) 0 5 (.fin 2) 1).discount
      (lineConfig.computeRegionKey 0)
    rw [discount_updateTheta, if_pos rfl]
    decide +kernel

theorem inGrid_lineConfig : InGrid lineConfig (lineConfig.computeRegionKey 0) := by
  decide +kernel

/-- With radius 1 the write does what it owes. -/
theorem tightensBall_iff_radiusOne : TightensBall lineConfig (learnedLine 1) 0 (1 / 2) :=
  (tightensBall_iff lineConfig (learnedLine 1) 0 (1 / 2) (by decide)
    (List.forall_mem_singleton.mpr (by decide)) (by decide +kernel) (by decide +kernel)).mpr
    (List.forall_mem_singleton.mpr (by decide +kernel))

/-- With the largest `int` as the radius, `++delta` has no value when the loop
    should end. -/
theorem largest_radius_overflows :
    (learnedLine (2 ^ 31 - 1)).writeL1Radius < 2 ^ 31 ∧
      ¬ TightensBall lineConfig (learnedLine (2 ^ 31 - 1)) 0 (1 / 2) := by
  have hradius : (learnedLine (2 ^ 31 - 1)).writeL1Radius = 2 ^ 31 - 1 := by decide +kernel
  refine ⟨by rw [hradius]; decide +kernel, fun h => ?_⟩
  obtain ⟨s', touched, hwrite, _⟩ := h.write
  have hover : Overflows (lineConfig.computeRegionKey 0) (learnedLine (2 ^ 31 - 1)).writeL1Radius := by
    rw [hradius]
    refine ⟨by decide, Or.inr ⟨by decide +kernel, 0, by decide, by decide +kernel⟩⟩
  rw [tightenThetaInt_overflow (by decide +kernel) inGrid_lineConfig hover] at hwrite
  cases hwrite

/-! ## Two radii -/

theorem tightensNoLess_iff_codes (halpha : 0 < alpha ∧ alpha < 1)
    (hgrid : InGrid c (c.computeRegionKey vec)) (r1 r2 : Nat) :
    TightensNoLess c s vec alpha r1 r2 ↔
      Overflows (c.computeRegionKey vec) r1 ∨
        ¬ Overflows (c.computeRegionKey vec) r2 ∧ ∀ key, Lowered c s key alpha →
          key ∈ suffixCodes c (c.computeRegionKey vec) (toInt r1) →
          key ∈ suffixCodes c (c.computeRegionKey vec) (toInt r2) := by
  constructor
  · intro h
    by_cases hover : Overflows (c.computeRegionKey vec) r1
    · exact Or.inl hover
    · have h1 := tightenThetaInt_fits (s := s.setWriteL1Radius r1) halpha hgrid hover
      obtain ⟨s2, n2, h2, hsub⟩ := h _ _ h1
      refine Or.inr ⟨fits_of_some halpha hgrid h2, fun key hlow hkey => ?_⟩
      have htight := hsub key ((tightened_iff halpha hgrid h1 key).mpr ⟨hkey, hlow⟩)
      exact ((tightened_iff halpha hgrid h2 key).mp htight).1
  · intro h s1 n1 h1
    rcases h with hover | ⟨hfits, hsub⟩
    · exact absurd hover (fits_of_some halpha hgrid h1)
    · have h2 := tightenThetaInt_fits (s := s.setWriteL1Radius r2) halpha hgrid hfits
      refine ⟨_, _, h2, fun key htight => ?_⟩
      obtain ⟨hkey, hlow⟩ := (tightened_iff halpha hgrid h1 key).mp htight
      exact (tightened_iff halpha hgrid h2 key).mpr ⟨hsub key hlow hkey, hlow⟩

/-- Radii that leave room for a byte below `2 ^ 31` are in order. -/
theorem tightensNoLess_of_small (halpha : 0 < alpha ∧ alpha < 1)
    (hgrid : InGrid c (c.computeRegionKey vec)) {r1 r2 : Nat} (hle : r1 ≤ r2)
    (hsmall : r2 + 255 < 2 ^ 31) : TightensNoLess c s vec alpha r1 r2 := by
  have hr1 : toInt r1 = r1 := toInt_of_lt (by omega)
  have hr2 : toInt r2 = r2 := toInt_of_lt (by omega)
  have hinside : ∀ key, key ∈ suffixCodes c (c.computeRegionKey vec) (toInt r1) →
      key ∈ suffixCodes c (c.computeRegionKey vec) (toInt r2) := by
    intro key hkey
    rw [hr1, mem_suffixCodes fun _ => Int.natCast_nonneg r1] at hkey
    rw [hr2, mem_suffixCodes fun _ => Int.natCast_nonneg r2]
    exact hkey.mono (Int.ofNat_le.mpr hle)
  exact (tightensNoLess_iff_codes halpha hgrid r1 r2).mpr
    (Or.inr ⟨not_overflows_of_small hsmall, fun key _ hkey => hinside key hkey⟩)

/-- Which pairs of radii are in order.  Without dimensions every write visits the
    one region there is; otherwise the second walk must come to its end where
    the first does, and reach what the first one lowers. -/
theorem tightensNoLess_iff (c : PcaConfig V) (s : PcaUtils) (vec : V) (alpha : ℚ)
    (halpha : 0 < alpha ∧ alpha < 1) (hgrid : InGrid c (c.computeRegionKey vec)) (r1 r2 : Nat) :
    TightensNoLess c s vec alpha r1 r2 ↔
      c.computeRegionKey vec = [] ∨ Overflows (c.computeRegionKey vec) r1 ∨
        ¬ Overflows (c.computeRegionKey vec) r2 ∧ ∀ key, Lowered c s key alpha →
          InBall c (c.computeRegionKey vec) (toInt r1) key →
          InBall c (c.computeRegionKey vec) (toInt r2) key := by
  rw [tightensNoLess_iff_codes halpha hgrid]
  by_cases hdim : c.computeRegionKey vec = []
  · have hcodes : ∀ radius, suffixCodes c [] radius = [[]] := fun _ => rfl
    refine iff_of_true (Or.inr ⟨fun h => h.1 hdim, fun key _ hkey => ?_⟩) (Or.inl hdim)
    rw [hdim, hcodes] at hkey ⊢
    exact hkey
  · rw [or_iff_right hdim]
    simp only [mem_suffixCodes fun hnil => absurd hnil hdim]

/-- The radii 0 and 1 are in order. -/
theorem tightensNoLess_iff_zeroOne : TightensNoLess lineConfig (learnedLine 0) 0 (1 / 2) 0 1 :=
  (tightensNoLess_iff lineConfig (learnedLine 0) 0 (1 / 2) (by decide +kernel)
    inGrid_lineConfig 0 1).mpr
    (Or.inr (Or.inr
      ⟨not_overflows_of_small (by decide +kernel), fun _ _ h => h.mono (by decide +kernel)⟩))

/-- With radius 0 the region of the vector is tightened.  The radius `2 ^ 32 - 1`
    narrows to -1, and the write tightens nothing. -/
theorem narrowed_radius_tightens_nothing :
    ¬ TightensNoLess lineConfig (learnedLine 0) 0 (1 / 2) 0 (2 ^ 32 - 1) := by
  intro h
  rcases (tightensNoLess_iff_codes (by decide +kernel) inGrid_lineConfig 0 (2 ^ 32 - 1)).mp h with
    hover | ⟨_, hsub⟩
  · exact not_overflows_of_small (by decide +kernel) hover
  · have hinside := hsub [0] (lowered_learnedLine 0) (by decide +kernel)
    have hminus : toInt (2 ^ 32 - 1) = -1 := by decide +kernel
    have hnone : suffixCodes lineConfig (lineConfig.computeRegionKey 0) (-1) = [] := by decide +kernel
    rw [hminus, hnone] at hinside
    cases hinside

end PcaUtils

end QvCache
