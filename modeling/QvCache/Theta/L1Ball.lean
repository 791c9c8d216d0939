/-
  QvCache.Theta.L1Ball

  The recursion of `tighten_l1_ball_locked` in the arithmetic of the source.
  The radius is narrowed from `size_t` to `int`, the loop counts an `int` from
  `-maxd` to `maxd` and adds it to a bucket code.  A sum that leaves the range
  of `int` is undefined, so the walk has no result then (`Overflows`).

  Where it has one, it visits each code of the clipped ball (`InBall`): once,
  if a code fits a byte.
-/

import QvCache.Theta.RegionSpec
import Mathlib.Data.List.Forall2

namespace QvCache

namespace PcaUtils

variable {V : Type} (c : PcaConfig V)

/-! ## The walk with `int` arithmetic -/

/-- `a + b` on `int`. -/
def intAdd (a b : Int) : Option Int :=
  if -2 ^ 31 ≤ a + b ∧ a + b < 2 ^ 31 then some (a + b) else none

/-- `-a` on `int`. -/
def intNeg (a : Int) : Option Int := if a = -2 ^ 31 then none else some (-a)

/-- One round of the loop over delta in dimension `dim_i`, given what the body
    does with the code it leads to and the radius that is left. -/
def deltaRound {α : Type} (center : RegionKey) (dimI left : Nat)
    (body : UInt8 → Nat → α → Option α) (w : α) (delta : Int) : Option α := do
  let b ← intAdd ((center.getD dimI 0).toNat : Int) delta
  let w' ← if b < 0 ∨ toInt c.bucketsPerDim ≤ b then some w
    else body (UInt8.ofNat b.toNat) (left - delta.natAbs) w
  -- `++delta`
  let _ ← intAdd delta 1
  return w'

/-- `tighten_l1_ball_locked` with any action in place of
    `tighten_one_region_locked`; `rest` counts the dimensions from `dim_i` on,
    and the state is `cur` with what the action changes. -/
def walkL1Ball {α : Type} (visit : RegionKey → α → α) (center : RegionKey) :
    Nat → Nat → RegionKey × α → Option (RegionKey × α)
  | 0, _, w => some (w.1, visit w.1 w.2)
  | rest + 1, left, w => do
    let dimI := center.length - (rest + 1)
    let _ ← intNeg (toInt left)
    let w' ← (deltas (toInt left)).foldlM (deltaRound c center dimI left fun b left' w =>
      walkL1Ball visit center rest left' (w.1.set dimI b, w.2)) w
    return (w'.1.set dimI (center.getD dimI 0), w'.2)

/-- `PCAUtils::tighten_theta_for_vector` in `int` arithmetic. -/
def tightenThetaInt (s : PcaUtils) (vec : V) (alpha : ℚ) : Option (PcaUtils × Nat) :=
  if 1 ≤ alpha ∨ alpha ≤ 0 then some (s, 0)
  else
    let key := c.computeRegionKey vec
    (walkL1Ball c (tightenVisit c alpha) key key.length s.writeL1Radius (key, (s, 0))).map Prod.snd

/-- The loop leaves the range of `int` in one of the dimensions `center`: at
    `-maxd`, at `c + delta` or at `++delta`. -/
def Overflows (center : RegionKey) (radius : Nat) : Prop :=
  center ≠ [] ∧ (toInt radius = -2 ^ 31 ∨
    0 ≤ toInt radius ∧ ∃ b ∈ center, 2 ^ 31 ≤ toInt radius + max 1 (b.toNat : Int))

/-- The code lies in the grid, as far as the loop can tell. -/
def InGrid (center : RegionKey) : Prop := ∀ b ∈ center, (b.toNat : Int) < toInt c.bucketsPerDim

instance (center : RegionKey) : Decidable (InGrid c center) :=
  List.decidableBAll _ center

/-! ## The clipped ball -/

/-- The L1 distance of bucket indices from a code. -/
def indexDistance (bs : List Nat) (center : RegionKey) : Nat :=
  (List.zipWith (fun b ci => ((b : Int) - (ci.toNat : Int)).natAbs) bs center).sum

/-- `key` is the code of bucket indices inside the grid and within the radius. -/
def InBall (center : RegionKey) (radius : Int) (key : RegionKey) : Prop :=
  ∃ bs : List Nat, bs.length = center.length ∧ (∀ b ∈ bs, (b : Int) < toInt c.bucketsPerDim) ∧
    (indexDistance bs center : Int) ≤ radius ∧ key = bs.map UInt8.ofNat

/-- The codes of the dimensions `center` that are within `radius`, in the order
    of the loops. -/
def suffixCodes : RegionKey → Int → List RegionKey
  | [], _ => [[]]
  | ci :: rest, radius => (deltas radius).flatMap fun delta =>
    let b := (ci.toNat : Int) + delta
    if b < 0 ∨ toInt c.bucketsPerDim ≤ b then []
    else (suffixCodes rest (radius - delta.natAbs)).map (UInt8.ofNat b.toNat :: ·)

variable {c}

/-! ## Narrowing -/

theorem toInt_of_lt {n : Nat} (h : n < 2 ^ 31) : toInt n = n := by
  have hmod : n % 2 ^ 32 = n := Nat.mod_eq_of_lt (by omega)
  rw [toInt, hmod, if_pos h]

theorem toInt_lt (n : Nat) : toInt n < 2 ^ 31 := by
  unfold toInt
  split_ifs <;> omega

/-- What is left of a radius narrows to what is left of the narrowed radius. -/
theorem toInt_sub {left : Nat} {delta : Int} (h : (delta.natAbs : Int) ≤ toInt left) :
    toInt (left - delta.natAbs) = toInt left - delta.natAbs := by
  unfold toInt at h ⊢
  split_ifs at h ⊢ <;> omega

theorem deltas_eq_map (maxd : Int) :
    deltas maxd = (List.range (2 * maxd + 1).toNat).map fun i : Nat => (i : Int) - maxd := by
  simp [deltas, List.map_eq_flatMap, List.flatMap_assoc]

theorem mem_deltas {maxd delta : Int} : delta ∈ deltas maxd ↔ -maxd ≤ delta ∧ delta ≤ maxd := by
  rw [deltas_eq_map, List.mem_map]
  constructor
  · rintro ⟨i, hi, rfl⟩
    rw [List.mem_range] at hi
    omega
  · intro h
    exact ⟨(delta + maxd).toNat, List.mem_range.mpr (by omega), by omega⟩

theorem natAbs_le_of_mem_deltas {maxd delta : Int} (h : delta ∈ deltas maxd) :
    (delta.natAbs : Int) ≤ maxd := by
  rw [mem_deltas] at h
  omega

theorem nodup_deltas (maxd : Int) : (deltas maxd).Nodup := by
  rw [deltas_eq_map]
  refine List.Nodup.map ?_ List.nodup_range
  intro i j h
  dsimp only at h
  omega

theorem deltas_of_neg {maxd : Int} (h : maxd < 0) : deltas maxd = [] := by
  rw [List.eq_nil_iff_forall_not_mem]
  intro delta hmem
  rw [mem_deltas] at hmem
  omega

/-! ## One round of a loop -/

theorem intAdd_eq_some {a b : Int} (h : -2 ^ 31 ≤ a + b) (h' : a + b < 2 ^ 31) :
    intAdd a b = some (a + b) := if_pos ⟨h, h'⟩

theorem intAdd_eq_none {a b : Int} (h : 2 ^ 31 ≤ a + b) : intAdd a b = none :=
  if_neg fun hfits => absurd hfits.2 (not_lt.mpr h)

/-- A round that leaves the range of `int`, in the loop itself or further in. -/
def BadRound (c : PcaConfig V) (ci : UInt8) (rest : RegionKey) (left : Nat) (delta : Int) : Prop :=
  2 ^ 31 ≤ (ci.toNat : Int) + delta ∨ 2 ^ 31 ≤ delta + 1 ∨
    0 ≤ (ci.toNat : Int) + delta ∧ (ci.toNat : Int) + delta < toInt c.bucketsPerDim ∧
      Overflows rest (left - delta.natAbs)

/-- The codes of one round. -/
def roundCodes (c : PcaConfig V) (ci : UInt8) (rest : RegionKey) (radius delta : Int) :
    List RegionKey :=
  let b := (ci.toNat : Int) + delta
  if b < 0 ∨ toInt c.bucketsPerDim ≤ b then []
  else (suffixCodes c rest (radius - delta.natAbs)).map (UInt8.ofNat b.toNat :: ·)

theorem suffixCodes_cons (ci : UInt8) (rest : RegionKey) (radius : Int) :
    suffixCodes c (ci :: rest) radius = (deltas radius).flatMap (roundCodes c ci rest radius) := rfl

/-- A radius with room for a byte above it never overflows. -/
theorem not_overflows_of_small {center : RegionKey} {radius : Nat} (h : radius + 255 < 2 ^ 31) :
    ¬ Overflows center radius := by
  rintro ⟨_, hmin | ⟨_, b, _, hlarge⟩⟩
  · rw [toInt_of_lt (by omega)] at hmin
    omega
  · rw [toInt_of_lt (by omega)] at hlarge
    have hbyte := b.toNat_lt
    omega

section Walk

variable {α : Type} {visit : RegionKey → α → α} {center pre₀ : RegionKey}

/-- What the walk over the dimensions `rest` does behind any prefix of `cur`. -/
def WalkSpec (c : PcaConfig V) (visit : RegionKey → α → α) (center pre₀ rest : RegionKey) : Prop :=
  ∀ (pre : RegionKey) (left : Nat) (a : α), pre.length = pre₀.length →
    (Overflows rest left → walkL1Ball c visit center rest.length left (pre ++ rest, a) = none) ∧
    (¬ Overflows rest left → walkL1Ball c visit center rest.length left (pre ++ rest, a) =
      some (pre ++ rest,
        (suffixCodes c rest (toInt left)).foldl (fun a key => visit (pre ++ key) a) a))

/-- The body of the loop in the dimension of `ci`. -/
def walkBody (c : PcaConfig V) (visit : RegionKey → α → α) (center rest : RegionKey) (dimI : Nat)
    (b : UInt8) (left' : Nat) (w : RegionKey × α) : Option (RegionKey × α) :=
  walkL1Ball c visit center rest.length left' (w.1.set dimI b, w.2)

variable {ci : UInt8} {rest pre : RegionKey} {left : Nat} {delta : Int} {b₀ : UInt8} {a : α}

theorem deltaRound_bad (hcenter : center = pre₀ ++ ci :: rest)
    (hrest : WalkSpec c visit center (pre₀ ++ [ci]) rest) (hpre : pre.length = pre₀.length)
    (hdelta : (delta.natAbs : Int) ≤ toInt left) (hbad : BadRound c ci rest left delta) :
    deltaRound c center pre₀.length left (walkBody c visit center rest pre₀.length)
      (pre ++ b₀ :: rest, a) delta = none := by
  have hci : center.getD pre₀.length 0 = ci := by simp [hcenter]
  have hleft := toInt_lt left
  have hrange := abs_le.mp ((Int.abs_eq_natAbs delta).le.trans hdelta)
  unfold deltaRound
  rw [hci]
  rcases hbad with hsum | hnext | ⟨hlow, hhigh, hover⟩
  · rw [intAdd_eq_none hsum]
    rfl
  · by_cases hsum : 2 ^ 31 ≤ (ci.toNat : Int) + delta
    · rw [intAdd_eq_none hsum]
      rfl
    · rw [intAdd_eq_some (by omega) (by omega), intAdd_eq_none hnext]
      simp
  · by_cases hsum : 2 ^ 31 ≤ (ci.toNat : Int) + delta
    · rw [intAdd_eq_none hsum]
      rfl
    · have hinner := (hrest (pre ++ [UInt8.ofNat ((ci.toNat : Int) + delta).toNat])
        (left - delta.natAbs) a (by simp [hpre])).1 hover
      have hset : (pre ++ b₀ :: rest).set pre₀.length (UInt8.ofNat ((ci.toNat : Int) + delta).toNat) =
          pre ++ [UInt8.ofNat ((ci.toNat : Int) + delta).toNat] ++ rest := by
        simp [← hpre]
      rw [intAdd_eq_some (by omega) (by omega)]
      simp only [Option.bind_eq_bind, Option.bind_some]
      rw [if_neg (by omega), walkBody, hset, hinner]
      rfl

theorem deltaRound_good (hcenter : center = pre₀ ++ ci :: rest)
    (hrest : WalkSpec c visit center (pre₀ ++ [ci]) rest) (hpre : pre.length = pre₀.length)
    (hdelta : (delta.natAbs : Int) ≤ toInt left) (hgood : ¬ BadRound c ci rest left delta)
    (b₀ : UInt8) (a : α) :
    ∃ b₁, deltaRound c center pre₀.length left (walkBody c visit center rest pre₀.length)
      (pre ++ b₀ :: rest, a) delta = some (pre ++ b₁ :: rest,
        (roundCodes c ci rest (toInt left) delta).foldl (fun a key => visit (pre ++ key) a) a) := by
  have hci : center.getD pre₀.length 0 = ci := by simp [hcenter]
  have hleft := toInt_lt left
  unfold BadRound at hgood
  obtain ⟨hsum, hnext, hinner⟩ := by simpa only [not_or] using hgood
  unfold deltaRound roundCodes
  rw [hci, intAdd_eq_some (by omega) (by omega)]
  simp only [Option.bind_eq_bind, Option.bind_some]
  by_cases hout : (ci.toNat : Int) + delta < 0 ∨ toInt c.bucketsPerDim ≤ (ci.toNat : Int) + delta
  · refine ⟨b₀, ?_⟩
    rw [if_pos hout, if_pos hout, intAdd_eq_some (by omega) (by omega)]
    rfl
  · refine ⟨UInt8.ofNat ((ci.toNat : Int) + delta).toNat, ?_⟩
    have hover : ¬ Overflows rest (left - delta.natAbs) := fun h =>
      hinner ⟨by omega, by omega, h⟩
    have hwalk := (hrest (pre ++ [UInt8.ofNat ((ci.toNat : Int) + delta).toNat])
      (left - delta.natAbs) a (by simp [hpre])).2 hover
    have hset : (pre ++ b₀ :: rest).set pre₀.length (UInt8.ofNat ((ci.toNat : Int) + delta).toNat) =
        pre ++ [UInt8.ofNat ((ci.toNat : Int) + delta).toNat] ++ rest := by
      simp [← hpre]
    rw [if_neg hout, if_neg hout, walkBody, hset, hwalk, Option.bind_some,
      intAdd_eq_some (by omega) (by omega), toInt_sub hdelta, List.foldl_map]
    simp

/-- The rounds one after the other. -/
theorem foldlM_deltaRound (hcenter : center = pre₀ ++ ci :: rest)
    (hrest : WalkSpec c visit center (pre₀ ++ [ci]) rest) (hpre : pre.length = pre₀.length)
    (ds : List Int) (hds : ∀ delta ∈ ds, (delta.natAbs : Int) ≤ toInt left) (b₀ : UInt8) (a : α) :
    ((∃ delta ∈ ds, BadRound c ci rest left delta) →
      ds.foldlM (deltaRound c center pre₀.length left (walkBody c visit center rest pre₀.length))
        (pre ++ b₀ :: rest, a) = none) ∧
    ((∀ delta ∈ ds, ¬ BadRound c ci rest left delta) → ∃ b₁,
      ds.foldlM (deltaRound c center pre₀.length left (walkBody c visit center rest pre₀.length))
        (pre ++ b₀ :: rest, a) = some (pre ++ b₁ :: rest,
          (ds.flatMap (roundCodes c ci rest (toInt left))).foldl
            (fun a key => visit (pre ++ key) a) a)) := by
  induction ds generalizing b₀ a with
  | nil =>
    refine ⟨?_, fun _ => ⟨b₀, rfl⟩⟩
    rintro ⟨_, hmem, _⟩
    cases hmem
  | cons delta ds ih =>
    have hdelta := hds delta List.mem_cons_self
    have hds' := fun d hd => hds d (List.mem_cons_of_mem _ hd)
    rw [List.foldlM_cons]
    by_cases hbad : BadRound c ci rest left delta
    · refine ⟨fun _ => ?_, fun hgood => absurd hbad (hgood delta List.mem_cons_self)⟩
      rw [deltaRound_bad hcenter hrest hpre hdelta hbad]
      rfl
    · obtain ⟨b₁, hround⟩ := deltaRound_good hcenter hrest hpre hdelta hbad b₀ a
      obtain ⟨hnone, hsome⟩ := ih hds' b₁
        ((roundCodes c ci rest (toInt left) delta).foldl (fun a key => visit (pre ++ key) a) a)
      rw [hround]
      constructor
      · rintro ⟨d, hd, hdbad⟩
        rcases List.mem_cons.mp hd with rfl | hd
        · exact absurd hdbad hbad
        · exact hnone ⟨d, hd, hdbad⟩
      · intro hgood
        obtain ⟨b₂, hfold⟩ := hsome fun d hd => hgood d (List.mem_cons_of_mem _ hd)
        refine ⟨b₂, ?_⟩
        rw [List.flatMap_cons, List.foldl_append]
        exact hfold

theorem overflows_cons (ci : UInt8) (rest : RegionKey) (left : Nat) :
    Overflows (ci :: rest) left ↔ toInt left = -2 ^ 31 ∨
      0 ≤ toInt left ∧ ∃ b ∈ ci :: rest, 2 ^ 31 ≤ toInt left + max 1 (b.toNat : Int) :=
  and_iff_right (List.cons_ne_nil _ _)

/-- A loop has a bad round exactly if it leaves the range: the last round is the
    worst for its own dimension, the round of delta 0 for the later ones. -/
theorem exists_badRound_iff (hgrid : InGrid c (ci :: rest)) (hleft : 0 ≤ toInt left) :
    (∃ delta ∈ deltas (toInt left), BadRound c ci rest left delta) ↔ Overflows (ci :: rest) left := by
  rw [overflows_cons, or_iff_right (by omega), and_iff_right hleft]
  constructor
  · rintro ⟨delta, hmem, hbad⟩
    have hrange := mem_deltas.mp hmem
    have habs := natAbs_le_of_mem_deltas hmem
    rcases hbad with hsum | hnext | ⟨_, _, hover⟩
    · exact ⟨ci, List.mem_cons_self, by omega⟩
    · exact ⟨ci, List.mem_cons_self, by omega⟩
    · obtain ⟨_, hmin | ⟨_, b, hb, hlarge⟩⟩ := hover
      · rw [toInt_sub habs] at hmin
        omega
      · rw [toInt_sub habs] at hlarge
        exact ⟨b, List.mem_cons_of_mem _ hb, by omega⟩
  · rintro ⟨b, hb, hlarge⟩
    rcases List.mem_cons.mp hb with rfl | hb
    · refine ⟨toInt left, mem_deltas.mpr (by omega), ?_⟩
      rcases le_total (b.toNat : Int) 1 with h1 | h1
      · rw [max_eq_left h1] at hlarge
        exact Or.inr (Or.inl hlarge)
      · rw [max_eq_right h1] at hlarge
        exact Or.inl (by omega)
    · refine ⟨0, mem_deltas.mpr (by omega), Or.inr (Or.inr ⟨by omega, ?_, ?_⟩)⟩
      · rw [add_zero]
        exact hgrid ci List.mem_cons_self
      · exact ⟨List.ne_nil_of_mem hb, Or.inr ⟨hleft, b, hb, hlarge⟩⟩

/-- The walk leaves `cur` as it was and visits the codes of the ball. -/
theorem walkSpec (hcenter : center = pre₀ ++ rest) (hgrid : InGrid c rest) :
    WalkSpec c visit center pre₀ rest := by
  induction rest generalizing pre₀ with
  | nil =>
    intro pre left a _
    refine ⟨fun h => absurd rfl h.1, fun _ => ?_⟩
    rw [List.append_nil]
    show some (pre, visit pre a) = some (pre, [[]].foldl (fun a key => visit (pre ++ key) a) a)
    rw [List.foldl_cons, List.foldl_nil, List.append_nil]
  | cons ci rest ih =>
    intro pre left a hpre
    have hrest : WalkSpec c visit center (pre₀ ++ [ci]) rest :=
      ih (by rw [hcenter, List.append_assoc]; rfl) fun b hb => hgrid b (List.mem_cons_of_mem _ hb)
    have hdim : center.length - (rest.length + 1) = pre₀.length := by
      rw [hcenter, List.length_append, List.length_cons]
      omega
    have hci : center.getD pre₀.length 0 = ci := by simp [hcenter]
    have hwalk : walkL1Ball c visit center (ci :: rest).length left (pre ++ ci :: rest, a) = (do
        let _ ← intNeg (toInt left)
        let w' ← (deltas (toInt left)).foldlM (deltaRound c center pre₀.length left
          (walkBody c visit center rest pre₀.length)) (pre ++ ci :: rest, a)
        return (w'.1.set pre₀.length ci, w'.2)) := by
      rw [List.length_cons, walkL1Ball, hdim, hci]
      rfl
    have hrestore : ∀ b₁ : UInt8, (pre ++ b₁ :: rest).set pre₀.length ci = pre ++ ci :: rest := by
      intro b₁
      simp [← hpre]
    rw [hwalk, suffixCodes_cons]
    by_cases hmin : toInt left = -2 ^ 31
    · rw [intNeg, if_pos hmin]
      exact ⟨fun _ => rfl, fun h => absurd ((overflows_cons ci rest left).mpr (Or.inl hmin)) h⟩
    · rw [intNeg, if_neg hmin]
      by_cases hneg : toInt left < 0
      · -- no round at all
        rw [deltas_of_neg hneg]
        refine ⟨fun h => ?_, fun _ => ?_⟩
        · rcases (overflows_cons ci rest left).mp h with h | h
          · exact absurd h hmin
          · exact absurd h.1 (by omega)
        · exact congrArg some (Prod.ext (hrestore ci) rfl)
      · have hbad := exists_badRound_iff hgrid (not_lt.mp hneg)
        obtain ⟨hnone, hsome⟩ := foldlM_deltaRound hcenter hrest hpre
          (deltas (toInt left)) (fun delta hd => natAbs_le_of_mem_deltas hd) ci a
        constructor
        · intro hover
          rw [Option.bind_eq_bind, Option.bind_some, hnone (hbad.mpr hover)]
          rfl
        · intro hfits
          obtain ⟨b₁, hfold⟩ := hsome fun delta hd hround => hfits (hbad.mp ⟨delta, hd, hround⟩)
          rw [Option.bind_eq_bind, Option.bind_some, hfold]
          exact congrArg some (Prod.ext (hrestore b₁) rfl)

theorem walkL1Ball_overflow (hgrid : InGrid c center) {left : Nat} (h : Overflows center left)
    (a : α) : walkL1Ball c visit center center.length left (center, a) = none :=
  (walkSpec (List.nil_append center).symm hgrid [] left a rfl).1 h

theorem walkL1Ball_fits (hgrid : InGrid c center) {left : Nat} (h : ¬ Overflows center left)
    (a : α) : walkL1Ball c visit center center.length left (center, a) =
      some (center, (suffixCodes c center (toInt left)).foldl (fun a key => visit key a) a) :=
  (walkSpec (List.nil_append center).symm hgrid [] left a rfl).2 h

end Walk

/-! ## The walk without overflow -/

/-- One round of `ballVisits`. -/
def visitRound (c : PcaConfig V) (center : RegionKey) (dimI rest left : Nat)
    (v : List RegionKey × RegionKey) (delta : Int) : List RegionKey × RegionKey :=
  match shifted c center dimI delta with
  | none => v
  | some b => (ballVisits c center rest (left - delta.natAbs) (v.2.set dimI b)).map (v.1 ++ ·) id

/-- What `ballVisits` does behind any prefix of `cur`. -/
def VisitSpec (c : PcaConfig V) (center pre₀ rest : RegionKey) : Prop :=
  ∀ (pre : RegionKey) (left : Nat), pre.length = pre₀.length →
    ballVisits c center rest.length left (pre ++ rest) =
      ((suffixCodes c rest (toInt left)).map (pre ++ ·), pre ++ rest)

/-- A round appends its codes and leaves `cur` with some byte in its place. -/
theorem visitRound_eq {center pre₀ rest pre : RegionKey} {ci : UInt8} {left : Nat} {delta : Int}
    (hcenter : center = pre₀ ++ ci :: rest) (hrest : VisitSpec c center (pre₀ ++ [ci]) rest)
    (hpre : pre.length = pre₀.length) (hdelta : (delta.natAbs : Int) ≤ toInt left)
    (done : List RegionKey) (b₀ : UInt8) :
    ∃ b₁, visitRound c center pre₀.length rest.length left (done, pre ++ b₀ :: rest) delta =
      (done ++ (roundCodes c ci rest (toInt left) delta).map (pre ++ ·), pre ++ b₁ :: rest) := by
  have hci : center.getD pre₀.length 0 = ci := by simp [hcenter]
  unfold visitRound shifted roundCodes
  rw [hci]
  dsimp only
  by_cases hout : (ci.toNat : Int) + delta < 0 ∨ toInt c.bucketsPerDim ≤ (ci.toNat : Int) + delta
  · refine ⟨b₀, ?_⟩
    rw [if_pos hout, if_pos hout, List.map_nil, List.append_nil]
  · refine ⟨UInt8.ofNat ((ci.toNat : Int) + delta).toNat, ?_⟩
    have hset : (pre ++ b₀ :: rest).set pre₀.length (UInt8.ofNat ((ci.toNat : Int) + delta).toNat) =
        pre ++ [UInt8.ofNat ((ci.toNat : Int) + delta).toNat] ++ rest := by
      simp [← hpre]
    rw [if_neg hout, if_neg hout]
    dsimp only
    rw [hset, hrest _ (left - delta.natAbs) (by simp [hpre]), toInt_sub hdelta]
    simp

/-- The walk of RegionStore, on unbounded integers, visits the same codes. -/
theorem visitSpec {center pre₀ rest : RegionKey} (hcenter : center = pre₀ ++ rest) :
    VisitSpec c center pre₀ rest := by
  induction rest generalizing pre₀ with
  | nil =>
    intro pre left _
    simp [ballVisits, suffixCodes]
  | cons ci rest ih =>
    intro pre left hpre
    have hrest : VisitSpec c center (pre₀ ++ [ci]) rest :=
      ih (by rw [hcenter, List.append_assoc]; rfl)
    have hdim : center.length - (rest.length + 1) = pre₀.length := by
      rw [hcenter, List.length_append, List.length_cons]
      omega
    have hci : center.getD pre₀.length 0 = ci := by simp [hcenter]
    have hloop : ∀ (ds : List Int) (done : List RegionKey) (b₀ : UInt8),
        (∀ delta ∈ ds, (delta.natAbs : Int) ≤ toInt left) →
        ∃ b₁, ds.foldl (visitRound c center pre₀.length rest.length left) (done, pre ++ b₀ :: rest) =
          (done ++ (ds.flatMap (roundCodes c ci rest (toInt left))).map (pre ++ ·),
            pre ++ b₁ :: rest) := by
      intro ds
      induction ds with
      | nil => exact fun done b₀ _ => ⟨b₀, by simp⟩
      | cons delta ds ihds =>
        intro done b₀ hds
        obtain ⟨b₁, hround⟩ := visitRound_eq hcenter hrest hpre (hds delta List.mem_cons_self) done b₀
        obtain ⟨b₂, hfold⟩ := ihds (done ++ (roundCodes c ci rest (toInt left) delta).map (pre ++ ·))
          b₁ fun d hd => hds d (List.mem_cons_of_mem _ hd)
        refine ⟨b₂, ?_⟩
        rw [List.foldl_cons, hround, hfold, List.flatMap_cons, List.map_append, List.append_assoc]
    obtain ⟨b₁, hfold⟩ := hloop (deltas (toInt left)) [] ci fun delta hd =>
      natAbs_le_of_mem_deltas hd
    have hvisits : ballVisits c center (ci :: rest).length left (pre ++ ci :: rest) =
        ((deltas (toInt left)).foldl (visitRound c center pre₀.length rest.length left)
          ([], pre ++ ci :: rest)).map id fun cur => cur.set pre₀.length ci := by
      rw [List.length_cons, ballVisits, hdim, hci]
      rfl
    rw [hvisits, hfold, suffixCodes_cons]
    simp [← hpre]

theorem visited_eq (radius : Nat) (center : RegionKey) :
    visited c radius center = suffixCodes c center (toInt radius) := by
  have hvisits := visitSpec (c := c) (List.nil_append center).symm [] radius rfl
  rw [List.nil_append] at hvisits
  rw [visited, hvisits]
  simp

/-! ## The codes of the ball -/

theorem toNat_ofNat_byte {n : Nat} (h : n < 256) : (UInt8.ofNat n).toNat = n :=
  UInt8.toNat_ofNat_of_lt' h

theorem mem_roundCodes {ci : UInt8} {rest key : RegionKey} {radius delta : Int} :
    key ∈ roundCodes c ci rest radius delta ↔
      (0 ≤ (ci.toNat : Int) + delta ∧ (ci.toNat : Int) + delta < toInt c.bucketsPerDim) ∧
        ∃ tail ∈ suffixCodes c rest (radius - delta.natAbs),
          UInt8.ofNat ((ci.toNat : Int) + delta).toNat :: tail = key := by
  unfold roundCodes
  dsimp only
  split_ifs with hout
  · constructor
    · intro h
      cases h
    · rintro ⟨hin, _⟩
      omega
  · rw [List.mem_map]
    exact (and_iff_right (by omega)).symm

/-- The walk visits exactly the codes of the ball. -/
theorem mem_suffixCodes {center key : RegionKey} {radius : Int} (h : center = [] → 0 ≤ radius) :
    key ∈ suffixCodes c center radius ↔ InBall c center radius key := by
  induction center generalizing key radius with
  | nil =>
    have hrad := h rfl
    unfold suffixCodes InBall
    rw [List.mem_singleton]
    constructor
    · rintro rfl
      exact ⟨[], rfl, by simp, hrad, rfl⟩
    · rintro ⟨bs, hlen, _, _, rfl⟩
      rw [List.eq_nil_of_length_eq_zero hlen]
      rfl
  | cons ci rest ih =>
    rw [suffixCodes_cons, List.mem_flatMap]
    constructor
    · rintro ⟨delta, hdelta, hkey⟩
      obtain ⟨hrange, tail, htail, rfl⟩ := mem_roundCodes.mp hkey
      have habs := natAbs_le_of_mem_deltas hdelta
      obtain ⟨bs, hlen, hbs, hdist, rfl⟩ := (ih (fun _ => by omega)).mp htail
      refine ⟨((ci.toNat : Int) + delta).toNat :: bs, by simp [hlen], ?_, ?_, rfl⟩
      · intro b hb
        rcases List.mem_cons.mp hb with rfl | hb
        · omega
        · exact hbs b hb
      · have hsplit : indexDistance (((ci.toNat : Int) + delta).toNat :: bs) (ci :: rest) =
            ((((ci.toNat : Int) + delta).toNat : Int) - ci.toNat).natAbs + indexDistance bs rest := rfl
        rw [hsplit]
        omega
    · rintro ⟨bs, hlen, hbs, hdist, rfl⟩
      cases bs with
      | nil => simp at hlen
      | cons b bs =>
        have hsplit : indexDistance (b :: bs) (ci :: rest) =
            ((b : Int) - ci.toNat).natAbs + indexDistance bs rest := rfl
        rw [hsplit] at hdist
        have hb := hbs b List.mem_cons_self
        have hindex : (ci.toNat : Int) + ((b : Int) - ci.toNat) = b := by omega
        refine ⟨(b : Int) - ci.toNat, mem_deltas.mpr (by omega), mem_roundCodes.mpr ?_⟩
        rw [hindex]
        refine ⟨⟨by omega, hb⟩, bs.map UInt8.ofNat, (ih fun _ => by omega).mpr ?_, rfl⟩
        exact ⟨bs, by simpa using hlen, fun b' hb' => hbs b' (List.mem_cons_of_mem _ hb'),
          by omega, rfl⟩

/-- No code is visited twice, as long as a bucket index fits a byte. -/
theorem nodup_suffixCodes (hB : toInt c.bucketsPerDim ≤ 256) (center : RegionKey) (radius : Int) :
    (suffixCodes c center radius).Nodup := by
  induction center generalizing radius with
  | nil => exact List.nodup_singleton _
  | cons ci rest ih =>
    rw [suffixCodes_cons, List.nodup_flatMap]
    constructor
    · intro delta _
      unfold roundCodes
      dsimp only
      split_ifs
      · exact List.nodup_nil
      · exact (ih _).map fun _ _ heq => (List.cons.inj heq).2
    · -- two rounds differ in the first byte
      refine (nodup_deltas radius).imp ?_
      intro delta delta' hne key hkey hkey'
      obtain ⟨hrange, tail, _, rfl⟩ := mem_roundCodes.mp hkey
      obtain ⟨hrange', tail', _, heq⟩ := mem_roundCodes.mp hkey'
      have hbyte := congrArg UInt8.toNat (List.cons.inj heq).1
      rw [toNat_ofNat_byte (by omega), toNat_ofNat_byte (by omega)] at hbyte
      omega

/-- The L1 distance of two codes. -/
def codeDistance (key center : RegionKey) : Nat := indexDistance (key.map UInt8.toNat) center

/-- With at most 256 buckets the ball is a ball of codes. -/
theorem inBall_iff (hB : toInt c.bucketsPerDim ≤ 256) {center key : RegionKey} {radius : Int} :
    InBall c center radius key ↔ key.length = center.length ∧
      (∀ b ∈ key, (b.toNat : Int) < toInt c.bucketsPerDim) ∧
        (codeDistance key center : Int) ≤ radius := by
  constructor
  · rintro ⟨bs, hlen, hbs, hdist, rfl⟩
    have hback : (bs.map UInt8.ofNat).map UInt8.toNat = bs := by
      rw [List.map_map]
      refine (List.map_congr_left fun b hb => ?_).trans (List.map_id bs)
      have hlt := hbs b hb
      exact toNat_ofNat_byte (by omega)
    refine ⟨by rw [List.length_map, hlen], ?_, by rwa [codeDistance, hback]⟩
    intro b hb
    obtain ⟨n, hn, rfl⟩ := List.mem_map.mp hb
    have hlt := hbs n hn
    rwa [toNat_ofNat_byte (by omega)]
  · rintro ⟨hlen, hkey, hdist⟩
    refine ⟨key.map UInt8.toNat, by rw [List.length_map, hlen], ?_, hdist, ?_⟩
    · intro n hn
      obtain ⟨b, hb, rfl⟩ := List.mem_map.mp hn
      exact hkey b hb
    · rw [List.map_map]
      exact ((List.map_congr_left fun b _ => UInt8.ofNat_toNat).trans (List.map_id key)).symm

theorem InBall.mono {center key : RegionKey} {radius radius' : Int} (h : InBall c center radius key)
    (hle : radius ≤ radius') : InBall c center radius' key := by
  obtain ⟨bs, hlen, hbs, hdist, hkey⟩ := h
  exact ⟨bs, hlen, hbs, hdist.trans hle, hkey⟩

end PcaUtils

end QvCache
