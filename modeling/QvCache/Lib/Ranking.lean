/-
  QvCache.Lib.Ranking

  Sorting by a key when the order of equal keys is not specified, and what a
  cut after the first K elements can be relied on for.

  A `Sorter` is any function that permutes a list into nondecreasing keys, so a
  theorem about every `Sorter` holds of `std::sort` whatever it does with ties.
  The keys of the result and the K-th key do not depend on the sorter
  (`map_key_eq_of_perm`, `kthKey_run`), and neither do the elements below it
  (`mem_take_iff_of_perm`).  Whether an unwanted element is among the first
  K may: `clean_of_far` and `wanted_of_clean` bound it for every sorter, and
  `tieBreak` attains both bounds (`tieBreak_unclean`, `tieBreak_clean`).
-/

import Mathlib.Data.List.Sort
import Mathlib.Data.List.Nodup
import Mathlib.Data.Prod.Lex
import Mathlib.Order.Lattice

variable {α κ : Type} [LinearOrder κ]

/-- A permutation of every list into nondecreasing keys. -/
structure Sorter (key : α → κ) where
  run : List α → List α
  perm : ∀ l, (run l).Perm l
  sorted : ∀ l, (run l).Pairwise fun a b => key a ≤ key b

/-- The K-th smallest key of a list, counted from 1. -/
def kthKey (key : α → κ) (l : List α) (K : Nat) : Option κ :=
  ((l.map key).insertionSort (· ≤ ·))[K - 1]?

/-! ## Sorted lists -/

section Sorted

variable {key : α → κ} {l : List α} {K : Nat} {y : κ}

/-- Two sorted arrangements of one list have the same keys in the same places. -/
theorem map_key_eq_of_perm {l₁ l₂ : List α} (hperm : l₁.Perm l₂)
    (h₁ : l₁.Pairwise fun a b => key a ≤ key b) (h₂ : l₂.Pairwise fun a b => key a ≤ key b) :
    l₁.map key = l₂.map key :=
  (hperm.map key).eq_of_pairwise (fun _ _ _ _ hab hba => le_antisymm hab hba)
    (List.pairwise_map.mpr h₁) (List.pairwise_map.mpr h₂)

/-- Two positions of a sorted list. -/
theorem key_le_of_getElem? (hs : l.Pairwise fun a b => key a ≤ key b) {i j : Nat} {x z : α}
    (hi : l[i]? = some x) (hj : l[j]? = some z) (hij : i ≤ j) : key x ≤ key z := by
  obtain ⟨hi', rfl⟩ := List.getElem?_eq_some_iff.mp hi
  obtain ⟨hj', rfl⟩ := List.getElem?_eq_some_iff.mp hj
  rcases Nat.lt_or_eq_of_le hij with hlt | rfl
  · exact List.pairwise_iff_getElem.mp hs i j hi' hj' hlt
  · exact le_refl _

/-- The first K elements have at most the K-th key. -/
theorem key_le_of_mem_take (hs : l.Pairwise fun a b => key a ≤ key b)
    (hk : (l.map key)[K - 1]? = some y) {x : α} (hx : x ∈ l.take K) : key x ≤ y := by
  obtain ⟨i, hi⟩ := List.getElem?_of_mem hx
  rw [List.getElem?_take] at hi
  split_ifs at hi with hiK
  rw [List.getElem?_map, Option.map_eq_some_iff] at hk
  obtain ⟨z, hz, rfl⟩ := hk
  exact key_le_of_getElem? hs hi hz (by omega)

/-- Every element below the K-th key is among the first K. -/
theorem mem_take_of_lt (hs : l.Pairwise fun a b => key a ≤ key b)
    (hk : (l.map key)[K - 1]? = some y) (hK : 1 ≤ K) {x : α} (hx : x ∈ l) (hlt : key x < y) :
    x ∈ l.take K := by
  obtain ⟨i, hi⟩ := List.getElem?_of_mem hx
  rw [List.getElem?_map, Option.map_eq_some_iff] at hk
  obtain ⟨z, hz, rfl⟩ := hk
  by_cases hiK : i < K
  · refine List.mem_of_getElem? (i := i) ?_
    rw [List.getElem?_take, if_pos hiK, hi]
  · exact absurd (key_le_of_getElem? hs hz hi (by omega)) (not_le.mpr hlt)

/-- Elements that occur only in front of a place are at most as many. -/
theorem countP_le_of_drop {p : α → Bool} {j : Nat} (h : ∀ x ∈ l.drop j, p x = false) :
    l.countP p ≤ j := by
  have hdrop : (l.drop j).countP p = 0 := by
    rw [List.countP_eq_zero]
    intro x hx
    rw [h x hx]
    exact Bool.false_ne_true
  have hsplit : l.countP p = (l.take j).countP p + (l.drop j).countP p := by
    rw [← List.countP_append, List.take_append_drop]
  have htake := (l.take j).countP_le_length (p := p)
  rw [List.length_take] at htake
  omega

/-- An element among the first K has fewer than K elements below its key. -/
theorem countP_lt_of_mem_take (hs : l.Pairwise fun a b => key a ≤ key b) {x : α}
    (hx : x ∈ l.take K) : l.countP (fun z => decide (key z < key x)) < K := by
  obtain ⟨i, hi⟩ := List.getElem?_of_mem hx
  rw [List.getElem?_take] at hi
  split_ifs at hi with hiK
  refine lt_of_le_of_lt (countP_le_of_drop (j := i) fun z hz => ?_) hiK
  obtain ⟨j, hj⟩ := List.getElem?_of_mem hz
  rw [List.getElem?_drop] at hj
  exact decide_eq_false (not_lt.mpr (key_le_of_getElem? hs hi hj (by omega)))

/-- K elements with keys up to `b` push the K-th key down to `b`. -/
theorem kth_le_of_countP (hs : l.Pairwise fun a b => key a ≤ key b)
    (hk : (l.map key)[K - 1]? = some y) (hK : 1 ≤ K) {b : κ}
    (hcount : K ≤ l.countP fun x => decide (key x ≤ b)) : y ≤ b := by
  by_contra hlt
  have hbefore : l.countP (fun x => decide (key x ≤ b)) ≤ K - 1 := by
    refine countP_le_of_drop fun x hx => ?_
    obtain ⟨i, hi⟩ := List.getElem?_of_mem hx
    rw [List.getElem?_drop] at hi
    rw [List.getElem?_map, Option.map_eq_some_iff] at hk
    obtain ⟨z, hz, rfl⟩ := hk
    have hle := key_le_of_getElem? hs hz hi (by omega)
    exact decide_eq_false (not_le.mpr (lt_of_lt_of_le (not_le.mp hlt) hle))
  omega

/-- Below a key that occurs among the first K, the first K of two sorted
    arrangements are the same elements. -/
theorem mem_take_iff_of_perm {l₁ l₂ : List α} (hperm : l₁.Perm l₂)
    (h₁ : l₁.Pairwise fun a b => key a ≤ key b) (h₂ : l₂.Pairwise fun a b => key a ≤ key b)
    {x z : α} (hz : z ∈ l₁.take K) (hlt : key x < key z) : x ∈ l₁.take K ↔ x ∈ l₂.take K := by
  have hK : 1 ≤ K := by
    rcases Nat.eq_zero_or_pos K with rfl | hpos
    · cases hz
    · exact hpos
  have hkeys := map_key_eq_of_perm hperm h₁ h₂
  cases hk : (l₁.map key)[K - 1]? with
  | none =>
    -- fewer than K elements: nothing is cut
    rw [List.getElem?_eq_none_iff, List.length_map] at hk
    rw [List.take_of_length_le (by omega),
      List.take_of_length_le (by rw [← hperm.length_eq]; omega)]
    exact hperm.mem_iff
  | some y =>
    have hxy : key x < y := lt_of_lt_of_le hlt (key_le_of_mem_take h₁ hk hz)
    constructor
    · intro hx
      exact mem_take_of_lt h₂ (hkeys ▸ hk) hK (hperm.mem_iff.mp (List.mem_of_mem_take hx)) hxy
    · intro hx
      exact mem_take_of_lt h₁ hk hK (hperm.mem_iff.mpr (List.mem_of_mem_take hx)) hxy

/-! ## The K-th key -/

/-- Any sorted arrangement has the K-th key in place K. -/
theorem getElem?_map_eq_kthKey {l₁ l₂ : List α} (hperm : l₁.Perm l₂)
    (hs : l₁.Pairwise fun a b => key a ≤ key b) (K : Nat) :
    (l₁.map key)[K - 1]? = kthKey key l₂ K := by
  have hsorted : l₁.map key = (l₂.map key).insertionSort (· ≤ ·) :=
    ((hperm.map key).trans (List.perm_insertionSort _ _).symm).eq_of_pairwise
      (fun _ _ _ _ hab hba => le_antisymm hab hba) (List.pairwise_map.mpr hs)
      (List.pairwise_insertionSort _ _)
  rw [hsorted, kthKey]

/-- The K-th key depends on the keys only, in whatever order. -/
theorem kthKey_congr {β : Type} {key' : β → κ} {l' : List β}
    (h : (l.map key).Perm (l'.map key')) (K : Nat) : kthKey key l K = kthKey key' l' K := by
  have hsorted : (l.map key).insertionSort (· ≤ ·) = (l'.map key').insertionSort (· ≤ ·) :=
    (((List.perm_insertionSort _ _).trans h).trans (List.perm_insertionSort _ _).symm).eq_of_pairwise
      (fun _ _ _ _ hab hba => le_antisymm hab hba) (List.pairwise_insertionSort _ _)
      (List.pairwise_insertionSort _ _)
  rw [kthKey, kthKey, hsorted]

theorem kthKey_eq_none_iff (hK : 1 ≤ K) : kthKey key l K = none ↔ l.length < K := by
  rw [kthKey, List.getElem?_eq_none_iff, List.length_insertionSort, List.length_map]
  omega

/-! ## Keeping unwanted elements out -/

variable {bad : α → Bool}

/-- Unwanted elements beyond the K-th key are never among the first K. -/
theorem clean_of_far (hs : l.Pairwise fun a b => key a ≤ key b)
    (hk : (l.map key)[K - 1]? = some y) (hfar : ∀ x ∈ l, bad x = true → y < key x) :
    ∀ x ∈ l.take K, bad x = false := by
  intro x hx
  rw [Bool.eq_false_iff]
  intro hbad
  exact absurd (key_le_of_mem_take hs hk hx) (not_le.mpr (hfar x (List.mem_of_mem_take hx) hbad))

/-- If the first K elements are all wanted, no unwanted one is below the K-th
    key and K wanted ones are within it. -/
theorem wanted_of_clean (hs : l.Pairwise fun a b => key a ≤ key b)
    (hk : (l.map key)[K - 1]? = some y) (hK : 1 ≤ K) (hclean : ∀ x ∈ l.take K, bad x = false) :
    (∀ x ∈ l, bad x = true → y ≤ key x) ∧
      K ≤ l.countP fun x => !bad x && decide (key x ≤ y) := by
  constructor
  · intro x hx hbad
    by_contra hlt
    have hfalse := hclean x (mem_take_of_lt hs hk hK hx (not_le.mp hlt))
    rw [hbad] at hfalse
    cases hfalse
  · have hall : (l.take K).countP (fun x => !bad x && decide (key x ≤ y)) = (l.take K).length := by
      rw [List.countP_eq_length]
      intro x hx
      simp [hclean x hx, key_le_of_mem_take hs hk hx]
    have hlen : (l.take K).length = K := by
      obtain ⟨hlt, _⟩ := List.getElem?_eq_some_iff.mp hk
      rw [List.length_map] at hlt
      rw [List.length_take]
      omega
    rw [← hlen, ← hall]
    exact (List.take_sublist K l).countP_le

end Sorted

namespace Sorter

variable {key : α → κ}

/-- The K-th key of the result does not depend on the sorter. -/
theorem kthKey_run (s : Sorter key) (l : List α) (K : Nat) :
    ((s.run l).map key)[K - 1]? = kthKey key l K :=
  getElem?_map_eq_kthKey (s.perm l) (s.sorted l) K

/-! ## Breaking ties -/

/-- Sort by the key, and equal keys by a rank. -/
def tieRank {ρ : Type} [LinearOrder ρ] (key : α → κ) (rank : α → ρ) : Sorter key where
  run l := l.insertionSort fun a b => toLex (key a, rank a) ≤ toLex (key b, rank b)
  perm l := List.perm_insertionSort _ l
  sorted l := by
    refine (List.pairwise_insertionSort
      (fun a b => toLex (key a, rank a) ≤ toLex (key b, rank b)) l).imp ?_
    intro a b h
    rcases Prod.Lex.le_iff.mp h with h | h
    · exact le_of_lt h
    · exact le_of_eq h.1

/-- Among equal keys, ranks do not decrease. -/
theorem rank_le_of_tieRank {ρ : Type} [LinearOrder ρ] (rank : α → ρ) {l : List α} {i j : Nat}
    {x z : α} (hi : ((tieRank key rank).run l)[i]? = some x)
    (hj : ((tieRank key rank).run l)[j]? = some z) (hij : i < j) (hkey : key x = key z) :
    rank x ≤ rank z := by
  have hlex := List.pairwise_insertionSort
    (fun a b => toLex (key a, rank a) ≤ toLex (key b, rank b)) l
  have hmap : ((tieRank key rank).run l).Pairwise
      fun a b => toLex (key a, rank a) ≤ toLex (key b, rank b) := hlex
  obtain ⟨hi', rfl⟩ := List.getElem?_eq_some_iff.mp hi
  obtain ⟨hj', rfl⟩ := List.getElem?_eq_some_iff.mp hj
  rcases Prod.Lex.le_iff.mp (List.pairwise_iff_getElem.mp hmap i j hi' hj' hij) with h | h
  · exact absurd hkey (ne_of_lt h)
  · exact h.2

/-- Sort by the key, and among equal keys the elements with `first` in front. -/
def tieBreak (key : α → κ) (first : α → Bool) : Sorter key where
  run l := l.insertionSort fun a b => toLex (key a, !first a) ≤ toLex (key b, !first b)
  perm l := List.perm_insertionSort _ l
  sorted l := (tieRank key fun a => !first a).sorted l

/-- Among equal keys, an element with `first` never follows one without. -/
theorem tieBreak_first (first : α → Bool) {l : List α} {i j : Nat} {x z : α}
    (hi : ((tieBreak key first).run l)[i]? = some x)
    (hj : ((tieBreak key first).run l)[j]? = some z) (hij : i < j) (hkey : key x = key z)
    (hz : first z = true) : first x = true := by
  have hflag := rank_le_of_tieRank (fun a => !first a) hi hj hij hkey
  rw [hz] at hflag
  by_contra hne
  rw [Bool.not_eq_true] at hne
  rw [hne] at hflag
  exact absurd hflag (by decide)

/-- An element with fewer than K elements below its key, and the least rank on
    it, is among the first K. -/
theorem mem_take_tieRank {ρ : Type} [LinearOrder ρ] {rank : α → ρ} {l : List α} {x : α} {K : Nat}
    (hx : x ∈ l) (hfirst : ∀ y ∈ l, key y = key x → y ≠ x → rank x < rank y)
    (hcount : l.countP (fun y => decide (key y < key x)) < K) :
    x ∈ ((tieRank key rank).run l).take K := by
  set s := tieRank key rank with hs
  have hmem : x ∈ s.run l := (s.perm l).mem_iff.mpr hx
  obtain ⟨j, hj⟩ := List.getElem?_of_mem hmem
  by_contra hnot
  have hK : K ≤ j := by
    by_contra hlt
    refine hnot (List.mem_of_getElem? (i := j) ?_)
    rw [List.getElem?_take, if_pos (by omega), hj]
  -- the K elements in front of it are all below its key
  have hall : ((s.run l).take K).countP (fun y => decide (key y < key x)) =
      ((s.run l).take K).length := by
    rw [List.countP_eq_length]
    intro y hy
    obtain ⟨i, hi⟩ := List.getElem?_of_mem hy
    rw [List.getElem?_take] at hi
    split_ifs at hi with hiK
    have hle := key_le_of_getElem? (s.sorted l) hi hj (by omega)
    rcases lt_or_eq_of_le hle with hlt | heq
    · exact decide_eq_true hlt
    · have hne : y ≠ x := fun h => hnot (h ▸ hy)
      have hyl : y ∈ l := (s.perm l).mem_iff.mp (List.mem_of_getElem? hi)
      have hrank := rank_le_of_tieRank rank hi hj (by omega) heq
      exact absurd hrank (not_le.mpr (hfirst y hyl heq hne))
  obtain ⟨hjlen, _⟩ := List.getElem?_eq_some_iff.mp hj
  rw [List.length_take, Nat.min_eq_left (by omega)] at hall
  have hle := (List.take_sublist K (s.run l)).countP_le (p := fun y => decide (key y < key x))
  rw [(s.perm l).countP_eq] at hle
  omega

/-- With ties broken for them, the unwanted elements within the K-th key do get
    among the first K. -/
theorem tieBreak_unclean {bad : α → Bool} {l : List α} {K : Nat} {y : κ} (hK : 1 ≤ K)
    (hk : kthKey key l K = some y) {x : α} (hx : x ∈ l) (hbad : bad x = true) (hle : key x ≤ y) :
    ∃ z ∈ ((tieBreak key bad).run l).take K, bad z = true := by
  have hk' := ((tieBreak key bad).kthKey_run l K).trans hk
  by_contra hclean
  have hclean' : ∀ z ∈ ((tieBreak key bad).run l).take K, bad z = false := by
    intro z hz
    rw [Bool.eq_false_iff]
    exact fun hb => hclean ⟨z, hz, hb⟩
  have hkey : key x = y :=
    le_antisymm hle ((wanted_of_clean ((tieBreak key bad).sorted l) hk' hK hclean').1 x
      (((tieBreak key bad).perm l).mem_iff.mpr hx) hbad)
  rw [List.getElem?_map, Option.map_eq_some_iff] at hk'
  obtain ⟨w, hw, rfl⟩ := hk'
  obtain ⟨j, hj⟩ := List.getElem?_of_mem (((tieBreak key bad).perm l).mem_iff.mpr hx)
  have hwbad : bad w = true := by
    rcases Nat.lt_trichotomy j (K - 1) with hlt | rfl | hlt
    · exact absurd ⟨x, List.mem_of_getElem? (i := j) (by
        rw [List.getElem?_take, if_pos (by omega), hj]), hbad⟩ hclean
    · rw [hw] at hj
      exact (Option.some.inj hj) ▸ hbad
    · exact tieBreak_first bad hw hj hlt hkey.symm hbad
  exact hclean ⟨w, List.mem_of_getElem? (i := K - 1) (by
    rw [List.getElem?_take, if_pos (by omega), hw]), hwbad⟩

/-- With ties broken against them, unwanted elements stay out of the first K if
    none is below the K-th key and K wanted ones are within it. -/
theorem tieBreak_clean {bad : α → Bool} {l : List α} {K : Nat} {y : κ}
    (hk : kthKey key l K = some y) (hfar : ∀ x ∈ l, bad x = true → y ≤ key x)
    (hcount : K ≤ l.countP fun x => !bad x && decide (key x ≤ y)) :
    ∀ x ∈ ((tieBreak key fun a => !bad a).run l).take K, bad x = false := by
  intro x hx
  set s := tieBreak key fun a => !bad a with hs
  have hk' := (s.kthKey_run l K).trans hk
  rw [Bool.eq_false_iff]
  intro hbad
  obtain ⟨j, hj⟩ := List.getElem?_of_mem hx
  rw [List.getElem?_take] at hj
  split_ifs at hj with hjK
  have hkey : key x = y :=
    le_antisymm (key_le_of_mem_take (s.sorted l) hk' hx)
      (hfar x ((s.perm l).mem_iff.mp (List.mem_of_mem_take hx)) hbad)
  -- from `x` on there is no wanted element within the K-th key
  have hbefore : (s.run l).countP (fun x => !bad x && decide (key x ≤ y)) ≤ j := by
    refine countP_le_of_drop fun z hz => ?_
    obtain ⟨i, hi⟩ := List.getElem?_of_mem hz
    rw [List.getElem?_drop] at hi
    rw [Bool.eq_false_iff]
    intro hgood
    obtain ⟨hgood, hle⟩ := by simpa only [Bool.and_eq_true, Bool.not_eq_true', decide_eq_true_eq]
      using hgood
    have hge := key_le_of_getElem? (s.sorted l) hj hi (by omega)
    have heq : key x = key z := le_antisymm hge (hkey ▸ hle)
    rcases Nat.eq_zero_or_pos i with rfl | hpos
    · rw [Nat.add_zero, hj] at hi
      rw [Option.some.inj hi, hgood] at hbad
      cases hbad
    · have hfirst := tieBreak_first (fun a => !bad a) hj hi (by omega) heq (by simp [hgood])
      rw [hbad] at hfirst
      cases hfirst
  rw [(s.perm l).countP_eq] at hbefore
  omega

end Sorter
