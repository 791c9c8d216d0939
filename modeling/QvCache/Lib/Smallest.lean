/-
  QvCache.Lib.Smallest

  The K least elements of a list: the front of its sorted form (`least`), and
  how they change when the list grows by one element, which is what a bounded
  buffer rests on.  An element that is not in front of any of them changes
  nothing (`least_concat_of_not_rel`); one in front of the last of K takes its
  place (`least_concat_of_rel`).
-/

import Mathlib.Data.List.Sort

namespace Smallest

variable {α : Type} (r : α → α → Prop) [DecidableRel r]

/-- The `K` least elements, in order. -/
def least (K : Nat) (l : List α) : List α := (l.insertionSort r).take K

variable {r} {K : Nat} {l s : List α} {a b : α}

/-! ## Inserting into a sorted list -/

/-- An element that goes behind the first `K` leaves them alone. -/
theorem take_orderedInsert_of_not_rel (hK : K ≤ s.length) (h : ∀ x ∈ s.take K, ¬ r a x) :
    (s.orderedInsert r a).take K = s.take K := by
  induction s generalizing K with
  | nil =>
    obtain rfl := Nat.le_zero.mp hK
    rfl
  | cons c rest ih =>
    cases K with
    | zero => rfl
    | succ K =>
      have hc : ¬ r a c := h c List.mem_cons_self
      rw [List.orderedInsert_of_not_le r rest hc, List.take_succ_cons, List.take_succ_cons,
        ih (Nat.le_of_succ_le_succ hK) fun x hx => h x (List.mem_cons_of_mem c hx)]

/-- An element in front of place `K` takes the place of what stood there. -/
theorem take_orderedInsert_of_rel (hb : s[K]? = some b) (hab : r a b) :
    (s.orderedInsert r a).take (K + 1) = (s.take K).orderedInsert r a := by
  induction s generalizing K with
  | nil => cases hb
  | cons c rest ih =>
    cases K with
    | zero =>
      obtain rfl := Option.some.inj hb
      rw [List.orderedInsert_cons_of_le r rest hab]
      rfl
    | succ K =>
      rw [List.take_succ_cons]
      by_cases hac : r a c
      · rw [List.orderedInsert_cons_of_le r rest hac, List.orderedInsert_cons_of_le r _ hac,
          List.take_succ_cons, List.take_succ_cons]
      · rw [List.orderedInsert_of_not_le r rest hac, List.orderedInsert_of_not_le r _ hac,
          List.take_succ_cons, ih hb]

/-- What is behind place `K` does not matter to the first `K`. -/
theorem take_orderedInsert_take (K : Nat) (s : List α) (a : α) :
    ((s.take K).orderedInsert r a).take K = (s.orderedInsert r a).take K := by
  induction s generalizing K with
  | nil => rw [List.take_nil]
  | cons c rest ih =>
    cases K with
    | zero => rfl
    | succ K =>
      rw [List.take_succ_cons]
      by_cases hac : r a c
      · have hcut : (c :: rest.take K).take K = (c :: rest).take K := by
          rw [← List.take_succ_cons, List.take_take, Nat.min_eq_left (Nat.le_succ K)]
        rw [List.orderedInsert_cons_of_le r _ hac, List.orderedInsert_cons_of_le r _ hac,
          List.take_succ_cons, List.take_succ_cons, hcut]
      · rw [List.orderedInsert_of_not_le r _ hac, List.orderedInsert_of_not_le r _ hac,
          List.take_succ_cons, List.take_succ_cons, ih]

/-- The place of a new element in a sorted list. -/
theorem orderedInsert_append {front back : List α} (hfront : ∀ x ∈ front, ¬ r a x)
    (hback : ∀ x ∈ back, r a x) : (front ++ back).orderedInsert r a = front ++ a :: back := by
  induction front with
  | nil =>
    cases back with
    | nil => rfl
    | cons c rest => exact List.orderedInsert_cons_of_le r rest (hback c List.mem_cons_self)
  | cons c rest ih =>
    rw [List.cons_append, List.orderedInsert_of_not_le r _ (hfront c List.mem_cons_self),
      ih fun x hx => hfront x (List.mem_cons_of_mem c hx), List.cons_append]

/-! ## The least elements -/

theorem length_least : (least r K l).length = min K l.length := by
  rw [least, List.length_take, List.length_insertionSort]

theorem mem_of_mem_least (h : a ∈ least r K l) : a ∈ l :=
  (List.mem_insertionSort r).mp (List.mem_of_mem_take h)

theorem least_of_length_le (h : l.length ≤ K) : least r K l = l.insertionSort r := by
  rw [least, List.take_of_length_le (by rwa [List.length_insertionSort])]

/-- What is different in the list is different among the least. -/
theorem nodup_map_least {β : Type} {f : α → β} (h : (l.map f).Nodup) :
    ((least r K l).map f).Nodup := by
  have hsorted : ((l.insertionSort r).map f).Nodup :=
    ((List.perm_insertionSort r l).map f).nodup_iff.mpr h
  exact hsorted.sublist ((List.take_sublist K _).map f)

section Ordered

variable [Std.Total r] [IsTrans α r]

theorem pairwise_least : (least r K l).Pairwise r :=
  (List.pairwise_insertionSort r l).sublist (List.take_sublist K _)

/-- No element left out is in front of one that was kept. -/
theorem rel_of_not_mem_least (ha : a ∈ least r K l) (hb : b ∈ l) (hout : b ∉ least r K l) :
    r a b := by
  have hpairwise := List.pairwise_insertionSort r l
  rw [← List.take_append_drop K (l.insertionSort r), List.pairwise_append] at hpairwise
  have hmem : b ∈ (l.insertionSort r).take K ++ (l.insertionSort r).drop K := by
    rw [List.take_append_drop]
    exact (List.mem_insertionSort r).mpr hb
  rcases List.mem_append.mp hmem with hin | hrest
  · exact absurd hin hout
  · exact hpairwise.2.2 a ha b hrest

variable [Std.Antisymm r]

/-- A sorted arrangement is the only one. -/
theorem insertionSort_eq_of_perm (hperm : s.Perm l) (hs : s.Pairwise r) :
    l.insertionSort r = s :=
  ((List.perm_insertionSort r l).trans hperm.symm).eq_of_pairwise'
    (List.pairwise_insertionSort r l) hs

/-- Sorting one more element. -/
theorem insertionSort_concat :
    (l ++ [a]).insertionSort r = (l.insertionSort r).orderedInsert r a := by
  refine insertionSort_eq_of_perm ?_ ((List.pairwise_insertionSort r l).orderedInsert a _)
  have hgrow : ((l.insertionSort r).orderedInsert r a).Perm (a :: l) :=
    (List.perm_orderedInsert r a _).trans ((List.perm_insertionSort r l).cons a)
  exact hgrow.trans (List.perm_append_singleton a l).symm

theorem least_concat_of_not_rel (hK : K ≤ l.length) (h : ∀ x ∈ least r K l, ¬ r a x) :
    least r K (l ++ [a]) = least r K l := by
  rw [least, insertionSort_concat]
  exact take_orderedInsert_of_not_rel (by rwa [List.length_insertionSort]) h

theorem least_concat_of_rel {front : List α} (hfull : least r (K + 1) l = front ++ [b])
    (hlen : front.length = K) (hab : r a b) :
    least r (K + 1) (l ++ [a]) = (front ++ [a]).insertionSort r := by
  have hsorted : (front ++ [b]).Pairwise r := hfull ▸ pairwise_least
  have hfront : (l.insertionSort r).take K = front := by
    have htake := congrArg (List.take K) hfull
    rwa [least, List.take_take, Nat.min_eq_left (Nat.le_succ K), List.take_left' hlen] at htake
  have hlast : (l.insertionSort r)[K]? = some b := by
    rw [← List.getElem?_take_of_lt (Nat.lt_succ_self K)]
    show (least r (K + 1) l)[K]? = some b
    rw [hfull, ← hlen, List.getElem?_concat_length]
  rw [least, insertionSort_concat, take_orderedInsert_of_rel hlast hab, hfront,
    insertionSort_concat, (List.pairwise_append.mp hsorted).1.insertionSort_eq]

end Ordered

end Smallest
