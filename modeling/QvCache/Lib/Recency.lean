/-
  QvCache.Lib.Recency

  What a list kept by moving the accessed element to its front says about the
  log of accesses: it lists each element of the log once, and of two elements
  the one in front has been accessed since the last access of the other.  So
  its last element is the one whose last access is the oldest.
-/

import Mathlib.Data.List.Nodup
import Mathlib.Data.List.Induction

namespace Recency

variable {α : Type*}

/-- `a` has been accessed since the last access of `b`. -/
def Since (log : List α) (a b : α) : Prop :=
  ∃ before after, log = before ++ b :: after ∧ b ∉ after ∧ a ∈ after

/-- The last access of `a` is the oldest: all others came after it. -/
def Oldest (log : List α) (a : α) : Prop :=
  a ∈ log ∧ ∀ b ∈ log, b ≠ a → Since log b a

/-- The log up to and after the last access of `a`. -/
theorem exists_last_access {log : List α} {a : α} (h : a ∈ log) :
    ∃ before after, log = before ++ a :: after ∧ a ∉ after := by
  induction log using List.reverseRecOn with
  | nil => cases h
  | append_singleton log b ih =>
    -- the last access is the last of the log, or an earlier one
    by_cases hab : a = b
    · exact ⟨log, [], hab ▸ rfl, List.not_mem_nil⟩
    · have hlog : a ∈ log := by
        rcases List.mem_append.mp h with hlog | hb
        · exact hlog
        · exact (hab (List.mem_singleton.mp hb)).elim
      obtain ⟨before, after, rfl, hafter⟩ := ih hlog
      refine ⟨before, after ++ [b], by simp, ?_⟩
      rw [List.mem_append, List.mem_singleton]
      exact fun hmem => hmem.elim hafter hab

theorem Since.concat {log : List α} {a b c : α} (h : Since log a b) (hbc : b ≠ c) :
    Since (log ++ [c]) a b := by
  obtain ⟨before, after, rfl, hb, ha⟩ := h
  refine ⟨before, after ++ [c], by simp, ?_, List.mem_append_left _ ha⟩
  rw [List.mem_append, List.mem_singleton]
  exact fun hmem => hmem.elim hb hbc

/-- The last access comes after those of all others. -/
theorem Since.last {log : List α} {a b : α} (ha : a ∈ log) (hab : a ≠ b) :
    Since (log ++ [b]) b a := by
  obtain ⟨before, after, rfl, hafter⟩ := exists_last_access ha
  refine ⟨before, after ++ [b], by simp, ?_, List.mem_append_right _ (List.mem_singleton_self b)⟩
  rw [List.mem_append, List.mem_singleton]
  exact fun hmem => hmem.elim hafter hab

variable [DecidableEq α]

/-- Move to the front, or insert there. -/
def access (order : List α) (a : α) : List α := a :: order.erase a

theorem mem_access {order : List α} {a b : α} (h : b ∈ order) : b ∈ access order a := by
  by_cases hba : b = a
  · exact hba ▸ List.mem_cons_self
  · exact List.mem_cons_of_mem a ((List.mem_erase_of_ne hba).mpr h)

/-- Accessing different elements puts them in front, the last one first, and
    leaves the others in the order they had. -/
theorem foldl_access {accessed order : List α} (haccessed : accessed.Nodup) (horder : order.Nodup) :
    accessed.foldl access order =
      accessed.reverse ++ order.filter fun b => decide (b ∉ accessed) := by
  induction accessed using List.reverseRecOn with
  | nil => simp
  | append_singleton accessed a ih =>
    obtain ⟨hinit, -, hdisjoint⟩ := List.nodup_append.mp haccessed
    have ha : a ∉ accessed.reverse := fun hmem =>
      hdisjoint a (List.mem_reverse.mp hmem) a (List.mem_singleton_self a) rfl
    have hothers : (order.filter fun b => decide (b ∉ accessed)).erase a =
        order.filter fun b => decide (b ∉ accessed ++ [a]) := by
      rw [(horder.filter _).erase_eq_filter, List.filter_filter]
      refine List.filter_congr fun b _ => ?_
      rw [Bool.eq_iff_iff]
      simp [and_comm]
    rw [List.foldl_append, ih hinit, List.foldl_cons, List.foldl_nil, access,
      List.erase_append_right _ ha, hothers, List.reverse_append, List.reverse_singleton,
      List.singleton_append, List.cons_append]

/-- The order that a log of accesses leaves. -/
def order (log : List α) : List α := log.foldl access []

theorem order_append (log log' : List α) : order (log ++ log') = log'.foldl access (order log) :=
  List.foldl_append

theorem order_concat (log : List α) (a : α) : order (log ++ [a]) = a :: (order log).erase a :=
  order_append log [a]

theorem mem_order {log : List α} {a : α} : a ∈ order log ↔ a ∈ log := by
  induction log using List.reverseRecOn with
  | nil => exact Iff.rfl
  | append_singleton log b ih =>
    rw [order_concat, List.mem_cons, List.mem_append, List.mem_singleton, ← ih]
    by_cases hab : a = b
    · simp only [hab, true_or, or_true]
    · rw [List.mem_erase_of_ne hab, or_comm]

theorem nodup_order (log : List α) : (order log).Nodup := by
  induction log using List.reverseRecOn with
  | nil => exact List.nodup_nil
  | append_singleton log b ih =>
    rw [order_concat, List.nodup_cons]
    exact ⟨ih.not_mem_erase, ih.erase b⟩

/-- In the order, the one in front is the more recent one. -/
theorem pairwise_order (log : List α) : (order log).Pairwise (Since log) := by
  induction log using List.reverseRecOn with
  | nil => exact List.Pairwise.nil
  | append_singleton log c ih =>
    rw [order_concat, List.pairwise_cons]
    have hne : ∀ b ∈ (order log).erase c, b ≠ c := fun b hb heq =>
      (nodup_order log).not_mem_erase (heq ▸ hb)
    constructor
    · -- the new access comes after every last access of another element
      exact fun b hb => Since.last (mem_order.mp (List.mem_of_mem_erase hb)) (hne b hb)
    · refine (ih.sublist List.erase_sublist).imp_of_mem fun _ hb hsince => ?_
      exact hsince.concat (hne _ hb)

/-- The end of the order is the oldest. -/
theorem oldest_of_order {log front : List α} {a : α} (h : order log = front ++ [a]) :
    Oldest log a := by
  have hpairwise := pairwise_order log
  rw [h, List.pairwise_append] at hpairwise
  have hmem : ∀ {b}, b ∈ front ++ [a] ↔ b ∈ log := h ▸ mem_order
  refine ⟨hmem.mp (List.mem_append_right _ (List.mem_singleton_self a)), fun b hb hba => ?_⟩
  -- all others are in front of it
  rcases List.mem_append.mp (hmem.mpr hb) with hfront | hlast
  · exact hpairwise.2.2 b hfront a (List.mem_singleton_self a)
  · exact (hba (List.mem_singleton.mp hlast)).elim

end Recency
