/-
  QvCache.Lib.Slots

  Threads in a list, one of which changes.  A slot `w` that holds `x` splits
  the list into `x` and the others, and writing to the slot leaves the others
  alone; what is counted or collected over all slots follows from that.
-/

import Mathlib.Data.List.Perm.Basic

namespace Slots

variable {α β : Type*} {l : List α} {w : Nat} {x : α}

theorem perm_others (h : l[w]? = some x) : l.Perm (x :: l.eraseIdx w) := by
  obtain ⟨hlt, rfl⟩ := List.getElem?_eq_some_iff.mp h
  exact (List.getElem_cons_eraseIdx_perm hlt).symm

theorem set_perm_others (h : l[w]? = some x) (y : α) : (l.set w y).Perm (y :: l.eraseIdx w) := by
  obtain ⟨hlt, _⟩ := List.getElem?_eq_some_iff.mp h
  exact List.set_perm_cons_eraseIdx hlt y

theorem mem_set_iff (h : l[w]? = some x) (y z : α) : z ∈ l.set w y ↔ z = y ∨ z ∈ l.eraseIdx w := by
  rw [(set_perm_others h y).mem_iff, List.mem_cons]

theorem mem_of_mem_others {z : α} (h : z ∈ l.eraseIdx w) : z ∈ l := List.mem_of_mem_eraseIdx h

/-- The slot holds what was written to it. -/
theorem getElem?_set_of_some (h : l[w]? = some x) (y : α) : (l.set w y)[w]? = some y :=
  List.getElem?_set_self (List.getElem?_eq_some_iff.mp h).1

/-- The place of a slot, where it may be written to or removed. -/
theorem exists_split (h : l[w]? = some x) (y : α) :
    ∃ l₁ l₂, l = l₁ ++ x :: l₂ ∧ l.set w y = l₁ ++ y :: l₂ ∧ l.eraseIdx w = l₁ ++ l₂ := by
  induction l generalizing w with
  | nil => cases h
  | cons b rest ih =>
    cases w with
    | zero =>
      obtain rfl := Option.some.inj h
      exact ⟨[], rest, rfl, rfl, rfl⟩
    | succ w =>
      obtain ⟨l₁, l₂, hl, hset, herase⟩ := ih h
      refine ⟨b :: l₁, l₂, ?_, ?_, ?_⟩
      · rw [List.cons_append, ← hl]
      · rw [List.set_cons_succ, List.cons_append, hset]
      · rw [List.eraseIdx_cons_succ, List.cons_append, herase]

/-- Every slot is as it was, or is the one written to. -/
theorem getElem?_set_or (h : l[w]? = some x) (y : α) (v : Nat) :
    (l.set w y)[v]? = l[v]? ∨ w = v ∧ (l.set w y)[v]? = some y := by
  by_cases hwv : w = v
  · exact Or.inr ⟨hwv, hwv ▸ getElem?_set_of_some h y⟩
  · exact Or.inl (List.getElem?_set_ne hwv)

/-- What a slot holds now was written to it or was there. -/
theorem eq_or_of_getElem?_set {y z : α} {v : Nat} (h : (l.set w y)[v]? = some z) :
    (w = v ∧ z = y) ∨ l[v]? = some z := by
  rw [List.getElem?_set] at h
  split_ifs at h with hwv
  · exact Or.inl ⟨hwv, (Option.some.inj h).symm⟩
  · exact Or.inr h

/-- Something else than what the slot held is still there. -/
theorem mem_set_of_ne {y z : α} (hz : z ∈ l) (h : l[w]? = some x) (hne : z ≠ x) :
    z ∈ l.set w y := by
  rw [(perm_others h).mem_iff, List.mem_cons] at hz
  exact (mem_set_iff h y z).mpr (Or.inr (hz.resolve_left hne))

/-- What the slot did not witness still has its witness. -/
theorem exists_mem_set {P : α → Prop} (h : l[w]? = some x) (hx : ¬ P x) (y : α)
    (hl : ∃ z ∈ l, P z) : ∃ z ∈ l.set w y, P z := by
  obtain ⟨z, hz, hP⟩ := hl
  exact ⟨z, mem_set_of_ne hz h fun heq => hx (heq ▸ hP), hP⟩

theorem forall_mem_set {P : α → Prop} {y : α} (hl : ∀ z ∈ l, P z) (hy : P y) :
    ∀ z ∈ l.set w y, P z := by
  intro z hz
  rcases List.mem_or_eq_of_mem_set hz with hold | rfl
  · exact hl z hold
  · exact hy

/-- What is collected over the slots changes by what the one slot gives. -/
theorem filterMap_set (f : α → Option β) (h : l[w]? = some x) (y : α) :
    ((f x).toList ++ (l.set w y).filterMap f).Perm ((f y).toList ++ l.filterMap f) := by
  -- before and after, the list is one slot next to the same others
  have hold : (l.filterMap f).Perm ((f x).toList ++ (l.eraseIdx w).filterMap f) := by
    refine ((perm_others h).filterMap f).trans (List.Perm.of_eq ?_)
    rw [List.filterMap_cons]
    cases f x <;> rfl
  have hnew : ((l.set w y).filterMap f).Perm ((f y).toList ++ (l.eraseIdx w).filterMap f) := by
    refine ((set_perm_others h y).filterMap f).trans (List.Perm.of_eq ?_)
    rw [List.filterMap_cons]
    cases f y <;> rfl
  refine (hnew.append_left _).trans (List.Perm.trans ?_ (hold.append_left _).symm)
  rw [← List.append_assoc, ← List.append_assoc]
  exact List.perm_append_comm.append_right _

/-- Two slots that collect nothing are alike. -/
theorem filterMap_set_of_none {f : α → Option β} {y : α} (h : l[w]? = some x) (hx : f x = none)
    (hy : f y = none) : ((l.set w y).filterMap f).Perm (l.filterMap f) := by
  have hperm := filterMap_set f h y
  rw [hx, hy] at hperm
  exact hperm

theorem countP_set (p : α → Bool) (h : l[w]? = some x) (y : α) :
    (l.set w y).countP p + (if p x then 1 else 0) = l.countP p + if p y then 1 else 0 := by
  rw [(set_perm_others h y).countP_eq, (perm_others h).countP_eq, List.countP_cons,
    List.countP_cons]
  omega

end Slots
