/-
  QvCache.Lib.Beam

  Best-first search of a graph with a bounded buffer.  The nodes are their own
  sort keys, a linear order.  A search remembers the nodes it has seen and the
  nodes it has expanded; the buffer is the `K` least nodes seen (`nearest`), and
  a step expands the least unexpanded node of the buffer.

    * `Sound` is the invariant: what is expanded has all its successors seen,
      and what is seen is reached;
    * `Sound.local_best` and `Sound.exhaustive` are what a finished search has
      found: a local optimum always, and everything reachable if the buffer
      never had to leave a node out;
    * `finished_search` bounds the number of steps by the size of the graph.
-/

import Mathlib.Data.Finset.Sort
import Mathlib.Logic.Relation
import QvCache.Lib.Smallest

namespace Beam

variable {κ : Type} [LinearOrder κ]

/-! ## The buffer -/

/-- The `K` least elements of a finite set, in order. -/
def nearest (K : ℕ) (S : Finset κ) : List κ := S.sort.take K

variable {K : ℕ} {S : Finset κ} {a b : κ}

theorem length_nearest : (nearest K S).length = min K S.card := by
  rw [nearest, List.length_take, Finset.length_sort]

theorem mem_of_mem_nearest (h : a ∈ nearest K S) : a ∈ S :=
  (Finset.mem_sort _).mp (List.mem_of_mem_take h)

theorem pairwise_nearest : (nearest K S).Pairwise (· < ·) :=
  S.sortedLT_sort.pairwise.sublist (List.take_sublist K _)

theorem nodup_nearest : (nearest K S).Nodup :=
  (S.sort_nodup _).sublist (List.take_sublist K _)

/-- No element left out is in front of one that was kept. -/
theorem lt_of_not_mem_nearest (ha : a ∈ nearest K S) (hb : b ∈ S) (hout : b ∉ nearest K S) :
    a < b := by
  have hpairwise := S.sortedLT_sort.pairwise
  rw [← List.take_append_drop K (S.sort (· ≤ ·)), List.pairwise_append] at hpairwise
  have hmem : b ∈ S.sort.take K ++ S.sort.drop K := by
    rw [List.take_append_drop]
    exact (Finset.mem_sort _).mpr hb
  rcases List.mem_append.mp hmem with hin | hrest
  · exact absurd hin hout
  · exact hpairwise.2.2 a ha b hrest

/-- Something is left out only by a full buffer. -/
theorem length_nearest_of_not_mem (hb : b ∈ S) (hout : b ∉ nearest K S) :
    (nearest K S).length = K := by
  by_contra hlen
  have hcard : S.card ≤ K := by
    rw [length_nearest] at hlen
    omega
  have hall : nearest K S = S.sort := by
    rw [nearest, List.take_of_length_le (by rwa [Finset.length_sort])]
  exact hout (hall ▸ (Finset.mem_sort _).mpr hb)

theorem mem_nearest_iff_of_card_le (h : S.card ≤ K) : a ∈ nearest K S ↔ a ∈ S := by
  rw [nearest, List.take_of_length_le (by rwa [Finset.length_sort]), Finset.mem_sort]

/-- Sorting one more element. -/
theorem sort_insert_of_not_mem (ha : a ∉ S) :
    (insert a S).sort = S.sort.orderedInsert (· ≤ ·) a := by
  refine List.Perm.eq_of_pairwise' (Finset.pairwise_sort _ _)
    ((Finset.pairwise_sort S (· ≤ ·)).orderedInsert a _) ?_
  have hnew : (insert a S).sort.Perm (a :: S.sort) :=
    ((Finset.sort_perm_toList _ _).trans (Finset.toList_insert ha)).trans
      ((Finset.sort_perm_toList S (· ≤ ·)).symm.cons a)
  exact hnew.trans (List.perm_orderedInsert _ a _).symm

/-- The buffer after one more element: sorted in, then cut. -/
theorem nearest_insert (ha : a ∉ S) :
    nearest K (insert a S) = ((nearest K S).orderedInsert (· ≤ ·) a).take K := by
  rw [nearest, nearest, sort_insert_of_not_mem ha, Smallest.take_orderedInsert_take]

/-- A full buffer that is in front of an element does not take it. -/
theorem nearest_insert_of_behind (ha : a ∉ S) (hfull : (nearest K S).length = K)
    (hbehind : ∀ x ∈ nearest K S, x < a) : nearest K (insert a S) = nearest K S := by
  have hcut : ∀ x ∈ (nearest K S).take K, ¬ a ≤ x :=
    fun x hx => not_le.mpr (hbehind x (List.mem_of_mem_take hx))
  rw [nearest_insert ha, Smallest.take_orderedInsert_of_not_rel hfull.ge hcut,
    List.take_of_length_le hfull.le]

/-! ## The search -/

/-- The nodes seen, and those of them that were expanded. -/
structure State (κ : Type) where
  seen : Finset κ
  expanded : Finset κ

/-- The next node to expand: the least of the buffer that was not yet. -/
def next (K : ℕ) (s : State κ) : Option κ := (nearest K s.seen).find? fun a => a ∉ s.expanded

section Graph

variable (succs : κ → Finset κ)

/-- Expanding a node: all its successors are seen. -/
def expand (s : State κ) (a : κ) : State κ := ⟨s.seen ∪ succs a, insert a s.expanded⟩

/-- The search, for as many steps as there is fuel. -/
def search (K : ℕ) : ℕ → State κ → State κ
  | 0, s => s
  | fuel + 1, s =>
    match next K s with
    | none => s
    | some a => search K fuel (expand succs s a)

/-- `b` is reached from `a`. -/
def Reaches (a b : κ) : Prop := Relation.ReflTransGen (fun a b => b ∈ succs a) a b

/-- What holds throughout a search from the nodes `init`. -/
structure Sound (init : Finset κ) (s : State κ) : Prop where
  expanded_subset : s.expanded ⊆ s.seen
  closed : ∀ a ∈ s.expanded, succs a ⊆ s.seen
  init_subset : init ⊆ s.seen
  reached : ∀ b ∈ s.seen, ∃ a ∈ init, Reaches succs a b

/-- Every node of the buffer was expanded. -/
def Finished (K : ℕ) (s : State κ) : Prop := ∀ a ∈ nearest K s.seen, a ∈ s.expanded

variable {succs} {init U : Finset κ} {s : State κ}

theorem next_eq_none_iff : next K s = none ↔ Finished K s := by
  simp [next, Finished, List.find?_eq_none]

/-- The node to expand is in the buffer, not yet expanded, and the least such. -/
theorem next_spec (h : next K s = some a) :
    a ∈ nearest K s.seen ∧ a ∉ s.expanded ∧
      ∀ b ∈ nearest K s.seen, b ∉ s.expanded → a ≤ b := by
  have hnew : a ∉ s.expanded := by simpa using List.find?_some h
  refine ⟨List.mem_of_find?_eq_some h, hnew, ?_⟩
  intro b hb hbnew
  obtain ⟨-, front, back, hsplit, hfront⟩ := List.find?_eq_some_iff_append.mp h
  have hsorted : (front ++ a :: back).Pairwise (· < ·) := hsplit ▸ pairwise_nearest
  rw [hsplit] at hb
  rcases List.mem_append.mp hb with hin | hin
  · exact absurd hbnew (by simpa using hfront b hin)
  · rcases List.mem_cons.mp hin with rfl | hback
    · exact le_rfl
    · exact ((List.pairwise_cons.mp (List.pairwise_append.mp hsorted).2.1).1 b hback).le

omit [LinearOrder κ] in
theorem Sound.start : Sound succs init ⟨init, ∅⟩ where
  expanded_subset := Finset.empty_subset _
  closed _ ha := absurd ha (Finset.notMem_empty _)
  init_subset := subset_rfl
  reached b hb := ⟨b, hb, .refl⟩

/-- Expanding a node that was seen keeps the invariant. -/
theorem Sound.expand (h : Sound succs init s) (ha : a ∈ s.seen) :
    Sound succs init (expand succs s a) where
  expanded_subset := by
    intro b hb
    rcases Finset.mem_insert.mp hb with rfl | hb
    · exact Finset.mem_union_left _ ha
    · exact Finset.mem_union_left _ (h.expanded_subset hb)
  closed b hb := by
    rcases Finset.mem_insert.mp hb with rfl | hb
    · exact Finset.subset_union_right
    · exact (h.closed b hb).trans Finset.subset_union_left
  init_subset := h.init_subset.trans Finset.subset_union_left
  reached b hb := by
    rcases Finset.mem_union.mp hb with hb | hb
    · exact h.reached b hb
    · obtain ⟨c, hc, hreach⟩ := h.reached a ha
      exact ⟨c, hc, hreach.tail hb⟩

/-! ## What a search has found -/

theorem Sound.search (h : Sound succs init s) (K fuel : ℕ) :
    Sound succs init (search succs K fuel s) := by
  induction fuel generalizing s with
  | zero => exact h
  | succ fuel ih =>
    rw [Beam.search]
    cases hnext : next K s with
    | none => exact h
    | some a => exact ih (h.expand (mem_of_mem_nearest (next_spec hnext).1))

omit [LinearOrder κ] in
/-- A finite set that holds the start and is closed under successors holds all
    that a search sees. -/
theorem Sound.seen_subset (h : Sound succs init s) (hinit : init ⊆ U)
    (hclosed : ∀ a ∈ U, succs a ⊆ U) : s.seen ⊆ U := by
  intro b hb
  obtain ⟨a, ha, hreach⟩ := h.reached b hb
  clear hb
  induction hreach with
  | refl => exact hinit ha
  | tail _ hstep ih => exact hclosed _ ih hstep

/-- As many steps as there are nodes are enough. -/
theorem finished_search (h : Sound succs init s) (hinit : init ⊆ U)
    (hclosed : ∀ a ∈ U, succs a ⊆ U) {fuel : ℕ} (hfuel : U.card ≤ fuel + s.expanded.card) :
    Finished K (search succs K fuel s) := by
  induction fuel generalizing s with
  | zero =>
    -- every node there is was expanded
    have hsub : s.expanded ⊆ U := h.expanded_subset.trans (h.seen_subset hinit hclosed)
    have heq : s.expanded = U := Finset.eq_of_subset_of_card_le hsub (by omega)
    intro a ha
    rw [Beam.search] at ha ⊢
    rw [heq]
    exact h.seen_subset hinit hclosed (mem_of_mem_nearest ha)
  | succ fuel ih =>
    rw [Beam.search]
    cases hnext : next K s with
    | none => exact next_eq_none_iff.mp hnext
    | some a =>
      obtain ⟨hmem, hnew, -⟩ := next_spec hnext
      refine ih (h.expand (mem_of_mem_nearest hmem)) ?_
      rw [Beam.expand, Finset.card_insert_of_notMem hnew]
      omega

theorem expanded_subset_search (K fuel : ℕ) (s : State κ) :
    s.expanded ⊆ (search succs K fuel s).expanded := by
  induction fuel generalizing s with
  | zero => exact subset_rfl
  | succ fuel ih =>
    rw [Beam.search]
    cases next K s with
    | none => exact subset_rfl
    | some a => exact (Finset.subset_insert a s.expanded).trans (ih (expand succs s a))

/-- A search from one node begins by expanding it. -/
theorem start_mem_expanded (hK : 0 < K) {fuel : ℕ} (hfuel : 0 < fuel) (a : κ) :
    a ∈ (search succs K fuel ⟨{a}, ∅⟩).expanded := by
  obtain ⟨n, rfl⟩ := Nat.exists_eq_succ_of_ne_zero hfuel.ne'
  have hnext : next K (⟨{a}, ∅⟩ : State κ) = some a := by
    obtain ⟨m, rfl⟩ := Nat.exists_eq_succ_of_ne_zero hK.ne'
    simp [next, nearest]
  rw [Beam.search, hnext]
  exact expanded_subset_search K n _ (Finset.mem_insert_self a ∅)

/-- A finished search is at a local optimum: what an element of the buffer leads
    to is in the buffer, or behind all of a full buffer. -/
theorem Sound.local_best (h : Sound succs init s) (hdone : Finished K s)
    (ha : a ∈ nearest K s.seen) (hb : b ∈ succs a) :
    b ∈ nearest K s.seen ∨ (nearest K s.seen).length = K ∧ ∀ c ∈ nearest K s.seen, c < b := by
  have hseen : b ∈ s.seen := h.closed a (hdone a ha) hb
  by_cases hin : b ∈ nearest K s.seen
  · exact Or.inl hin
  · exact Or.inr ⟨length_nearest_of_not_mem hseen hin,
      fun c hc => lt_of_not_mem_nearest hc hseen hin⟩

/-- A finished search whose buffer has room left has seen all that is reached. -/
theorem Sound.exhaustive (h : Sound succs init s) (hdone : Finished K s)
    (hroom : (nearest K s.seen).length < K) :
    b ∈ nearest K s.seen ↔ ∃ a ∈ init, Reaches succs a b := by
  have hcard : s.seen.card ≤ K := by
    rw [length_nearest] at hroom
    omega
  rw [mem_nearest_iff_of_card_le hcard]
  refine ⟨h.reached b, ?_⟩
  rintro ⟨a, ha, hreach⟩
  induction hreach with
  | refl => exact h.init_subset ha
  | @tail c d _ hstep ih =>
    exact h.closed c (hdone c ((mem_nearest_iff_of_card_le hcard).mpr ih)) hstep

end Graph

end Beam
