/-
  QvCache.Lib.Table

  Finite maps in the role of `std::unordered_map`: Mathlib's association lists
  with a fixed value type, and the one operation on them that Mathlib does not
  have, rewriting every value in place.
-/

import Mathlib.Data.List.AList

/-- A finite map from `κ` to `β`. -/
abbrev Table (κ β : Type) := AList (fun _ : κ => β)

namespace Table

variable {κ β : Type}

/-- The number of keys. -/
def size (t : Table κ β) : Nat := t.entries.length

/-- Apply `f` to every value, `for (auto& kv : t) kv.second = f(kv.second)`. -/
def mapVals (f : β → β) (t : Table κ β) : Table κ β :=
  ⟨t.entries.map fun e => ⟨e.1, f e.2⟩, by
    have h : (t.entries.map fun e => (⟨e.1, f e.2⟩ : Sigma fun _ : κ => β)).keys = t.entries.keys := by
      simp [List.keys]
    rw [List.NodupKeys, h]
    exact t.nodupKeys⟩

theorem size_eq_length_keys (t : Table κ β) : size t = t.keys.length := by
  simp [size, AList.keys, List.keys]

variable [DecidableEq κ]

theorem dlookup_map (f : β → β) (k : κ) (l : List (Sigma fun _ : κ => β)) :
    (l.map fun e => (⟨e.1, f e.2⟩ : Sigma fun _ : κ => β)).dlookup k = (l.dlookup k).map f := by
  induction l with
  | nil => rfl
  | cons e rest ih =>
    obtain ⟨k', b⟩ := e
    by_cases h : k = k'
    · subst h
      simp [List.dlookup_cons_eq]
    · have hne : k ≠ (⟨k', b⟩ : Sigma fun _ : κ => β).1 := h
      rw [List.map_cons, List.dlookup_cons_ne _ _ hne]
      exact (List.dlookup_cons_ne _ ⟨k', f b⟩ h).trans ih

@[simp] theorem lookup_mapVals (f : β → β) (t : Table κ β) (k : κ) :
    (mapVals f t).lookup k = (t.lookup k).map f :=
  dlookup_map f k t.entries

/-- Reading back after an insertion. -/
theorem lookup_insert_eq (t : Table κ β) (a k : κ) (b : β) :
    (t.insert a b).lookup k = if k = a then some b else t.lookup k := by
  by_cases h : k = a
  · rw [if_pos h, h, AList.lookup_insert]
  · rw [if_neg h, AList.lookup_insert_ne h]

/-- Reading back after an erasure. -/
theorem lookup_erase_eq (t : Table κ β) (a k : κ) :
    (t.erase a).lookup k = if k = a then none else t.lookup k := by
  by_cases h : k = a
  · rw [if_pos h, h, AList.lookup_erase]
  · rw [if_neg h, AList.lookup_erase_ne h]

/-- Storing under a key that is there adds none. -/
theorem mem_insert_of_mem {t : Table κ β} {a : κ} (h : a ∈ t) (b : β) (k : κ) :
    k ∈ t.insert a b ↔ k ∈ t := by
  rw [AList.mem_insert]
  constructor
  · rintro (rfl | hk)
    · exact h
    · exact hk
  · exact Or.inr

/-- Tables with the same keys have the same size. -/
theorem size_eq_of_isSome_lookup {γ : Type} {t : Table κ β} {t' : Table κ γ}
    (h : ∀ k, (t.lookup k).isSome = (t'.lookup k).isSome) : size t = size t' := by
  rw [size_eq_length_keys, size_eq_length_keys]
  refine List.Perm.length_eq ((List.perm_ext_iff_of_nodup t.keys_nodup t'.keys_nodup).mpr
    fun k => ?_)
  rw [← AList.mem_keys, ← AList.mem_keys, ← AList.lookup_isSome, ← AList.lookup_isSome, h]

/-- A new key takes one more place. -/
theorem size_insert_of_lookup_none {t : Table κ β} {a : κ} (h : t.lookup a = none) (b : β) :
    size (t.insert a b) = size t + 1 := by
  -- inserting erases the key first, which here is not there
  have hmem : a ∉ t.keys := AList.lookup_eq_none.mp h
  rw [size_eq_length_keys, size_eq_length_keys, AList.keys_insert, List.erase_of_not_mem hmem,
    List.length_cons]

/-- An erased key frees its place. -/
theorem size_erase_of_lookup_some {t : Table κ β} {a : κ} (h : (t.lookup a).isSome) :
    size (t.erase a) + 1 = size t := by
  have hmem : a ∈ t.keys := AList.lookup_isSome.mp h
  have hpos := List.length_pos_of_mem hmem
  rw [size_eq_length_keys, size_eq_length_keys, AList.keys_erase, List.length_erase_of_mem hmem]
  omega

end Table
