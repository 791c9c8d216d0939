/-
  QvCache.Vamana.NaturalNumbers

  `natural_number_set` and `natural_number_map` (external/DiskANN/src/
  natural_number_set.cpp, natural_number_map.cpp): a set of slots that can give
  up any of its members, and a map from slots, each with a bit set that answers
  membership.

  The bit set and the vector of the set agree as long as no member is inserted
  again (`NaturalNumberSet.Valid`).  Then they are a set and a map: the lemmas
  about `insert`, `popAny`, `set` and `erase` say so, and the index uses only
  those.
-/

import QvCache.Lib.Table
import QvCache.Lib.Traces
import Mathlib.Data.Finset.Card
import Mathlib.Data.Finset.Sort
import Mathlib.Data.List.Nodup
import Mathlib.Algebra.Group.Nat.Defs

namespace QvCache.Vamana

/-! ## Bit sets -/

/-- `boost::dynamic_bitset`, bit by bit. -/
abbrev DynamicBitset := List Bool

namespace DynamicBitset

/-- `test`; a bit that does not exist is not set. -/
def test (b : DynamicBitset) (i : Nat) : Bool := b.getD i false

/-- `resize` to at least `n` bits, as the callers use it. -/
def grow (b : DynamicBitset) (n : Nat) : DynamicBitset := b ++ List.replicate (n - b.length) false

/-- `set`, or `test_set` without its result. -/
def write (b : DynamicBitset) (i : Nat) (bit : Bool) : DynamicBitset := b.set i bit

/-- `find_first` from the place `i` on, which is `find_next` of the place before. -/
def findFrom (b : DynamicBitset) (i : Nat) : Option Nat :=
  (List.range b.length).find? fun k => decide (i ≤ k) && b.test k

@[simp] theorem test_grow (b : DynamicBitset) (n i : Nat) : (b.grow n).test i = b.test i := by
  rw [test, test, grow, List.getD_eq_getElem?_getD, List.getD_eq_getElem?_getD]
  by_cases hi : i < b.length
  · rw [List.getElem?_append_left hi]
  · rw [List.getElem?_append_right (not_lt.mp hi), List.getElem?_eq_none (not_lt.mp hi),
      List.getElem?_replicate]
    split_ifs <;> rfl

theorem length_grow (b : DynamicBitset) (n : Nat) : (b.grow n).length = max b.length n := by
  rw [grow, List.length_append, List.length_replicate]
  omega

theorem test_write {b : DynamicBitset} {i : Nat} (hi : i < b.length) (bit : Bool) (j : Nat) :
    (b.write i bit).test j = if j = i then bit else b.test j := by
  rw [test, test, write, List.getD_eq_getElem?_getD, List.getD_eq_getElem?_getD]
  by_cases hj : j = i
  · rw [if_pos hj, hj, List.getElem?_set_self hi]
    rfl
  · rw [if_neg hj, List.getElem?_set_ne (Ne.symm hj)]

theorem lt_length_of_test {b : DynamicBitset} {i : Nat} (h : b.test i = true) : i < b.length := by
  by_contra hout
  rw [test, List.getD_eq_getElem?_getD, List.getElem?_eq_none (not_lt.mp hout)] at h
  cases h

end DynamicBitset

/-! ## The set -/

/-- `natural_number_set`; the back of the vector is the end of the list. -/
structure NaturalNumberSet where
  valuesVector : List Nat
  valuesBitset : DynamicBitset

namespace NaturalNumberSet

def empty : NaturalNumberSet := ⟨[], []⟩

def isEmpty (s : NaturalNumberSet) : Bool := s.valuesVector.isEmpty

def size (s : NaturalNumberSet) : Nat := s.valuesVector.length

def insert (s : NaturalNumberSet) (id : Nat) : NaturalNumberSet :=
  ⟨s.valuesVector ++ [id], (s.valuesBitset.grow (id + 1)).write id true⟩

/-- `pop_any`; `none` is the exception on an empty set. -/
def popAny (s : NaturalNumberSet) : Option (Nat × NaturalNumberSet) :=
  s.valuesVector.getLast?.map fun id =>
    (id, ⟨s.valuesVector.dropLast, s.valuesBitset.write id false⟩)

def isInSet (s : NaturalNumberSet) (id : Nat) : Bool := s.valuesBitset.test id

/-- The two halves agree, and no member is there twice. -/
structure Valid (s : NaturalNumberSet) : Prop where
  nodup : s.valuesVector.Nodup
  isInSet_iff : ∀ id, s.isInSet id = true ↔ id ∈ s.valuesVector

theorem valid_empty : Valid empty where
  nodup := List.nodup_nil
  isInSet_iff id := by simp [isInSet, empty, DynamicBitset.test]

variable {s : NaturalNumberSet} {id : Nat}

theorem isInSet_insert (s : NaturalNumberSet) (id i : Nat) :
    (s.insert id).isInSet i = true ↔ i = id ∨ s.isInSet i = true := by
  have hlt : id < (s.valuesBitset.grow (id + 1)).length := by
    rw [DynamicBitset.length_grow]
    omega
  rw [isInSet, insert, DynamicBitset.test_write hlt, DynamicBitset.test_grow, isInSet]
  by_cases hi : i = id <;> simp [hi]

theorem Valid.insert (h : s.Valid) (hnew : s.isInSet id = false) : (s.insert id).Valid where
  nodup := by
    have hout : id ∉ s.valuesVector := by
      rw [← h.isInSet_iff, hnew]
      exact Bool.false_ne_true
    show (s.valuesVector ++ [id]).Nodup
    rw [← List.concat_eq_append]
    exact h.nodup.concat hout
  isInSet_iff i := by
    rw [isInSet_insert, h.isInSet_iff]
    show _ ↔ i ∈ s.valuesVector ++ [id]
    rw [List.mem_append, List.mem_singleton, or_comm]

theorem size_insert (s : NaturalNumberSet) (id : Nat) : (s.insert id).size = s.size + 1 := by
  simp [size, insert]

/-- `pop_any` takes a member out. -/
theorem Valid.popAny (h : s.Valid) {s' : NaturalNumberSet} (hpop : s.popAny = some (id, s')) :
    s.isInSet id = true ∧ s'.Valid ∧ s'.size + 1 = s.size ∧
      ∀ i, s'.isInSet i = true ↔ s.isInSet i = true ∧ i ≠ id := by
  obtain ⟨_, hlast, heq⟩ := Option.map_eq_some_iff.mp hpop
  obtain ⟨rfl, rfl⟩ := Prod.mk.inj heq.symm
  obtain ⟨front, hsplit⟩ := List.getLast?_eq_some_iff.mp hlast
  have hmem : s.isInSet id = true := (h.isInSet_iff id).mpr (by rw [hsplit]; simp)
  have hnodup := h.nodup
  rw [hsplit, List.nodup_append] at hnodup
  have hdrop : s.valuesVector.dropLast = front := by rw [hsplit, List.dropLast_concat]
  have htest : ∀ i, isInSet ⟨s.valuesVector.dropLast, s.valuesBitset.write id false⟩ i = true ↔
      s.isInSet i = true ∧ i ≠ id := by
    intro i
    rw [isInSet, DynamicBitset.test_write (DynamicBitset.lt_length_of_test hmem), isInSet]
    by_cases hi : i = id <;> simp [hi]
  refine ⟨hmem, ⟨hdrop ▸ hnodup.1, fun i => ?_⟩, ?_, htest⟩
  · rw [htest, h.isInSet_iff]
    show _ ↔ i ∈ s.valuesVector.dropLast
    rw [hdrop, hsplit, List.mem_append, List.mem_singleton]
    constructor
    · rintro ⟨hin | rfl, hne⟩
      · exact hin
      · exact absurd rfl hne
    · exact fun hin => ⟨Or.inl hin, hnodup.2.2 i hin id (List.mem_singleton_self id)⟩
  · rw [size, size, hdrop, hsplit, List.length_append, List.length_singleton]

/-- What was taken out last and goes back leaves no trace. -/
theorem Valid.insert_popAny (h : s.Valid) {s' : NaturalNumberSet}
    (hpop : s.popAny = some (id, s')) : s'.insert id = s := by
  have hin := (h.popAny hpop).1
  obtain ⟨_, hlast, heq⟩ := Option.map_eq_some_iff.mp hpop
  obtain ⟨rfl, rfl⟩ := Prod.mk.inj heq.symm
  obtain ⟨front, hsplit⟩ := List.getLast?_eq_some_iff.mp hlast
  have hlt : id < s.valuesBitset.length := DynamicBitset.lt_length_of_test hin
  have hbit : s.valuesBitset[id]? = some true := by
    rw [isInSet, DynamicBitset.test, List.getD_eq_getElem?_getD, List.getElem?_eq_getElem hlt] at hin
    rw [List.getElem?_eq_getElem hlt]
    exact congrArg some hin
  have hgrow : (s.valuesBitset.write id false).grow (id + 1) = s.valuesBitset.write id false := by
    have hlen : id + 1 - (s.valuesBitset.write id false).length = 0 := by
      rw [DynamicBitset.write, List.length_set]
      omega
    rw [DynamicBitset.grow, hlen, List.replicate_zero, List.append_nil]
  rw [NaturalNumberSet.insert]
  congr 1
  · show s.valuesVector.dropLast ++ [id] = s.valuesVector
    rw [hsplit, List.dropLast_concat]
  · show DynamicBitset.write ((s.valuesBitset.write id false).grow (id + 1)) id true = s.valuesBitset
    rw [hgrow, DynamicBitset.write, DynamicBitset.write, List.set_set]
    obtain ⟨_, hget⟩ := List.getElem?_eq_some_iff.mp hbit
    conv_rhs => rw [← List.set_getElem_self hlt, hget]

theorem popAny_isSome (h : 0 < s.size) : ∃ r, s.popAny = some r := by
  have hne : s.valuesVector ≠ [] := List.ne_nil_of_length_pos h
  rw [popAny, List.getLast?_eq_some_getLast hne]
  exact ⟨_, rfl⟩

/-- Inserting the slots below `n` one after the other, as `enable_delete` does. -/
def below (n : Nat) : NaturalNumberSet := (List.range n).foldl insert empty

theorem below_spec (n : Nat) : (below n).Valid ∧ (below n).size = n ∧
    ∀ i, (below n).isInSet i = true ↔ i < n := by
  induction n with
  | zero =>
    refine ⟨valid_empty, rfl, fun i => ?_⟩
    simp [below, isInSet, empty, DynamicBitset.test]
  | succ n ih =>
    obtain ⟨hvalid, hsize, hin⟩ := ih
    have hstep : below (n + 1) = (below n).insert n := by
      rw [below, below, List.range_succ, List.foldl_append]
      rfl
    have hnew : (below n).isInSet n = false := by
      rw [← Bool.not_eq_true, hin]
      exact Nat.lt_irrefl n
    rw [hstep]
    refine ⟨hvalid.insert hnew, by rw [size_insert, hsize], fun i => ?_⟩
    rw [isInSet_insert, hin]
    omega

end NaturalNumberSet

/-! ## The map -/

/-- `natural_number_map`; `valuesVector` has an entry for every bit. -/
structure NaturalNumberMap (α : Type) where
  size : Nat
  valuesVector : List α
  valuesBitset : DynamicBitset

namespace NaturalNumberMap

variable {α : Type}

def empty : NaturalNumberMap α := ⟨0, [], []⟩

/-- `set`; a bit that was set before does not count again. -/
def set [Inhabited α] (m : NaturalNumberMap α) (key : Nat) (value : α) : NaturalNumberMap α :=
  let bits := m.valuesBitset.grow (key + 1)
  { size := if bits.test key then m.size else m.size + 1
    valuesVector :=
      (m.valuesVector ++ List.replicate (bits.length - m.valuesVector.length) default).set key value
    valuesBitset := bits.write key true }

def erase (m : NaturalNumberMap α) (key : Nat) : NaturalNumberMap α :=
  if key < m.valuesBitset.length then
    { m with
      size := if m.valuesBitset.test key then m.size - 1 else m.size
      valuesBitset := m.valuesBitset.write key false }
  else m

def contains (m : NaturalNumberMap α) (key : Nat) : Bool :=
  decide (key < m.valuesBitset.length) && m.valuesBitset.test key

/-- `try_get`. -/
def tryGet (m : NaturalNumberMap α) (key : Nat) : Option α :=
  if m.contains key then m.valuesVector[key]? else none

/-- The keys that are there. -/
def keys (m : NaturalNumberMap α) : Finset Nat :=
  (Finset.range m.valuesBitset.length).filter fun key => m.contains key = true

/-- Every bit has a value, and `size` counts the bits that are set. -/
structure Valid (m : NaturalNumberMap α) : Prop where
  length_eq : m.valuesVector.length = m.valuesBitset.length
  size_eq : m.size = m.keys.card

theorem contains_eq_test (m : NaturalNumberMap α) (key : Nat) :
    m.contains key = m.valuesBitset.test key := by
  rw [contains]
  cases htest : m.valuesBitset.test key with
  | false => rw [Bool.and_false]
  | true => rw [decide_eq_true (DynamicBitset.lt_length_of_test htest), Bool.true_and]

theorem mem_keys {m : NaturalNumberMap α} {key : Nat} : key ∈ m.keys ↔ m.contains key = true := by
  rw [keys, Finset.mem_filter, Finset.mem_range, and_iff_right_iff_imp, contains_eq_test]
  exact DynamicBitset.lt_length_of_test

theorem valid_empty : Valid (empty : NaturalNumberMap α) := ⟨rfl, rfl⟩

theorem tryGet_isSome {m : NaturalNumberMap α} (h : m.Valid) {key : Nat} :
    (m.tryGet key).isSome = m.contains key := by
  rw [tryGet]
  cases hin : m.contains key with
  | false => rfl
  | true =>
    have hlt : key < m.valuesVector.length := by
      rw [contains_eq_test] at hin
      exact h.length_eq ▸ DynamicBitset.lt_length_of_test hin
    rw [if_pos rfl, List.getElem?_eq_getElem hlt]
    rfl

section Set

variable [Inhabited α] {m : NaturalNumberMap α} {key : Nat}

theorem contains_set (m : NaturalNumberMap α) (key : Nat) (value : α) (i : Nat) :
    (m.set key value).contains i = true ↔ i = key ∨ m.contains i = true := by
  have hlt : key < (m.valuesBitset.grow (key + 1)).length := by
    rw [DynamicBitset.length_grow]
    omega
  rw [contains_eq_test, set, DynamicBitset.test_write hlt, DynamicBitset.test_grow,
    contains_eq_test]
  by_cases hi : i = key <;> simp [hi]

theorem keys_set (m : NaturalNumberMap α) (key : Nat) (value : α) :
    (m.set key value).keys = Insert.insert key m.keys := by
  ext i
  rw [mem_keys, contains_set, Finset.mem_insert, mem_keys]

theorem Valid.set (h : m.Valid) (key : Nat) (value : α) : (m.set key value).Valid where
  length_eq := by
    have hlen := DynamicBitset.length_grow m.valuesBitset (key + 1)
    have heq := h.length_eq
    simp only [NaturalNumberMap.set, DynamicBitset.write, List.length_set, List.length_append,
      List.length_replicate]
    omega
  size_eq := by
    rw [keys_set]
    show (if (m.valuesBitset.grow (key + 1)).test key then m.size else m.size + 1) = _
    rw [DynamicBitset.test_grow, ← contains_eq_test, h.size_eq]
    by_cases hin : m.contains key = true
    · rw [if_pos hin, Finset.insert_eq_self.mpr (mem_keys.mpr hin)]
    · rw [if_neg hin, Finset.card_insert_of_notMem fun hmem => hin (mem_keys.mp hmem)]

/-- Reading back after `set`. -/
theorem Valid.tryGet_set (h : m.Valid) (key : Nat) (value : α) (i : Nat) :
    (m.set key value).tryGet i = if i = key then some value else m.tryGet i := by
  have hlen := DynamicBitset.length_grow m.valuesBitset (key + 1)
  have heq := h.length_eq
  rw [tryGet]
  by_cases hi : i = key
  · subst hi
    rw [if_pos ((contains_set m i value i).mpr (Or.inl rfl)), if_pos rfl]
    refine List.getElem?_set_self ?_
    rw [List.length_append, List.length_replicate]
    omega
  · rw [if_neg hi, tryGet]
    have hsame : (m.set key value).contains i = m.contains i := by
      rw [Bool.eq_iff_iff, contains_set, or_iff_right hi]
    rw [hsame]
    split_ifs with hin
    · have hlt : i < m.valuesVector.length := by
        rw [contains_eq_test] at hin
        exact heq ▸ DynamicBitset.lt_length_of_test hin
      show (List.set _ key value)[i]? = _
      rw [List.getElem?_set_ne (Ne.symm hi), List.getElem?_append_left hlt]
    · rfl

end Set

section Erase

variable {m : NaturalNumberMap α} {key : Nat}

theorem contains_erase (m : NaturalNumberMap α) (key i : Nat) :
    (m.erase key).contains i = true ↔ i ≠ key ∧ m.contains i = true := by
  rw [contains_eq_test, contains_eq_test, erase]
  by_cases hlt : key < m.valuesBitset.length
  · rw [if_pos hlt, DynamicBitset.test_write hlt]
    by_cases hi : i = key <;> simp [hi]
  · rw [if_neg hlt]
    constructor
    · intro hin
      exact ⟨fun heq => hlt (heq ▸ DynamicBitset.lt_length_of_test hin), hin⟩
    · exact fun h => h.2

theorem keys_erase (m : NaturalNumberMap α) (key : Nat) : (m.erase key).keys = m.keys.erase key := by
  ext i
  rw [mem_keys, contains_erase, Finset.mem_erase, mem_keys]

theorem Valid.erase (h : m.Valid) (key : Nat) : (m.erase key).Valid where
  length_eq := by
    rw [NaturalNumberMap.erase]
    by_cases hlt : key < m.valuesBitset.length
    · rw [if_pos hlt]
      exact h.length_eq.trans (List.length_set).symm
    · rw [if_neg hlt]
      exact h.length_eq
  size_eq := by
    rw [keys_erase]
    by_cases hin : m.contains key = true
    · have hlt : key < m.valuesBitset.length := by
        rw [contains_eq_test] at hin
        exact DynamicBitset.lt_length_of_test hin
      rw [Finset.card_erase_of_mem (mem_keys.mpr hin), ← h.size_eq, NaturalNumberMap.erase,
        if_pos hlt]
      rw [contains_eq_test] at hin
      simp [hin]
    · rw [Finset.erase_eq_of_notMem fun hmem => hin (mem_keys.mp hmem), ← h.size_eq,
        NaturalNumberMap.erase]
      rw [contains_eq_test] at hin
      by_cases hlt : key < m.valuesBitset.length
      · simp [hlt, hin]
      · rw [if_neg hlt]

/-- Reading back after `erase`. -/
theorem tryGet_erase (m : NaturalNumberMap α) (key i : Nat) :
    (m.erase key).tryGet i = if i = key then none else m.tryGet i := by
  have hvalues : (m.erase key).valuesVector = m.valuesVector := by
    rw [erase]
    by_cases hlt : key < m.valuesBitset.length
    · rw [if_pos hlt]
    · rw [if_neg hlt]
  rw [tryGet, hvalues]
  by_cases hi : i = key
  · rw [if_pos hi, if_neg]
    rw [contains_erase]
    exact fun h => h.1 hi
  · have hsame : (m.erase key).contains i = m.contains i := by
      rw [Bool.eq_iff_iff, contains_erase, and_iff_right hi]
    rw [if_neg hi, hsame]
    rfl

end Erase

/-! ## Going through the keys -/

/-- `natural_number_map::position`; no key is `invalid_position`. -/
structure Position where
  key : Option Nat
  keysAlreadyEnumerated : Nat

/-- The keys from `i` on, upwards. -/
def keysFrom (m : NaturalNumberMap α) (i : Nat) : List Nat :=
  (List.range m.valuesBitset.length).filter fun k => decide (i ≤ k) && m.valuesBitset.test k

/-- `find_first`. -/
def findFirst (m : NaturalNumberMap α) : Position :=
  ⟨if 0 < m.size then m.valuesBitset.findFrom 0 else none, 0⟩

/-- `find_next`. -/
def findNext (m : NaturalNumberMap α) (after : Position) : Position :=
  ⟨if after.keysAlreadyEnumerated < m.size then
      after.key.bind fun k => m.valuesBitset.findFrom (k + 1)
    else none,
    after.keysAlreadyEnumerated + 1⟩

/-- The keys that a loop from `find_first` on visits: one round for each bit, and
    one to see the end, are enough. -/
def visit (m : NaturalNumberMap α) : Nat → Position → List Nat
  | 0, _ => []
  | rounds + 1, pos =>
    match pos.key with
    | none => []
    | some k => k :: visit m rounds (m.findNext pos)

def visitedKeys (m : NaturalNumberMap α) : List Nat :=
  m.visit (m.valuesBitset.length + 1) m.findFirst

section Visit

variable {m : NaturalNumberMap α}

theorem mem_keysFrom {i k : Nat} : k ∈ m.keysFrom i ↔ i ≤ k ∧ m.contains k = true := by
  rw [keysFrom, List.mem_filter, List.mem_range, Bool.and_eq_true, decide_eq_true_iff,
    contains_eq_test]
  exact and_iff_right_of_imp fun h => DynamicBitset.lt_length_of_test h.2

theorem pairwise_keysFrom (m : NaturalNumberMap α) (i : Nat) : (m.keysFrom i).Pairwise (· < ·) :=
  List.pairwise_lt_range.filter _

theorem findFrom_eq (m : NaturalNumberMap α) (i : Nat) :
    m.valuesBitset.findFrom i = (m.keysFrom i).head? :=
  List.head?_filter.symm

/-- Behind the first key from `i` on come those greater than it. -/
theorem keysFrom_eq_cons {i k : Nat} {rest : List Nat} (h : m.keysFrom i = k :: rest) :
    m.keysFrom (k + 1) = rest := by
  have hsorted := m.pairwise_keysFrom i
  rw [h, List.pairwise_cons] at hsorted
  have hik : i ≤ k := (mem_keysFrom.mp (h ▸ List.mem_cons_self)).1
  have hfilter : m.keysFrom (k + 1) = (m.keysFrom i).filter fun j => decide (k + 1 ≤ j) := by
    rw [keysFrom, keysFrom, List.filter_filter]
    refine List.filter_congr fun j _ => ?_
    by_cases hj : k + 1 ≤ j
    · have hij : i ≤ j := hik.trans (Nat.le_of_succ_le hj)
      simp [hj, hij]
    · simp [hj]
  rw [hfilter, h, List.filter_cons_of_neg (by simp)]
  exact List.filter_eq_self.mpr fun j hj => decide_eq_true (hsorted.1 j hj)

theorem Valid.length_keysFrom (h : m.Valid) : (m.keysFrom 0).length = m.size := by
  rw [h.size_eq, ← List.toFinset_card_of_nodup ((m.pairwise_keysFrom 0).imp Nat.ne_of_lt)]
  congr 1
  ext k
  rw [List.mem_toFinset, mem_keysFrom, mem_keys, and_iff_right (Nat.zero_le k)]

/-- The loop visits the keys from `i` on, if the count of the position is that of
    the keys before. -/
theorem visit_eq {rounds i : Nat} {pos : Position} (hkey : pos.key = (m.keysFrom i).head?)
    (hcount : m.keysFrom i ≠ [] →
      pos.keysAlreadyEnumerated + (m.keysFrom i).length = m.size)
    (hrounds : (m.keysFrom i).length < rounds) : m.visit rounds pos = m.keysFrom i := by
  induction rounds generalizing i pos with
  | zero => exact absurd hrounds (Nat.not_lt_zero _)
  | succ rounds ih =>
    rw [visit, hkey]
    cases hrest : m.keysFrom i with
    | nil => rfl
    | cons k rest =>
      rw [hrest] at hcount hrounds
      have hsum := hcount (List.cons_ne_nil k rest)
      rw [List.length_cons] at hsum hrounds
      have hnext : m.keysFrom (k + 1) = rest := keysFrom_eq_cons hrest
      have hfirst : pos.key = some k := by rw [hkey, hrest, List.head?_cons]
      have hguard : pos.keysAlreadyEnumerated < m.size := by omega
      rw [List.head?_cons, ← hnext]
      refine congrArg (k :: ·) (ih ?_ (fun _ => ?_) ?_)
      · rw [findNext, if_pos hguard, hfirst, Option.bind_some, findFrom_eq]
      · rw [hnext]
        show pos.keysAlreadyEnumerated + 1 + rest.length = m.size
        omega
      · rw [hnext]
        omega

theorem Valid.visitedKeys_eq (h : m.Valid) : m.visitedKeys = m.keysFrom 0 := by
  have hlen := h.length_keysFrom
  refine visit_eq ?_ (fun _ => ?_) ?_
  · rw [findFirst]
    by_cases hsize : 0 < m.size
    · rw [if_pos hsize, findFrom_eq]
    · rw [if_neg hsize, List.eq_nil_of_length_eq_zero (hlen.trans (Nat.eq_zero_of_not_pos hsize))]
      rfl
  · rw [hlen]
    exact Nat.zero_add _
  · exact Nat.lt_succ_of_le ((List.length_filter_le _ _).trans (List.length_range).le)

end Visit

/-! ## Runs -/

/-- A call of the map. -/
inductive Op (α : Type) where
  | set (key : Nat) (value : α)
  | erase (key : Nat)
  | clear
  | size
  | contains (key : Nat)
  | tryGet (key : Nat)
  | visitedKeys

/-- What a call returns. -/
inductive Reply (α : Type) where
  | count (n : Nat)
  | found (b : Bool)
  | value (v : Option α)
  | keys (l : List Nat)
deriving DecidableEq

def step [Inhabited α] (m : NaturalNumberMap α) : Op α → Option (NaturalNumberMap α)
  | .set key value => some (m.set key value)
  | .erase key => some (m.erase key)
  | .clear => some empty
  | _ => some m

def reply (m : NaturalNumberMap α) : Op α → List (Reply α)
  | .size => [.count m.size]
  | .contains key => [.found (m.contains key)]
  | .tryGet key => [.value (m.tryGet key)]
  | .visitedKeys => [.keys m.visitedKeys]
  | _ => []

/-- The same calls of a plain map. -/
def tableStep (t : Table Nat α) : Op α → Option (Table Nat α)
  | .set key value => some (t.insert key value)
  | .erase key => some (t.erase key)
  | .clear => some ∅
  | _ => some t

def tableReply (t : Table Nat α) : Op α → List (Reply α)
  | .size => [.count t.size]
  | .contains key => [.found (t.lookup key).isSome]
  | .tryGet key => [.value (t.lookup key)]
  | .visitedKeys => [.keys t.keys.toFinset.sort]
  | _ => []

section Run

variable {m : NaturalNumberMap α} {t : Table Nat α}

/-- The map holds what the plain map holds. -/
def Shows (m : NaturalNumberMap α) (t : Table Nat α) : Prop :=
  m.Valid ∧ ∀ key, m.tryGet key = t.lookup key

theorem Shows.keys_eq (h : m.Shows t) : m.keys = t.keys.toFinset := by
  ext key
  rw [mem_keys, List.mem_toFinset, ← tryGet_isSome h.1, h.2]
  exact AList.lookup_isSome

theorem Shows.step [Inhabited α] (h : m.Shows t) (op : Op α) :
    Option.Rel Shows (m.step op) (tableStep t op) := by
  obtain ⟨hvalid, hget⟩ := h
  cases op with
  | set key value =>
    refine .some ⟨hvalid.set key value, fun i => ?_⟩
    rw [hvalid.tryGet_set, hget, Table.lookup_insert_eq]
  | erase key =>
    refine .some ⟨hvalid.erase key, fun i => ?_⟩
    rw [tryGet_erase, hget, Table.lookup_erase_eq]
  | clear => exact .some ⟨valid_empty, fun key => by simp [tryGet, contains, empty]⟩
  | size => exact .some ⟨hvalid, hget⟩
  | contains key => exact .some ⟨hvalid, hget⟩
  | tryGet key => exact .some ⟨hvalid, hget⟩
  | visitedKeys => exact .some ⟨hvalid, hget⟩

theorem Shows.reply_eq (h : m.Shows t) (op : Op α) : m.reply op = tableReply t op := by
  have hkeys := h.keys_eq
  obtain ⟨hvalid, hget⟩ := h
  cases op with
  | set key value => rfl
  | erase key => rfl
  | clear => rfl
  | size =>
    have hsize : m.size = t.size := by
      rw [hvalid.size_eq, hkeys, List.toFinset_card_of_nodup t.keys_nodup,
        Table.size_eq_length_keys]
    rw [reply, tableReply, hsize]
  | contains key => rw [reply, tableReply, ← tryGet_isSome hvalid, hget]
  | tryGet key => rw [reply, tableReply, hget]
  | visitedKeys =>
    have hsorted := m.pairwise_keysFrom 0
    have hsort : m.keysFrom 0 = t.keys.toFinset.sort := by
      refine List.Perm.eq_of_pairwise' (r := (· ≤ ·)) (hsorted.imp Nat.le_of_lt)
        (Finset.pairwise_sort _ _) ((List.perm_ext_iff_of_nodup (hsorted.imp Nat.ne_of_lt)
          (Finset.sort_nodup _ _)).mpr fun key => ?_)
      rw [mem_keysFrom, and_iff_right (Nat.zero_le key), Finset.mem_sort, ← hkeys, mem_keys]
    rw [reply, tableReply, hvalid.visitedKeys_eq, hsort]

/-- Every run of calls on a new map: it answers like a plain map, and the loop from
    `find_first` on visits each key once, upwards. -/
theorem map_run_refines [Inhabited α] (ops : List (Op α)) :
    Traces.outputs step reply (empty : NaturalNumberMap α) ops =
      Traces.outputs tableStep tableReply ∅ ops :=
  (Traces.run_simulates (fun _ _ op h => Shows.step h op) (fun _ _ op h => Shows.reply_eq h op)
    ⟨valid_empty, fun key => by simp [tryGet, contains, empty]⟩ ops).2

end Run

example : Traces.outputs step reply (empty : NaturalNumberMap UInt32)
    [.set 5 50, .set 2 20, .set 5 51, .erase 7, .visitedKeys, .erase 2, .size, .tryGet 5] =
    [.keys [2, 5], .count 1, .value (some 51)] := by
  decide +kernel

end NaturalNumberMap

end QvCache.Vamana
