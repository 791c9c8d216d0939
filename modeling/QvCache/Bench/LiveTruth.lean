/-
  QvCache.Bench.LiveTruth

  The exact ground truth of benchmarks/pgvector/refresh_common.h: the live
  collection (base vectors, synthesized extra ones, deletions) and
  `compute_exact_gt`, which keeps the K best neighbors of a query in one buffer.

  The buffer is sorted when it becomes full, and its last element is replaced by
  a comparison of distances alone.  The second is harmless, because ids only
  grow along the loop (`foldl_offer`).  The first leaves the list of a
  collection with fewer than K live ids in the order of the ids: such a list is
  exact only where the distances do not decrease along the ids
  (`isExact_exactList_iff`).
-/

import QvCache.Lib.Bytes
import QvCache.Lib.Smallest
import QvCache.Lib.Table
import Mathlib.Algebra.Ring.Int.Defs
import Mathlib.Data.Finset.Basic
import Mathlib.Data.List.Induction
import Mathlib.Data.List.Nodup

namespace QvCache.Refresh

open Smallest

/-! ## Neighbors -/

structure Neighbor (D : Type) where
  id : UInt32
  dist : D
deriving DecidableEq

section Order

variable {D : Type} [LinearOrder D]

def neighborLess (a b : Neighbor D) : Bool :=
  if a.dist ≠ b.dist then decide (a.dist < b.dist) else decide (a.id < b.id)

/-- `b` may stand behind `a` in an array sorted by `neighbor_less`. -/
def NotBehind (a b : Neighbor D) : Prop := neighborLess b a = false

instance : DecidableRel (NotBehind (D := D)) := fun a b =>
  inferInstanceAs (Decidable (neighborLess b a = false))

/-- `std::sort(.., neighbor_less)`. -/
def stdSort (l : List (Neighbor D)) : List (Neighbor D) := l.insertionSort NotBehind

theorem neighborLess_iff {a b : Neighbor D} :
    neighborLess a b = true ↔ a.dist < b.dist ∨ a.dist = b.dist ∧ a.id.toNat < b.id.toNat := by
  rw [neighborLess]
  by_cases h : a.dist = b.dist
  · rw [if_neg (not_not.mpr h), decide_eq_true_eq, UInt32.lt_iff_toNat_lt]
    simp only [h, lt_irrefl, false_or, true_and]
  · rw [if_pos h, decide_eq_true_eq]
    simp only [h, false_and, or_false]

theorem notBehind_iff {a b : Neighbor D} :
    NotBehind a b ↔ a.dist < b.dist ∨ a.dist = b.dist ∧ a.id.toNat ≤ b.id.toNat := by
  rw [NotBehind, ← Bool.not_eq_true, neighborLess_iff]
  rcases lt_trichotomy a.dist b.dist with h | h | h
  · simp only [h, h.ne', h.not_gt, true_or, false_and, or_false, not_false_eq_true]
  · simp only [h, lt_irrefl, false_or, true_and, Nat.not_lt]
  · simp only [h, h.ne', h.not_gt, true_or, false_and, or_false, not_true_eq_false]

instance : Std.Total (NotBehind (D := D)) where
  total a b := by
    rw [notBehind_iff, notBehind_iff]
    rcases lt_trichotomy a.dist b.dist with h | h | h
    · exact Or.inl (Or.inl h)
    · rcases Nat.le_total a.id.toNat b.id.toNat with hid | hid
      · exact Or.inl (Or.inr ⟨h, hid⟩)
      · exact Or.inr (Or.inr ⟨h.symm, hid⟩)
    · exact Or.inr (Or.inl h)

instance : IsTrans (Neighbor D) NotBehind where
  trans a b c := by
    simp only [notBehind_iff]
    rintro (hab | ⟨hab, hid⟩) (hbc | ⟨hbc, hid'⟩)
    · exact Or.inl (hab.trans hbc)
    · exact Or.inl (hbc ▸ hab)
    · exact Or.inl (hab ▸ hbc)
    · exact Or.inr ⟨hab.trans hbc, hid.trans hid'⟩

instance : Std.Antisymm (NotBehind (D := D)) where
  antisymm a b := by
    obtain ⟨id, dist⟩ := a
    obtain ⟨id', dist'⟩ := b
    simp only [notBehind_iff]
    rintro (hab | ⟨hab, hid⟩) (hba | ⟨hba, hid'⟩)
    · exact absurd hba hab.not_gt
    · exact absurd hab (hba ▸ lt_irrefl _)
    · exact absurd hba (hab ▸ lt_irrefl _)
    · rw [hab, UInt32.toNat_inj.mp (Nat.le_antisymm hid hid')]

/-- Any algorithm that sorts gives this array: no two neighbors are equivalent. -/
theorem stdSort_eq_of_perm {l s : List (Neighbor D)} (hperm : s.Perm l)
    (hs : s.Pairwise NotBehind) : stdSort l = s :=
  insertionSort_eq_of_perm hperm hs

/-- In front of a neighbor with another id is strictly less. -/
theorem neighborLess_of_notBehind {a b : Neighbor D} (h : NotBehind a b) (hid : a.id ≠ b.id) :
    neighborLess a b = true := by
  have hne : a.id.toNat ≠ b.id.toNat := fun heq => hid (UInt32.toNat_inj.mp heq)
  rw [neighborLess_iff]
  rcases notBehind_iff.mp h with hlt | ⟨heq, hle⟩
  · exact Or.inl hlt
  · exact Or.inr ⟨heq, Nat.lt_of_le_of_ne hle hne⟩

end Order

/-! ## The buffer -/

section Buffer

variable {D : Type} [LinearOrder D]

/-- The body of the loop of `compute_exact_gt`. -/
def offer (K : Nat) (best : List (Neighbor D)) (nb : Neighbor D) : List (Neighbor D) :=
  if best.length < K then
    let grown := best ++ [nb]
    if grown.length = K then stdSort grown else grown
  else
    match best.getLast? with
    | none => best
    | some back => if nb.dist < back.dist then stdSort (best.dropLast ++ [nb]) else best

/-- Ids grow along the loop. -/
def IdsGrow (l : List (Neighbor D)) : Prop := l.Pairwise fun a b => a.id.toNat < b.id.toNat

variable {K : Nat} {l : List (Neighbor D)} {nb : Neighbor D}

theorem offer_of_full {front : List (Neighbor D)} {back : Neighbor D}
    (hlen : K ≤ (front ++ [back]).length) :
    offer K (front ++ [back]) nb =
      if nb.dist < back.dist then stdSort (front ++ [nb]) else front ++ [back] := by
  rw [offer, if_neg (Nat.not_lt.mpr hlen)]
  simp only [List.getLast?_concat, List.dropLast_concat]

/-- Offered to the K least of what came before, a neighbor with a larger id
    leaves the K least with it. -/
theorem offer_least (hK : 0 < K) (hlen : K ≤ l.length)
    (hid : ∀ a ∈ l, a.id.toNat < nb.id.toNat) :
    offer K (least NotBehind K l) nb = least NotBehind K (l ++ [nb]) := by
  obtain ⟨k, rfl⟩ : ∃ k, K = k + 1 := ⟨K - 1, by omega⟩
  have hfull : (least NotBehind (k + 1) l).length = k + 1 := by
    rw [length_least, Nat.min_eq_left hlen]
  obtain ⟨front, back, hsplit⟩ : ∃ front back, least NotBehind (k + 1) l = front ++ [back] := by
    rcases List.eq_nil_or_concat (least NotBehind (k + 1) l) with hnil | ⟨front, back, h⟩
    · rw [hnil] at hfull
      cases hfull
    · exact ⟨front, back, by rw [h, List.concat_eq_append]⟩
  have hfront : front.length = k := by
    rw [hsplit, List.length_append, List.length_singleton] at hfull
    omega
  rw [hsplit, offer_of_full (by rw [← hsplit, hfull])]
  by_cases hlt : nb.dist < back.dist
  · rw [if_pos hlt]
    exact (least_concat_of_rel hsplit hfront (notBehind_iff.mpr (Or.inl hlt))).symm
  · rw [if_neg hlt, ← hsplit]
    -- all kept ones are at most as far as the last, and have smaller ids
    refine (least_concat_of_not_rel hlen fun x hx hbehind => ?_).symm
    have hxid := hid x (mem_of_mem_least hx)
    have hxback : x.dist ≤ back.dist := by
      have hsorted : (front ++ [back]).Pairwise NotBehind := hsplit ▸ pairwise_least
      rcases List.mem_append.mp (hsplit ▸ hx) with hmem | hmem
      · rcases notBehind_iff.mp ((List.pairwise_append.mp hsorted).2.2 x hmem back
          (List.mem_singleton_self back)) with h | h
        · exact h.le
        · exact h.1.le
      · exact (List.mem_singleton.mp hmem) ▸ le_refl _
    rcases notBehind_iff.mp hbehind with h | h
    · exact hlt (h.trans_le hxback)
    · omega

/-- What the buffer holds after a sequence of neighbors with growing ids. -/
theorem foldl_offer (hK : 0 < K) (hids : IdsGrow l) :
    l.foldl (offer K) [] = if l.length < K then l else least NotBehind K l := by
  induction l using List.reverseRecOn with
  | nil => rw [if_pos (show ([] : List (Neighbor D)).length < K from hK)]; rfl
  | append_singleton l nb ih =>
    obtain ⟨hl, -, hnb⟩ := List.pairwise_append.mp hids
    have hlen : (l ++ [nb]).length = l.length + 1 := List.length_append
    rw [List.foldl_append, ih hl, List.foldl_cons, List.foldl_nil]
    by_cases hfew : l.length < K
    · rw [if_pos hfew, offer, if_pos hfew]
      by_cases hfull : l.length + 1 = K
      · -- the buffer becomes full here, and is sorted
        rw [if_neg (show ¬ (l ++ [nb]).length < K by omega), least_of_length_le (by omega)]
        exact if_pos (hlen.trans hfull)
      · rw [if_pos (show (l ++ [nb]).length < K by omega)]
        exact if_neg (by omega)
    · rw [if_neg hfew, if_neg (by omega)]
      exact offer_least hK (Nat.not_lt.mp hfew) fun a ha => hnb a ha nb (List.mem_singleton_self nb)

end Buffer

/-! ## The live collection -/

structure LiveVectors (T : Type) where
  base : List T
  nBase : Nat
  dim : Nat
  aligned : Nat
  extraIds : List UInt32
  extra : List T
  extraSlot : Table UInt32 Nat
  deleted : Finset UInt32

namespace LiveVectors

variable {T : Type}

/-- `ptr`: the array from the place that the pointer points to. -/
def ptr (live : LiveVectors T) (id : UInt32) : Option (List T) :=
  if id ∈ live.deleted then none
  else if id.toNat < live.nBase then some (live.base.drop (id.toNat * live.aligned))
  else (live.extraSlot.lookup id).map fun slot => live.extra.drop (slot * live.aligned)

def addExtra (live : LiveVectors T) (id : UInt32) (vec : List T) : LiveVectors T :=
  { live with
    extraSlot := live.extraSlot.insert id live.extraIds.length
    extraIds := live.extraIds ++ [id]
    extra := live.extra ++ vec.take live.aligned }

def markDeleted (live : LiveVectors T) (id : UInt32) : LiveVectors T :=
  { live with deleted := insert id live.deleted }

def isLive (live : LiveVectors T) (id : UInt32) : Bool :=
  decide (id ∉ live.deleted) && (live.ptr id).isSome

/-- A collection before any vector is added or deleted. -/
def ofBase (base : List T) (nBase dim aligned : Nat) : LiveVectors T :=
  ⟨base, nBase, dim, aligned, [], [], ∅, ∅⟩

/-- What the random generator yields for one extra vector: two base vectors and
    a weight. -/
structure Draw (n : Nat) (L : Type) where
  a : Fin n
  b : Fin n
  lam : L

variable {L : Type} (lerpComp : T → T → L → T) (zero : T)

/-- `tmp` after the loop over the components. -/
def mix (live : LiveVectors T) (draw : Draw live.nBase L) : List T :=
  List.zipWith (fun x y => lerpComp x y draw.lam)
      ((live.base.drop (draw.a * live.aligned)).take live.dim)
      ((live.base.drop (draw.b * live.aligned)).take live.dim) ++
    List.replicate (live.aligned - live.dim) zero

/-- The loop of `synthesize_extra`, with the vectors already drawn. -/
def addExtras (live : LiveVectors T) (nextId : UInt32) : List (List T) → LiveVectors T
  | [] => live
  | vec :: rest => addExtras (live.addExtra nextId vec) (nextId + 1) rest

def synthesizeExtra (live : LiveVectors T) (draws : List (Draw live.nBase L)) : LiveVectors T :=
  if draws.length = 0 ∨ live.nBase < 2 then live
  else live.addExtras (UInt32.ofNat live.nBase) (draws.map (live.mix lerpComp zero))

/-! ## Numbering -/

/-- The ids of a collection are `0 .. n_base - 1` and then the extra ones, each
    with a place in its array. -/
structure Numbered (live : LiveVectors T) : Prop where
  length_base : live.base.length = live.nBase * live.aligned
  dim_le : live.dim ≤ live.aligned
  fits : live.nBase + live.extraIds.length ≤ 2 ^ 32
  length_extra : live.extra.length = live.extraIds.length * live.aligned
  extraIds_eq : live.extraIds =
    (List.range live.extraIds.length).map fun i => UInt32.ofNat (live.nBase + i)
  lookup_extraSlot : ∀ id slot,
    live.extraSlot.lookup id = some slot ↔ live.extraIds[slot]? = some id

theorem numbered_ofBase {base : List T} {nBase dim aligned : Nat}
    (hlen : base.length = nBase * aligned) (hdim : dim ≤ aligned) (hfits : nBase ≤ 2 ^ 32) :
    (ofBase base nBase dim aligned).Numbered where
  length_base := hlen
  dim_le := hdim
  fits := hfits
  length_extra := (Nat.zero_mul aligned).symm
  extraIds_eq := rfl
  lookup_extraSlot id slot := by
    show (∅ : Table UInt32 Nat).lookup id = some slot ↔ ([] : List UInt32)[slot]? = some id
    rw [AList.lookup_empty, List.getElem?_nil]
    exact iff_of_false nofun nofun

theorem Numbered.markDeleted {live : LiveVectors T} (h : live.Numbered) (id : UInt32) :
    (live.markDeleted id).Numbered :=
  ⟨h.length_base, h.dim_le, h.fits, h.length_extra, h.extraIds_eq, h.lookup_extraSlot⟩

/-- Extra id number `i`. -/
theorem Numbered.getElem?_extraIds {live : LiveVectors T} (h : live.Numbered) {i : Nat}
    {id : UInt32} :
    live.extraIds[i]? = some id ↔
      i < live.extraIds.length ∧ id.toNat = live.nBase + i := by
  have hfits := h.fits
  rw [h.extraIds_eq, List.getElem?_map, List.length_map, List.length_range]
  by_cases hi : i < live.extraIds.length
  · rw [List.getElem?_range hi, Option.map_some, Option.some.injEq, ← UInt32.toNat_inj,
      UInt32.toNat_ofNat_of_lt' (show live.nBase + i < 2 ^ 32 by omega)]
    exact ⟨fun heq => ⟨hi, heq.symm⟩, fun heq => heq.2.symm⟩
  · rw [List.getElem?_eq_none (by rwa [List.length_range, ← Nat.not_lt])]
    exact iff_of_false nofun fun heq => hi heq.1

/-- The slots with one more id at the end. -/
theorem Numbered.lookup_addExtra {live : LiveVectors T} (h : live.Numbered) {next id : UInt32}
    {slot : Nat} (hnext : next.toNat = live.nBase + live.extraIds.length) :
    (live.extraSlot.insert next live.extraIds.length).lookup id = some slot ↔
      (live.extraIds ++ [next])[slot]? = some id := by
  rw [Table.lookup_insert_eq]
  by_cases hid : id = next
  · rw [if_pos hid, Option.some.injEq]
    constructor
    · rintro rfl
      rw [hid, List.getElem?_concat_length]
    · intro hslot
      by_cases hlt : slot < live.extraIds.length
      · -- the ids that were there are smaller
        rw [List.getElem?_append_left hlt, h.getElem?_extraIds, hid] at hslot
        omega
      · obtain ⟨hle, -⟩ := List.getElem?_eq_some_iff.mp hslot
        rw [List.length_append, List.length_singleton] at hle
        omega
  · rw [if_neg hid, h.lookup_extraSlot]
    constructor
    · intro hslot
      rwa [List.getElem?_append_left (List.getElem?_eq_some_iff.mp hslot).1]
    · intro hslot
      by_cases hlt : slot < live.extraIds.length
      · rwa [List.getElem?_append_left hlt] at hslot
      · have hge := Nat.not_lt.mp hlt
        rw [List.getElem?_append_right hge, List.getElem?_singleton] at hslot
        split_ifs at hslot
        exact absurd (Option.some.inj hslot).symm hid

/-- The next id goes to the end of the extra ones. -/
theorem Numbered.addExtra {live : LiveVectors T} (h : live.Numbered) {vec : List T}
    (hfits : live.nBase + live.extraIds.length < 2 ^ 32) (hvec : live.aligned ≤ vec.length) :
    (live.addExtra (UInt32.ofNat (live.nBase + live.extraIds.length)) vec).Numbered where
  length_base := h.length_base
  dim_le := h.dim_le
  fits := by
    show live.nBase + (live.extraIds ++ [_]).length ≤ 2 ^ 32
    rw [List.length_append, List.length_singleton]
    omega
  length_extra := by
    show (live.extra ++ vec.take live.aligned).length = (live.extraIds ++ [_]).length * live.aligned
    rw [List.length_append, h.length_extra, List.length_take, Nat.min_eq_left hvec,
      List.length_append, List.length_singleton, Nat.succ_mul]
  extraIds_eq := by
    show live.extraIds ++ [UInt32.ofNat (live.nBase + live.extraIds.length)] =
      (List.range (live.extraIds ++ [_]).length).map fun i => UInt32.ofNat (live.nBase + i)
    rw [List.length_append, List.length_singleton, List.range_succ, List.map_append,
      ← h.extraIds_eq]
    rfl
  lookup_extraSlot _ _ := h.lookup_addExtra (UInt32.toNat_ofNat_of_lt' hfits)

theorem length_mix {live : LiveVectors T} (h : live.Numbered) (draw : Draw live.nBase L) :
    (live.mix lerpComp zero draw).length = live.aligned := by
  have hrow : ∀ i : Fin live.nBase,
      ((live.base.drop (i * live.aligned)).take live.dim).length = live.dim := by
    intro i
    have hnext : (i + 1) * live.aligned ≤ live.nBase * live.aligned :=
      Nat.mul_le_mul_right _ i.isLt
    have hdim := h.dim_le
    rw [Nat.succ_mul] at hnext
    rw [List.length_take, List.length_drop, h.length_base]
    omega
  have hdim := h.dim_le
  rw [mix, List.length_append, List.length_zipWith, hrow, hrow, List.length_replicate]
  omega

theorem Numbered.addExtras {live : LiveVectors T} (h : live.Numbered) {vecs : List (List T)}
    (hfits : live.nBase + live.extraIds.length + vecs.length ≤ 2 ^ 32)
    (hvecs : ∀ vec ∈ vecs, live.aligned ≤ vec.length) :
    (live.addExtras (UInt32.ofNat (live.nBase + live.extraIds.length)) vecs).Numbered := by
  induction vecs generalizing live with
  | nil => exact h
  | cons vec rest ih =>
    rw [List.length_cons] at hfits
    have hnext := h.addExtra (by omega) (hvecs vec List.mem_cons_self)
    have hlen :
        (live.addExtra (UInt32.ofNat (live.nBase + live.extraIds.length)) vec).extraIds.length =
          live.extraIds.length + 1 := List.length_append
    have hrest := ih hnext (by rw [hlen]; show live.nBase + _ + _ ≤ _; omega)
      fun v hv => hvecs v (List.mem_cons_of_mem vec hv)
    have hid : UInt32.ofNat (live.nBase + (live.extraIds.length + 1)) =
        UInt32.ofNat (live.nBase + live.extraIds.length) + 1 := UInt32.ofNat_add _ 1
    rw [hlen, show (live.addExtra _ vec).nBase = live.nBase from rfl, hid] at hrest
    exact hrest

/-- A collection to which no extra vectors have been added yet stays numbered. -/
theorem Numbered.synthesizeExtra {live : LiveVectors T} (h : live.Numbered)
    (hnone : live.extraIds = []) {draws : List (Draw live.nBase L)}
    (hfits : live.nBase + draws.length ≤ 2 ^ 32) :
    (live.synthesizeExtra lerpComp zero draws).Numbered := by
  rw [LiveVectors.synthesizeExtra]
  split_ifs with hskip
  · exact h
  · have hvecs : ∀ vec ∈ draws.map (live.mix lerpComp zero), live.aligned ≤ vec.length := by
      intro vec hvec
      obtain ⟨draw, -, rfl⟩ := List.mem_map.mp hvec
      exact (length_mix lerpComp zero h draw).ge
    have hadd := h.addExtras (by rw [hnone, List.length_map]; exact hfits) hvecs
    rwa [hnone] at hadd

/-- The collection of a refresh run: extra vectors are drawn for the base, then
    ids are deleted. -/
def refresh (live : LiveVectors T) (draws : List (Draw live.nBase L)) (deletions : List UInt32) :
    LiveVectors T :=
  deletions.foldl markDeleted (live.synthesizeExtra lerpComp zero draws)

theorem numbered_refresh {base : List T} {nBase dim aligned : Nat}
    (hlen : base.length = nBase * aligned) (hdim : dim ≤ aligned) {draws : List (Draw nBase L)}
    (hfits : nBase + draws.length ≤ 2 ^ 32) (deletions : List UInt32) :
    ((ofBase base nBase dim aligned).refresh lerpComp zero draws deletions).Numbered := by
  have hbase := numbered_ofBase hlen hdim (by omega : nBase ≤ 2 ^ 32)
  have hextra := hbase.synthesizeExtra lerpComp zero rfl hfits
  unfold refresh
  generalize (ofBase base nBase dim aligned).synthesizeExtra lerpComp zero draws = live at hextra
  induction deletions generalizing live with
  | nil => exact hextra
  | cons id rest ih => exact ih _ (hextra.markDeleted id)

end LiveVectors

/-- A live collection, as the programs build it. -/
structure Collection (T : Type) where
  live : LiveVectors T
  numbered : live.Numbered

/-! ## Packing -/

namespace LiveVectors

variable {T : Type} {live : LiveVectors T} {id : UInt32}

/-- The body of both loops of `pack_live`. -/
def packOne (live : LiveVectors T) (acc : List UInt32 × List T) (id : UInt32) :
    List UInt32 × List T :=
  match live.ptr id with
  | none => acc
  | some v => (acc.1 ++ [id], acc.2 ++ v.take live.dim)

/-- `pack_live`; the first loop stops at `static_cast<uint32_t>(live.n_base)`. -/
def packLive (live : LiveVectors T) : List UInt32 × List T :=
  live.extraIds.foldl live.packOne
    (((List.range (live.nBase % 2 ^ 32)).map UInt32.ofNat).foldl live.packOne ([], []))

/-- The components of the vector with this id. -/
def vec (live : LiveVectors T) (id : UInt32) : List T := ((live.ptr id).getD []).take live.dim

/-- The live ids, in increasing order. -/
def liveIds (live : LiveVectors T) : List UInt32 :=
  ((List.range (live.nBase + live.extraIds.length)).map UInt32.ofNat).filter live.isLive

theorem isLive_eq (live : LiveVectors T) (id : UInt32) : live.isLive id = (live.ptr id).isSome := by
  rw [isLive, ptr]
  by_cases h : id ∈ live.deleted
  · rw [if_pos h]
    exact Bool.and_false _
  · rw [decide_eq_true h, Bool.true_and]

theorem foldl_packOne (live : LiveVectors T) (ids : List UInt32) (acc : List UInt32 × List T) :
    ids.foldl live.packOne acc =
      (acc.1 ++ ids.filter live.isLive, acc.2 ++ (ids.filter live.isLive).flatMap live.vec) := by
  induction ids generalizing acc with
  | nil => simp
  | cons id rest ih =>
    rw [List.foldl_cons, ih, packOne]
    cases hptr : live.ptr id with
    | none =>
      have hdead : live.isLive id = false := by rw [isLive_eq, hptr]; rfl
      simp [hdead]
    | some v =>
      have hlive : live.isLive id = true := by rw [isLive_eq, hptr]; rfl
      simp [hlive, vec, hptr]

/-- Base ids and extra ids are one range. -/
theorem Numbered.ids_eq (h : live.Numbered) :
    (List.range live.nBase).map UInt32.ofNat ++ live.extraIds =
      (List.range (live.nBase + live.extraIds.length)).map UInt32.ofNat := by
  rw [List.range_add, List.map_append, List.map_map]
  exact congrArg _ h.extraIds_eq

theorem Numbered.toNat_lt_of_isLive (h : live.Numbered) (hlive : live.isLive id = true) :
    id.toNat < live.nBase + live.extraIds.length := by
  rw [isLive_eq, ptr] at hlive
  split_ifs at hlive with hdel hbase
  · cases hlive
  · omega
  · rw [Option.isSome_map, Option.isSome_iff_exists] at hlive
    obtain ⟨slot, hslot⟩ := hlive
    rw [h.lookup_extraSlot, h.getElem?_extraIds] at hslot
    omega

theorem Numbered.mem_liveIds (h : live.Numbered) : id ∈ live.liveIds ↔ live.isLive id = true := by
  rw [liveIds, List.mem_filter]
  constructor
  · exact fun hmem => hmem.2
  · intro hlive
    refine ⟨List.mem_map.mpr ⟨id.toNat, ?_, UInt32.ofNat_toNat⟩, hlive⟩
    exact List.mem_range.mpr (h.toNat_lt_of_isLive hlive)

theorem Numbered.liveIds_grow (h : live.Numbered) :
    live.liveIds.Pairwise fun a b => a.toNat < b.toNat := by
  refine List.Pairwise.filter _ (List.pairwise_map.mpr ?_)
  refine List.pairwise_lt_range.imp_of_mem fun ha hb hlt => ?_
  have hfits := h.fits
  have ha := List.mem_range.mp ha
  have hb := List.mem_range.mp hb
  rwa [UInt32.toNat_ofNat_of_lt' (lt_of_lt_of_le ha hfits),
    UInt32.toNat_ofNat_of_lt' (lt_of_lt_of_le hb hfits)]

theorem Numbered.nodup_liveIds (h : live.Numbered) : live.liveIds.Nodup := by
  have hne : live.liveIds.Pairwise (· ≠ ·) := by
    refine h.liveIds_grow.imp fun {a b} hlt heq => ?_
    rw [heq] at hlt
    exact Nat.lt_irrefl _ hlt
  exact hne

theorem Numbered.length_vec (h : live.Numbered) (hlive : live.isLive id = true) :
    (live.vec id).length = live.dim := by
  have hdim := h.dim_le
  -- an array of rows has a whole row from the start of each
  have hrow : ∀ {array : List T} {rows i : Nat}, array.length = rows * live.aligned → i < rows →
      ((array.drop (i * live.aligned)).take live.dim).length = live.dim := by
    intro array rows i hlen hi
    have hnext : (i + 1) * live.aligned ≤ rows * live.aligned := Nat.mul_le_mul_right _ hi
    rw [Nat.succ_mul] at hnext
    rw [List.length_take, List.length_drop, hlen]
    omega
  rw [isLive_eq] at hlive
  rw [vec]
  rw [ptr] at hlive ⊢
  split_ifs at hlive ⊢ with hdel hbase
  · cases hlive
  · exact hrow h.length_base hbase
  · rw [Option.isSome_map, Option.isSome_iff_exists] at hlive
    obtain ⟨slot, hslot⟩ := hlive
    rw [hslot]
    exact hrow h.length_extra (h.getElem?_extraIds.mp ((h.lookup_extraSlot _ _).mp hslot)).1

/-- The vectors packed: all live ones, in the order of the ids. -/
theorem Numbered.packLive_eq (h : live.Numbered) (hbase : live.nBase < 2 ^ 32) :
    live.packLive = (live.liveIds, live.liveIds.flatMap live.vec) := by
  rw [packLive, Nat.mod_eq_of_lt hbase, ← List.foldl_append, h.ids_eq, foldl_packOne]
  rfl

/-- With `n_base = 2^32` the first loop does not run. -/
theorem Numbered.packLive_of_wrap (h : live.Numbered) (hbase : 2 ^ 32 ≤ live.nBase) :
    live.packLive = ([], []) := by
  have hfits := h.fits
  have hnone : live.extraIds = [] := List.eq_nil_of_length_eq_zero (by omega)
  have hmod : live.nBase % 2 ^ 32 = 0 := by
    rw [show live.nBase = 2 ^ 32 by omega, Nat.mod_self]
  rw [packLive, hnone, hmod]
  rfl

end LiveVectors

/-! ## The exact ground truth -/

structure LiveGroundtruth (D : Type) where
  K : UInt32
  lists : List (List (Neighbor D))

namespace LiveGroundtruth

def topk {D : Type} (gt : LiveGroundtruth D) (q : Nat) : Finset UInt32 :=
  match gt.lists[q]? with
  | none => ∅
  | some lst => ((lst.take (min gt.K.toNat lst.length)).map Neighbor.id).toFinset

end LiveGroundtruth

section Exact

variable {T D : Type} [LinearOrder D] (dist : List T → List T → D)

/-- `best` of a query, after the loop. -/
def exactList (K : Nat) (live : LiveVectors T) (query : List T) : List (Neighbor D) :=
  let packed := live.packLive
  (List.range packed.1.length).foldl
    (fun best i =>
      offer K best ⟨packed.1.getD i 0, dist query ((packed.2.drop (i * live.dim)).take live.dim)⟩)
    []

/-- The components of query `q`. -/
def queryAt (live : LiveVectors T) (queries : List T) (qaligned q : Nat) : List T :=
  (queries.drop (q * qaligned)).take live.dim

/-- `compute_exact_gt`; the loop over the queries runs to `static_cast<int>(n_eval)`. -/
def computeExactGt (queries : List T) (qaligned nEval : Nat) (live : LiveVectors T) (K : UInt32) :
    LiveGroundtruth D where
  K := K
  lists := (List.range nEval).map fun (q : Nat) =>
    if (q : Int) < (Int32.ofNat nEval).toInt then
      exactList dist K.toNat live (queryAt live queries qaligned q)
    else []

/-! ## What exact means -/

/-- The neighbor that a live id is to a query. -/
def neighborOf (live : LiveVectors T) (query : List T) (id : UInt32) : Neighbor D :=
  ⟨id, dist query (live.vec id)⟩

/-- The exact top K of a query against the live collection. -/
structure IsExact (live : LiveVectors T) (query : List T) (K : Nat) (l : List (Neighbor D)) :
    Prop where
  length_eq : l.length = min K live.liveIds.length
  live_of_mem : ∀ n ∈ l, live.isLive n.id = true ∧ n = neighborOf dist live query n.id
  nodup : (l.map Neighbor.id).Nodup
  smallest : ∀ n ∈ l, ∀ id, live.isLive id = true → id ∉ l.map Neighbor.id →
    neighborLess n (neighborOf dist live query id) = true
  sorted : l.Pairwise fun a b => neighborLess a b = true

/-- The distances do not decrease along the ids. -/
def DistancesGrow (live : LiveVectors T) (query : List T) : Prop :=
  (live.liveIds.map fun id => dist query (live.vec id)).Pairwise (· ≤ ·)

variable {dist} {live : LiveVectors T} {query : List T} {K : Nat}

omit [LinearOrder D] in
theorem map_id_neighborOf (ids : List UInt32) :
    (ids.map (neighborOf dist live query)).map Neighbor.id = ids := by
  rw [List.map_map]
  exact List.map_id ids

/-- The loop is a fold over the live ids. -/
theorem exactList_eq (h : live.Numbered) (hbase : live.nBase < 2 ^ 32) :
    exactList dist K live query =
      (live.liveIds.map (neighborOf dist live query)).foldl (offer K) [] := by
  have hsteps : (List.range live.liveIds.length).map (fun i =>
      (⟨live.liveIds.getD i 0,
        dist query (((live.liveIds.flatMap live.vec).drop (i * live.dim)).take live.dim)⟩ :
        Neighbor D)) = live.liveIds.map (neighborOf dist live query) := by
    refine List.ext_getElem? fun i => ?_
    rw [List.getElem?_map, List.getElem?_map]
    by_cases hi : i < live.liveIds.length
    · have hid : live.liveIds[i]? = some (live.liveIds[i]) := List.getElem?_eq_getElem hi
      have hvec := Bytes.slice_flatMap (fun id hmem => h.length_vec (h.mem_liveIds.mp hmem)) hid
      rw [List.getElem?_range hi, hid, Option.map_some, Option.map_some, hvec,
        List.getD_eq_getElem?_getD, hid]
      rfl
    · rw [List.getElem?_eq_none (by rwa [List.length_range, ← Nat.not_lt]),
        List.getElem?_eq_none (Nat.not_lt.mp hi)]
      rfl
  rw [exactList, h.packLive_eq hbase, ← hsteps, List.foldl_map]

/-- The list that the loop leaves. -/
theorem exactList_cases (h : live.Numbered) (hbase : live.nBase < 2 ^ 32) (hK : 0 < K) :
    exactList dist K live query =
      if live.liveIds.length < K then live.liveIds.map (neighborOf dist live query)
      else least NotBehind K (live.liveIds.map (neighborOf dist live query)) := by
  have hids : IdsGrow (live.liveIds.map (neighborOf dist live query)) :=
    List.pairwise_map.mpr h.liveIds_grow
  rw [exactList_eq h hbase, foldl_offer hK hids, List.length_map]

/-- The K least of the live neighbors are the exact top K. -/
theorem isExact_least (h : live.Numbered) :
    IsExact dist live query K
      (least NotBehind K (live.liveIds.map (neighborOf dist live query))) := by
  set all := live.liveIds.map (neighborOf dist live query) with hall
  have hnodup : ((least NotBehind K all).map Neighbor.id).Nodup := by
    refine nodup_map_least ?_
    rw [hall, map_id_neighborOf]
    exact h.nodup_liveIds
  refine ⟨?_, ?_, hnodup, ?_, ?_⟩
  · rw [length_least, hall, List.length_map]
  · intro n hn
    obtain ⟨id, hid, rfl⟩ := List.mem_map.mp (mem_of_mem_least hn)
    exact ⟨h.mem_liveIds.mp hid, rfl⟩
  · intro n hn id hlive hout
    have hmem : neighborOf dist live query id ∈ all :=
      List.mem_map.mpr ⟨id, h.mem_liveIds.mpr hlive, rfl⟩
    have hleft : neighborOf dist live query id ∉ least NotBehind K all := fun hin =>
      hout (List.mem_map.mpr ⟨_, hin, rfl⟩)
    refine neighborLess_of_notBehind (rel_of_not_mem_least hn hmem hleft) fun heq => ?_
    exact hout (List.mem_map.mpr ⟨n, hn, heq⟩)
  · have hids : (least NotBehind K all).Pairwise fun a b => a.id ≠ b.id :=
      List.pairwise_map.mp hnodup
    exact (pairwise_least.and hids).imp fun hab => neighborLess_of_notBehind hab.1 hab.2

/-- All live ids in the order of the ids: exact if and only if that is the order
    of the distances. -/
theorem isExact_map_liveIds_iff (h : live.Numbered) (hfew : live.liveIds.length ≤ K) :
    IsExact dist live query K (live.liveIds.map (neighborOf dist live query)) ↔
      DistancesGrow dist live query := by
  have hsorted : (live.liveIds.map (neighborOf dist live query)).Pairwise
      (fun a b => neighborLess a b = true) ↔ DistancesGrow dist live query := by
    rw [DistancesGrow, List.pairwise_map, List.pairwise_map]
    constructor
    · refine List.Pairwise.imp fun hab => ?_
      rcases neighborLess_iff.mp hab with hlt | heq
      · exact hlt.le
      · exact heq.1.le
    · intro hgrow
      refine (hgrow.and h.liveIds_grow).imp fun hab => neighborLess_iff.mpr ?_
      rcases lt_or_eq_of_le hab.1 with hlt | heq
      · exact Or.inl hlt
      · exact Or.inr ⟨heq, hab.2⟩
  constructor
  · exact fun hexact => hsorted.mp hexact.sorted
  · intro hgrow
    refine ⟨?_, ?_, ?_, ?_, hsorted.mpr hgrow⟩
    · rw [List.length_map, Nat.min_eq_right hfew]
    · intro n hn
      obtain ⟨id, hid, rfl⟩ := List.mem_map.mp hn
      exact ⟨h.mem_liveIds.mp hid, rfl⟩
    · rw [map_id_neighborOf]
      exact h.nodup_liveIds
    · intro n _ id hlive hout
      rw [map_id_neighborOf] at hout
      exact absurd (h.mem_liveIds.mpr hlive) hout

/-- The empty list is exact only where nothing is live. -/
theorem isExact_nil_iff (hK : 0 < K) :
    IsExact dist live query K ([] : List (Neighbor D)) ↔ live.liveIds = [] := by
  constructor
  · intro hexact
    have hlen := hexact.length_eq
    rw [List.length_nil] at hlen
    exact List.eq_nil_of_length_eq_zero (by omega)
  · intro hnone
    refine ⟨?_, ?_, List.nodup_nil, ?_, List.Pairwise.nil⟩
    · rw [hnone]
      exact (Nat.min_zero K).symm
    · exact fun n hn => absurd hn List.not_mem_nil
    · exact fun n hn => absurd hn List.not_mem_nil

/-- What a query's list is exact for. -/
theorem isExact_exactList_iff (h : live.Numbered) (hK : 0 < K) :
    IsExact dist live query K (exactList dist K live query) ↔
      live.liveIds = [] ∨
        live.nBase < 2 ^ 32 ∧ (K ≤ live.liveIds.length ∨ DistancesGrow dist live query) := by
  by_cases hbase : live.nBase < 2 ^ 32
  · rw [exactList_cases h hbase hK]
    by_cases hfew : live.liveIds.length < K
    · rw [if_pos hfew, isExact_map_liveIds_iff h hfew.le]
      constructor
      · exact fun hgrow => Or.inr ⟨hbase, Or.inr hgrow⟩
      · rintro (hnone | ⟨-, hmany | hgrow⟩)
        · rw [DistancesGrow, hnone]
          exact List.Pairwise.nil
        · omega
        · exact hgrow
    · rw [if_neg hfew]
      exact iff_of_true (isExact_least h) (Or.inr ⟨hbase, Or.inl (Nat.not_lt.mp hfew)⟩)
  · have hempty : exactList dist K live query = [] := by
      rw [exactList, h.packLive_of_wrap (Nat.not_lt.mp hbase)]
      rfl
    rw [hempty, isExact_nil_iff hK]
    simp only [hbase, false_and, or_false]

/-- `compute_exact_gt` is exact for a query if and only if nothing is live, or
    both casts keep their values and the list was either full or by chance in
    order. -/
theorem computeExactGt_isExact_iff (dist : List T → List T → D) (c : Collection T)
    (queries : List T) (qaligned : Nat) {nEval q : Nat} {K : UInt32} (hK : 1 ≤ K.toNat)
    (hq : q < nEval) :
    IsExact dist c.live (queryAt c.live queries qaligned q) K.toNat
        ((computeExactGt dist queries qaligned nEval c.live K).lists.getD q []) ↔
      c.live.liveIds = [] ∨
        (c.live.nBase < 2 ^ 32 ∧ (q : Int) < (Int32.ofNat nEval).toInt) ∧
          (K.toNat ≤ c.live.liveIds.length ∨
            DistancesGrow dist c.live (queryAt c.live queries qaligned q)) := by
  rw [computeExactGt, List.getD_eq_getElem?_getD, List.getElem?_map, List.getElem?_range hq]
  show IsExact dist c.live _ K.toNat (if (q : Int) < (Int32.ofNat nEval).toInt then _ else []) ↔ _
  by_cases hint : (q : Int) < (Int32.ofNat nEval).toInt
  · rw [if_pos hint, isExact_exactList_iff c.numbered hK]
    simp only [hint, and_true]
  · rw [if_neg hint, isExact_nil_iff hK]
    simp only [hint, and_false, false_and, or_false]

end Exact

/-- The square of the distance of integer vectors. -/
def l2sqInt (a b : List Int) : Int := ((a.zip b).map fun p => (p.1 - p.2) * (p.1 - p.2)).sum

/-- Base vectors 3 and 1, in one dimension. -/
def twoPoints : Collection Int where
  live := LiveVectors.ofBase [3, 1] 2 1 1
  numbered := LiveVectors.numbered_ofBase rfl (Nat.le_refl 1) (by decide)

/-- The nearer of the two points is the exact top 1 of the origin. -/
theorem computeExactGt_twoPoints_isExact :
    IsExact l2sqInt twoPoints.live (queryAt twoPoints.live [0] 1 0) 1
      ((computeExactGt l2sqInt [0] 1 1 twoPoints.live 1).lists.getD 0 []) :=
  (computeExactGt_isExact_iff l2sqInt twoPoints [0] 1 (show 1 ≤ (1 : UInt32).toNat by decide)
    (show 0 < 1 by decide)).mpr (Or.inr ⟨by decide, Or.inl (by decide)⟩)

/-- With `K = 10` both are listed, the farther one first. -/
theorem computeExactGt_twoPoints_not_isExact :
    ¬ IsExact l2sqInt twoPoints.live (queryAt twoPoints.live [0] 1 0) 10
      ((computeExactGt l2sqInt [0] 1 1 twoPoints.live 10).lists.getD 0 []) := by
  have hlist : (computeExactGt l2sqInt [0] 1 1 twoPoints.live 10).lists.getD 0 [] =
      [⟨0, 9⟩, ⟨1, 1⟩] := by decide
  intro hexact
  have hsorted := hexact.sorted
  rw [hlist] at hsorted
  exact absurd hsorted (by decide)

end QvCache.Refresh
