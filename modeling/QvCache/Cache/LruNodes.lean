/-
  QvCache.Cache.LruNodes

  `LRUCache` of include/qvcache/lru_cache.h as it is stored: a linked list of
  nodes and a map from each tag to its node, which `access`, `evict` and `clear`
  change together.  An iterator is the number of its node; what the language
  leaves undefined (an iterator into no node, the last element of an empty list)
  is `none`.  Memory is taken to be there for whatever may be asked for.

  `RecencyList` is what the cache is for: the tags from the last used one on.
  The stored cache agrees with it all along a run exactly if no `evict` asks for
  more than a vector can hold (`lru_agrees_iff`): `evict` reserves the number it
  is called with, not the number of tags there are, as `get_lru_tags` does.
-/

import QvCache.Cache.State
import QvCache.Lib.Table
import QvCache.Lib.Traces

namespace QvCache

/-! ## What the cache is for -/

/-- The tags of a cache, the last used one in front. -/
structure RecencyList (TagT : Type) where
  order : List TagT
  capacity : Nat
deriving DecidableEq

namespace RecencyList

variable {TagT : Type} [DecidableEq TagT]

/-- Move to the front, or insert there; at full capacity a new tag takes the
    place of the last one. -/
def access (a : RecencyList TagT) (tag : TagT) : RecencyList TagT × Bool :=
  if tag ∈ a.order then ({ a with order := tag :: a.order.erase tag }, false)
  else if a.capacity ≤ a.order.length then ({ a with order := tag :: a.order.dropLast }, true)
  else ({ a with order := tag :: a.order }, true)

/-- Remove the last `n` tags; they are returned from the last one on. -/
def evict (a : RecencyList TagT) (n : Nat) : RecencyList TagT × List TagT :=
  ({ a with order := a.order.take (a.order.length - n) }, a.order.reverse.take n)

def clear (a : RecencyList TagT) : RecencyList TagT := { a with order := [] }

section Access

variable {a : RecencyList TagT} {tag : TagT}

theorem access_of_mem (h : tag ∈ a.order) :
    a.access tag = (⟨tag :: a.order.erase tag, a.capacity⟩, false) := if_pos h

theorem access_of_full (h : tag ∉ a.order) (hfull : a.capacity ≤ a.order.length) :
    a.access tag = (⟨tag :: a.order.dropLast, a.capacity⟩, true) := by
  rw [access, if_neg h, if_pos hfull]

theorem access_of_room (h : tag ∉ a.order) (hroom : a.order.length < a.capacity) :
    a.access tag = (⟨tag :: a.order, a.capacity⟩, true) := by
  rw [access, if_neg h, if_neg (Nat.not_le.mpr hroom)]

end Access

/-- The order that the cache of shards keeps. -/
def toLruCache (a : RecencyList Nat) : LruCache := ⟨a.order, a.capacity⟩

theorem toLruCache_access (a : RecencyList Nat) (tag : Nat) :
    (a.access tag).1.toLruCache = a.toLruCache.access tag := by
  rw [LruCache.access]
  split_ifs with hmem hfull
  · rw [access_of_mem hmem]
    rfl
  · rw [access_of_full hmem hfull]
    rfl
  · rw [access_of_room hmem (Nat.not_le.mp hfull)]
    rfl

end RecencyList

/-! ## The stored cache -/

structure LruNodes (TagT : Type) where
  /-- `order_list`: the number and the tag of each node. -/
  orderList : List (Nat × TagT)
  tagMap : Table TagT Nat
  nextNode : Nat
  maxCapacity : Nat

namespace LruNodes

variable {TagT : Type} [DecidableEq TagT]

/-- `LRUCache(max_capacity)`. -/
def create (maxCapacity : Nat) : LruNodes TagT := ⟨[], ∅, 0, maxCapacity⟩

/-- `order_list.push_front(tag)` and `tag_map[tag] = order_list.begin()`. -/
def pushFront (s : LruNodes TagT) (tag : TagT) : LruNodes TagT :=
  { s with
    orderList := (s.nextNode, tag) :: s.orderList
    tagMap := s.tagMap.insert tag s.nextNode
    nextNode := s.nextNode + 1 }

/-- `order_list.back()`, `order_list.pop_back()` and `tag_map.erase(lru_tag)`. -/
def popBack (s : LruNodes TagT) : Option (LruNodes TagT × TagT) :=
  s.orderList.getLast?.map fun last =>
    ({ s with orderList := s.orderList.dropLast, tagMap := s.tagMap.erase last.2 }, last.2)

/-- The node with this number, and the list without it. -/
def unlink (node : Nat) : List (Nat × TagT) → Option ((Nat × TagT) × List (Nat × TagT))
  | [] => none
  | first :: rest =>
    if first.1 = node then some (first, rest)
    else (unlink node rest).map fun r => (r.1, first :: r.2)

def access (s : LruNodes TagT) (tag : TagT) : Option (LruNodes TagT × Bool) :=
  match s.tagMap.lookup tag with
  | some node =>
    -- `splice` to the front
    (unlink node s.orderList).map fun r => ({ s with orderList := r.1 :: r.2 }, false)
  | none =>
    let room := if s.maxCapacity ≤ s.orderList.length then s.popBack.map Prod.fst else some s
    room.map fun s => (s.pushFront tag, true)

/-- The loop of `evict`. -/
def evictLoop : Nat → LruNodes TagT → Option (LruNodes TagT × List TagT)
  | 0, s => some (s, [])
  | n + 1, s => s.popBack.bind fun r => (evictLoop n r.1).map fun t => (t.1, r.2 :: t.2)

/-- `std::vector<TagT>::max_size()`. -/
def maxSize (sizeofTag : Nat) : Nat := (2 ^ 63 - 1) / sizeofTag

def evict (sizeofTag : Nat) (s : LruNodes TagT) (n : UInt64) :
    Option (LruNodes TagT × Except String (List TagT)) :=
  -- `evicted_tags.reserve(n)`
  if maxSize sizeofTag < n.toNat then some (s, .error "vector::reserve")
  else
    (evictLoop (min n.toNat s.orderList.length) s).map fun r => (r.1, .ok r.2)

def clear (s : LruNodes TagT) : LruNodes TagT := { s with orderList := [], tagMap := ∅ }

def contains (s : LruNodes TagT) (tag : TagT) : Bool := (s.tagMap.lookup tag).isSome

def size (s : LruNodes TagT) : Nat := s.orderList.length

def empty (s : LruNodes TagT) : Bool := s.orderList.isEmpty

def getAllTags (s : LruNodes TagT) : List TagT := s.orderList.map Prod.snd

def getMruTags (s : LruNodes TagT) (n : UInt64) : List TagT :=
  (s.orderList.take n.toNat).map Prod.snd

/-- The loop goes from `rbegin()` on. -/
def getLruTags (s : LruNodes TagT) (n : UInt64) : List TagT :=
  (s.orderList.reverse.take n.toNat).map Prod.snd

/-- The recency list that is stored. -/
def recency (s : LruNodes TagT) : RecencyList TagT := ⟨s.getAllTags, s.maxCapacity⟩

/-! ## List and map -/

/-- No node and no tag is there twice, and the map leads from each tag of the
    list to the node that holds it. -/
structure Linked (s : LruNodes TagT) : Prop where
  nodup_nodes : (s.orderList.map Prod.fst).Nodup
  nodup_tags : (s.orderList.map Prod.snd).Nodup
  node_lt : ∀ node ∈ s.orderList.map Prod.fst, node < s.nextNode
  lookup_iff : ∀ tag node, s.tagMap.lookup tag = some node ↔ (node, tag) ∈ s.orderList
  size_le : s.orderList.length ≤ s.maxCapacity
  capacity_pos : 1 ≤ s.maxCapacity

variable {s : LruNodes TagT} {tag : TagT} {node : Nat}

theorem linked_create {maxCapacity : Nat} (h : 1 ≤ maxCapacity) :
    (create maxCapacity : LruNodes TagT).Linked where
  nodup_nodes := List.nodup_nil
  nodup_tags := List.nodup_nil
  node_lt _ h := absurd h List.not_mem_nil
  lookup_iff tag node := by
    show (∅ : Table TagT Nat).lookup tag = some node ↔ (node, tag) ∈ ([] : List (Nat × TagT))
    rw [AList.lookup_empty]
    exact iff_of_false nofun List.not_mem_nil
  size_le := Nat.zero_le _
  capacity_pos := h

/-- The keys of the map are the tags of the list. -/
theorem Linked.lookup_isSome_iff (h : s.Linked) :
    (s.tagMap.lookup tag).isSome = true ↔ tag ∈ s.getAllTags := by
  rw [Option.isSome_iff_exists, getAllTags, List.mem_map]
  constructor
  · rintro ⟨node, hnode⟩
    exact ⟨(node, tag), (h.lookup_iff tag node).mp hnode, rfl⟩
  · rintro ⟨⟨node, t⟩, hmem, rfl⟩
    exact ⟨node, (h.lookup_iff t node).mpr hmem⟩

theorem Linked.lookup_eq_none_iff (h : s.Linked) :
    s.tagMap.lookup tag = none ↔ tag ∉ s.getAllTags := by
  rw [← h.lookup_isSome_iff, Bool.not_eq_true, Option.isSome_eq_false_iff,
    Option.isNone_iff_eq_none]

/-! ## Moving a node to the front -/

omit [DecidableEq TagT] in
theorem unlink_append {front rest : List (Nat × TagT)} (hfront : node ∉ front.map Prod.fst) :
    unlink node (front ++ (node, tag) :: rest) = some ((node, tag), front ++ rest) := by
  induction front with
  | nil => exact if_pos rfl
  | cons first front ih =>
    rw [List.map_cons, List.mem_cons, not_or] at hfront
    rw [List.cons_append, unlink, if_neg fun heq => hfront.1 heq.symm, ih hfront.2]
    rfl

/-- The node of a tag can be found, and moving it keeps list and map linked. -/
theorem Linked.splice (h : s.Linked) (hnode : s.tagMap.lookup tag = some node) :
    ∃ rest, unlink node s.orderList = some ((node, tag), rest) ∧
      ({ s with orderList := (node, tag) :: rest } : LruNodes TagT).Linked ∧
      rest.map Prod.snd = s.getAllTags.erase tag := by
  obtain ⟨front, back, hsplit⟩ := List.append_of_mem ((h.lookup_iff tag node).mp hnode)
  have hperm : ((node, tag) :: (front ++ back)).Perm s.orderList := by
    rw [hsplit]
    exact List.perm_middle.symm
  have hnodes := h.nodup_nodes
  have htags := h.nodup_tags
  rw [hsplit, List.map_append, List.map_cons, List.nodup_append] at hnodes htags
  have hfront : node ∉ front.map Prod.fst := fun hmem =>
    hnodes.2.2 node hmem node List.mem_cons_self rfl
  have hfront' : tag ∉ front.map Prod.snd := fun hmem =>
    htags.2.2 tag hmem tag List.mem_cons_self rfl
  refine ⟨front ++ back, by rw [hsplit, unlink_append hfront], ?_, ?_⟩
  · exact {
      nodup_nodes := (hperm.map Prod.fst).nodup_iff.mpr h.nodup_nodes
      nodup_tags := (hperm.map Prod.snd).nodup_iff.mpr h.nodup_tags
      node_lt := fun n hn => h.node_lt n ((hperm.map Prod.fst).mem_iff.mp hn)
      lookup_iff := fun t n => (h.lookup_iff t n).trans hperm.mem_iff.symm
      size_le := hperm.length_eq.le.trans h.size_le
      capacity_pos := h.capacity_pos }
  · rw [getAllTags, hsplit, List.map_append, List.map_append, List.map_cons,
      List.erase_append_right _ hfront', List.erase_cons_head]

/-! ## Taking the last node off, putting one in front -/

/-- A list with a node in it can lose its last one. -/
theorem Linked.popBack (h : s.Linked) (hne : s.orderList ≠ []) :
    ∃ s' last, s.popBack = some (s', last) ∧ s'.Linked ∧ s'.maxCapacity = s.maxCapacity ∧
      s.getAllTags = s'.getAllTags ++ [last] := by
  obtain ⟨front, last, hsplit⟩ : ∃ front last, s.orderList = front ++ [last] :=
    ⟨s.orderList.dropLast, s.orderList.getLast hne, (List.dropLast_append_getLast hne).symm⟩
  have hnodes := h.nodup_nodes
  have htags := h.nodup_tags
  have hsize := h.size_le
  rw [hsplit, List.map_append, List.nodup_append] at hnodes htags
  rw [hsplit, List.length_append] at hsize
  have hlast : last.2 ∉ front.map Prod.snd := fun hmem =>
    htags.2.2 last.2 hmem last.2 (List.mem_singleton_self _) rfl
  refine ⟨⟨front, s.tagMap.erase last.2, s.nextNode, s.maxCapacity⟩, last.2, ?_, ?_, rfl, ?_⟩
  · rw [LruNodes.popBack, hsplit, List.getLast?_concat, List.dropLast_concat]
    rfl
  · refine ⟨hnodes.1, htags.1, fun n hn => h.node_lt n ?_, fun t n => ?_,
      (Nat.le_add_right _ _).trans hsize, h.capacity_pos⟩
    · rw [hsplit, List.map_append]
      exact List.mem_append_left _ hn
    · show (s.tagMap.erase last.2).lookup t = some n ↔ (n, t) ∈ front
      rw [Table.lookup_erase_eq]
      by_cases ht : t = last.2
      · rw [if_pos ht]
        refine iff_of_false nofun fun hmem => hlast ?_
        exact ht ▸ List.mem_map_of_mem hmem
      · have hne : (n, t) ≠ last := fun heq => ht (congrArg Prod.snd heq)
        rw [if_neg ht, h.lookup_iff, hsplit, List.mem_append, List.mem_singleton, or_iff_left hne]
  · rw [getAllTags, hsplit, List.map_append]
    rfl

theorem Linked.pushFront (h : s.Linked) (hnew : tag ∉ s.getAllTags)
    (hroom : s.orderList.length < s.maxCapacity) : (s.pushFront tag).Linked where
  nodup_nodes := by
    refine List.nodup_cons.mpr ⟨fun hmem => ?_, h.nodup_nodes⟩
    exact Nat.lt_irrefl _ (h.node_lt s.nextNode hmem)
  nodup_tags := List.nodup_cons.mpr ⟨hnew, h.nodup_tags⟩
  node_lt n hn := by
    rcases List.mem_cons.mp hn with rfl | hn
    · exact Nat.lt_succ_self _
    · exact Nat.lt_succ_of_lt (h.node_lt n hn)
  lookup_iff t n := by
    show (s.tagMap.insert tag s.nextNode).lookup t = some n ↔
      (n, t) ∈ (s.nextNode, tag) :: s.orderList
    rw [Table.lookup_insert_eq, List.mem_cons, Prod.mk.injEq]
    by_cases ht : t = tag
    · have hout : (n, t) ∉ s.orderList := fun hmem => hnew (ht ▸ List.mem_map_of_mem hmem)
      rw [if_pos ht, Option.some.injEq, or_iff_left hout, and_iff_left ht]
      exact eq_comm
    · rw [if_neg ht, h.lookup_iff]
      exact (or_iff_right fun heq => ht heq.2).symm
  size_le := hroom
  capacity_pos := h.capacity_pos

/-- At full capacity the last tag makes room for a new one. -/
theorem Linked.replaceLast (h : s.Linked) (hnew : tag ∉ s.getAllTags)
    (hfull : s.maxCapacity ≤ s.orderList.length) :
    ∃ s' last, s.popBack = some (s', last) ∧ (s'.pushFront tag).Linked ∧
      (s'.pushFront tag).recency = ⟨tag :: s.getAllTags.dropLast, s.maxCapacity⟩ := by
  have hne : s.orderList ≠ [] := by
    intro hnil
    have hpos := h.capacity_pos
    rw [hnil] at hfull
    exact absurd (hpos.trans hfull) (Nat.not_succ_le_zero 0)
  obtain ⟨s', last, hpop, hlinked, hcap, htags⟩ := h.popBack hne
  have hnew' : tag ∉ s'.getAllTags := fun hmem => by
    have hall : tag ∈ s.getAllTags := htags ▸ List.mem_append_left _ hmem
    exact hnew hall
  have hlen : s.orderList.length = s'.orderList.length + 1 := by
    have hlen := congrArg List.length htags
    rwa [getAllTags, getAllTags, List.length_map, List.length_append, List.length_map] at hlen
  have hroom : s'.orderList.length < s'.maxCapacity := by
    have hle := h.size_le
    omega
  refine ⟨s', last, hpop, hlinked.pushFront hnew' hroom, ?_⟩
  show RecencyList.mk (tag :: s'.getAllTags) s'.maxCapacity =
    RecencyList.mk (tag :: s.getAllTags.dropLast) s.maxCapacity
  rw [htags, List.dropLast_concat, hcap]

/-! ## The operations -/

/-- `access` does to the stored list what it should. -/
theorem Linked.access (h : s.Linked) (tag : TagT) :
    ∃ s', s.access tag = some (s', (s.recency.access tag).2) ∧ s'.Linked ∧
      s'.recency = (s.recency.access tag).1 := by
  have hsize : s.recency.order.length = s.orderList.length := List.length_map _
  rw [LruNodes.access]
  cases hlook : s.tagMap.lookup tag with
  | some node =>
    have hmem : tag ∈ s.recency.order := h.lookup_isSome_iff.mp (by rw [hlook]; rfl)
    obtain ⟨rest, hunlink, hlinked, hrest⟩ := h.splice hlook
    refine ⟨{ s with orderList := (node, tag) :: rest }, ?_, hlinked, ?_⟩
    · rw [RecencyList.access_of_mem hmem]
      dsimp only
      rw [hunlink]
      rfl
    · rw [RecencyList.access_of_mem hmem]
      exact congrArg (fun tags => RecencyList.mk (tag :: tags) s.maxCapacity) hrest
  | none =>
    have hnew : tag ∉ s.recency.order := h.lookup_eq_none_iff.mp hlook
    dsimp only
    by_cases hfull : s.maxCapacity ≤ s.orderList.length
    · obtain ⟨s', last, hpop, hlinked, hlist⟩ := h.replaceLast hnew hfull
      have haccess := RecencyList.access_of_full hnew (hsize ▸ hfull)
      refine ⟨s'.pushFront tag, ?_, hlinked, ?_⟩
      · rw [if_pos hfull, hpop, haccess]
        rfl
      · rw [haccess]
        exact hlist
    · have hroom := Nat.not_le.mp hfull
      have haccess := RecencyList.access_of_room hnew (hsize ▸ hroom)
      refine ⟨s.pushFront tag, ?_, h.pushFront hnew hroom, ?_⟩
      · rw [if_neg hfull, haccess]
        rfl
      · rw [haccess]
        rfl

/-- Taking `n` nodes off the end. -/
theorem Linked.evictLoop {n : Nat} (h : s.Linked) (hn : n ≤ s.orderList.length) :
    ∃ s', LruNodes.evictLoop n s = some (s', s.getAllTags.reverse.take n) ∧ s'.Linked ∧
      s'.maxCapacity = s.maxCapacity ∧
      s'.getAllTags = s.getAllTags.take (s.getAllTags.length - n) := by
  induction n generalizing s with
  | zero =>
    refine ⟨s, rfl, h, rfl, ?_⟩
    rw [Nat.sub_zero, List.take_length]
  | succ n ih =>
    have hne : s.orderList ≠ [] := List.ne_nil_of_length_pos (by omega)
    obtain ⟨s', last, hpop, hlinked, hcap, htags⟩ := h.popBack hne
    have hlen : s.getAllTags.length = s'.getAllTags.length + 1 := by
      rw [htags, List.length_append, List.length_singleton]
    have hlen' : s.getAllTags.length = s.orderList.length := List.length_map _
    have hlen'' : s'.getAllTags.length = s'.orderList.length := List.length_map _
    obtain ⟨t, hloop, ht, htcap, httags⟩ := ih hlinked (by omega)
    refine ⟨t, ?_, ht, htcap.trans hcap, ?_⟩
    · rw [LruNodes.evictLoop, hpop, Option.bind_some, hloop, htags, List.reverse_append]
      rfl
    · rw [httags, htags, List.length_append, List.length_singleton, Nat.add_sub_add_right,
        List.take_append_of_le_length (Nat.sub_le _ _)]

/-- `evict` does so if it can reserve what it is asked for. -/
theorem Linked.evict {sizeofTag : Nat} {n : UInt64} (h : s.Linked)
    (hn : n.toNat ≤ maxSize sizeofTag) :
    ∃ s', LruNodes.evict sizeofTag s n = some (s', .ok (s.recency.evict n.toNat).2) ∧ s'.Linked ∧
      s'.recency = (s.recency.evict n.toNat).1 := by
  have hlen : s.getAllTags.length = s.orderList.length := List.length_map _
  obtain ⟨s', hloop, hlinked, hcap, htags⟩ := h.evictLoop (Nat.min_le_right n.toNat _)
  refine ⟨s', ?_, hlinked, ?_⟩
  · rw [LruNodes.evict, if_neg (Nat.not_lt.mpr hn), hloop]
    show some (s', Except.ok (s.getAllTags.reverse.take (min n.toNat s.orderList.length))) =
      some (s', Except.ok (s.getAllTags.reverse.take n.toNat))
    rw [← hlen, ← List.length_reverse, ← List.take_eq_take_min]
  · show RecencyList.mk s'.getAllTags s'.maxCapacity =
      RecencyList.mk (s.getAllTags.take (s.getAllTags.length - n.toNat)) s.maxCapacity
    rw [htags, hcap, ← hlen]
    congr 2
    omega

theorem Linked.clear (h : s.Linked) : s.clear.Linked ∧ s.clear.recency = s.recency.clear := by
  have hempty : (create s.maxCapacity : LruNodes TagT).Linked := linked_create h.capacity_pos
  refine ⟨⟨List.nodup_nil, List.nodup_nil, fun _ hmem => absurd hmem List.not_mem_nil,
    hempty.lookup_iff, Nat.zero_le _, h.capacity_pos⟩, rfl⟩

end LruNodes

/-! ## Runs -/

/-- The calls that change a cache. -/
inductive LruOp (TagT : Type) where
  | access (tag : TagT)
  | evict (n : UInt64)
  | clear
deriving DecidableEq

/-- What a call returns or throws. -/
inductive LruOutput (TagT : Type) where
  | inserted (new : Bool)
  | evicted (result : Except String (List TagT))
  | cleared

/-- The number of tags to evict fits a vector. -/
def LruOp.Reservable {TagT : Type} (sizeofTag : Nat) : LruOp TagT → Prop
  | evict n => n.toNat ≤ LruNodes.maxSize sizeofTag
  | _ => True

instance {TagT : Type} (sizeofTag : Nat) :
    DecidablePred (@LruOp.Reservable TagT sizeofTag)
  | .access _ => isTrue trivial
  | .evict n => inferInstanceAs (Decidable (n.toNat ≤ LruNodes.maxSize sizeofTag))
  | .clear => isTrue trivial

section Runs

variable {TagT : Type} [DecidableEq TagT]

def LruNodes.perform (sizeofTag : Nat) (s : LruNodes TagT) :
    LruOp TagT → Option (LruNodes TagT × LruOutput TagT)
  | .access tag => (s.access tag).map fun r => (r.1, .inserted r.2)
  | .evict n => (s.evict sizeofTag n).map fun r => (r.1, .evicted r.2)
  | .clear => some (s.clear, .cleared)

def RecencyList.perform (a : RecencyList TagT) : LruOp TagT → RecencyList TagT × LruOutput TagT
  | .access tag => ((a.access tag).1, .inserted (a.access tag).2)
  | .evict n => ((a.evict n.toNat).1, .evicted (.ok (a.evict n.toNat).2))
  | .clear => (a.clear, .cleared)

/-- The stored cache and the list it stands for, side by side, and what the
    calls so far have returned on each side. -/
structure LruPair (TagT : Type) where
  cache : LruNodes TagT
  list : RecencyList TagT
  returned : List (LruOutput TagT)
  expected : List (LruOutput TagT)

namespace LruPair

def create (maxCapacity : Nat) : LruPair TagT :=
  ⟨LruNodes.create maxCapacity, ⟨[], maxCapacity⟩, [], []⟩

def step (sizeofTag : Nat) (b : LruPair TagT) (op : LruOp TagT) : Option (LruPair TagT) :=
  (b.cache.perform sizeofTag op).map fun r =>
    ⟨r.1, (b.list.perform op).1, b.returned ++ [r.2], b.expected ++ [(b.list.perform op).2]⟩

/-- List and map are linked, and no call could have told the cache from the list. -/
structure Agrees (b : LruPair TagT) : Prop where
  linked : b.cache.Linked
  returned_eq : b.returned = b.expected
  contains_eq : ∀ tag, b.cache.contains tag = decide (tag ∈ b.list.order)
  size_eq : b.cache.size = b.list.order.length
  empty_eq : b.cache.empty = b.list.order.isEmpty
  max_capacity_eq : b.cache.maxCapacity = b.list.capacity
  get_all_tags_eq : b.cache.getAllTags = b.list.order
  get_mru_tags_eq : ∀ n : UInt64, b.cache.getMruTags n = b.list.order.take n.toNat
  get_lru_tags_eq : ∀ n : UInt64, b.cache.getLruTags n = (b.list.evict n.toNat).2

theorem agrees_iff {b : LruPair TagT} (h : b.cache.Linked) :
    b.Agrees ↔ b.cache.recency = b.list ∧ b.returned = b.expected := by
  constructor
  · intro hagree
    refine ⟨?_, hagree.returned_eq⟩
    rw [LruNodes.recency, hagree.get_all_tags_eq, hagree.max_capacity_eq]
  · rintro ⟨hlist, hreturned⟩
    refine ⟨h, hreturned, fun tag => ?_, ?_, ?_, ?_, ?_, fun n => ?_, fun n => ?_⟩ <;>
      rw [← hlist]
    · rw [LruNodes.contains, Bool.eq_iff_iff, h.lookup_isSome_iff, decide_eq_true_eq]
      rfl
    · exact (List.length_map _).symm
    · exact List.isEmpty_map.symm
    · rfl
    · rfl
    · exact List.map_take
    · show _ = (b.cache.getAllTags.reverse).take n.toNat
      rw [LruNodes.getLruTags, List.map_take, List.map_reverse]
      rfl

variable {sizeofTag : Nat} {b b' : LruPair TagT} {op : LruOp TagT}

/-- What a call that can reserve its result does on both sides. -/
theorem perform_reservable {s : LruNodes TagT} (h : s.Linked) (hop : op.Reservable sizeofTag) :
    ∃ s', s.perform sizeofTag op = some (s', (s.recency.perform op).2) ∧ s'.Linked ∧
      s'.recency = (s.recency.perform op).1 := by
  cases op with
  | access tag =>
    obtain ⟨s', haccess, hlinked, hlist⟩ := h.access tag
    exact ⟨s', by rw [LruNodes.perform, haccess]; rfl, hlinked, hlist⟩
  | evict n =>
    obtain ⟨s', hevict, hlinked, hlist⟩ := h.evict hop
    exact ⟨s', by rw [LruNodes.perform, hevict]; rfl, hlinked, hlist⟩
  | clear => exact ⟨s.clear, rfl, h.clear.1, h.clear.2⟩

/-- A call that cannot throws, and leaves the cache as it was. -/
theorem perform_not_reservable {s : LruNodes TagT} (hop : ¬ op.Reservable sizeofTag) :
    s.perform sizeofTag op = some (s, .evicted (.error "vector::reserve")) := by
  cases op with
  | access tag => exact absurd trivial hop
  | evict n =>
    rw [LruNodes.perform, LruNodes.evict, if_pos (Nat.not_le.mp hop)]
    rfl
  | clear => exact absurd trivial hop

/-- No step is undefined, and list and map stay linked. -/
theorem exists_step (sizeofTag : Nat) (h : b.cache.Linked) (op : LruOp TagT) :
    ∃ b', b.step sizeofTag op = some b' ∧ b'.cache.Linked := by
  obtain ⟨s', out, hperform, hlinked⟩ : ∃ s' out,
      b.cache.perform sizeofTag op = some (s', out) ∧ s'.Linked := by
    by_cases hop : op.Reservable sizeofTag
    · obtain ⟨s', hperform, hlinked, -⟩ := perform_reservable h hop
      exact ⟨s', _, hperform, hlinked⟩
    · exact ⟨b.cache, _, perform_not_reservable hop, h⟩
  exact ⟨_, by rw [step, hperform, Option.map_some], hlinked⟩

/-- The result of a call that throws is not what was expected. -/
theorem perform_ne_error (a : RecencyList TagT) (op : LruOp TagT) (what : String) :
    (a.perform op).2 ≠ .evicted (.error what) := by
  cases op <;> exact nofun

/-- A step keeps the two sides together if and only if it can reserve its result. -/
theorem agrees_step_iff (h : b.cache.Linked) (hagree : b.Agrees)
    (hstep : b.step sizeofTag op = some b') : b'.Agrees ↔ op.Reservable sizeofTag := by
  obtain ⟨hlist, hreturned⟩ := (agrees_iff h).mp hagree
  rw [step, Option.map_eq_some_iff] at hstep
  obtain ⟨r, hperform, rfl⟩ := hstep
  by_cases hop : op.Reservable sizeofTag
  · obtain ⟨s', hdone, hlinked, hlist'⟩ := perform_reservable h hop
    obtain rfl := Option.some.inj (hdone.symm.trans hperform)
    refine iff_of_true ((agrees_iff hlinked).mpr ⟨?_, ?_⟩) hop
    · exact hlist ▸ hlist'
    · show b.returned ++ [_] = b.expected ++ [_]
      rw [hreturned, hlist]
  · obtain rfl := Option.some.inj ((perform_not_reservable hop).symm.trans hperform)
    refine iff_of_false (fun hsame => ?_) hop
    have hlast := hsame.returned_eq
    rw [hreturned] at hlast
    have hout := List.append_cancel_left hlast
    exact perform_ne_error b.list op _ (List.singleton_inj.mp hout).symm

/-- A cache of any capacity runs without undefined behaviour, and agrees with
    the recency list all along if and only if every `evict` asks for no more
    tags than a vector can hold. -/
theorem lru_agrees_iff (sizeofTag : Nat) {maxCapacity : Nat} (h : 1 ≤ maxCapacity)
    (ops : List (LruOp TagT)) :
    (∃ b, Traces.run (step sizeofTag) (create maxCapacity) ops = some b) ∧
      (Traces.Always (step sizeofTag) Agrees (create maxCapacity) ops ↔
        ∀ op ∈ ops, op.Reservable sizeofTag) := by
  have hinit : (create maxCapacity : LruPair TagT).cache.Linked := LruNodes.linked_create h
  have hkeep : ∀ (b : LruPair TagT) (op : LruOp TagT) (b' : LruPair TagT),
      b.cache.Linked → b.step sizeofTag op = some b' → b'.cache.Linked := by
    intro b op b' hb hstep
    obtain ⟨b'', hstep', hlinked⟩ := exists_step sizeofTag hb op
    obtain rfl := Option.some.inj (hstep'.symm.trans hstep)
    exact hlinked
  have htotal : ∀ (b : LruPair TagT) (op : LruOp TagT),
      b.cache.Linked → ∃ b', b.step sizeofTag op = some b' := fun b op hb =>
    (exists_step sizeofTag hb op).imp fun _ hb' => hb'.1
  obtain ⟨t, hrun⟩ := Traces.run_total_of_invariant hkeep htotal hinit ops
  have hagree : (create maxCapacity : LruPair TagT).Agrees := (agrees_iff hinit).mpr ⟨rfl, rfl⟩
  have hiff : Traces.Always (step sizeofTag) Agrees (create maxCapacity) ops ↔
      Traces.Along (step sizeofTag) (fun _ op => op.Reservable sizeofTag)
        (create maxCapacity) ops :=
    Traces.always_iff_along (fun b op b' hb _ hstep => hkeep b op b' hb hstep)
      (fun _ _ _ hb _ hsame hstep => agrees_step_iff hb hsame hstep) hrun
      (Traces.along_true _ ops) hinit hagree
  refine ⟨⟨t, hrun⟩, hiff.trans ⟨Traces.forall_of_along hrun, Traces.along_of_forall⟩⟩

/-- Three tags in a cache of two: the least recent one makes room. -/
theorem lru_agrees_two :
    Traces.Always (step 8) Agrees (create 2 : LruPair Nat)
      [.access 1, .access 2, .access 1, .access 3, .evict 5, .clear] :=
  (lru_agrees_iff 8 (by decide) _).2.mpr (by decide)

/-- "Evict everything", with the largest `size_t`, throws and evicts nothing. -/
theorem lru_not_agrees_evict_all :
    ¬ Traces.Always (step 8) Agrees (create 2 : LruPair Nat)
      [.access 1, .evict 0xFFFFFFFFFFFFFFFF] := by
  intro halways
  have hthrown : (create 2 : LruPair Nat).step 8 (.access 1) = some
      ⟨⟨[(0, 1)], AList.singleton 1 0, 1, 2⟩, ⟨[1], 2⟩, [.inserted true], [.inserted true]⟩ := rfl
  have hlast := (halways.2 _ hthrown).2 _ rfl
  exact absurd hlast.size_eq (by decide)

end LruPair

end Runs

end QvCache
