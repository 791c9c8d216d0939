/-
  QvCache.Vamana.Queue

  `NeighborPriorityQueue` (external/DiskANN/include/diskann/neighbor.h), the
  buffer of a graph search: the nearest candidates so far in order, and a cursor
  on the first one that was not expanded.

  `Shows` relates the queue to what it stands for: the set of keys inserted so
  far and the set of those handed out.  `insert` and `closest_unexpanded` keep
  the relation, so the queue is the buffer of `Beam` and its cursor is
  where the comment in the source says it is.
-/

import QvCache.Lib.Beam
import QvCache.Lib.Traces
import Mathlib.Data.Prod.Lex
import Mathlib.Data.List.TakeWhile

namespace QvCache.Vamana

/-- `Neighbor`: a slot and its distance to the query. -/
structure Neighbor (D : Type) where
  id : Nat
  distance : D
  expanded : Bool
deriving DecidableEq

/-- What a slot is sorted by, where `dist` is the distance of a slot to the query. -/
def keyOf {D : Type} (dist : Nat → D) (id : Nat) : D ×ₗ Nat := toLex (dist id, id)

theorem keyOf_injective {D : Type} (dist : Nat → D) : Function.Injective (keyOf dist) :=
  fun _ _ h => congrArg (fun k => (ofLex k).2) h

variable {D : Type} [LinearOrder D]

namespace Neighbor

/-- `operator<`. -/
def lt (a b : Neighbor D) : Bool :=
  decide (a.distance < b.distance ∨ a.distance = b.distance ∧ a.id < b.id)

/-- What `operator<` compares. -/
def key (n : Neighbor D) : D ×ₗ Nat := toLex (n.distance, n.id)

theorem lt_iff {a b : Neighbor D} : a.lt b = true ↔ a.key < b.key := by
  rw [lt, decide_eq_true_iff, key, key, Prod.Lex.toLex_lt_toLex]

end Neighbor

/-- The entries `_data[0 .. _size)` and the cursor `_cur`. -/
structure NeighborPriorityQueue (D : Type) where
  capacity : Nat
  data : List (Neighbor D)
  cur : Nat

namespace NeighborPriorityQueue

/-- `reserve` on a queue that was cleared. -/
def empty (capacity : Nat) : NeighborPriorityQueue D := ⟨capacity, [], 0⟩

def size (q : NeighborPriorityQueue D) : Nat := q.data.length

/-- The binary search of `insert`: the place for `nbr`, or `none` where it comes
    upon the same id.  Every round halves `[lo, hi)`, so `hi - lo` rounds are
    enough. -/
def findPlace (data : List (Neighbor D)) (nbr : Neighbor D) : Nat → Nat → Nat → Option Nat
  | 0, lo, _ => some lo
  | rounds + 1, lo, hi =>
    if lo < hi then
      match data[(lo + hi) / 2]? with
      | none => some lo
      | some entry =>
        if nbr.lt entry then findPlace data nbr rounds lo ((lo + hi) / 2)
        else if entry.id = nbr.id then none
        else findPlace data nbr rounds ((lo + hi) / 2 + 1) hi
    else some lo

/-- `_data[_size - 1] < nbr`. -/
def lastIsBefore (q : NeighborPriorityQueue D) (nbr : Neighbor D) : Bool :=
  q.data.getLast?.any fun last => last.lt nbr

/-- `insert`.  The `memmove` makes room at the place found; what it moves behind
    the capacity is lost, since `_size` does not grow past it. -/
def insert (q : NeighborPriorityQueue D) (nbr : Neighbor D) : NeighborPriorityQueue D :=
  if q.size = q.capacity ∧ q.lastIsBefore nbr = true then q
  else
    match findPlace q.data nbr q.size 0 q.size with
    | none => q
    | some lo =>
      { q with
        data := (q.data.take lo ++ ⟨nbr.id, nbr.distance, false⟩ :: q.data.drop lo).take q.capacity
        cur := if lo < q.cur then lo else q.cur }

def hasUnexpandedNode (q : NeighborPriorityQueue D) : Bool := decide (q.cur < q.size)

/-- The entries with the one under the cursor marked. -/
def marked (q : NeighborPriorityQueue D) : List (Neighbor D) :=
  q.data.modify q.cur fun n => { n with expanded := true }

/-- `closest_unexpanded`; the caller has asked `has_unexpanded_node` before. -/
def closestUnexpanded (q : NeighborPriorityQueue D) (h : q.cur < q.data.length) :
    Neighbor D × NeighborPriorityQueue D :=
  ({ q.data.get ⟨q.cur, h⟩ with expanded := true },
    { q with
      data := q.marked
      cur := q.cur + ((q.marked.drop q.cur).takeWhile Neighbor.expanded).length })

/-! ## The binary search -/

/-- What the search knows of the interval `[lo, hi)`: the entries before it are
    less than the key, and those after it are greater. -/
structure Brackets (data : List (Neighbor D)) (k : D ×ₗ Nat) (lo hi : Nat) : Prop where
  le : lo ≤ hi
  le_length : hi ≤ data.length
  below : ∀ i n, data[i]? = some n → i < lo → n.key < k
  above : ∀ i n, data[i]? = some n → hi ≤ i → k < n.key

theorem Brackets.all {data : List (Neighbor D)} (k : D ×ₗ Nat) :
    Brackets data k 0 data.length where
  le := Nat.zero_le _
  le_length := le_rfl
  below _ _ _ hi := absurd hi (Nat.not_lt_zero _)
  above i n hn hi := by
    rw [List.getElem?_eq_none hi] at hn
    cases hn

theorem key_lt_of_lt {data : List (Neighbor D)}
    (hsorted : (data.map Neighbor.key).Pairwise (· < ·)) {i j : Nat} {m n : Neighbor D}
    (hm : data[i]? = some m) (hn : data[j]? = some n) (hij : i < j) : m.key < n.key := by
  obtain ⟨hi, rfl⟩ := List.getElem?_eq_some_iff.mp hm
  obtain ⟨hj, rfl⟩ := List.getElem?_eq_some_iff.mp hn
  exact List.pairwise_iff_getElem.mp (List.pairwise_map.mp hsorted) i j hi hj hij

/-- Where `findPlace` comes upon the id in a sorted list, the key is there; else
    its place divides the entries. -/
theorem findPlace_spec {data : List (Neighbor D)} {nbr : Neighbor D}
    (hsorted : (data.map Neighbor.key).Pairwise (· < ·))
    (hid : ∀ n ∈ data, n.id = nbr.id → n.key = nbr.key) {rounds lo hi : Nat}
    (h : Brackets data nbr.key lo hi) (hrounds : hi - lo ≤ rounds) :
    (findPlace data nbr rounds lo hi = none → nbr.key ∈ data.map Neighbor.key) ∧
      ∀ p, findPlace data nbr rounds lo hi = some p → Brackets data nbr.key p p := by
  induction rounds generalizing lo hi with
  | zero =>
    obtain rfl : lo = hi := by have := h.le; omega
    refine ⟨fun hnone => absurd hnone (Option.some_ne_none _), ?_⟩
    rintro p hp
    rwa [← Option.some.inj hp]
  | succ rounds ih =>
    rw [findPlace]
    by_cases hlt : lo < hi
    · have hmid : (lo + hi) / 2 < data.length := by have := h.le_length; omega
      have hentry := List.getElem?_eq_getElem hmid
      rw [if_pos hlt, hentry]
      dsimp only
      by_cases hbefore : nbr.lt data[(lo + hi) / 2] = true
      · -- the middle entry and all after it are greater
        have hkey := Neighbor.lt_iff.mp hbefore
        rw [if_pos hbefore]
        refine ih ⟨by omega, by omega, h.below, ?_⟩ (by omega)
        intro i n hn hi
        rcases Nat.eq_or_lt_of_le hi with rfl | hi
        · rw [hentry] at hn
          exact Option.some.inj hn ▸ hkey
        · exact hkey.trans (key_lt_of_lt hsorted hentry hn hi)
      · rw [if_neg hbefore]
        by_cases hsame : data[(lo + hi) / 2].id = nbr.id
        · rw [if_pos hsame]
          have hkey := hid _ (List.getElem_mem hmid) hsame
          exact ⟨fun _ => List.mem_map.mpr ⟨_, List.getElem_mem hmid, hkey⟩,
            fun p hp => absurd hp.symm (Option.some_ne_none p)⟩
        · -- the middle entry and all before it are less
          have hkey : data[(lo + hi) / 2].key < nbr.key := by
            refine lt_of_le_of_ne (not_lt.mp fun hgt => hbefore (Neighbor.lt_iff.mpr hgt)) ?_
            intro heq
            exact hsame (congrArg (fun k => (ofLex k).2) heq)
          rw [if_neg hsame]
          refine ih ⟨by omega, h.le_length, ?_, h.above⟩ (by omega)
          intro i n hn hi
          rcases Nat.eq_or_lt_of_le (Nat.le_of_lt_succ hi) with rfl | hi
          · rw [hentry] at hn
            exact Option.some.inj hn ▸ hkey
          · exact (key_lt_of_lt hsorted hn hentry hi).trans hkey
    · obtain rfl : lo = hi := by have := h.le; omega
      rw [if_neg hlt]
      refine ⟨fun hnone => absurd hnone (Option.some_ne_none _), ?_⟩
      rintro p hp
      rwa [← Option.some.inj hp]

/-- Writing a key at a place that divides the entries keeps them sorted. -/
theorem Brackets.orderedInsert {data : List (Neighbor D)} {k : D ×ₗ Nat} {p : Nat}
    (h : Brackets data k p p) : (data.map Neighbor.key).orderedInsert (· ≤ ·) k =
      (data.map Neighbor.key).take p ++ k :: (data.map Neighbor.key).drop p := by
  conv_lhs => rw [← List.take_append_drop p (data.map Neighbor.key)]
  refine Smallest.orderedInsert_append ?_ ?_
  · intro x hx
    obtain ⟨i, hi, rfl⟩ := List.mem_take_iff_getElem.mp hx
    have hlt : i < data.length := by simpa using (lt_min_iff.mp hi).2
    have hn := List.getElem?_eq_getElem hlt
    simpa using h.below i _ hn (lt_min_iff.mp hi).1
  · intro x hx
    obtain ⟨i, hi, rfl⟩ := List.mem_drop_iff_getElem.mp hx
    have hlt : i + p < data.length := by simpa using hi
    have hn := List.getElem?_eq_getElem hlt
    simpa [Nat.add_comm] using (h.above _ _ hn (Nat.le_add_left p i)).le

/-! ## What the queue stands for -/

/-- The entry of a key, marked if the key was handed out. -/
def entry (popped : Finset (D ×ₗ Nat)) (k : D ×ₗ Nat) : Neighbor D :=
  ⟨(ofLex k).2, (ofLex k).1, decide (k ∈ popped)⟩

@[simp] theorem key_entry (popped : Finset (D ×ₗ Nat)) (k : D ×ₗ Nat) :
    (entry popped k).key = k := rfl

theorem entry_keyOf (popped : Finset (D ×ₗ Nat)) (dist : Nat → D) (id : Nat) :
    entry popped (keyOf dist id) = ⟨id, dist id, decide (keyOf dist id ∈ popped)⟩ := rfl

/-- The queue after the keys `seen` were inserted and `popped` handed out, where
    `dist` is the distance of a slot: the nearest of `seen`, with the cursor on
    the first that was not handed out. -/
structure Shows (dist : Nat → D) (q : NeighborPriorityQueue D) (seen popped : Finset (D ×ₗ Nat)) :
    Prop where
  dist_eq : ∀ k ∈ seen, (ofLex k).1 = dist (ofLex k).2
  popped_subset : popped ⊆ seen
  data_eq : q.data = (Beam.nearest q.capacity seen).map (entry popped)
  cur_eq : q.cur = (q.data.takeWhile Neighbor.expanded).length

section Shows

variable {dist : Nat → D} {q : NeighborPriorityQueue D} {seen popped : Finset (D ×ₗ Nat)}

theorem shows_empty (dist : Nat → D) (capacity : Nat) : Shows dist (empty capacity) ∅ ∅ where
  dist_eq _ hk := absurd hk (Finset.notMem_empty _)
  popped_subset := subset_rfl
  data_eq := by simp [empty, Beam.nearest]
  cur_eq := rfl

theorem Shows.map_key (h : Shows dist q seen popped) :
    q.data.map Neighbor.key = Beam.nearest q.capacity seen := by
  rw [h.data_eq, List.map_map]
  exact List.map_id _

theorem Shows.size_eq (h : Shows dist q seen popped) : q.size = min q.capacity seen.card := by
  rw [size, h.data_eq, List.length_map, Beam.length_nearest]

theorem Shows.sorted (h : Shows dist q seen popped) :
    (q.data.map Neighbor.key).Pairwise (· < ·) :=
  h.map_key ▸ Beam.pairwise_nearest

/-- The last entry is before `nbr` if and only if all of a queue are. -/
theorem Shows.lastIsBefore_iff (h : Shows dist q seen popped) {nbr : Neighbor D}
    (hsome : q.data ≠ []) : q.lastIsBefore nbr = true ↔
      ∀ k ∈ Beam.nearest q.capacity seen, k < nbr.key := by
  obtain ⟨front, last, hsplit⟩ := (List.eq_nil_or_concat' q.data).resolve_left hsome
  have hsorted := h.sorted
  rw [← h.map_key, lastIsBefore, hsplit, List.getLast?_concat, Option.any_some, Neighbor.lt_iff]
  rw [hsplit, List.map_append, List.pairwise_append] at hsorted
  constructor
  · intro hlt k hk
    rw [List.map_append, List.mem_append] at hk
    rcases hk with hfront | hlast
    · exact (hsorted.2.2 k hfront _ (by simp)).trans hlt
    · obtain rfl : k = last.key := by simpa using hlast
      exact hlt
  · intro hall
    exact hall _ (by simp)

omit [LinearOrder D] in
/-- The cursor after an entry that is not expanded was written at place `p`. -/
theorem length_takeWhile_write {data : List (Neighbor D)} {n : Neighbor D}
    (hn : n.expanded = false) {p capacity : Nat} (hp : p ≤ data.length)
    (hfits : data.length ≤ capacity) :
    (((data.take p ++ n :: data.drop p).take capacity).takeWhile Neighbor.expanded).length =
      min p (data.takeWhile Neighbor.expanded).length := by
  induction data generalizing p capacity with
  | nil =>
    obtain rfl : p = 0 := Nat.le_zero.mp hp
    cases capacity with
    | zero => rfl
    | succ c => simp [hn]
  | cons d rest ih =>
    cases capacity with
    | zero => exact absurd hfits (Nat.not_succ_le_zero _)
    | succ c =>
      cases p with
      | zero => simp [hn]
      | succ p =>
        have hrest := ih (Nat.le_of_succ_le_succ hp) (Nat.le_of_succ_le_succ hfits)
        cases hd : d.expanded with
        | false => simp [hd]
        | true => simp [hd, hrest, Nat.succ_min_succ]

theorem Shows.id_eq (h : Shows dist q seen popped) {id : Nat} {expanded : Bool} :
    ∀ n ∈ q.data, n.id = (⟨id, dist id, expanded⟩ : Neighbor D).id →
      n.key = (⟨id, dist id, expanded⟩ : Neighbor D).key := by
  rintro n hn rfl
  have hmem : n.key ∈ Beam.nearest q.capacity seen :=
    h.map_key ▸ List.mem_map_of_mem hn
  have hdist : n.distance = dist n.id := h.dist_eq _ (Beam.mem_of_mem_nearest hmem)
  rw [Neighbor.key, hdist]
  rfl

theorem Shows.not_mem_of_brackets (h : Shows dist q seen popped) {k : D ×ₗ Nat} {p : Nat}
    (hp : Brackets q.data k p p) : k ∉ Beam.nearest q.capacity seen := by
  rw [← h.map_key]
  intro hmem
  obtain ⟨n, hn, rfl⟩ := List.mem_map.mp hmem
  obtain ⟨i, hi⟩ := List.mem_iff_getElem?.mp hn
  rcases Nat.lt_or_ge i p with hip | hip
  · exact lt_irrefl _ (hp.below i n hi hip)
  · exact lt_irrefl _ (hp.above i n hi hip)

/-- The first test of `insert`: the queue is full of nearer entries. -/
theorem Shows.full_iff (h : Shows dist q seen popped) (hcap : 0 < q.capacity) {nbr : Neighbor D} :
    q.size = q.capacity ∧ q.lastIsBefore nbr = true ↔
      (Beam.nearest q.capacity seen).length = q.capacity ∧
        ∀ k ∈ Beam.nearest q.capacity seen, k < nbr.key := by
  have hsize : q.size = (Beam.nearest q.capacity seen).length := by
    rw [h.size_eq, Beam.length_nearest]
  rw [← hsize]
  refine and_congr_right fun hfull => h.lastIsBefore_iff ?_
  intro hnil
  rw [size, hnil] at hfull
  exact hcap.ne hfull

/-- A key that was inserted before changes nothing, whether it is still in the
    queue or not. -/
theorem Shows.insert_eq_self (h : Shows dist q seen popped) (hcap : 0 < q.capacity) {id : Nat}
    (hin : keyOf dist id ∈ seen) (expanded : Bool) :
    q.insert ⟨id, dist id, expanded⟩ = q := by
  rw [insert]
  by_cases hfull : q.size = q.capacity ∧ q.lastIsBefore ⟨id, dist id, expanded⟩ = true
  · rw [if_pos hfull]
  · rw [if_neg hfull]
    have hthere : keyOf dist id ∈ Beam.nearest q.capacity seen := by
      by_contra hout
      exact hfull ((h.full_iff hcap).mpr ⟨Beam.length_nearest_of_not_mem hin hout,
        fun k hk => Beam.lt_of_not_mem_nearest hk hin hout⟩)
    cases hplace : findPlace q.data ⟨id, dist id, expanded⟩ q.size 0 q.size with
    | none => rfl
    | some p =>
      have hp := (findPlace_spec h.sorted h.id_eq (Brackets.all _) (Nat.sub_le _ _)).2 p hplace
      exact absurd hthere (h.not_mem_of_brackets hp)

/-- `insert` adds a key to what the queue stands for. -/
theorem Shows.insert (h : Shows dist q seen popped) (hcap : 0 < q.capacity) (id : Nat)
    (expanded : Bool) : Shows dist (q.insert ⟨id, dist id, expanded⟩)
      (Insert.insert (keyOf dist id) seen) popped := by
  by_cases hin : keyOf dist id ∈ seen
  · rwa [h.insert_eq_self hcap hin, Finset.insert_eq_self.mpr hin]
  · have hdist : ∀ k ∈ Insert.insert (keyOf dist id) seen,
        (ofLex k).1 = dist (ofLex k).2 := by
      intro k hk
      rcases Finset.mem_insert.mp hk with rfl | hk
      · rfl
      · exact h.dist_eq k hk
    have hsub : popped ⊆ Insert.insert (keyOf dist id) seen :=
      h.popped_subset.trans (Finset.subset_insert _ _)
    rw [NeighborPriorityQueue.insert]
    by_cases hfull : q.size = q.capacity ∧ q.lastIsBefore ⟨id, dist id, expanded⟩ = true
    · obtain ⟨hlen, hbehind⟩ := (h.full_iff hcap).mp hfull
      rw [if_pos hfull]
      exact ⟨hdist, hsub,
        h.data_eq.trans (by rw [Beam.nearest_insert_of_behind hin hlen hbehind]), h.cur_eq⟩
    · have hid : ∀ n ∈ q.data, n.id = (⟨id, dist id, expanded⟩ : Neighbor D).id →
          n.key = (⟨id, dist id, expanded⟩ : Neighbor D).key := h.id_eq
      obtain ⟨hnone, hsome⟩ := findPlace_spec h.sorted hid (Brackets.all _) (Nat.sub_le _ 0)
      rw [if_neg hfull]
      cases hplace : findPlace q.data ⟨id, dist id, expanded⟩ q.size 0 q.size with
      | none =>
        have hmem := hnone hplace
        rw [h.map_key] at hmem
        exact absurd (Beam.mem_of_mem_nearest hmem) hin
      | some p =>
        have hp := hsome p hplace
        have hnew : entry popped (keyOf dist id) = ⟨id, dist id, false⟩ := by
          have hout : keyOf dist id ∉ popped := fun hmem => hin (h.popped_subset hmem)
          rw [entry_keyOf, decide_eq_false hout]
        have hfits : q.data.length ≤ q.capacity := by
          have hsize := h.size_eq
          rw [size] at hsize
          omega
        refine ⟨hdist, hsub, ?_, ?_⟩
        · have hkeys := hp.orderedInsert
          rw [h.map_key] at hkeys
          show (q.data.take p ++ ⟨id, dist id, false⟩ :: q.data.drop p).take q.capacity = _
          rw [Beam.nearest_insert hin]
          conv_rhs => rw [show keyOf dist id = Neighbor.key ⟨id, dist id, expanded⟩ from rfl]
          rw [hkeys, List.map_take, List.map_append, List.map_cons, List.map_take, List.map_drop,
            ← h.data_eq, ← hnew]
          rfl
        · show (if p < q.cur then p else q.cur) = _
          rw [length_takeWhile_write rfl hp.le_length hfits, ← h.cur_eq, Nat.min_def]
          split_ifs <;> omega

/-! ### Handing out -/

theorem getElem?_length_takeWhile {α : Type} (p : α → Bool) (l : List α) :
    l[(l.takeWhile p).length]? = l.find? fun a => !p a := by
  induction l with
  | nil => rfl
  | cons a rest ih => cases ha : p a <;> simp [ha, ih]

theorem length_takeWhile_eq_findIdx {α : Type} (p : α → Bool) (l : List α) :
    (l.takeWhile p).length = l.findIdx fun a => !p a := by
  induction l with
  | nil => rfl
  | cons a rest ih => cases ha : p a <;> simp [ha, ih, List.findIdx_cons]

theorem Shows.takeWhile_nearest (h : Shows dist q seen popped) :
    (Beam.nearest q.capacity seen).takeWhile (fun k => decide (k ∈ popped)) =
      (Beam.nearest q.capacity seen).take q.cur := by
  have hcur := h.cur_eq
  rw [h.data_eq, List.takeWhile_map, List.length_map] at hcur
  rw [hcur]
  exact List.prefix_iff_eq_take.mp (List.takeWhile_prefix _)

/-- The cursor is on the node that a best-first search expands next. -/
theorem Shows.getElem?_cur (h : Shows dist q seen popped) :
    (Beam.nearest q.capacity seen)[q.cur]? = Beam.next q.capacity ⟨seen, popped⟩ := by
  have hcur := h.cur_eq
  rw [h.data_eq, List.takeWhile_map, List.length_map] at hcur
  rw [hcur, Beam.next]
  refine (getElem?_length_takeWhile _ _).trans (congrArg (List.find? · _) ?_)
  funext k
  simp [entry]

theorem Shows.hasUnexpandedNode_iff (h : Shows dist q seen popped) :
    q.cur < q.data.length ↔ Beam.next q.capacity ⟨seen, popped⟩ ≠ none := by
  rw [← h.getElem?_cur, h.data_eq, List.length_map]
  simp

theorem Shows.marked_eq (h : Shows dist q seen popped) {k : D ×ₗ Nat}
    (hk : (Beam.nearest q.capacity seen)[q.cur]? = some k) :
    q.marked = (Beam.nearest q.capacity seen).map (entry (Insert.insert k popped)) := by
  refine List.ext_getElem? fun i => ?_
  rw [marked, List.getElem?_modify, h.data_eq, List.getElem?_map, List.getElem?_map]
  by_cases hi : q.cur = i
  · subst hi
    rw [hk]
    simp [entry]
  · cases hget : (Beam.nearest q.capacity seen)[i]? with
    | none => simp [hi]
    | some a =>
      -- the keys in the queue are different from each other
      have hne : a ≠ k := by
        rintro rfl
        obtain ⟨hlt, -⟩ := List.getElem?_eq_some_iff.mp hk
        exact hi ((List.getElem?_inj hlt Beam.nodup_nearest).mp (hk.trans hget.symm))
      simp [hi, entry, hne]

/-- `closest_unexpanded` hands out the node that a best-first search expands
    next, and marks it. -/
theorem Shows.closestUnexpanded (h : Shows dist q seen popped) (hcur : q.cur < q.data.length) :
    ∃ k, Beam.next q.capacity ⟨seen, popped⟩ = some k ∧
      (q.closestUnexpanded hcur).1 = entry (Insert.insert k popped) k ∧
      Shows dist (q.closestUnexpanded hcur).2 seen (Insert.insert k popped) := by
  obtain ⟨k, hk⟩ := Option.ne_none_iff_exists'.mp (h.hasUnexpandedNode_iff.mp hcur)
  have hget := h.getElem?_cur.trans hk
  have hmarked := h.marked_eq hget
  refine ⟨k, hk, ?_, h.dist_eq, ?_, hmarked, ?_⟩
  · have hdata : q.data[q.cur]? = some (entry popped k) := by
      rw [h.data_eq, List.getElem?_map, hget]
      rfl
    obtain ⟨_, hentry⟩ := List.getElem?_eq_some_iff.mp hdata
    rw [NeighborPriorityQueue.closestUnexpanded, List.get_eq_getElem, hentry]
    simp [entry]
  · exact Finset.insert_subset (Beam.mem_of_mem_nearest (Beam.next_spec hk).1)
      h.popped_subset
  · -- everything in front of the cursor was handed out before
    have hfront : ∀ n ∈ q.marked.take q.cur, n.expanded = true := by
      intro n hn
      rw [hmarked, ← List.map_take, ← h.takeWhile_nearest] at hn
      obtain ⟨a, ha, rfl⟩ := List.mem_map.mp hn
      have hpopped : a ∈ popped := by simpa using List.mem_takeWhile_imp ha
      simp [entry, hpopped]
    have hlen : (q.marked.take q.cur).length = q.cur := by
      rw [List.length_take, marked, List.length_modify]
      omega
    show q.cur + ((q.marked.drop q.cur).takeWhile Neighbor.expanded).length =
      (q.marked.takeWhile Neighbor.expanded).length
    conv_rhs => rw [← List.take_append_drop q.cur q.marked,
      List.takeWhile_append_of_pos hfront, List.length_append, hlen]

end Shows

/-! ## Runs -/

/-- The calls on a queue. -/
inductive Op (D : Type) where
  | insert (nbr : Neighbor D)
  | closestUnexpanded

/-- One call; `closest_unexpanded` only where there is something to hand out. -/
def step (q : NeighborPriorityQueue D) : Op D → Option (NeighborPriorityQueue D)
  | .insert nbr => some (q.insert nbr)
  | .closestUnexpanded =>
    if h : q.cur < q.data.length then some (q.closestUnexpanded h).2 else none

/-- The slots a call hands out. -/
def handsOut (q : NeighborPriorityQueue D) : Op D → List Nat
  | .insert _ => []
  | .closestUnexpanded =>
    if h : q.cur < q.data.length then [(q.closestUnexpanded h).1.id] else []

/-- What the calls insert. -/
def inserted : List (Op D) → List (Neighbor D)
  | [] => []
  | .insert nbr :: ops => nbr :: inserted ops
  | .closestUnexpanded :: ops => inserted ops

/-- No id comes with two distances. -/
def OneDistance (nbrs : List (Neighbor D)) : Prop :=
  ∀ a ∈ nbrs, ∀ b ∈ nbrs, a.id = b.id → a.distance = b.distance

instance [DecidableEq D] (nbrs : List (Neighbor D)) : Decidable (OneDistance nbrs) :=
  inferInstanceAs (Decidable (∀ a ∈ nbrs, ∀ b ∈ nbrs, a.id = b.id → a.distance = b.distance))

/-- The keys of some slots. -/
def keysOf (dist : Nat → D) (ids : List Nat) : Finset (D ×ₗ Nat) := (ids.map (keyOf dist)).toFinset

@[simp] theorem mem_keysOf {dist : Nat → D} {ids : List Nat} {id : Nat} :
    keyOf dist id ∈ keysOf dist ids ↔ id ∈ ids := by
  simp [keysOf, (keyOf_injective dist).eq_iff]

theorem keysOf_cons (dist : Nat → D) (id : Nat) (ids : List Nat) :
    keysOf dist (id :: ids) = Insert.insert (keyOf dist id) (keysOf dist ids) := by
  simp [keysOf]

theorem Shows.keyOf_eq {dist : Nat → D} {q : NeighborPriorityQueue D}
    {seen popped : Finset (D ×ₗ Nat)} (h : Shows dist q seen popped) {k : D ×ₗ Nat}
    (hk : k ∈ seen) : keyOf dist (ofLex k).2 = k :=
  congrArg toLex (Prod.ext (h.dist_eq k hk).symm rfl)

theorem capacity_insert (q : NeighborPriorityQueue D) (nbr : Neighbor D) :
    (q.insert nbr).capacity = q.capacity := by
  rw [insert]
  split_ifs
  · rfl
  · cases findPlace q.data nbr q.size 0 q.size <;> rfl

theorem capacity_step {q q' : NeighborPriorityQueue D} {op : Op D} (h : step q op = some q') :
    q'.capacity = q.capacity := by
  cases op with
  | insert nbr =>
    obtain rfl := Option.some.inj h
    exact capacity_insert _ _
  | closestUnexpanded =>
    obtain ⟨hcur, heq⟩ := Option.dite_none_right_eq_some.mp h
    obtain rfl := Option.some.inj heq
    rfl

/-- A run of calls from a queue that shows `seen` and `popped`: what it inserts is
    seen, what it hands out is new. -/
theorem Shows.run {dist : Nat → D} {q q' : NeighborPriorityQueue D}
    {seen popped : Finset (D ×ₗ Nat)} {ops : List (Op D)} (h : Shows dist q seen popped)
    (hcap : 0 < q.capacity) (hdist : ∀ nbr ∈ inserted ops, nbr.distance = dist nbr.id)
    (hrun : Traces.run step q ops = some q') :
    q'.capacity = q.capacity ∧
      Shows dist q' (seen ∪ keysOf dist ((inserted ops).map Neighbor.id))
        (popped ∪ keysOf dist (Traces.outputs step handsOut q ops)) ∧
      (Traces.outputs step handsOut q ops).Nodup ∧
      ∀ id ∈ Traces.outputs step handsOut q ops, keyOf dist id ∉ popped := by
  induction ops generalizing q seen popped with
  | nil =>
    obtain rfl := Option.some.inj hrun
    simpa [inserted, Traces.outputs, keysOf] using h
  | cons op rest ih =>
    obtain ⟨u, hu, hrest⟩ := Traces.run_cons.mp hrun
    have hcapu := capacity_step hu
    have hrestout : Traces.outputs step handsOut q (op :: rest) =
        handsOut q op ++ Traces.outputs step handsOut u rest := by
      rw [Traces.outputs, hu]
      rfl
    rw [hrestout]
    cases op with
    | insert nbr =>
      obtain ⟨id, d, expanded⟩ := nbr
      obtain rfl : d = dist id := hdist _ List.mem_cons_self
      have hshows : Shows dist u (Insert.insert (keyOf dist id) seen) popped := by
        obtain rfl := Option.some.inj hu
        exact h.insert hcap id expanded
      obtain ⟨hcap', hq', hnodup, hnew⟩ := ih hshows (hcapu ▸ hcap)
        (fun nbr hnbr => hdist nbr (List.mem_cons_of_mem _ hnbr)) hrest
      rw [Finset.insert_union, ← Finset.union_insert, ← keysOf_cons] at hq'
      exact ⟨hcap'.trans hcapu, hq', hnodup, hnew⟩
    | closestUnexpanded =>
      obtain ⟨hcur, heq⟩ := Option.dite_none_right_eq_some.mp hu
      obtain rfl := Option.some.inj heq
      obtain ⟨k, hk, hentry, hshows⟩ := h.closestUnexpanded hcur
      obtain ⟨hmem, hkpopped, -⟩ := Beam.next_spec hk
      have hkey := h.keyOf_eq (Beam.mem_of_mem_nearest hmem)
      have hout : handsOut q .closestUnexpanded = [(ofLex k).2] := by
        rw [handsOut, dif_pos hcur, hentry]
        rfl
      obtain ⟨hcap', hq', hnodup, hnew⟩ := ih hshows (hcapu ▸ hcap) hdist hrest
      rw [hout, List.singleton_append]
      refine ⟨hcap'.trans hcapu, ?_, List.nodup_cons.mpr ⟨?_, hnodup⟩, ?_⟩
      · rwa [keysOf_cons, hkey, Finset.union_insert, ← Finset.insert_union]
      · intro hagain
        exact hnew _ hagain (hkey.symm ▸ Finset.mem_insert_self k popped)
      · intro id hid
        rcases List.mem_cons.mp hid with rfl | hid
        · exact hkey.symm ▸ hkpopped
        · exact fun hin => hnew id hid (Finset.mem_insert_of_mem hin)

omit [LinearOrder D] in
/-- Where no id comes with two distances, one function gives the distances. -/
theorem OneDistance.exists_dist [Nonempty D] {nbrs : List (Neighbor D)} (h : OneDistance nbrs) :
    ∃ dist : Nat → D, ∀ nbr ∈ nbrs, nbr.distance = dist nbr.id := by
  have hpick : ∀ id, ∃ d : D, ∀ nbr ∈ nbrs, nbr.id = id → nbr.distance = d := by
    intro id
    by_cases hid : ∃ nbr ∈ nbrs, nbr.id = id
    · obtain ⟨first, hfirst, rfl⟩ := hid
      exact ⟨first.distance, fun nbr hnbr heq => h nbr hnbr first hfirst heq⟩
    · exact ⟨Classical.arbitrary D, fun nbr hnbr heq => absurd ⟨nbr, hnbr, heq⟩ hid⟩
  obtain ⟨dist, hdist⟩ := Classical.axiomOfChoice hpick
  exact ⟨dist, fun nbr hnbr => hdist nbr.id nbr hnbr rfl⟩

/-- Room for two of four: the id 3 was handed out and is still among them. -/
def twoOfFour : List (Op Nat) :=
  [.insert ⟨5, 50, false⟩, .insert ⟨3, 20, false⟩, .closestUnexpanded, .insert ⟨9, 40, false⟩,
    .insert ⟨1, 10, false⟩, .insert ⟨3, 20, false⟩]

-- an id with two distances is kept twice, since the search for it goes by distance
example : (Traces.run step (empty 2) [.insert ⟨1, 5, false⟩, .insert ⟨1, 3, false⟩]).map
    (fun q : NeighborPriorityQueue Nat => q.data.map Neighbor.id) = some [1, 1] := by
  decide

end NeighborPriorityQueue

end QvCache.Vamana
