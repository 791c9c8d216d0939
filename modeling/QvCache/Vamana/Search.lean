/-
  QvCache.Vamana.Search

  `iterate_to_fixed_point` (external/DiskANN/src/index.cpp), the search of the
  graph that both queries and insertions make, without label filters.

  The loop is a best-first search: `Scratch.Shows` ties the scratch space to a
  state of `Beam`, and one round to one expansion.  What a search returns
  follows from that (`iterateToFixedPoint_spec`): it comes to an end, it has
  visited only what the start leads to, its queue is the nearest of what it has
  visited, and it has visited all that a queue entry links to, so that nothing of
  that would still get in.
-/

import QvCache.Vamana.Queue

namespace QvCache.Vamana

open NeighborPriorityQueue (keysOf mem_keysOf keysOf_cons)

/-- What a search reads of the index: the adjacency lists of the graph store, the
    number of slots, and the distance of a slot to the query. -/
structure SearchGraph (D : Type) where
  neighbours : Nat → List Nat
  slots : Nat
  dist : Nat → D

/-- The scratch space of a search.  `insertedIntoPool` is the bit set, or the hash
    set in a large index, of the slots visited. -/
structure Scratch (D : Type) where
  bestLNodes : NeighborPriorityQueue D
  insertedIntoPool : Finset Nat
  expandedNodes : List (Neighbor D)
  cmps : Nat

variable {D : Type} [LinearOrder D]

namespace Scratch

/-- A cleared scratch space with room for `L` candidates. -/
def empty (L : Nat) : Scratch D := ⟨.empty L, ∅, [], 0⟩

variable (g : SearchGraph D)

/-- Mark the slots visited, then insert each with its distance. -/
def visit (s : Scratch D) (idScratch : List Nat) : Scratch D :=
  { s with
    insertedIntoPool := s.insertedIntoPool ∪ idScratch.toFinset
    bestLNodes := idScratch.foldl (fun q id => q.insert ⟨id, g.dist id, false⟩) s.bestLNodes }

/-- The neighbours of a slot that were not visited. -/
def notVisited (s : Scratch D) (id : Nat) : List Nat :=
  (g.neighbours id).filter fun m => decide (m ∉ s.insertedIntoPool)

/-- One round of the loop.  A query does not keep the nodes it expands. -/
def expandNode (searchInvocation : Bool) (s : Scratch D)
    (h : s.bestLNodes.cur < s.bestLNodes.data.length) : Scratch D :=
  let popped := s.bestLNodes.closestUnexpanded h
  let idScratch := s.notVisited g popped.1.id
  { s with
    bestLNodes := popped.2
    expandedNodes :=
      if searchInvocation then s.expandedNodes else s.expandedNodes ++ [popped.1]
    cmps := s.cmps + idScratch.length }.visit g idScratch

/-- The loop.  Every round expands another slot, so one round for each slot is
    enough. -/
def iterate (searchInvocation : Bool) : Nat → Scratch D → Scratch D
  | 0, s => s
  | rounds + 1, s =>
    if h : s.bestLNodes.cur < s.bestLNodes.data.length then
      iterate searchInvocation rounds (s.expandNode g searchInvocation h)
    else s

/-- The starting points; `none` is the exception on a slot that does not exist. -/
def visitInit (s : Scratch D) : List Nat → Option (Scratch D)
  | [] => some s
  | id :: ids =>
    if g.slots ≤ id then none
    else if id ∈ s.insertedIntoPool then visitInit s ids
    else visitInit (s.visit g [id]) ids

end Scratch

/-- `iterate_to_fixed_point` on a cleared scratch space. -/
def iterateToFixedPoint (g : SearchGraph D) (Lsize : Nat) (initIds : List Nat)
    (searchInvocation : Bool) : Option (Scratch D) :=
  ((Scratch.empty Lsize).visitInit g initIds).map (Scratch.iterate g searchInvocation g.slots)

/-! ## The loop is a best-first search -/

/-- The keys that a key leads to. -/
def SearchGraph.succs (g : SearchGraph D) (k : D ×ₗ Nat) : Finset (D ×ₗ Nat) :=
  keysOf g.dist (g.neighbours (ofLex k).2)

/-- The scratch space in the middle of a search, with `L` candidates, that has
    seen and expanded the nodes of `st`. -/
structure Scratch.Shows (g : SearchGraph D) (L : Nat) (s : Scratch D)
    (st : Beam.State (D ×ₗ Nat)) : Prop where
  room : 0 < L
  capacity_eq : s.bestLNodes.capacity = L
  queue : s.bestLNodes.Shows g.dist st.seen st.expanded
  visited : ∀ id, id ∈ s.insertedIntoPool ↔ keyOf g.dist id ∈ st.seen

section Shows

variable {g : SearchGraph D} {L : Nat} {s : Scratch D} {st : Beam.State (D ×ₗ Nat)}

theorem Scratch.shows_empty (hL : 0 < L) : (Scratch.empty L : Scratch D).Shows g L ⟨∅, ∅⟩ where
  room := hL
  capacity_eq := rfl
  queue := NeighborPriorityQueue.shows_empty g.dist L
  visited id := by simp [Scratch.empty]

theorem shows_insertAll {dist : Nat → D} {q : NeighborPriorityQueue D}
    {seen popped : Finset (D ×ₗ Nat)} (h : q.Shows dist seen popped) (hcap : 0 < q.capacity)
    (ids : List Nat) :
    (ids.foldl (fun q id => q.insert ⟨id, dist id, false⟩) q).capacity = q.capacity ∧
      (ids.foldl (fun q id => q.insert ⟨id, dist id, false⟩) q).Shows dist
        (seen ∪ keysOf dist ids) popped := by
  induction ids generalizing q seen with
  | nil => exact ⟨rfl, by simpa [keysOf] using h⟩
  | cons id rest ih =>
    have hcapacity := NeighborPriorityQueue.capacity_insert q ⟨id, dist id, false⟩
    obtain ⟨hrest, hshows⟩ := ih (h.insert hcap id false) (hcapacity ▸ hcap)
    rw [Finset.insert_union, ← Finset.union_insert, ← keysOf_cons] at hshows
    exact ⟨hrest.trans hcapacity, hshows⟩

theorem Scratch.Shows.visit (h : s.Shows g L st) (ids : List Nat) :
    (s.visit g ids).Shows g L ⟨st.seen ∪ keysOf g.dist ids, st.expanded⟩ := by
  have hcap : 0 < s.bestLNodes.capacity := h.capacity_eq ▸ h.room
  obtain ⟨hcapacity, hqueue⟩ := shows_insertAll h.queue hcap ids
  refine ⟨h.room, hcapacity.trans h.capacity_eq, hqueue, fun id => ?_⟩
  simp only [Scratch.visit, Finset.mem_union, List.mem_toFinset, h.visited id, mem_keysOf]

/-- One round expands the node that a best-first search expands next. -/
theorem Scratch.Shows.expandNode (h : s.Shows g L st) (searchInvocation : Bool)
    (hcur : s.bestLNodes.cur < s.bestLNodes.data.length) :
    ∃ k, Beam.next L st = some k ∧
      (s.bestLNodes.closestUnexpanded hcur).1 = ⟨(ofLex k).2, g.dist (ofLex k).2, true⟩ ∧
      (s.expandNode g searchInvocation hcur).Shows g L (Beam.expand g.succs st k) := by
  obtain ⟨k, hk, hentry, hshows⟩ := h.queue.closestUnexpanded hcur
  have hseen : k ∈ st.seen := Beam.mem_of_mem_nearest (Beam.next_spec hk).1
  have hdist := h.queue.dist_eq k hseen
  rw [h.capacity_eq] at hk
  refine ⟨k, hk, ?_, ?_⟩
  · rw [hentry, ← hdist]
    simp [NeighborPriorityQueue.entry]
  · -- what the round does not look at again was seen before
    have hunion : st.seen ∪ keysOf g.dist (s.notVisited g (ofLex k).2) =
        st.seen ∪ g.succs k := by
      ext c
      simp only [Finset.mem_union, SearchGraph.succs, keysOf, Scratch.notVisited,
        List.mem_toFinset, List.mem_map, List.mem_filter, decide_eq_true_iff, h.visited]
      constructor
      · rintro (hc | ⟨m, ⟨hm, -⟩, rfl⟩)
        · exact Or.inl hc
        · exact Or.inr ⟨m, hm, rfl⟩
      · rintro (hc | ⟨m, hm, rfl⟩)
        · exact Or.inl hc
        · by_cases hold : keyOf g.dist m ∈ st.seen
          · exact Or.inl hold
          · exact Or.inr ⟨m, ⟨hm, hold⟩, rfl⟩
    have hpopped : (s.bestLNodes.closestUnexpanded hcur).1.id = (ofLex k).2 := by
      rw [hentry]
      rfl
    rw [Scratch.expandNode, Beam.expand, ← hunion, hpopped]
    refine @Scratch.Shows.visit _ _ _ _ _ ⟨st.seen, Insert.insert k st.expanded⟩ ?_ _
    exact ⟨h.room, h.capacity_eq, hshows, h.visited⟩

theorem Scratch.Shows.next_eq_none (h : s.Shows g L st)
    (hcur : ¬ s.bestLNodes.cur < s.bestLNodes.data.length) : Beam.next L st = none := by
  have hiff := h.queue.hasUnexpandedNode_iff
  rw [h.capacity_eq] at hiff
  exact not_not.mp fun hne => hcur (hiff.mpr hne)

/-- The loop is the search of `Beam`. -/
theorem Scratch.Shows.iterate (h : s.Shows g L st) (searchInvocation : Bool) (rounds : Nat) :
    (s.iterate g searchInvocation rounds).Shows g L (Beam.search g.succs L rounds st) := by
  induction rounds generalizing s st with
  | zero => exact h
  | succ rounds ih =>
    rw [Scratch.iterate, Beam.search]
    by_cases hcur : s.bestLNodes.cur < s.bestLNodes.data.length
    · obtain ⟨k, hk, -, hshows⟩ := h.expandNode searchInvocation hcur
      rw [dif_pos hcur, hk]
      exact ih hshows
    · rw [dif_neg hcur, h.next_eq_none hcur]
      exact h

/-! ## The starting points -/

theorem Scratch.Shows.visitInit (h : s.Shows g L st) {ids : List Nat}
    (hids : ∀ id ∈ ids, id < g.slots) : ∃ s', s.visitInit g ids = some s' ∧
      s'.expandedNodes = s.expandedNodes ∧
      s'.Shows g L ⟨st.seen ∪ keysOf g.dist ids, st.expanded⟩ := by
  induction ids generalizing s st with
  | nil => exact ⟨s, rfl, rfl, by simpa [keysOf] using h⟩
  | cons id rest ih =>
    have hrest : ∀ m ∈ rest, m < g.slots := fun m hm => hids m (List.mem_cons_of_mem id hm)
    rw [Scratch.visitInit, if_neg (not_le.mpr (hids id List.mem_cons_self)), keysOf_cons,
      Finset.union_insert]
    by_cases hold : id ∈ s.insertedIntoPool
    · obtain ⟨s', hs', hpool, hshows⟩ := ih h hrest
      have hseen := Finset.mem_union_left (keysOf g.dist rest) ((h.visited id).mp hold)
      rw [if_pos hold, Finset.insert_eq_self.mpr hseen]
      exact ⟨s', hs', hpool, hshows⟩
    · obtain ⟨s', hs', hpool, hshows⟩ := ih (h.visit [id]) hrest
      rw [if_neg hold, ← Finset.insert_union]
      refine ⟨s', hs', hpool, ?_⟩
      have hone : st.seen ∪ keysOf g.dist [id] = Insert.insert (keyOf g.dist id) st.seen := by
        simp [keysOf]
      rwa [hone] at hshows

/-- A slot that does not exist is refused. -/
theorem visitInit_eq_none {s : Scratch D} {ids : List Nat} {id : Nat} (hid : id ∈ ids)
    (hout : g.slots ≤ id) : s.visitInit g ids = none := by
  induction ids generalizing s with
  | nil => cases hid
  | cons m rest ih =>
    rw [Scratch.visitInit]
    rcases List.mem_cons.mp hid with rfl | hid
    · rw [if_pos hout]
    · split_ifs
      · rfl
      · exact ih hid
      · exact ih hid

/-! ## The expanded nodes -/

/-- The pool of an insertion: the nodes expanded, each once, at their distances. -/
structure Scratch.Keeps (g : SearchGraph D) (s : Scratch D) (st : Beam.State (D ×ₗ Nat)) :
    Prop where
  nodup : (s.expandedNodes.map Neighbor.id).Nodup
  mem_iff : ∀ id, id ∈ s.expandedNodes.map Neighbor.id ↔ keyOf g.dist id ∈ st.expanded
  dist_eq : ∀ n ∈ s.expandedNodes, n.distance = g.dist n.id

theorem Scratch.Keeps.expandNode (h : s.Keeps g st) (hs : s.Shows g L st)
    (hcur : s.bestLNodes.cur < s.bestLNodes.data.length) {k : D ×ₗ Nat}
    (hk : Beam.next L st = some k)
    (hnode : (s.bestLNodes.closestUnexpanded hcur).1 = ⟨(ofLex k).2, g.dist (ofLex k).2, true⟩) :
    (s.expandNode g false hcur).Keeps g (Beam.expand g.succs st k) := by
  obtain ⟨hmem, hnew, -⟩ := Beam.next_spec hk
  have hkey : keyOf g.dist (ofLex k).2 = k :=
    hs.queue.keyOf_eq (Beam.mem_of_mem_nearest hmem)
  have hpool : (s.expandNode g false hcur).expandedNodes =
      s.expandedNodes ++ [⟨(ofLex k).2, g.dist (ofLex k).2, true⟩] := by
    rw [← hnode]
    rfl
  refine ⟨?_, fun id => ?_, fun n hn => ?_⟩
  · rw [hpool, List.map_append, List.nodup_append]
    refine ⟨h.nodup, List.nodup_singleton _, ?_⟩
    intro a ha b hb hab
    rw [List.map_singleton, List.mem_singleton] at hb
    rw [hab, hb, h.mem_iff, hkey] at ha
    exact hnew ha
  · rw [hpool, List.map_append, List.mem_append, h.mem_iff, Beam.expand, Finset.mem_insert,
      List.map_singleton, List.mem_singleton, or_comm]
    refine or_congr_left ?_
    rw [← hkey]
    exact (keyOf_injective g.dist).eq_iff.symm
  · rw [hpool] at hn
    rcases List.mem_append.mp hn with hn | hn
    · exact h.dist_eq n hn
    · rw [List.mem_singleton.mp hn]

theorem Scratch.Keeps.iterate (h : s.Keeps g st) (hs : s.Shows g L st) (rounds : Nat) :
    (s.iterate g false rounds).Keeps g (Beam.search g.succs L rounds st) := by
  induction rounds generalizing s st with
  | zero => exact h
  | succ rounds ih =>
    rw [Scratch.iterate, Beam.search]
    by_cases hcur : s.bestLNodes.cur < s.bestLNodes.data.length
    · obtain ⟨k, hk, hnode, hshows⟩ := hs.expandNode false hcur
      rw [dif_pos hcur, hk]
      exact ih (h.expandNode hs hcur hk hnode) hshows
    · rw [dif_neg hcur, hs.next_eq_none hcur]
      exact h

end Shows

/-! ## What a search returns -/

/-- The adjacency lists hold slots that exist. -/
def SearchGraph.Closed (g : SearchGraph D) : Prop :=
  ∀ id < g.slots, ∀ m ∈ g.neighbours id, m < g.slots

/-- `b` is at the end of a chain of links from `a`. -/
def SearchGraph.Leads (g : SearchGraph D) (a b : Nat) : Prop :=
  Relation.ReflTransGen (fun a b => b ∈ g.neighbours a) a b

theorem SearchGraph.reaches_iff {g : SearchGraph D} {a : Nat} {k : D ×ₗ Nat} :
    Beam.Reaches g.succs (keyOf g.dist a) k ↔ ∃ b, k = keyOf g.dist b ∧ g.Leads a b := by
  constructor
  · intro h
    induction h with
    | refl => exact ⟨a, rfl, .refl⟩
    | tail _ hstep ih =>
      obtain ⟨b, rfl, hb⟩ := ih
      obtain ⟨c, hc, rfl⟩ := by simpa [SearchGraph.succs, keysOf] using hstep
      exact ⟨c, rfl, hb.tail hc⟩
  · rintro ⟨b, rfl, hb⟩
    induction hb with
    | refl => exact .refl
    | tail _ hstep ih => exact ih.tail (mem_keysOf.mpr hstep)

/-- What a finished search has found, from the slots `initIds` with `L` candidates. -/
structure Scratch.Found (g : SearchGraph D) (L : Nat) (initIds : List Nat) (s : Scratch D) :
    Prop where
  finished : ∀ n ∈ s.bestLNodes.data, n.expanded = true
  nearest : s.bestLNodes.data.map Neighbor.key =
    Beam.nearest L (s.insertedIntoPool.image (keyOf g.dist))
  reached : ∀ id ∈ s.insertedIntoPool, ∃ a ∈ initIds, g.Leads a id
  links_visited : ∀ n ∈ s.bestLNodes.data, ∀ m ∈ g.neighbours n.id, m ∈ s.insertedIntoPool
  local_best : ∀ n ∈ s.bestLNodes.data, ∀ m ∈ g.neighbours n.id,
    m ∈ s.bestLNodes.data.map Neighbor.id ∨
      s.bestLNodes.data.length = L ∧ ∀ c ∈ s.bestLNodes.data, c.key < keyOf g.dist m
  exhaustive : s.bestLNodes.data.length < L → ∀ id,
    id ∈ s.bestLNodes.data.map Neighbor.id ↔ ∃ a ∈ initIds, g.Leads a id

/-- The nodes of the search, before it and after it. -/
def SearchGraph.searched (g : SearchGraph D) (L : Nat) (initIds : List Nat) :
    Beam.State (D ×ₗ Nat) :=
  Beam.search g.succs L g.slots ⟨keysOf g.dist initIds, ∅⟩

section Spec

variable {g : SearchGraph D} {L : Nat} {initIds : List Nat}

theorem sound_searched (g : SearchGraph D) (L : Nat) (initIds : List Nat) :
    Beam.Sound g.succs (keysOf g.dist initIds) (g.searched L initIds) :=
  Beam.Sound.start.search L g.slots

theorem finished_searched (hclosed : g.Closed) (hinit : ∀ id ∈ initIds, id < g.slots) :
    Beam.Finished L (g.searched L initIds) := by
  have hmem : ∀ k, k ∈ keysOf g.dist (List.range g.slots) ↔ ∃ id < g.slots, keyOf g.dist id = k := by
    simp [keysOf]
  refine Beam.finished_search (U := keysOf g.dist (List.range g.slots))
    Beam.Sound.start ?_ ?_ ?_
  · intro k hk
    obtain ⟨id, hid, rfl⟩ := by simpa [keysOf] using hk
    exact (hmem _).mpr ⟨id, hinit id hid, rfl⟩
  · intro k hk c hc
    obtain ⟨id, hid, rfl⟩ := (hmem k).mp hk
    obtain ⟨m, hm, rfl⟩ := by simpa [SearchGraph.succs, keysOf] using hc
    exact (hmem _).mpr ⟨m, hclosed id hid m hm, rfl⟩
  · calc (keysOf g.dist (List.range g.slots)).card
        ≤ ((List.range g.slots).map (keyOf g.dist)).length := List.toFinset_card_le _
      _ = g.slots + (∅ : Finset (D ×ₗ Nat)).card := by simp

theorem iterateToFixedPoint_shows (hL : 0 < L) (hinit : ∀ id ∈ initIds, id < g.slots)
    (searchInvocation : Bool) : ∃ s, iterateToFixedPoint g L initIds searchInvocation = some s ∧
      s.Shows g L (g.searched L initIds) ∧
      (searchInvocation = false → s.Keeps g (g.searched L initIds)) := by
  obtain ⟨s, hs, hpool, hshows⟩ := (Scratch.shows_empty hL).visitInit hinit
  rw [Finset.empty_union] at hshows
  refine ⟨s.iterate g searchInvocation g.slots, ?_, hshows.iterate _ _, ?_⟩
  · rw [iterateToFixedPoint, hs, Option.map_some]
  · rintro rfl
    have hkeeps : s.Keeps g ⟨keysOf g.dist initIds, ∅⟩ := by
      constructor <;> simp [hpool, Scratch.empty]
    exact hkeeps.iterate hshows _

section Found

variable {s : Scratch D} {st : Beam.State (D ×ₗ Nat)}

theorem Scratch.Shows.seen_eq (h : s.Shows g L st) :
    st.seen = s.insertedIntoPool.image (keyOf g.dist) := by
  ext k
  rw [Finset.mem_image]
  constructor
  · intro hk
    have hkey := h.queue.keyOf_eq hk
    exact ⟨(ofLex k).2, (h.visited _).mpr (hkey.symm ▸ hk), hkey⟩
  · rintro ⟨id, hid, rfl⟩
    exact (h.visited id).mp hid

theorem Scratch.Shows.map_key (h : s.Shows g L st) :
    s.bestLNodes.data.map Neighbor.key = Beam.nearest L st.seen :=
  h.capacity_eq ▸ h.queue.map_key

/-- The entries have the distances of their slots. -/
theorem Scratch.Shows.key_eq (h : s.Shows g L st) {n : Neighbor D}
    (hn : n ∈ s.bestLNodes.data) : n.key = keyOf g.dist n.id := by
  have hmem : n.key ∈ Beam.nearest L st.seen := h.map_key ▸ List.mem_map_of_mem hn
  exact (h.queue.keyOf_eq (Beam.mem_of_mem_nearest hmem)).symm

theorem Scratch.Shows.mem_ids_iff (h : s.Shows g L st) {id : Nat} :
    id ∈ s.bestLNodes.data.map Neighbor.id ↔ keyOf g.dist id ∈ Beam.nearest L st.seen := by
  rw [← h.map_key, List.mem_map, List.mem_map]
  constructor
  · rintro ⟨n, hn, rfl⟩
    exact ⟨n, hn, h.key_eq hn⟩
  · rintro ⟨n, hn, hkey⟩
    exact ⟨n, hn, keyOf_injective g.dist ((h.key_eq hn).symm.trans hkey)⟩

theorem Scratch.Shows.found (h : s.Shows g L st)
    (hsound : Beam.Sound g.succs (keysOf g.dist initIds) st) (hdone : Beam.Finished L st) :
    s.Found g L initIds := by
  have hinit : ∀ k, k ∈ keysOf g.dist initIds ↔ ∃ a ∈ initIds, keyOf g.dist a = k := by
    simp [keysOf]
  have hreach : ∀ id, (∃ a ∈ keysOf g.dist initIds, Beam.Reaches g.succs a (keyOf g.dist id)) ↔
      ∃ a ∈ initIds, g.Leads a id := by
    intro id
    constructor
    · rintro ⟨_, hk, hr⟩
      obtain ⟨a, ha, rfl⟩ := (hinit _).mp hk
      obtain ⟨b, hb, hleads⟩ := SearchGraph.reaches_iff.mp hr
      exact ⟨a, ha, keyOf_injective g.dist hb ▸ hleads⟩
    · rintro ⟨a, ha, hleads⟩
      exact ⟨_, (hinit _).mpr ⟨a, ha, rfl⟩, SearchGraph.reaches_iff.mpr ⟨id, rfl, hleads⟩⟩
  have hlen : s.bestLNodes.data.length = (Beam.nearest L st.seen).length := by
    rw [← h.map_key, List.length_map]
  have hentry : ∀ n ∈ s.bestLNodes.data, n.key ∈ Beam.nearest L st.seen :=
    fun n hn => h.map_key ▸ List.mem_map_of_mem hn
  refine ⟨?_, h.seen_eq ▸ h.map_key, ?_, ?_, ?_, ?_⟩
  · intro n hn
    have hdata := h.queue.data_eq
    rw [h.capacity_eq] at hdata
    rw [hdata] at hn
    obtain ⟨k, hk, rfl⟩ := List.mem_map.mp hn
    exact decide_eq_true (hdone k hk)
  · intro id hid
    exact (hreach id).mp (hsound.reached _ ((h.visited id).mp hid))
  · -- an entry was expanded, which visits its links
    intro n hn m hm
    exact (h.visited m).mpr (hsound.closed _ (hdone _ (hentry n hn)) (mem_keysOf.mpr hm))
  · intro n hn m hm
    rw [h.mem_ids_iff, hlen]
    refine (hsound.local_best hdone (hentry n hn) (mem_keysOf.mpr hm)).imp_right fun hfull => ?_
    exact ⟨hfull.1, fun c hc => hfull.2 _ (hentry c hc)⟩
  · intro hroom id
    rw [h.mem_ids_iff, ← hreach id]
    exact hsound.exhaustive hdone (hlen ▸ hroom)

end Found

/-- A search from slots that exist comes to an end, and it has found what
    `Found` says. -/
theorem iterateToFixedPoint_found (hL : 0 < L) (hclosed : g.Closed)
    (hinit : ∀ id ∈ initIds, id < g.slots) (searchInvocation : Bool) :
    ∃ s, iterateToFixedPoint g L initIds searchInvocation = some s ∧ s.Found g L initIds := by
  obtain ⟨s, hs, hshows, -⟩ := iterateToFixedPoint_shows hL hinit searchInvocation
  exact ⟨s, hs, hshows.found (sound_searched g L initIds) (finished_searched hclosed hinit)⟩

section Entries

variable {s : Scratch D}

/-- The entries have the distances of their slots, which were visited. -/
theorem Scratch.Found.visited (h : s.Found g L initIds) {n : Neighbor D}
    (hn : n ∈ s.bestLNodes.data) : n.id ∈ s.insertedIntoPool ∧ n.distance = g.dist n.id := by
  have hmem : n.key ∈ Beam.nearest L (s.insertedIntoPool.image (keyOf g.dist)) :=
    h.nearest ▸ List.mem_map_of_mem hn
  obtain ⟨id, hid, hkey⟩ := Finset.mem_image.mp (Beam.mem_of_mem_nearest hmem)
  have hpair := Prod.mk.inj (toLex.injective hkey)
  exact ⟨hpair.2 ▸ hid, by rw [← hpair.1, hpair.2]⟩

theorem Scratch.Found.length_le (h : s.Found g L initIds) : s.bestLNodes.data.length ≤ L := by
  have hlen := congrArg List.length h.nearest
  rw [List.length_map, Beam.length_nearest] at hlen
  exact hlen.trans_le (min_le_left _ _)

theorem Scratch.Found.sorted (h : s.Found g L initIds) :
    s.bestLNodes.data.Pairwise fun a b => a.key < b.key :=
  List.pairwise_map.mp (h.nearest ▸ Beam.pairwise_nearest)

theorem Scratch.Found.nodup (h : s.Found g L initIds) :
    (s.bestLNodes.data.map Neighbor.id).Nodup := by
  refine List.pairwise_map.mpr (h.sorted.imp_of_mem fun {a b} ha hb hlt heq => hlt.ne ?_)
  rw [Neighbor.key, Neighbor.key, (h.visited ha).2, (h.visited hb).2, heq]

end Entries

/-- What an insertion keeps of a search from one slot: a pool without repeats of
    slots that the start leads to, the start and the whole queue among them. -/
structure Scratch.Pool (g : SearchGraph D) (start : Nat) (s : Scratch D) : Prop where
  nodup : (s.expandedNodes.map Neighbor.id).Nodup
  dist_eq : ∀ n ∈ s.expandedNodes, n.distance = g.dist n.id
  reached : ∀ n ∈ s.expandedNodes, g.Leads start n.id
  start_mem : start ∈ s.expandedNodes.map Neighbor.id
  queue_subset : ∀ n ∈ s.bestLNodes.data, n.id ∈ s.expandedNodes.map Neighbor.id

theorem iterateToFixedPoint_pool (hL : 0 < L) (hclosed : g.Closed) {start : Nat}
    (hstart : start < g.slots) : ∃ s, iterateToFixedPoint g L [start] false = some s ∧
      s.Found g L [start] ∧ s.Pool g start := by
  have hinit : ∀ id ∈ [start], id < g.slots := by simpa using hstart
  obtain ⟨s, hs, hshows, hkeeps⟩ := iterateToFixedPoint_shows hL hinit false
  have hpool := hkeeps rfl
  have hsound := sound_searched g L [start]
  have hdone := finished_searched (L := L) hclosed hinit
  have hfound := hshows.found hsound hdone
  refine ⟨s, hs, hfound, hpool.nodup, hpool.dist_eq, ?_, ?_, ?_⟩
  · intro n hn
    have hexp := (hpool.mem_iff n.id).mp (List.mem_map_of_mem hn)
    have hvisited := (hshows.visited n.id).mpr (hsound.expanded_subset hexp)
    simpa using hfound.reached n.id hvisited
  · have hone : keysOf g.dist [start] = {keyOf g.dist start} := by simp [keysOf]
    rw [hpool.mem_iff, SearchGraph.searched, hone]
    exact Beam.start_mem_expanded hL (Nat.zero_lt_of_lt hstart) _
  · intro n hn
    have hmem := hshows.mem_ids_iff.mp (List.mem_map_of_mem hn)
    exact (hpool.mem_iff n.id).mpr (hdone _ hmem)

/-- In every graph whose lists hold slots that exist, a search from slots that
    exist comes to an end and has found what `Found` says; from any other it
    throws. -/
theorem iterateToFixedPoint_spec (hL : 0 < L) (hclosed : g.Closed) (initIds : List Nat)
    (searchInvocation : Bool) :
    if ∀ id ∈ initIds, id < g.slots then
      ∃ s, iterateToFixedPoint g L initIds searchInvocation = some s ∧ s.Found g L initIds
    else iterateToFixedPoint g L initIds searchInvocation = none := by
  split_ifs with hinit
  · exact iterateToFixedPoint_found hL hclosed hinit searchInvocation
  · obtain ⟨id, hid⟩ := not_forall.mp hinit
    rw [Classical.not_imp, not_lt] at hid
    rw [iterateToFixedPoint, visitInit_eq_none hid.1 hid.2, Option.map_none]

/-- A line of four slots, of which the last is the nearest. -/
def lineGraph : SearchGraph Nat where
  neighbours id := if id < 3 then [id + 1] else []
  slots := 4
  dist id := 10 - id

theorem iterateToFixedPoint_spec_line :
    (iterateToFixedPoint lineGraph 2 [0] true).map (fun s => s.bestLNodes.data.map Neighbor.id) =
        some [3, 2] ∧
      (∃ s, iterateToFixedPoint lineGraph 2 [0] true = some s ∧ s.Found lineGraph 2 [0]) := by
  refine ⟨by decide, ?_⟩
  have hclosed : lineGraph.Closed := by
    rw [SearchGraph.Closed]
    decide
  have h := iterateToFixedPoint_spec Nat.two_pos hclosed [0] true
  rwa [if_pos (by decide)] at h

end Spec

end QvCache.Vamana
