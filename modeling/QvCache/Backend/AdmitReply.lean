/-
  QvCache.Backend.AdmitReply

  The two admit tasks on the reply of `fetch_vectors_by_ids`, whatever its
  shape: `memory_index_insert_sync`, which copies every vector into an aligned
  buffer first, and `memory_index_insert_reconstructed_sync`, which hands the
  vectors over as they are.  Both index the reply by the positions of the
  request and read `dim` elements of what they find there.
-/

import QvCache.Cache.MiniIndex

namespace QvCache

namespace AdmitReply

variable {α : Type}

/-! ## The tasks -/

/-- How a piece of code comes to an end.  `outOfBounds` is a read past the end
    of a vector. -/
inductive Ending where
  | returned
  | outOfBounds
  | threw
deriving DecidableEq

/-- The calls of `insert_point`, each with its tag and the `dim` elements at its
    pointer, and the end. -/
structure AdmitRun (α : Type) where
  calls : List (UInt32 × List α)
  ending : Ending

/-- `insert_point(point, tag)`: it refuses tag 0 by an exception and copies
    `dim` elements of the point if it `stores` it. -/
def insertPoint (dim : Nat) (stores : Bool) (point : List α) (tag : UInt32) : Ending :=
  if tag = 0 then .threw
  else if stores && decide (point.length < dim) then .outOfBounds
  else .returned

/-- The loop over the ids from position `i` on; `stores` says which calls find
    room and no point with their tag. -/
def insertLoop (dim : Nat) (stores : Nat → Bool) (vectors : List (List α)) (i : Nat) :
    List UInt32 → AdmitRun α
  | [] => ⟨[], .returned⟩
  | id :: rest =>
    match vectors[i]? with
    | none => ⟨[], .outOfBounds⟩
    | some vector =>
      let call := (1 + id, vector.take dim)
      match insertPoint dim (stores i) vector (1 + id) with
      | .returned =>
        let run := insertLoop dim stores vectors (i + 1) rest
        { run with calls := call :: run.calls }
      | ending => ⟨[call], ending⟩

/-- The aligned buffers with the vectors; `none` for a copy that reads past the
    end of one. -/
def alignedCopies [Zero α] (dim alignedDim : Nat) : List (List α) → Option (List (List α))
  | [] => some []
  | fetched :: rest =>
    if fetched.length < dim then none
    else (alignedCopies dim alignedDim rest).map fun vectors =>
      (fetched.take dim ++ List.replicate (alignedDim - dim) 0) :: vectors

def memoryIndexInsertSync [Zero α] (dim alignedDim : Nat) (stores : Nat → Bool)
    (toBeInserted : List UInt32) (fetchedVectors : List (List α)) : AdmitRun α :=
  match alignedCopies dim alignedDim fetchedVectors with
  | none => ⟨[], .outOfBounds⟩
  | some vectors => insertLoop dim stores vectors 0 toBeInserted

def memoryIndexInsertReconstructedSync (dim : Nat) (stores : Nat → Bool)
    (toBeInserted : List UInt32) (reconstructedVectors : List (List α)) : AdmitRun α :=
  insertLoop dim stores reconstructedVectors 0 toBeInserted

/-! ## What they should do -/

/-- The pairs of an id and the vector at its position, where that has `dim`
    elements. -/
def wellFormed (dim : Nat) (pairs : List (UInt32 × List α)) : List (UInt32 × List α) :=
  (pairs.filter fun p => decide (dim ≤ p.2.length)).map fun p => (1 + p.1, p.2.take dim)

/-- The task reads only what is there and inserts the well formed pairs. -/
def Tolerates (dim : Nat) (ids : List UInt32) (reply : List (List α)) (run : AdmitRun α) : Prop :=
  run.ending ≠ .outOfBounds ∧ run.calls = wellFormed dim (ids.zip reply)

/-- The pairs up to the first that `insert_point` refuses by an exception. -/
def reached : List (UInt32 × List α) → List (UInt32 × List α)
  | [] => []
  | p :: rest => if p.1 = 0xFFFFFFFF then [p] else p :: reached rest

/-- The replies that the loop over the ids copes with: the vectors it gets to
    are long enough, it gets to all that are, and it does not run off the end of
    the reply. -/
structure FitsLoop (dim : Nat) (ids : List UInt32) (reply : List (List α)) : Prop where
  long : ∀ p ∈ reached (ids.zip reply), dim ≤ p.2.length
  rest : ∀ p ∈ (ids.zip reply).drop (reached (ids.zip reply)).length, p.2.length < dim
  stops : ids.length ≤ reply.length ∨ (0xFFFFFFFF : UInt32) ∈ ids.take reply.length

/-! ## The loop -/

theorem length_of_mem_wellFormed {dim : Nat} {pairs : List (UInt32 × List α)}
    {call : UInt32 × List α} (h : call ∈ wellFormed dim pairs) : call.2.length = dim := by
  obtain ⟨p, hp, rfl⟩ := List.mem_map.mp h
  have hlong := of_decide_eq_true (List.mem_filter.mp hp).2
  rw [List.length_take]
  omega

theorem wellFormed_eq_nil_iff {dim : Nat} {pairs : List (UInt32 × List α)} :
    wellFormed dim pairs = [] ↔ ∀ p ∈ pairs, p.2.length < dim := by
  rw [wellFormed, List.map_eq_nil_iff, List.filter_eq_nil_iff]
  simp only [decide_eq_true_eq, Nat.not_le]

theorem wellFormed_cons (dim : Nat) (p : UInt32 × List α) (rest : List (UInt32 × List α)) :
    wellFormed dim (p :: rest) =
      if dim ≤ p.2.length then (1 + p.1, p.2.take dim) :: wellFormed dim rest
      else wellFormed dim rest := by
  rw [wellFormed, List.filter_cons]
  by_cases hlong : dim ≤ p.2.length
  · rw [if_pos (decide_eq_true hlong), if_pos hlong, List.map_cons]
    rfl
  · rw [if_neg (by simpa using hlong), if_neg hlong]
    rfl

/-- A call with a short vector is not one of the well formed ones. -/
theorem cons_ne_wellFormed {dim : Nat} {tag : UInt32} {vector : List α}
    (hshort : vector.length < dim) (calls : List (UInt32 × List α))
    (pairs : List (UInt32 × List α)) :
    (tag, vector.take dim) :: calls ≠ wellFormed dim pairs := by
  intro heq
  have hlen := length_of_mem_wellFormed (heq ▸ List.mem_cons_self)
  rw [List.length_take] at hlen
  omega

/-- The loop stops at an id whose tag is refused. -/
theorem insertLoop_refused {dim : Nat} {stores : Nat → Bool} {vectors : List (List α)} {i : Nat}
    {vector : List α} {rest : List UInt32} (hi : vectors[i]? = some vector) :
    insertLoop dim stores vectors i (0xFFFFFFFF :: rest) =
      ⟨[(1 + 0xFFFFFFFF, vector.take dim)], .threw⟩ := by
  rw [insertLoop, hi]
  rfl

/-- Any other id with a vector that is long enough is handed over. -/
theorem insertLoop_long {dim : Nat} {stores : Nat → Bool} {vectors : List (List α)} {i : Nat}
    {vector : List α} {id : UInt32} {rest : List UInt32} (hi : vectors[i]? = some vector)
    (hid : id ≠ 0xFFFFFFFF) (hlong : dim ≤ vector.length) :
    insertLoop dim stores vectors i (id :: rest) =
      ⟨(1 + id, vector.take dim) :: (insertLoop dim stores vectors (i + 1) rest).calls,
        (insertLoop dim stores vectors (i + 1) rest).ending⟩ := by
  have hcall : insertPoint dim (stores i) vector (1 + id) = .returned := by
    rw [insertPoint, if_neg fun h => hid (tag_eq_zero_iff.mp h),
      decide_eq_false (Nat.not_lt.mpr hlong), Bool.and_false]
    rfl
  rw [insertLoop, hi]
  dsimp only
  rw [hcall]

/-- One whose vector is short is handed over too, and read past its end if it
    is stored. -/
theorem insertLoop_short {dim : Nat} {stores : Nat → Bool} {vectors : List (List α)} {i : Nat}
    {vector : List α} {id : UInt32} {rest : List UInt32} (hi : vectors[i]? = some vector) :
    ∃ calls, (insertLoop dim stores vectors i (id :: rest)).calls =
      (1 + id, vector.take dim) :: calls := by
  rw [insertLoop, hi]
  dsimp only
  cases insertPoint dim (stores i) vector (1 + id) <;> exact ⟨_, rfl⟩

theorem not_tolerates_short {dim : Nat} {stores : Nat → Bool} {vectors others : List (List α)}
    {i : Nat} {vector : List α} {id : UInt32} {rest : List UInt32} (hi : vectors[i]? = some vector)
    (hshort : vector.length < dim) :
    ¬ Tolerates dim (id :: rest) (vector :: others)
      (insertLoop dim stores vectors i (id :: rest)) := by
  intro h
  obtain ⟨calls, hcalls⟩ : ∃ calls, (insertLoop dim stores vectors i (id :: rest)).calls =
      (1 + id, vector.take dim) :: calls := insertLoop_short hi
  exact cons_ne_wellFormed hshort _ _ (hcalls.symm.trans h.2)

theorem not_fitsLoop_short {dim : Nat} {others : List (List α)} {vector : List α} {id : UInt32}
    {rest : List UInt32} (hshort : vector.length < dim) :
    ¬ FitsLoop dim (id :: rest) (vector :: others) := by
  intro h
  have hfirst : (id, vector) ∈ reached ((id, vector) :: rest.zip others) := by
    unfold reached
    split_ifs <;> exact List.mem_cons_self
  exact absurd (h.long _ hfirst) (Nat.not_le.mpr hshort)

theorem fitsLoop_refused {dim : Nat} {rest : List UInt32} {vector : List α}
    {others : List (List α)} (hlong : dim ≤ vector.length) :
    FitsLoop dim (0xFFFFFFFF :: rest) (vector :: others) ↔
      ∀ p ∈ rest.zip others, p.2.length < dim := by
  have hreached : reached ((0xFFFFFFFF :: rest).zip (vector :: others)) = [(0xFFFFFFFF, vector)] :=
    if_pos rfl
  constructor
  · intro h p hp
    refine h.rest p ?_
    rw [hreached]
    exact hp
  · intro h
    refine ⟨fun p hp => ?_, fun p hp => ?_, Or.inr List.mem_cons_self⟩
    · rw [hreached] at hp
      rwa [List.mem_singleton.mp hp]
    · rw [hreached] at hp
      exact h p hp

theorem fitsLoop_cons {dim : Nat} {id : UInt32} {rest : List UInt32} {vector : List α}
    {others : List (List α)} (hid : id ≠ 0xFFFFFFFF) (hlong : dim ≤ vector.length) :
    FitsLoop dim (id :: rest) (vector :: others) ↔ FitsLoop dim rest others := by
  have hreached : reached ((id :: rest).zip (vector :: others)) =
      (id, vector) :: reached (rest.zip others) := if_neg hid
  have hstops : ((id :: rest).length ≤ (vector :: others).length ∨
      (0xFFFFFFFF : UInt32) ∈ (id :: rest).take (vector :: others).length) ↔
      (rest.length ≤ others.length ∨ (0xFFFFFFFF : UInt32) ∈ rest.take others.length) := by
    rw [List.length_cons, List.length_cons, Nat.succ_le_succ_iff, List.take_succ_cons,
      List.mem_cons, or_iff_right (Ne.symm hid)]
  constructor
  · intro h
    have hlongs := h.long
    have hshorts := h.rest
    rw [hreached] at hlongs hshorts
    exact ⟨fun p hp => hlongs p (List.mem_cons_of_mem _ hp), hshorts, hstops.mp h.stops⟩
  · intro h
    refine ⟨fun p hp => ?_, fun p hp => ?_, hstops.mpr h.stops⟩
    · rw [hreached] at hp
      rcases List.mem_cons.mp hp with rfl | hmem
      · exact hlong
      · exact h.long p hmem
    · rw [hreached] at hp
      exact h.rest p hp

/-- The loop from position `i` on is as it should be if and only if the rest of
    the reply fits it. -/
theorem tolerates_insertLoop (dim : Nat) (stores : Nat → Bool) (vectors : List (List α))
    (ids : List UInt32) (i : Nat) :
    Tolerates dim ids (vectors.drop i) (insertLoop dim stores vectors i ids) ↔
      FitsLoop dim ids (vectors.drop i) := by
  induction ids generalizing i with
  | nil =>
    refine iff_of_true ⟨Ending.noConfusion, rfl⟩ ⟨nofun, nofun, Or.inl (Nat.zero_le _)⟩
  | cons id rest ih =>
    cases hdrop : vectors.drop i with
    | nil =>
      -- the position does not exist
      have hnone : vectors[i]? = none := by
        rw [List.getElem?_eq_none_iff]
        exact List.drop_eq_nil_iff.mp hdrop
      rw [insertLoop, hnone]
      refine iff_of_false (fun h => h.1 rfl) fun h => ?_
      rcases h.stops with hlen | hmem
      · exact absurd hlen (Nat.not_succ_le_zero _)
      · cases hmem
    | cons vector others =>
      have hi : vectors[i]? = some vector := by
        rw [← List.head?_drop, hdrop]
        rfl
      have hnext : vectors.drop (i + 1) = others := by
        rw [← List.tail_drop, hdrop]
        rfl
      by_cases hshort : vector.length < dim
      · exact iff_of_false (not_tolerates_short hi hshort) (not_fitsLoop_short hshort)
      · have hlong := Nat.not_lt.mp hshort
        by_cases hid : id = 0xFFFFFFFF
        · -- the exception ends the loop: nothing after it may be well formed
          subst hid
          rw [insertLoop_refused hi, fitsLoop_refused hlong, Tolerates, List.zip_cons_cons,
            wellFormed_cons, if_pos hlong, ← wellFormed_eq_nil_iff]
          constructor
          · exact fun h => (List.cons.inj h.2).2.symm
          · intro hnone
            rw [hnone]
            exact ⟨Ending.noConfusion, rfl⟩
        · have hrest := ih (i + 1)
          rw [hnext] at hrest
          rw [insertLoop_long hi hid hlong, fitsLoop_cons hid hlong, ← hrest, Tolerates, Tolerates,
            List.zip_cons_cons, wellFormed_cons, if_pos hlong]
          exact and_congr_right' ⟨fun h => (List.cons.inj h).2, congrArg _⟩

/-! ## The tasks -/

/-- All copies stay inside the vectors if and only if none of them is short. -/
theorem alignedCopies_eq [Zero α] (dim alignedDim : Nat) (reply : List (List α)) :
    alignedCopies dim alignedDim reply =
      if ∀ vector ∈ reply, dim ≤ vector.length then
        some (reply.map fun vector => vector.take dim ++ List.replicate (alignedDim - dim) 0)
      else none := by
  induction reply with
  | nil => rfl
  | cons vector others ih =>
    rw [alignedCopies, ih]
    by_cases hshort : vector.length < dim
    · rw [if_pos hshort, if_neg fun h => Nat.not_le.mpr hshort (h vector List.mem_cons_self)]
    · rw [if_neg hshort]
      by_cases hothers : ∀ v ∈ others, dim ≤ v.length
      · have hall : ∀ v ∈ vector :: others, dim ≤ v.length :=
          List.forall_mem_cons.mpr ⟨Nat.not_lt.mp hshort, hothers⟩
        rw [if_pos hothers, if_pos hall]
        rfl
      · rw [if_neg hothers, if_neg fun h => hothers (List.forall_mem_cons.mp h).2]
        rfl

/-- The loop does the same with buffers that begin with the `dim` elements of
    the vectors. -/
theorem insertLoop_buffers {dim : Nat} {stores : Nat → Bool} {reply : List (List α)}
    {buffer : List α → List α} (hreply : ∀ vector ∈ reply, dim ≤ vector.length)
    (hbuffer : ∀ vector ∈ reply, dim ≤ (buffer vector).length ∧
      (buffer vector).take dim = vector.take dim) (ids : List UInt32) (i : Nat) :
    insertLoop dim stores (reply.map buffer) i ids = insertLoop dim stores reply i ids := by
  induction ids generalizing i with
  | nil => rfl
  | cons id rest ih =>
    rw [insertLoop, insertLoop, List.getElem?_map]
    cases hi : reply[i]? with
    | none => rfl
    | some vector =>
      have hmem := List.mem_of_getElem? hi
      obtain ⟨hlen, htake⟩ := hbuffer vector hmem
      have hcall : insertPoint dim (stores i) (buffer vector) (1 + id) =
          insertPoint dim (stores i) vector (1 + id) := by
        rw [insertPoint, insertPoint, decide_eq_false (Nat.not_lt.mpr hlen),
          decide_eq_false (Nat.not_lt.mpr (hreply vector hmem))]
      rw [Option.map_some]
      dsimp only
      rw [htake, hcall, ih]

/-- The plain task copes with a reply if and only if all its vectors are long
    enough and the loop copes with it; the other one if and only if the loop
    does. -/
theorem admitTasks_tolerate_iff [Zero α] (dim alignedDim : Nat) (stores : Nat → Bool)
    (ids : List UInt32) (reply : List (List α)) :
    (Tolerates dim ids reply (memoryIndexInsertSync dim alignedDim stores ids reply) ↔
      (∀ vector ∈ reply, dim ≤ vector.length) ∧ FitsLoop dim ids reply) ∧
    (Tolerates dim ids reply (memoryIndexInsertReconstructedSync dim stores ids reply) ↔
      FitsLoop dim ids reply) := by
  have hloop := tolerates_insertLoop dim stores reply ids 0
  rw [List.drop_zero] at hloop
  refine ⟨?_, hloop⟩
  rw [memoryIndexInsertSync, alignedCopies_eq]
  by_cases hlong : ∀ vector ∈ reply, dim ≤ vector.length
  · rw [if_pos hlong, and_iff_right hlong, ← hloop]
    dsimp only
    rw [insertLoop_buffers hlong fun vector hmem => ?_]
    have hdim : (vector.take dim).length = dim := by
      rw [List.length_take]
      exact Nat.min_eq_left (hlong vector hmem)
    refine ⟨?_, ?_⟩
    · rw [List.length_append, hdim]
      exact Nat.le_add_right _ _
    · rw [List.take_append_of_le_length (le_of_eq hdim.symm), List.take_take, Nat.min_self]
  · rw [if_neg hlong]
    exact iff_of_false (fun h => h.1 rfl) fun h => hlong h.1

/-- Ids as `handle_backend_miss` passes them, all of which `insert_point`
    takes: the reply has to be as long as the request and the vectors at the
    positions of the request long enough. -/
theorem fitsLoop_of_tags {dim : Nat} {ids : List UInt32} {reply : List (List α)}
    (hids : 0xFFFFFFFF ∉ ids) :
    FitsLoop dim ids reply ↔
      ids.length ≤ reply.length ∧ ∀ vector ∈ reply.take ids.length, dim ≤ vector.length := by
  have hreached : ∀ pairs : List (UInt32 × List α), (∀ p ∈ pairs, p.1 ≠ 0xFFFFFFFF) →
      reached pairs = pairs := by
    intro pairs hpairs
    induction pairs with
    | nil => rfl
    | cons p rest ih =>
      rw [reached, if_neg (hpairs p List.mem_cons_self),
        ih fun q hq => hpairs q (List.mem_cons_of_mem p hq)]
  have hzip : reached (ids.zip reply) = ids.zip reply :=
    hreached _ fun p hp heq => hids (heq ▸ (List.of_mem_zip hp).1)
  have hvectors (hlen : ids.length ≤ reply.length) :
      (ids.zip reply).map Prod.snd = reply.take ids.length := by
    rw [List.zip_eq_zip_take_min, Nat.min_eq_left hlen, List.map_snd_zip]
    rw [List.length_take, List.length_take]
    omega
  constructor
  · intro h
    have hlen := h.stops.resolve_right fun hmem => hids (List.mem_of_mem_take hmem)
    refine ⟨hlen, ?_⟩
    rw [← hvectors hlen]
    intro vector hvector
    obtain ⟨p, hp, rfl⟩ := List.mem_map.mp hvector
    exact h.long p (by rwa [hzip])
  · rintro ⟨hlen, hlong⟩
    refine ⟨fun p hp => ?_, fun p hp => ?_, Or.inl hlen⟩
    · rw [hzip] at hp
      exact hlong p.2 (hvectors hlen ▸ List.mem_map_of_mem hp)
    · rw [hzip, List.drop_length] at hp
      cases hp

/-- A reply with one vector for two ids, and one whose vector has no elements:
    both tasks read past the end. -/
theorem short_reply_out_of_bounds :
    (memoryIndexInsertSync 2 2 (fun _ => true) [3, 4] [[(10 : Int), 20]]).ending = .outOfBounds ∧
      (memoryIndexInsertReconstructedSync 2 (fun _ => true) [3, 4] [[(10 : Int), 20]]).ending =
        .outOfBounds ∧
      (memoryIndexInsertSync 2 2 (fun _ => true) [3] [([] : List Int)]).ending = .outOfBounds ∧
      (memoryIndexInsertReconstructedSync 2 (fun _ => true) [3] [([] : List Int)]).ending =
        .outOfBounds ∧
      ¬ Tolerates 2 [3, 4] [[(10 : Int), 20]]
        (memoryIndexInsertSync 2 2 (fun _ => true) [3, 4] [[10, 20]]) ∧
      ¬ Tolerates 2 [3, 4] [[(10 : Int), 20]]
        (memoryIndexInsertReconstructedSync 2 (fun _ => true) [3, 4] [[10, 20]]) :=
  ⟨rfl, rfl, rfl, rfl, fun h => h.1 rfl, fun h => h.1 rfl⟩

end AdmitReply

end QvCache
