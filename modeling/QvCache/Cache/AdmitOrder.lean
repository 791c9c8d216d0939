/-
  QvCache.Cache.AdmitOrder

  The order in which `evict_oldest_points` picks its victims.  The queue
  `admit_fifo` is cleaned lazily: forgetting a tag drops it from `admit_set`
  and leaves its entry in the queue.  A tag that is admitted again before the
  old entry has been taken off the queue is listed twice, and the old entry
  passes for the new one.
-/

import QvCache.Cache.Record
import QvCache.Lib.Recency
import QvCache.Lib.Traces

namespace QvCache

open Recency (Since)

namespace Cache

variable {V : Type}

/-! ## Evicting points -/

/-- What the loop that picks the victims leaves. -/
structure Picked where
  victims : List Tag
  admitFifo : List Tag
  admitSet : Finset Tag

/-- The loop of `evict_oldest_points` on the record. -/
def pickVictims : Nat → List Tag → Finset Tag → Picked
  | 0, admitFifo, admitSet => ⟨[], admitFifo, admitSet⟩
  | _ + 1, [], admitSet => ⟨[], [], admitSet⟩
  | n + 1, tag :: rest, admitSet =>
    if tag ∈ admitSet then
      let picked := pickVictims n rest (admitSet.erase tag)
      { picked with victims := tag :: picked.victims }
    else pickVictims (n + 1) rest admitSet

/-- `lazy_delete` of every victim, and whether one of the calls returned 0. -/
def lazyDeleteAll (victims : List Tag) (idx : MiniIndex V) : MiniIndex V × Bool :=
  victims.foldl (fun (idx, dirty) tag =>
    let r := idx.lazyDelete tag
    (r.1, dirty || decide (r.2 = 0))) (idx, false)

/-- One round of the loop over the shards. -/
def evictFromShard (victims : List Tag) (c : Cache V) (i : Nat) : Cache V :=
  match c.memoryIndices[i]? with
  | none => c
  | some idx =>
    let r := lazyDeleteAll victims idx
    if r.2 then (c.setIndex i r.1).consolidateShard i else c.setIndex i r.1

/-- `evict_oldest_points(n)`, with the victims that it counts. -/
def evictOldestPoints (c : Cache V) (n : Nat) : Cache V × List Tag :=
  if n = 0 then (c, [])
  else
    let picked := pickVictims n c.admitFifo c.admitSet
    let recorded : Cache V :=
      { c with admitFifo := picked.admitFifo, admitSet := picked.admitSet }
    if picked.victims = [] then (recorded, [])
    else
      ((List.range c.memoryIndices.length).foldl (evictFromShard picked.victims) recorded,
        picked.victims)

end Cache

/-! ## Runs of the bookkeeping -/

/-- The cache and the admissions so far: a tag is admitted when it enters
    `admit_set`. -/
structure AdmitLog (V : Type) where
  cache : Cache V
  admissions : List Tag

inductive RecordOp where
  | note (memTag : Tag)
  | forget (memTag : Tag)
  | evict (n : Nat)

namespace AdmitLog

variable {V : Type}

/-- A cache whose record is empty, as the constructor leaves it. -/
def start (c : Cache V) : AdmitLog V := ⟨{ c with admitFifo := [], admitSet := ∅ }, []⟩

def step (s : AdmitLog V) : RecordOp → Option (AdmitLog V)
  | .note memTag =>
    some ⟨s.cache.noteAdmittedTag memTag,
      if memTag ∈ s.cache.admitSet then s.admissions else s.admissions ++ [memTag]⟩
  | .forget memTag => some { s with cache := s.cache.forgetAdmittedTag memTag }
  | .evict n => some { s with cache := (s.cache.evictOldestPoints n).1 }

/-- The entries of the queue that count. -/
def admitted (c : Cache V) : List Tag := c.admitFifo.filter fun tag => decide (tag ∈ c.admitSet)

/-- The call takes the tags that were admitted the longest time ago, oldest
    first, and leaves the others as they are. -/
structure PicksOldest (s : AdmitLog V) (n : Nat) : Prop where
  size : (s.cache.evictOldestPoints n).2.length = min n s.cache.admitSet.card
  held : ∀ tag ∈ (s.cache.evictOldestPoints n).2, tag ∈ s.cache.admitSet
  oldest : ∀ victim ∈ (s.cache.evictOldestPoints n).2, ∀ tag ∈ s.cache.admitSet,
    tag ∉ (s.cache.evictOldestPoints n).2 → Since s.admissions tag victim
  inOrder : (s.cache.evictOldestPoints n).2.Pairwise fun a b => Since s.admissions b a
  removed : (s.cache.evictOldestPoints n).1.admitSet =
    s.cache.admitSet \ (s.cache.evictOldestPoints n).2.toFinset
  kept : admitted (s.cache.evictOldestPoints n).1 =
    (admitted s.cache).filter fun tag => decide (tag ∉ (s.cache.evictOldestPoints n).2)

/-- The queue lists every admitted tag once, in the order of the last
    admissions, and an eviction goes by that order. -/
structure OldestFirst (s : AdmitLog V) : Prop where
  once : ∀ tag ∈ s.cache.admitSet, s.cache.admitFifo.count tag = 1
  ordered : (admitted s.cache).Pairwise fun a b => Since s.admissions b a
  evicts : ∀ n, s.PicksOldest n

/-- A tag that is admitted has no entry in the queue. -/
def AdmitsUnlisted (s : AdmitLog V) : RecordOp → Prop
  | .note memTag => memTag ∈ s.cache.admitSet ∨ memTag ∉ s.cache.admitFifo
  | _ => True

instance (s : AdmitLog V) : ∀ op : RecordOp, Decidable (s.AdmitsUnlisted op)
  | .note memTag => decidable_of_iff
      (memTag ∈ s.cache.admitSet ∨ memTag ∉ s.cache.admitFifo) Iff.rfl
  | .forget _ => isTrue trivial
  | .evict _ => isTrue trivial

end AdmitLog

/-! ## The loop that picks -/

namespace Cache

variable {V : Type}

theorem pickVictims_zero (admitFifo : List Tag) (admitSet : Finset Tag) :
    pickVictims 0 admitFifo admitSet = ⟨[], admitFifo, admitSet⟩ := by
  cases admitFifo <;> rfl

theorem victims_pickVictims (n : Nat) (admitFifo : List Tag) (admitSet : Finset Tag) :
    (pickVictims n admitFifo admitSet).victims = chooseVictims n admitFifo admitSet := by
  induction admitFifo generalizing n admitSet with
  | nil => cases n <;> rfl
  | cons tag rest ih =>
    cases n with
    | zero => rfl
    | succ n =>
      unfold pickVictims chooseVictims
      split_ifs
      · exact congrArg (tag :: ·) (ih n _)
      · exact ih (n + 1) admitSet

/-- What the loop takes off a queue that lists every admitted tag once: the
    first `n` entries that count. -/
structure PicksFirst (n : Nat) (admitFifo : List Tag) (admitSet : Finset Tag) (picked : Picked) :
    Prop where
  taken : picked.victims = (admitFifo.filter fun tag => decide (tag ∈ admitSet)).take n
  removed : picked.admitSet = admitSet \ picked.victims.toFinset
  left : (picked.admitFifo.filter fun tag => decide (tag ∈ picked.admitSet)) =
    (admitFifo.filter fun tag => decide (tag ∈ admitSet)).drop n
  once : ∀ tag ∈ picked.admitSet, picked.admitFifo.count tag = 1

theorem picksFirst (n : Nat) {admitFifo : List Tag} (admitSet : Finset Tag)
    (honce : ∀ tag ∈ admitSet, admitFifo.count tag = 1) :
    PicksFirst n admitFifo admitSet (pickVictims n admitFifo admitSet) := by
  induction admitFifo generalizing n admitSet with
  | nil =>
    have hnone : pickVictims n [] admitSet = ⟨[], [], admitSet⟩ := by cases n <;> rfl
    rw [hnone]
    exact ⟨List.take_nil.symm, by simp, List.drop_nil.symm, honce⟩
  | cons tag rest ih =>
    cases n with
    | zero => exact ⟨rfl, by simp [pickVictims], rfl, honce⟩
    | succ n =>
      unfold pickVictims
      by_cases htag : tag ∈ admitSet
      · -- its one entry is the front, so the rest of the queue does not list it
        have hrest : tag ∉ rest := by
          have hcount := honce tag htag
          rw [List.count_cons_self] at hcount
          exact List.count_eq_zero.mp (by omega)
        have hothers : (rest.filter fun t => decide (t ∈ admitSet.erase tag)) =
            rest.filter fun t => decide (t ∈ admitSet) := by
          refine List.filter_congr fun t ht => ?_
          have hne : t ≠ tag := fun heq => hrest (heq ▸ ht)
          rw [decide_eq_decide, Finset.mem_erase, and_iff_right hne]
        obtain ⟨hvictims, hset, hfifo, hone⟩ := ih n (admitSet.erase tag) fun t ht => by
          obtain ⟨hne, hmem⟩ := Finset.mem_erase.mp ht
          rw [← honce t hmem, List.count_cons_of_ne (Ne.symm hne)]
        rw [hothers] at hvictims hfifo
        rw [if_pos htag]
        have hfront : ((tag :: rest).filter fun t => decide (t ∈ admitSet)) =
            tag :: rest.filter fun t => decide (t ∈ admitSet) :=
          List.filter_cons_of_pos (decide_eq_true htag)
        dsimp only
        refine ⟨?_, ?_, ?_, hone⟩
        · rw [hfront, List.take_succ_cons, hvictims]
        · rw [hset, List.toFinset_cons, Finset.erase_sdiff_comm, ← Finset.sdiff_insert]
        · rw [hfront, List.drop_succ_cons]
          exact hfifo
      · rw [if_neg htag]
        have hskip : ((tag :: rest).filter fun t => decide (t ∈ admitSet)) =
            rest.filter fun t => decide (t ∈ admitSet) :=
          List.filter_cons_of_neg (by rwa [decide_eq_true_eq])
        obtain ⟨hvictims, hset, hfifo, hone⟩ := ih (n + 1) admitSet fun t ht => by
          have hne : tag ≠ t := fun heq => htag (heq ▸ ht)
          rw [← honce t ht, List.count_cons_of_ne hne]
        exact ⟨hskip ▸ hvictims, hset, hskip ▸ hfifo, hone⟩

/-- Every tag that stays on the record is still listed. -/
theorem listed_pickVictims (n : Nat) {admitFifo : List Tag} (admitSet : Finset Tag)
    (h : ∀ tag ∈ admitSet, tag ∈ admitFifo) :
    (pickVictims n admitFifo admitSet).admitSet ⊆ admitSet ∧
      ∀ tag ∈ (pickVictims n admitFifo admitSet).admitSet,
        tag ∈ (pickVictims n admitFifo admitSet).admitFifo := by
  induction admitFifo generalizing n admitSet with
  | nil => cases n <;> exact ⟨subset_rfl, h⟩
  | cons front rest ih =>
    cases n with
    | zero => exact ⟨subset_rfl, h⟩
    | succ n =>
      unfold pickVictims
      split_ifs with hfront
      · obtain ⟨hsubset, hlisted⟩ := ih n (admitSet.erase front) fun tag htag => by
          obtain ⟨hne, hmem⟩ := Finset.mem_erase.mp htag
          exact (List.mem_cons.mp (h tag hmem)).resolve_left hne
        exact ⟨hsubset.trans (Finset.erase_subset _ _), hlisted⟩
      · exact ih (n + 1) admitSet fun tag htag =>
          (List.mem_cons.mp (h tag htag)).resolve_left fun heq => hfront (heq ▸ htag)

/-- The loop over the shards does not touch the record. -/
theorem sameRecord_evictFromShards (victims : List Tag) (shards : List Nat) (c : Cache V) :
    SameRecord c (shards.foldl (evictFromShard victims) c) := by
  induction shards generalizing c with
  | nil => exact ⟨rfl, rfl⟩
  | cons i rest ih =>
    have hone : SameRecord c (evictFromShard victims c i) := by
      unfold evictFromShard
      cases c.memoryIndices[i]? with
      | none => exact ⟨rfl, rfl⟩
      | some idx =>
        dsimp only
        split_ifs
        · have hdirty := sameRecord_consolidateShard (c.setIndex i (lazyDeleteAll victims idx).1) i
          exact ⟨hdirty.admitSet, hdirty.admitFifo⟩
        · exact ⟨rfl, rfl⟩
    have hrest := ih (evictFromShard victims c i)
    exact ⟨hrest.admitSet.trans hone.admitSet, hrest.admitFifo.trans hone.admitFifo⟩

/-- What the whole call does to the record. -/
theorem evictOldestPoints_record (c : Cache V) (n : Nat) :
    (c.evictOldestPoints n).2 = (pickVictims n c.admitFifo c.admitSet).victims ∧
      (c.evictOldestPoints n).1.admitFifo = (pickVictims n c.admitFifo c.admitSet).admitFifo ∧
      (c.evictOldestPoints n).1.admitSet = (pickVictims n c.admitFifo c.admitSet).admitSet := by
  unfold evictOldestPoints
  split_ifs with hzero
  · rw [hzero, pickVictims_zero]
    exact ⟨rfl, rfl, rfl⟩
  · dsimp only
    split_ifs with hnone
    · exact ⟨hnone.symm, rfl, rfl⟩
    · have hsame := sameRecord_evictFromShards (pickVictims n c.admitFifo c.admitSet).victims
        (List.range c.memoryIndices.length)
        { c with
          admitFifo := (pickVictims n c.admitFifo c.admitSet).admitFifo
          admitSet := (pickVictims n c.admitFifo c.admitSet).admitSet }
      exact ⟨rfl, hsame.admitFifo, hsame.admitSet⟩

/-- The victims are the ones that the moves of the system name. -/
theorem evictOldestPoints_oldestPoints (c : Cache V) (n : Nat) :
    (c.evictOldestPoints n).2 = c.oldestPoints n :=
  (evictOldestPoints_record c n).1.trans (victims_pickVictims n c.admitFifo c.admitSet)

end Cache

/-! ## The order of the queue -/

namespace AdmitLog

open Cache

variable {V : Type}

/-- Every admitted tag is listed and was admitted at some point. -/
structure Logged (s : AdmitLog V) : Prop where
  listed : s.cache.Listed
  logged : ∀ tag ∈ s.cache.admitSet, tag ∈ s.admissions

theorem mem_admitted {c : Cache V} {tag : Tag} :
    tag ∈ admitted c ↔ tag ∈ c.admitFifo ∧ tag ∈ c.admitSet := by
  rw [admitted, List.mem_filter, decide_eq_true_eq]

theorem nodup_admitted {c : Cache V} (honce : ∀ tag ∈ c.admitSet, c.admitFifo.count tag = 1) :
    (admitted c).Nodup := by
  rw [List.nodup_iff_count_le_one]
  intro tag
  by_cases htag : tag ∈ c.admitSet
  · rw [admitted, List.count_filter (p := fun t => decide (t ∈ c.admitSet)) (decide_eq_true htag),
      honce tag htag]
  · rw [List.count_eq_zero.mpr fun hmem => htag (mem_admitted.mp hmem).2]
    exact Nat.zero_le 1

theorem drop_eq_filter {l : List Tag} (hnodup : l.Nodup) (n : Nat) :
    l.drop n = l.filter fun tag => decide (tag ∉ l.take n) := by
  have hparts := hnodup
  rw [← List.take_append_drop n l, List.nodup_append] at hparts
  have hfront : (l.take n).filter (fun tag => decide (tag ∉ l.take n)) = [] :=
    List.filter_eq_nil_iff.mpr fun tag htake => by simpa using htake
  have hback : (l.drop n).filter (fun tag => decide (tag ∉ l.take n)) = l.drop n :=
    List.filter_eq_self.mpr fun tag hdrop =>
      decide_eq_true fun htake => hparts.2.2 tag htake tag hdrop rfl
  calc l.drop n
      = (l.take n ++ l.drop n).filter fun tag => decide (tag ∉ l.take n) := by
        rw [List.filter_append, hfront, hback, List.nil_append]
    _ = l.filter fun tag => decide (tag ∉ l.take n) := by rw [List.take_append_drop]

/-- A queue in the order of the last admissions is evicted in that order. -/
theorem picksOldest {s : AdmitLog V} (hlogged : s.Logged)
    (honce : ∀ tag ∈ s.cache.admitSet, s.cache.admitFifo.count tag = 1)
    (hordered : (admitted s.cache).Pairwise fun a b => Since s.admissions b a) (n : Nat) :
    s.PicksOldest n := by
  obtain ⟨hvictims, hfifo, hset⟩ := evictOldestPoints_record s.cache n
  have hpicks := picksFirst n s.cache.admitSet honce
  have hnodup := nodup_admitted honce
  have htaken : (s.cache.evictOldestPoints n).2 = (admitted s.cache).take n :=
    hvictims.trans hpicks.taken
  have hall : (admitted s.cache).toFinset = s.cache.admitSet := by
    ext tag
    rw [List.mem_toFinset, mem_admitted]
    exact ⟨And.right, fun htag => ⟨hlogged.listed tag htag, htag⟩⟩
  -- the victims are one part of the queue, the tags that stay are the other
  have hparts := hordered
  rw [← List.take_append_drop n (admitted s.cache), List.pairwise_append] at hparts
  constructor
  · rw [htaken, List.length_take, ← hall, List.toFinset_card_of_nodup hnodup]
  · intro tag htag
    rw [htaken] at htag
    exact (mem_admitted.mp (List.mem_of_mem_take htag)).2
  · intro victim hvictim tag htag hkept
    rw [htaken] at hvictim hkept
    have hmem : tag ∈ (admitted s.cache).take n ++ (admitted s.cache).drop n := by
      rw [List.take_append_drop]
      exact mem_admitted.mpr ⟨hlogged.listed tag htag, htag⟩
    exact hparts.2.2 victim hvictim tag ((List.mem_append.mp hmem).resolve_left hkept)
  · rw [htaken]
    exact hparts.1
  · rw [hset, hpicks.removed, hvictims]
  · have hleft : admitted (s.cache.evictOldestPoints n).1 = (admitted s.cache).drop n := by
      rw [admitted, hfifo, hset]
      exact hpicks.left
    have hkept := drop_eq_filter hnodup n
    rw [hleft, htaken]
    exact hkept

theorem logged_start (c : Cache V) : (start c).Logged :=
  ⟨fun _ h => absurd h (Finset.notMem_empty _), fun _ h => absurd h (Finset.notMem_empty _)⟩

theorem Logged.step {s s' : AdmitLog V} {op : RecordOp} (h : s.Logged)
    (hstep : s.step op = some s') : s'.Logged := by
  cases op with
  | note memTag =>
    obtain rfl := Option.some.inj hstep
    refine ⟨h.listed.noteAdmittedTag memTag, ?_⟩
    unfold noteAdmittedTag
    split_ifs with hmem
    · exact h.logged
    · intro tag htag
      rcases Finset.mem_insert.mp htag with rfl | hold
      · exact List.mem_append_right _ (List.mem_singleton_self tag)
      · exact List.mem_append_left _ (h.logged tag hold)
  | forget memTag =>
    obtain rfl := Option.some.inj hstep
    exact ⟨fun tag htag => h.listed tag (Finset.mem_of_mem_erase htag),
      fun tag htag => h.logged tag (Finset.mem_of_mem_erase htag)⟩
  | evict n =>
    obtain rfl := Option.some.inj hstep
    obtain ⟨-, hfifo, hset⟩ := evictOldestPoints_record s.cache n
    obtain ⟨hsubset, hlisted⟩ := listed_pickVictims n s.cache.admitSet h.listed
    refine ⟨fun tag htag => ?_, fun tag htag => ?_⟩
    · rw [hset] at htag
      rw [hfifo]
      exact hlisted tag htag
    · rw [hset] at htag
      exact h.logged tag (hsubset htag)

/-- What the other steps leave of the order, whatever is admitted. -/
theorem oldestFirst_of_record {s : AdmitLog V} (hlogged : s.Logged)
    (honce : ∀ tag ∈ s.cache.admitSet, s.cache.admitFifo.count tag = 1)
    (hordered : (admitted s.cache).Pairwise fun a b => Since s.admissions b a) : s.OldestFirst :=
  ⟨honce, hordered, picksOldest hlogged honce hordered⟩

/-- A new admission keeps the order if and only if no entry of its tag was
    left in the queue. -/
theorem oldestFirst_note {s : AdmitLog V} {memTag : Tag} (hlogged : s.Logged)
    (h : s.OldestFirst) (hmem : memTag ∉ s.cache.admitSet)
    (hlogged' : Logged ⟨s.cache.noteAdmittedTag memTag, s.admissions ++ [memTag]⟩) :
    OldestFirst ⟨s.cache.noteAdmittedTag memTag, s.admissions ++ [memTag]⟩ ↔
      memTag ∉ s.cache.admitFifo := by
  have hnote : s.cache.noteAdmittedTag memTag = { s.cache with
      admitSet := insert memTag s.cache.admitSet
      admitFifo := s.cache.admitFifo ++ [memTag] } := if_neg hmem
  rw [hnote] at hlogged' ⊢
  constructor
  · -- a second entry would break the count
    intro hfirst hentry
    have hcount := hfirst.once memTag (Finset.mem_insert_self _ _)
    rw [List.count_append, List.count_singleton_self] at hcount
    have hpos := List.count_pos_iff.mpr hentry
    omega
  · intro hnone
    refine oldestFirst_of_record hlogged' (fun tag htag => ?_) ?_
    · rw [List.count_append]
      rcases Finset.mem_insert.mp htag with rfl | hold
      · rw [List.count_eq_zero.mpr hnone, List.count_singleton_self]
      · have hne : tag ≠ memTag := fun heq => hmem (heq ▸ hold)
        rw [h.once tag hold, List.count_singleton, if_neg (by simpa using hne.symm)]
    · have hadmitted : admitted { s.cache with
          admitSet := insert memTag s.cache.admitSet
          admitFifo := s.cache.admitFifo ++ [memTag] } = admitted s.cache ++ [memTag] := by
        rw [admitted, List.filter_append]
        congr 1
        · refine List.filter_congr fun tag htag => ?_
          have hne : tag ≠ memTag := fun heq => hnone (heq ▸ htag)
          rw [decide_eq_decide, Finset.mem_insert, or_iff_right hne]
        · exact List.filter_cons_of_pos (decide_eq_true (Finset.mem_insert_self _ _))
      rw [hadmitted, List.pairwise_append]
      have hne : ∀ tag ∈ admitted s.cache, tag ≠ memTag := fun tag htag heq =>
        hmem (heq ▸ (mem_admitted.mp htag).2)
      refine ⟨h.ordered.imp_of_mem fun htag _ hsince => hsince.concat (hne _ htag),
        List.pairwise_singleton _ _, fun tag htag last hlast => ?_⟩
      obtain rfl := List.mem_singleton.mp hlast
      exact Since.last (hlogged.logged tag (mem_admitted.mp htag).2) (hne tag htag)

theorem oldestFirst_step {s s' : AdmitLog V} {op : RecordOp} (hlogged : s.Logged)
    (h : s.OldestFirst) (hstep : s.step op = some s') : s'.OldestFirst ↔ s.AdmitsUnlisted op := by
  have hlogged' := hlogged.step hstep
  cases op with
  | note memTag =>
    obtain rfl := Option.some.inj hstep
    by_cases hmem : memTag ∈ s.cache.admitSet
    · have hsame : s.cache.noteAdmittedTag memTag = s.cache := if_pos hmem
      rw [if_pos hmem, hsame]
      exact iff_of_true h (.inl hmem)
    · rw [if_neg hmem] at hlogged' ⊢
      exact (oldestFirst_note hlogged h hmem hlogged').trans (or_iff_right hmem).symm
  | forget memTag =>
    obtain rfl := Option.some.inj hstep
    refine iff_of_true (oldestFirst_of_record hlogged' (fun tag htag => ?_) ?_) trivial
    · exact h.once tag (Finset.mem_of_mem_erase htag)
    · -- fewer entries count, in the order they had
      refine h.ordered.sublist ?_
      refine List.monotone_filter_right _ fun tag htag => ?_
      rw [decide_eq_true_eq] at htag ⊢
      exact Finset.mem_of_mem_erase htag
  | evict n =>
    obtain rfl := Option.some.inj hstep
    obtain ⟨-, hfifo, hset⟩ := evictOldestPoints_record s.cache n
    have hpicks := picksFirst n s.cache.admitSet h.once
    refine iff_of_true (oldestFirst_of_record hlogged' (fun tag htag => ?_) ?_) trivial
    · rw [hset] at htag
      rw [hfifo]
      exact hpicks.once tag htag
    · rw [admitted, hfifo, hset, hpicks.left]
      exact h.ordered.sublist (List.drop_sublist _ _)

theorem oldestFirst_start (c : Cache V) : (start c).OldestFirst :=
  oldestFirst_of_record (logged_start c) (fun _ h => absurd h (Finset.notMem_empty _))
    List.Pairwise.nil

/-- In every run, evictions go by the order of the last admissions for as long
    as no tag is admitted while an old entry of it is still in the queue, and
    no longer. -/
theorem evicts_oldest_first_iff (c : Cache V) (ops : List RecordOp) :
    Traces.Always AdmitLog.step OldestFirst (start c) ops ↔
      Traces.Along AdmitLog.step AdmitsUnlisted (start c) ops := by
  have htotal : ∀ (s : AdmitLog V) op, ∃ s', s.step op = some s' := by
    intro s op
    cases op <;> exact ⟨_, rfl⟩
  obtain ⟨t, hrun⟩ := Traces.run_total htotal (start c) ops
  exact Traces.always_iff_along (J := Logged) (Q := fun _ _ => True)
    (fun _ _ _ h _ hstep => h.step hstep)
    (fun _ _ _ hlogged _ h hstep => oldestFirst_step hlogged h hstep)
    hrun (Traces.along_true _ _) (logged_start c) (oldestFirst_start c)

/-- A cache without shards. -/
def bare : Cache Unit where
  memoryIndices := []
  activeInsertIndexId := 0
  lruCache := ⟨[], 0⟩
  evictionInProgress := false
  thresholds := { thetaMap := ∅, pcaUtils := PcaUtils.empty 0 }
  writeThetaDiscount := 1
  deletedIds := ∅
  admitFifo := []
  admitSet := ∅
  searchStrategy := .sequential

/-- Tag 5 is admitted, forgotten and admitted again after tag 7: the queue
    lists it twice, and it is evicted before 7. -/
theorem readmitted_evicted_first :
    (Traces.run step (start bare) [.note 5, .note 7, .forget 5, .note 5]).map
        (fun s => (s.cache.admitFifo, s.admissions, (s.cache.evictOldestPoints 1).2)) =
      some ([5, 7, 5], [5, 7, 5], [5]) ∧
    ¬ Traces.Always step OldestFirst (start bare) [.note 5, .note 7, .forget 5, .note 5] := by
  refine ⟨rfl, fun hall => ?_⟩
  have hlast := (((hall.2 _ rfl).2 _ rfl).2 _ rfl).2 _ rfl
  have htwice : ([5, 7, 5] : List Tag).count 5 = 1 :=
    hlast.once 5 (Finset.mem_insert_self _ _)
  exact absurd htwice (by decide)

end AdmitLog

end QvCache
