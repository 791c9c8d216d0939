/-
  QvCache.System.Record

  Does the record of admitted tags match the shards?  `Recorded` says so in the
  middle of any interleaving: every recorded tag is live, and every live copy
  of a tag is recorded, about to be noted by an insert that has landed it, or
  about to be deleted by a remove that has forgotten the tag already.  Once no
  such call is under way it says that the record is the set of live tags
  (`recordMatches_of_recorded`).

  A step keeps `Recorded` exactly if an admit task lands only tags that are
  recorded or about to be noted or deleted, an insert notes its tag while it is
  still live, and no recorded tag loses its last copy (`recorded_step`).
-/

import QvCache.Cache.Record
import QvCache.System.Resurrection

namespace QvCache

namespace Sys

variable {V β : Type} {cfg : SystemConfig V β}

/-! ## What a step takes out of the shards -/

/-- The step takes the tag out of this shard, whether or not it was there. -/
inductive TakesOut (cfg : SystemConfig V β) (s : Sys V β) : Label V → Nat → Tag → Prop where
  | evict (k : Nat) (tag : Tag)
      (hvictim : (s.cache.evictionVictim cfg.cache).map Prod.fst = some k) :
    TakesOut cfg s .evict k tag
  | place (i : Nat) (query : V) (K : Nat) (answer : BackendAnswer) (ids : List UInt32) (k : Nat)
      (tag : Tag) (hcall : s.calls[i]? = some (.filtered query K answer ids))
      (hvictim : s.cache.admitVictim cfg.cache = some k) :
    TakesOut cfg s (.call i .proceed) k tag
  | delete (i : Nat) (id : UInt32) (k : Nat) (hcall : s.calls[i]? = some (.deleting id k)) :
    TakesOut cfg s (.call i .proceed) k (1 + id)

/-- A point stays unless it is taken out. -/
theorem holds_of_kept {s s' : Sys V β} {l : Label V} (h : step cfg s l = some s') {k : Nat}
    {tag : Tag} {vec : V} (hheld : s.cache.HoldsAt k tag vec) (hstays : ¬ TakesOut cfg s l k tag) :
    s'.cache.HoldsAt k tag vec := by
  cases move_of_step h with
  | search sorters query K resSize =>
    exact (Cache.holdsAt_congr (Cache.sameContents_lookup sorters resSize).memoryIndices).mpr hheld
  | call i reply call next hcall hmove =>
    show next.cache.HoldsAt k tag vec
    cases hmove with
    | placed =>
      exact (Cache.holdsAt_ensureAdmitShard _ k tag vec).mpr
        ⟨hheld, fun hvictim => hstays (.place i _ _ _ _ k tag hcall hvictim)⟩
    | chose => exact (Cache.holdsAt_chooseDataShard _ k tag vec).mpr hheld
    | gaveUp => exact (Cache.holdsAt_chooseDataShard _ k tag vec).mpr hheld
    | landed id v shard cache accepted hland =>
      obtain ⟨hcases, _⟩ := Cache.insertPointUnchecked_cases hland
      exact (hcases k tag vec).mpr (Or.inl hheld)
    | noted id => exact Cache.holdsAt_noteAdmittedTag.mpr hheld
    | deleted id shard =>
      -- the only point a deletion takes is its own tag
      refine Cache.holdsAt_lazyDeleteIn.mpr ⟨hheld, ?_⟩
      rintro ⟨rfl, rfl⟩
      exact hstays (.delete i id k hcall)
    | lowered id v => cases v <;> exact hheld
    | _ => exact hheld
  | inserted w task id v rest hworker cache ret hinsert =>
    obtain ⟨hcases, _⟩ := Cache.indexInsertPoint_cases hinsert
    rcases hcases with ⟨heq, _⟩ | ⟨_, _, hadd⟩
    · exact (Cache.holdsAt_congr heq).mpr hheld
    · exact (hadd k tag vec).mpr (Or.inl hheld)
  | finished w task =>
    obtain ⟨th, hth⟩ := finished_eq cfg s task
    exact (Cache.holdsAt_congr (congrArg Cache.memoryIndices hth)).mpr hheld
  | evict =>
    exact (Cache.holdsAt_performEviction _ k tag vec).mpr
      ⟨hheld, fun hvictim => hstays (.evict k tag hvictim)⟩
  | consolidate shard => exact (Cache.holdsAt_consolidateShard _ shard k tag vec).mpr hheld
  | _ => exact hheld

/-- What is taken out is gone. -/
theorem not_takesOut {s s' : Sys V β} {l : Label V} (h : step cfg s l = some s') {k : Nat}
    {tag : Tag} {vec : V} (hheld : s'.cache.HoldsAt k tag vec) : ¬ TakesOut cfg s l k tag := by
  intro htakes
  have hlt := lt_of_holds_step h hheld
  cases htakes with
  | evict _ _ hvictim =>
    cases move_of_step h with
    | evict => exact ((Cache.holdsAt_performEviction _ k tag vec).mp hheld).2 hvictim
  | place i _ _ _ _ _ _ hcall hvictim =>
    cases move_of_step h with
    | call _ _ call next hcall' hmove =>
      rw [hcall] at hcall'
      obtain rfl := Option.some.inj hcall'
      cases hmove with
      | placed => exact ((Cache.holdsAt_ensureAdmitShard _ k tag vec).mp hheld).2 hvictim
  | delete i id _ hcall => exact not_holds_after_delete h hcall hlt vec hheld

/-! ## What a step writes to the record -/

/-- What a step can do to the record. -/
inductive RecordChange (s : Sys V β) (l : Label V) (c' : Cache V) : Prop where
  | same (hset : c'.admitSet = s.cache.admitSet) (hfifo : c'.admitFifo = s.cache.admitFifo)
  | noted (i k : Nat) (id : UInt32) (vec : V) (hl : l = .call i .proceed)
      (hcall : s.calls[i]? = some (.noting id vec k))
      (hset : c'.admitSet = (s.cache.noteAdmittedTag (1 + id)).admitSet)
      (hfifo : c'.admitFifo = (s.cache.noteAdmittedTag (1 + id)).admitFifo)
  | forgot (i : Nat) (id : UInt32) (hl : l = .call i .proceed)
      (hcall : s.calls[i]? = some (.forgetting id))
      (hset : c'.admitSet = s.cache.admitSet.erase (1 + id))
      (hfifo : c'.admitFifo = s.cache.admitFifo)

theorem RecordChange.of_same {s : Sys V β} {l : Label V} {c' : Cache V}
    (h : Cache.SameRecord s.cache c') : RecordChange s l c' :=
  .same h.admitSet h.admitFifo

theorem record_step {s s' : Sys V β} {l : Label V} (h : step cfg s l = some s') :
    RecordChange s l s'.cache := by
  cases move_of_step h with
  | search sorters query K resSize =>
    have hsame : Cache.SameContents s.cache
        (s.cache.lookup cfg.cache sorters query K resSize).1 :=
      Cache.sameContents_lookup sorters resSize
    exact .same hsame.admitSet hsame.admitFifo
  | call i reply call next hcall hmove =>
    show RecordChange s (.call i reply) next.cache
    cases hmove with
    | placed => exact .of_same (Cache.sameRecord_ensureAdmitShard _)
    | chose => exact .of_same (Cache.sameRecord_chooseDataShard _)
    | gaveUp => exact .of_same (Cache.sameRecord_chooseDataShard _)
    -- the point lands in the index, and its tag waits for the next step
    | landed id vec shard cache accepted hland =>
      obtain ⟨_, _, idxs, _, rfl⟩ := Cache.insertPointUnchecked_cases hland
      exact .same rfl rfl
    | noted id vec shard => exact .noted i shard id vec rfl hcall rfl rfl
    | forgot id => exact .forgot i id rfl hcall rfl rfl
    | deleted id shard => exact .of_same (Cache.sameRecord_lazyDeleteIn _ _ _)
    | lowered id vec => cases vec <;> exact .same rfl rfl
    | _ => exact .same rfl rfl
  | inserted w task id vec rest hworker cache ret hinsert =>
    obtain ⟨_, idxs, _, rfl⟩ := Cache.indexInsertPoint_cases hinsert
    exact .same rfl rfl
  -- the worker never writes the record
  | finished w task =>
    obtain ⟨th, hth⟩ := finished_eq cfg s task
    refine .same ?_ ?_
    · show (s.finished cfg task).admitSet = _
      rw [hth]
    · show (s.finished cfg task).admitFifo = _
      rw [hth]
  | evict => exact .of_same (Cache.sameRecord_performEviction _)
  | consolidate shard => exact .of_same (Cache.sameRecord_consolidateShard _ shard)
  | _ => exact .same rfl rfl

/-- What is listed stays listed: forgetting a tag leaves it in `admit_fifo`. -/
theorem listed_step {s s' : Sys V β} {l : Label V} (hs : s.cache.Listed)
    (h : step cfg s l = some s') : s'.cache.Listed := by
  intro tag htag
  cases record_step h with
  | same hset hfifo =>
    rw [hset] at htag
    rw [hfifo]
    exact hs tag htag
  | noted i k id vec hl hcall hset hfifo =>
    rw [hset] at htag
    rw [hfifo]
    exact hs.noteAdmittedTag (1 + id) tag htag
  | forgot i id hl hcall hset hfifo =>
    rw [hset] at htag
    rw [hfifo]
    exact hs tag (Finset.mem_of_mem_erase htag)

/-- A step that takes something out neither lands a point nor writes the record. -/
theorem TakesOut.not_lands {s : Sys V β} {l : Label V} {k k' : Nat} {tag : Tag} {id : UInt32}
    {vec : V} (h : TakesOut cfg s l k tag) : ¬ Lands cfg s l k' id vec := by
  intro hlands
  cases h with
  | evict => cases hlands
  | place i query K answer ids _ _ hcall =>
    cases hlands with
    | call _ _ _ _ hcall' => exact nomatch Option.some.inj (hcall.symm.trans hcall')
  | delete i id' _ hcall =>
    cases hlands with
    | call _ _ _ _ hcall' => exact nomatch Option.some.inj (hcall.symm.trans hcall')

theorem TakesOut.admitSet {s s' : Sys V β} {l : Label V} {k : Nat} {tag : Tag}
    (htakes : TakesOut cfg s l k tag) (h : step cfg s l = some s') :
    s'.cache.admitSet = s.cache.admitSet := by
  cases record_step h with
  | same hset => exact hset
  | noted i k' id vec hl hcall =>
    subst hl
    cases htakes with
    | place _ _ _ _ _ _ _ hcall' => exact nomatch Option.some.inj (hcall.symm.trans hcall')
    | delete _ _ _ hcall' => exact nomatch Option.some.inj (hcall.symm.trans hcall')
  | forgot i id hl hcall =>
    subst hl
    cases htakes with
    | place _ _ _ _ _ _ _ hcall' => exact nomatch Option.some.inj (hcall.symm.trans hcall')
    | delete _ _ _ hcall' => exact nomatch Option.some.inj (hcall.symm.trans hcall')

/-! ## Landed and not noted -/

/-- An insert of `id` has landed its point and not noted the tag yet. -/
def NotePending (s : Sys V β) (id : UInt32) : Prop :=
  ∃ (i : Nat) (vec : V) (k : Nat), s.calls[i]? = some (.noting id vec k)

/-- An insert notes its tag. -/
theorem mem_of_noted {s s' : Sys V β} {i : Nat} {reply : Reply V} {id : UInt32} {vec : V} {k : Nat}
    (h : step cfg s (.call i reply) = some s') (hcall : s.calls[i]? = some (.noting id vec k)) :
    1 + id ∈ s'.cache.admitSet := by
  cases move_of_step h with
  | call _ _ call next hcall' hmove =>
    rw [hcall] at hcall'
    obtain rfl := Option.some.inj hcall'
    cases hmove
    show 1 + id ∈ (s.cache.noteAdmittedTag (1 + id)).admitSet
    rw [Cache.admitSet_noteAdmittedTag]
    exact Finset.mem_insert_self _ _

/-- A tag that waits to be noted goes on waiting, or is noted. -/
theorem notePending_step {s s' : Sys V β} {l : Label V} (h : step cfg s l = some s') {id : UInt32}
    (hpending : s.NotePending id) : s'.NotePending id ∨ 1 + id ∈ s'.cache.admitSet := by
  obtain ⟨i, vec, k, hi⟩ := hpending
  by_cases hother : ∀ reply, l ≠ .call i reply
  · exact Or.inl ⟨i, vec, k, calls_kept h hi hother⟩
  · push Not at hother
    obtain ⟨reply, rfl⟩ := hother
    exact Or.inr (mem_of_noted h hi)

/-- The tag of a point that has landed waits to be noted, or a worker has landed it. -/
theorem Lands.notePending {s s' : Sys V β} {l : Label V} {k : Nat} {id : UInt32} {vec : V}
    (hlands : Lands cfg s l k id vec) (h : step cfg s l = some s') :
    s'.NotePending id ∨ ∃ w reply, l = .worker w reply := by
  cases hlands with
  | worker w => exact Or.inr ⟨w, _, rfl⟩
  | call i _ _ _ hcall hslots haccepts =>
    cases move_of_step h with
    | call _ _ call next hcall' hmove =>
      rw [hcall] at hcall'
      obtain rfl := Option.some.inj hcall'
      cases hmove with
      | landed _ _ _ cache accepted hland =>
        obtain ⟨_, haccepted, _⟩ := Cache.insertPointUnchecked_cases hland
        obtain rfl := haccepted.mpr ⟨hslots, haccepts⟩
        exact Or.inl ⟨i, vec, k, Slots.getElem?_set_of_some hcall _⟩
      | landThrew _ _ _ hthrew => exact absurd haccepts (Cache.not_accepts_of_throw hslots hthrew)

theorem calls_worker {s s' : Sys V β} {w : Nat} {reply : Reply V}
    (h : step cfg s (.worker w reply) = some s') : s'.calls = s.calls := by
  cases move_of_step h <;> rfl

/-! ## The record and the shards -/

/-- Every recorded tag is live, and every live copy is recorded, about to be
    recorded, or about to be deleted. -/
structure Recorded (s : Sys V β) : Prop where
  live : ∀ tag ∈ s.cache.admitSet, s.cache.LiveTag tag
  recorded : ∀ k id vec, s.cache.HoldsAt k (1 + id) vec →
    1 + id ∈ s.cache.admitSet ∨ s.NotePending id ∨ s.DeletePending id k

/-- An admit task lands no tag that is missing in the record, unless an insert is
    about to note it or a remove to delete it; an insert notes its tag while the tag
    is live; and no recorded tag loses its last copy. -/
structure KeepsRecord (cfg : SystemConfig V β) (s : Sys V β) (l : Label V) : Prop where
  lands : ∀ w reply k id vec, l = .worker w reply → Lands cfg s l k id vec →
    1 + id ∈ s.cache.admitSet ∨ s.NotePending id ∨ s.DeletePending id k
  notes : ∀ i reply id vec k, l = .call i reply → s.calls[i]? = some (.noting id vec k) →
    s.cache.LiveTag (1 + id)
  leaves : ∀ tag ∈ s.cache.admitSet, ∀ k, TakesOut cfg s l k tag →
    ∃ k' vec, s.cache.HoldsAt k' tag vec ∧ ¬ TakesOut cfg s l k' tag

/-- A recorded tag stays recorded, or its remove is on its way. -/
theorem recorded_or_pending {s s' : Sys V β} {l : Label V} (h : step cfg s l = some s')
    {id : UInt32} (hmem : 1 + id ∈ s.cache.admitSet) (k : Nat) :
    1 + id ∈ s'.cache.admitSet ∨ s'.DeletePending id k := by
  cases record_step h with
  | same hset => exact Or.inl (hset ▸ hmem)
  | noted i k' id' vec hl hcall hset =>
    rw [hset, Cache.admitSet_noteAdmittedTag]
    exact Or.inl (Finset.mem_insert_of_mem hmem)
  | forgot i id' hl hcall hset =>
    -- the forgotten tag is the one whose deletions begin now
    by_cases hid : id = id'
    · subst hid hl
      refine Or.inr ⟨i, Or.inr ⟨0, Nat.zero_le k, ?_⟩⟩
      cases move_of_step h with
      | call _ _ call next hcall' hmove =>
        rw [hcall] at hcall'
        obtain rfl := Option.some.inj hcall'
        cases hmove
        exact Slots.getElem?_set_of_some hcall _
    · rw [hset]
      exact Or.inl (Finset.mem_erase.mpr ⟨fun heq => hid ((UInt32.add_right_inj 1).mp heq), hmem⟩)

/-- A step that notes a tag lands nothing and takes nothing out. -/
theorem liveTag_of_noted {s s' : Sys V β} {i : Nat} {reply : Reply V} {id : UInt32} {vec : V}
    {k : Nat} (h : step cfg s (.call i reply) = some s')
    (hcall : s.calls[i]? = some (.noting id vec k)) (tag : Tag) :
    s'.cache.LiveTag tag ↔ s.cache.LiveTag tag := by
  cases move_of_step h with
  | call _ _ call next hcall' hmove =>
    rw [hcall] at hcall'
    obtain rfl := Option.some.inj hcall'
    cases hmove
    exact exists_congr fun k' => exists_congr fun vec' => Cache.holdsAt_noteAdmittedTag

/-- What is recorded after a step is live if it was live before. -/
theorem live_step {s s' : Sys V β} {l : Label V} (hs : Recorded s) (hkeeps : KeepsRecord cfg s l)
    (h : step cfg s l = some s') {tag : Tag} (htag : tag ∈ s'.cache.admitSet) :
    s'.cache.LiveTag tag := by
  have hold : tag ∈ s.cache.admitSet → s'.cache.LiveTag tag := by
    intro hmem
    obtain ⟨k, vec, hheld⟩ := hs.live tag hmem
    by_cases htakes : TakesOut cfg s l k tag
    · obtain ⟨k', vec', hheld', hstays⟩ := hkeeps.leaves tag hmem k htakes
      exact ⟨k', vec', holds_of_kept h hheld' hstays⟩
    · exact ⟨k, vec, holds_of_kept h hheld htakes⟩
  cases record_step h with
  | same hset => exact hold (hset ▸ htag)
  | noted i k id vec hl hcall hset =>
    -- the new tag is one that is live
    rw [hset, Cache.admitSet_noteAdmittedTag] at htag
    rcases Finset.mem_insert.mp htag with rfl | hmem
    · subst hl
      exact (liveTag_of_noted h hcall _).mpr (hkeeps.notes i _ id vec k rfl hcall)
    · exact hold hmem
  | forgot i id hl hcall hset => exact hold (Finset.mem_of_mem_erase (hset ▸ htag))

/-- What is live after a step is recorded, or a call is about to see to it. -/
theorem recorded_or_pending_step {s s' : Sys V β} {l : Label V} (hs : Recorded s)
    (hkeeps : KeepsRecord cfg s l) (h : step cfg s l = some s') {k : Nat} {id : UInt32} {vec : V}
    (hholds : s'.cache.HoldsAt k (1 + id) vec) :
    1 + id ∈ s'.cache.admitSet ∨ s'.NotePending id ∨ s'.DeletePending id k := by
  have hcarry : 1 + id ∈ s.cache.admitSet ∨ s.NotePending id ∨ s.DeletePending id k →
      1 + id ∈ s'.cache.admitSet ∨ s'.NotePending id ∨ s'.DeletePending id k := by
    rintro (hmem | hnote | hdelete)
    · exact (recorded_or_pending h hmem k).imp_right Or.inr
    · exact (notePending_step h hnote).elim (fun hn => Or.inr (Or.inl hn)) Or.inl
    · exact Or.inr (Or.inr (deletePending_step h hdelete hholds))
  rcases holds_step h hholds with hheld | ⟨id', htag, hlands⟩
  · exact hcarry (hs.recorded k id vec hheld)
  · obtain rfl := (UInt32.add_right_inj 1).mp htag
    -- the point has just landed, from an insert or from a task
    rcases hlands.notePending h with hnote | ⟨w, reply, hl⟩
    · exact Or.inr (Or.inl hnote)
    · exact hcarry (hkeeps.lands w reply k id vec hl hlands)

/-- `KeepsRecord` is exactly what a step needs. -/
theorem recorded_step {s s' : Sys V β} {l : Label V} (hs : Recorded s)
    (h : step cfg s l = some s') : Recorded s' ↔ KeepsRecord cfg s l := by
  constructor
  · intro hs'
    refine ⟨fun w reply k id vec hl hlands => ?_, fun i reply id vec k hl hcall => ?_,
      fun tag htag k htakes => ?_⟩
    · -- a worker leaves the record and the calls as they are
      have hholds := holds_of_lands hlands h
      subst hl
      have hset : s'.cache.admitSet = s.cache.admitSet := by
        cases record_step h with
        | same hset => exact hset
        | noted i _ _ _ hl' => cases hl'
        | forgot i _ hl' => cases hl'
      rcases hs'.recorded k id vec hholds with hmem | ⟨i, vec', k', hi⟩ | hdelete
      · exact Or.inl (hset ▸ hmem)
      · exact Or.inr (Or.inl ⟨i, vec', k', calls_worker h ▸ hi⟩)
      · exact Or.inr (Or.inr (hlands.deletePending h hdelete))
    · -- the noted tag is recorded afterwards, so it is live, as it was before
      subst hl
      have hnoted : 1 + id ∈ s'.cache.admitSet := mem_of_noted h hcall
      exact (liveTag_of_noted h hcall _).mp (hs'.live _ hnoted)
    · -- the copy that is live afterwards was there before, and stays
      obtain ⟨k', vec, hholds⟩ := hs'.live tag (htakes.admitSet h ▸ htag)
      rcases holds_step h hholds with hold | ⟨id, _, hlands⟩
      · exact ⟨k', vec, hold, not_takesOut h hholds⟩
      · exact (htakes.not_lands hlands).elim
  · exact fun hkeeps =>
      ⟨fun _ => live_step hs hkeeps h, fun _ _ _ => recorded_or_pending_step hs hkeeps h⟩

/-! ## Over a run -/

/-- While no insert is about to note its tag and no remove is under way, the record
    is the set of live tags, so `evict_oldest_points` may choose each of them and
    chooses no others. -/
def RecordMatches (s : Sys V β) : Prop :=
  (∀ id, ¬ s.NotePending id) → (∀ id k, ¬ s.DeletePending id k) →
    (∀ tag, tag ∈ s.cache.admitSet ↔ s.cache.LiveTag tag) ∧
      (∀ tag, s.cache.LiveTag tag → ∃ n, tag ∈ s.cache.oldestPoints n) ∧
      ∀ n, ∀ tag ∈ s.cache.oldestPoints n, s.cache.LiveTag tag

theorem recordMatches_of_recorded {s : Sys V β} (hs : Recorded s) (hlisted : s.cache.Listed) :
    RecordMatches s := by
  intro hnoted hquiet
  have hiff : ∀ tag, tag ∈ s.cache.admitSet ↔ s.cache.LiveTag tag := by
    refine fun tag => ⟨hs.live tag, fun ⟨k, vec, hholds⟩ => ?_⟩
    -- every tag is that of an id
    have htag : (1 + (tag - 1) : UInt32) = tag := by
      rw [UInt32.add_comm, UInt32.sub_add_cancel]
    rw [← htag] at hholds ⊢
    exact (hs.recorded k _ vec hholds).resolve_right (not_or.mpr ⟨hnoted _, hquiet _ k⟩)
  refine ⟨hiff, fun tag hlive => ?_, fun n tag hmem => ?_⟩
  · -- it is listed, so a large enough request reaches it
    have hmem := (hiff tag).mpr hlive
    exact ⟨_, Cache.mem_chooseVictims hmem (hlisted tag hmem) (Nat.le_refl _)⟩
  · exact (hiff tag).mp (Cache.mem_of_mem_chooseVictims hmem)

theorem recorded_init (backend : β) (radius : Nat) (alpha : ℚ) (threads : Nat) :
    Recorded (init cfg backend radius alpha threads) := by
  refine ⟨fun tag htag => ?_, fun k id vec hholds => ?_⟩
  · exact (Finset.notMem_empty tag htag).elim
  · obtain ⟨idx, hidx, hpoint⟩ := hholds
    rw [List.eq_of_mem_replicate (List.mem_of_getElem? hidx)] at hpoint
    simp [MiniIndex.Holds, MiniIndex.create] at hpoint

/-- In a run the record and the shards stay together exactly as long as every
    step keeps them so; then they match whenever no remove is under way. -/
theorem recorded_always_iff {backend : β} {radius : Nat} {alpha : ℚ} {threads : Nat}
    {ls : List (Label V)} {t : Sys V β}
    (hrun : Traces.run (step cfg) (init cfg backend radius alpha threads) ls = some t) :
    (Traces.Always (step cfg) Recorded (init cfg backend radius alpha threads) ls ↔
      Traces.Along (step cfg) (KeepsRecord cfg) (init cfg backend radius alpha threads) ls) ∧
    (Traces.Along (step cfg) (KeepsRecord cfg) (init cfg backend radius alpha threads) ls →
      Traces.Always (step cfg) RecordMatches (init cfg backend radius alpha threads) ls) := by
  have hlisted : (init cfg backend radius alpha threads).cache.Listed :=
    fun tag htag => (Finset.notMem_empty tag htag).elim
  have hinit : Recorded (init cfg backend radius alpha threads) :=
    recorded_init backend radius alpha threads
  constructor
  · exact Traces.always_iff_along (J := fun _ => True) (fun _ _ _ _ _ _ => trivial)
      (fun _ _ _ _ _ hs hstep => recorded_step hs hstep) hrun (Traces.along_true _ _) trivial hinit
  · intro halong
    have hboth := Traces.always_of_along
      (I := fun s : Sys V β => Recorded s ∧ s.cache.Listed)
      (fun s l s' hs hkeeps hstep =>
        ⟨(recorded_step hs.1 hstep).mpr hkeeps, listed_step hs.2 hstep⟩) ⟨hinit, hlisted⟩ halong
    exact hboth.mono fun s hs => recordMatches_of_recorded hs.1 hs.2

/-- No task runs, a tag is noted while its point is live, and nothing is taken out
    while a tag is recorded. -/
def quietStep (s : Sys V β) : Label V → Bool
  | .worker _ _ => false
  | .evict => decide (s.cache.admitSet = ∅)
  | .call i _ =>
    match s.calls[i]? with
    | some (.filtered _ _ _ _) => decide (s.cache.admitSet = ∅)
    | some (.deleting _ _) => decide (s.cache.admitSet = ∅)
    | some (.noting id _ k) =>
      (s.cache.memoryIndices[k]?.bind fun idx => idx.points.lookup (1 + id)).isSome
    | _ => true
  | _ => true

theorem keepsRecord_of_quietStep {s : Sys V β} {l : Label V} (h : s.quietStep l = true) :
    KeepsRecord cfg s l := by
  refine ⟨fun w reply k id vec hl _ => ?_, fun i reply id vec k hl hcall => ?_,
    fun tag htag k htakes => ?_⟩
  · subst hl
    cases h
  · subst hl
    simp only [quietStep, hcall] at h
    obtain ⟨vec', hlook⟩ := Option.isSome_iff_exists.mp h
    obtain ⟨idx, hidx, hpoint⟩ := Option.bind_eq_some_iff.mp hlook
    exact ⟨k, vec', idx, hidx, hpoint⟩
  · have hempty : s.cache.admitSet = ∅ := by
      cases htakes with
      | evict => exact of_decide_eq_true h
      | place i query K answer ids _ _ hcall =>
        simp only [quietStep, hcall] at h
        exact of_decide_eq_true h
      | delete i id _ hcall =>
        simp only [quietStep, hcall] at h
        exact of_decide_eq_true h
    rw [hempty] at htag
    exact (Finset.notMem_empty tag htag).elim

/-- A new id is inserted and removed. -/
def insertAndRemove : List (Label Nat) := insertLabels 0 7 5 true ++ removeLabels 1 7 5 1

/-- The record matches all the while. -/
theorem recorded_always_iff_insertAndRemove :
    ∃ t : Sys Nat Shelf,
      Traces.run (step soloSystem) (shelfStart soloSystem [(7, 3)]) insertAndRemove = some t ∧
      t.calls = [.insertReturned 7 5, .removeReturned 7] ∧
      Traces.Always (step soloSystem) RecordMatches (shelfStart soloSystem [(7, 3)])
        insertAndRemove := by
  have hruns : (Traces.run (step soloSystem) (shelfStart soloSystem [(7, 3)]) insertAndRemove).any
      (fun t => decide (t.calls = [.insertReturned 7 5, .removeReturned 7])) = true := by
    decide +kernel
  obtain ⟨t, hrun, htest⟩ := Traces.exists_run hruns
  have hquiet : Traces.Along (step soloSystem) (fun s l => s.quietStep l = true)
      (shelfStart soloSystem [(7, 3)]) insertAndRemove := by
    decide +kernel
  have hkeeps := hquiet.mono (Q := KeepsRecord soloSystem) fun _ _ => keepsRecord_of_quietStep
  exact ⟨t, hrun, of_decide_eq_true htest, (recorded_always_iff hrun).2 hkeeps⟩

/-- A miss and its admit task: the tag is live, and nothing has recorded it. -/
theorem admitted_not_recorded :
    ∃ s : Sys Nat Shelf, Reachable soloSystem s ∧ s.idle = true ∧
      s.calls = [.missReturned 0 1 [(7, .fin 3)]] ∧ s.cache.LiveTag 8 ∧
      8 ∉ s.cache.admitSet ∧ (∀ n, 8 ∉ s.cache.oldestPoints n) ∧ ¬ s.RecordMatches := by
  have hruns : (Traces.run (step soloSystem) (shelfStart soloSystem [(7, 3)]) admitOne).any
      (fun s => decide (s.idle = true ∧ s.calls = [.missReturned 0 1 [(7, .fin 3)]] ∧
        s.cache.memoryIndices[0]?.bind (fun idx => idx.points.lookup 8) = some 3 ∧
        8 ∉ s.cache.admitSet)) = true := by
    decide +kernel
  obtain ⟨s, hrun, htest⟩ := Traces.exists_run hruns
  obtain ⟨hidle, hcalls, hlook, hmissing⟩ := of_decide_eq_true htest
  obtain ⟨idx, hidx, hpoint⟩ := Option.bind_eq_some_iff.mp hlook
  have hlive : s.cache.LiveTag 8 := ⟨0, 3, idx, hidx, hpoint⟩
  refine ⟨s, ⟨_, _, _, _, admitOne, hrun⟩, hidle, hcalls, hlive, hmissing, fun n hmem => ?_,
    fun hmatches => ?_⟩
  · exact hmissing (Cache.mem_of_mem_chooseVictims hmem)
  · have hnoted : ∀ id, ¬ s.NotePending id := by
      rintro id ⟨i, vec, k, hi⟩
      rw [hcalls] at hi
      rcases i with _ | i <;> simp at hi
    have hquiet : ∀ id k, ¬ s.DeletePending id k := by
      rintro id k ⟨i, hi | ⟨j, _, hi⟩⟩ <;>
      · rw [hcalls] at hi
        rcases i with _ | i <;> simp at hi
    exact hmissing (((hmatches hnoted hquiet).1 8).mpr hlive)

end Sys

end QvCache
