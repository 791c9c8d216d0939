/-
  QvCache.Vamana.Shared

  The index under concurrent calls against the bounded map that its callers see
  (`SharedIndex`).  A call takes effect at once, where its first critical section
  under `_tag_lock` stands, except a consolidation: it takes the deleted points at
  its swap and makes room for others only at its release.  Every interleaving returns
  what the map returns (`interleavings_refine`).

  A vector is stored after its tag is registered.  Unless a slot is released
  before that, every tag has its vector once its insertion has stored it, and a
  search reports a point at its true distance if its slot has stayed in use since the
  search met it (`stored_searches`).
-/

import QvCache.Lib.Slots
import QvCache.Vamana.Interleavings

namespace QvCache.Vamana

/-- A bounded map with a consolidation under way, which has `held` of the deleted
    points. -/
structure SharedIndex (V : Type) where
  mini : MiniIndex V
  held : Nat
  checked : Nat
  locked : Bool

namespace SharedIndex

variable {V : Type}

/-- A new map. -/
def create (maxPoints : Nat) : SharedIndex V := ⟨.create maxPoints, 0, 0, false⟩

/-- The release of the slots of a consolidation. -/
def release (m : SharedIndex V) : SharedIndex V where
  mini :=
    { m.mini with
      lazyDeleted := m.mini.lazyDeleted - m.held
      fits := by have := m.mini.fits; omega }
  held := 0
  checked := m.checked
  locked := m.locked

/-- What a critical section does to the map. -/
def step (m : SharedIndex V) : Action V → Option (SharedIndex V)
  | .insertPoint point tag => (m.mini.insertPoint point tag).map fun r => { m with mini := r.1 }
  | .lazyDelete tag => some { m with mini := (m.mini.lazyDelete tag).1 }
  | .lazyDeleteAll tags => some { m with mini := (m.mini.lazyDeleteAll tags).1 }
  | .check => some (if m.held = 0 then { m with checked := m.checked + 1 } else m)
  | .lock =>
    if m.checked = 0 then none else some { m with checked := m.checked - 1, locked := true }
  | .swap => some { m with held := m.mini.lazyDeleted }
  | .release _ => some m.release
  | .unlock => some { m with locked := false }
  | _ => some m

/-- The report of a consolidation.  How many lists it went over is not a matter of
    the map. -/
def report (m : SharedIndex V) : ConsolidationReport :=
  let nd := m.mini.points.size + (m.mini.lazyDeleted - m.held)
  ⟨.success, nd, m.mini.maxPoints, m.mini.maxPoints - nd, m.held, m.mini.lazyDeleted - m.held, 0⟩

/-- What the call returns. -/
def answer (m : SharedIndex V) : Action V → List Answer
  | .insertPoint point tag =>
    ((m.mini.insertPoint point tag).map fun r => Answer.code r.2).toList
  | .lazyDelete tag => [.code (m.mini.lazyDelete tag).2]
  | .lazyDeleteAll tags => [.failedTags (m.mini.lazyDeleteAll tags).2]
  | .check => if m.held = 0 then [] else [Threads.gaveUp .inconsistentCountError]
  | .lock => if m.locked then [Threads.gaveUp .lockFail] else []
  | .release _ => [.report m.report]
  | _ => []

end SharedIndex

/-- An answer without the number of lists that a consolidation went over. -/
def withoutCalls : Answer → Answer
  | .report r => .report { r with numCallsToProcessDelete := 0 }
  | a => a

namespace Index

variable {V : Type} {p : IndexParams V} {idx : Index V} {H : Finset Nat} {mini : MiniIndex V}

/-- The map has the tags of the index, and counts its deleted slots with those that
    a consolidation has. -/
structure Counted (p : IndexParams V) (H : Finset Nat) (idx : Index V) (mini : MiniIndex V) :
    Prop where
  slots : idx.HeldOk p H
  live : ∀ tag, (mini.points.lookup tag).isSome = (idx.tagToLocation.lookup tag).isSome
  lazyDeleted : mini.lazyDeleted = idx.deleteSet.card + H.card
  maxPoints : mini.maxPoints = p.maxPoints

theorem Counted.size_eq (h : idx.Counted p H mini) :
    mini.points.size = idx.locationToTag.size := by
  have hsize : idx.locationToTag.size = idx.tagToLocation.size := h.slots.slots.size_tagToLocation
  rw [Table.size_eq_of_isSome_lookup h.live, hsize]

theorem Counted.nd_eq (h : idx.Counted p H mini) :
    mini.points.size + mini.lazyDeleted = idx.nd := by
  rw [h.size_eq, h.lazyDeleted]
  exact h.slots.nd_eq

theorem Counted.lazyDelete (h : idx.Counted p H mini) (tag : Tag) :
    (idx.lazyDelete tag).2 = (mini.lazyDelete tag).2 ∧
      (idx.lazyDelete tag).1.Counted p H (mini.lazyDelete tag).1 := by
  have hslots := h.slots.lazyDelete tag
  have hsame := h.live tag
  rw [Index.lazyDelete] at hslots ⊢
  rw [MiniIndex.lazyDelete]
  cases htag : idx.tagToLocation.lookup tag with
  | none =>
    rw [htag] at hslots hsame
    have hdead : ¬ (mini.points.lookup tag).isSome := by
      rw [hsame]
      exact Bool.false_ne_true
    rw [dif_neg hdead]
    exact ⟨rfl, hslots, h.live, h.lazyDeleted, h.maxPoints⟩
  | some location =>
    rw [htag] at hslots hsame
    have hthere : (mini.points.lookup tag).isSome = true := hsame
    rw [dif_pos hthere]
    refine ⟨rfl, hslots, fun t => ?_, ?_, h.maxPoints⟩
    · show ((mini.points.erase tag).lookup t).isSome =
        ((idx.tagToLocation.erase tag).lookup t).isSome
      rw [Table.lookup_erase_eq, Table.lookup_erase_eq]
      by_cases ht : t = tag
      · rw [if_pos ht, if_pos ht]
        rfl
      · rw [if_neg ht, if_neg ht, h.live]
    · have hout := (h.slots.lt_of_lookup htag).2
      show mini.lazyDeleted + 1 = (insert location idx.deleteSet).card + H.card
      rw [Finset.card_insert_of_notMem fun hin => hout (Finset.mem_union_left H hin), h.lazyDeleted]
      omega

theorem Counted.lazyDeleteAll (h : idx.Counted p H mini) (tags : List Tag) :
    (idx.lazyDeleteAll tags).2 = (mini.lazyDeleteAll tags).2 ∧
      (idx.lazyDeleteAll tags).1.Counted p H (mini.lazyDeleteAll tags).1 := by
  induction tags using List.reverseRecOn with
  | nil => exact ⟨rfl, h.slots.lazyDeleteAll [], h.live, h.lazyDeleted, h.maxPoints⟩
  | append_singleton rest tag ih =>
    obtain ⟨hfailed, hrest⟩ := ih
    obtain ⟨hret, hcounted⟩ := hrest.lazyDelete tag
    rw [lazyDeleteAll_concat, MiniIndex.lazyDeleteAll_concat]
    exact ⟨by rw [hret, hfailed], hcounted⟩

/-- A deletion takes the tag from both. -/
theorem points_lazyDelete {f : Nat → V}
    (h : ∀ t, mini.points.lookup t = (idx.tagToLocation.lookup t).map f) (tag t : Tag) :
    (mini.lazyDelete tag).1.points.lookup t =
      ((idx.lazyDelete tag).1.tagToLocation.lookup t).map f := by
  rw [MiniIndex.lookup_lazyDelete, h, Index.lazyDelete]
  cases htag : idx.tagToLocation.lookup tag with
  | none =>
    by_cases ht : t = tag
    · rw [if_pos ht, ht, htag, Option.map_none]
    · rw [if_neg ht]
  | some location =>
    show _ = ((idx.tagToLocation.erase tag).lookup t).map f
    rw [Table.lookup_erase_eq]
    by_cases ht : t = tag
    · rw [if_pos ht, if_pos ht, Option.map_none]
    · rw [if_neg ht, if_neg ht]

theorem points_lazyDeleteAll {f : Nat → V}
    (h : ∀ t, mini.points.lookup t = (idx.tagToLocation.lookup t).map f) (tags : List Tag) :
    ∀ t, (mini.lazyDeleteAll tags).1.points.lookup t =
      ((idx.lazyDeleteAll tags).1.tagToLocation.lookup t).map f := by
  induction tags using List.reverseRecOn with
  | nil => exact h
  | append_singleton rest tag ih =>
    rw [lazyDeleteAll_concat, MiniIndex.lazyDeleteAll_concat]
    exact points_lazyDelete ih tag

/-- It leaves the vectors and the empty slots. -/
theorem stores_lazyDelete (idx : Index V) (tag : Tag) :
    (idx.lazyDelete tag).1.vectors = idx.vectors ∧
      (idx.lazyDelete tag).1.emptySlots = idx.emptySlots := by
  rw [Index.lazyDelete]
  cases idx.tagToLocation.lookup tag <;> exact ⟨rfl, rfl⟩

theorem stores_lazyDeleteAll (idx : Index V) (tags : List Tag) :
    (idx.lazyDeleteAll tags).1.vectors = idx.vectors ∧
      (idx.lazyDeleteAll tags).1.emptySlots = idx.emptySlots := by
  induction tags using List.reverseRecOn with
  | nil => exact ⟨rfl, rfl⟩
  | append_singleton rest tag ih =>
    obtain ⟨hvectors, hempty⟩ := stores_lazyDelete (idx.lazyDeleteAll rest).1 tag
    rw [lazyDeleteAll_concat]
    exact ⟨hvectors.trans ih.1, hempty.trans ih.2⟩

end Index

namespace Threads

open Index

variable {V : Type} {p : IndexParams V} {s s' : Threads V} {m m' : SharedIndex V}

/-- The calls under way show the map. -/
structure Shows (p : IndexParams V) (s : Threads V) (m : SharedIndex V) : Prop where
  safe : s.Safe p
  counted : s.idx.Counted p s.held m.mini
  held : m.held = s.held.card
  checked : m.checked = s.checked
  locked : m.locked = s.locked

theorem shows_start (p : IndexParams V) : (start p).Shows p (SharedIndex.create p.maxPoints) where
  safe := safe_start p
  counted := ⟨(safe_start p).slots, fun _ => rfl, rfl, if_neg p.someMaxPoints.ne'⟩
  held := rfl
  checked := rfl
  locked := rfl

/-! ## What the calls do not show -/

/-- Nothing differs that the map is about. -/
structure SameCalls (s s' : Threads V) : Prop where
  tagToLocation : s'.idx.tagToLocation = s.idx.tagToLocation
  emptySlots : s'.idx.emptySlots = s.idx.emptySlots
  deleteSet : s'.idx.deleteSet = s.idx.deleteSet
  held : s'.held = s.held
  checked : s'.checked = s.checked
  locked : s'.locked = s.locked
  released : s'.released = s.released

theorem sameCalls_fail (s : Threads V) : SameCalls s s.fail :=
  ⟨rfl, rfl, rfl, rfl, rfl, rfl, rfl⟩

/-- An insertion leaves the tags, the slots and the consolidations alone. -/
theorem advance_same (p : IndexParams V) (s : Threads V) (k : Nat) (ins : Insertion V)
    (times : Nat → Nat) (queryDist : Nat → ℚ) (dist : Nat → Nat → ℚ) :
    SameCalls s (s.advance p k ins times queryDist dist) ∧
      (s.advance p k ins times queryDist dist).consolidation = s.consolidation := by
  have hsame : ∀ {s' : Threads V}, s'.idx.tagToLocation = s.idx.tagToLocation →
      s'.idx.emptySlots = s.idx.emptySlots → s'.idx.deleteSet = s.idx.deleteSet →
      s'.consolidation = s.consolidation → s'.checked = s.checked → s'.locked = s.locked →
        s'.released = s.released → SameCalls s s' ∧ s'.consolidation = s.consolidation :=
    fun htags hempty hdeleted hc hchecked hlocked hreleased =>
      ⟨⟨htags, hempty, hdeleted, by rw [Threads.held, Threads.held, hc], hchecked, hlocked,
        hreleased⟩, hc⟩
  rw [Threads.advance]
  cases ins.phase with
  | storeVector point => exact hsame rfl rfl rfl rfl rfl rfl rfl
  | search =>
    dsimp only
    split
    · exact ⟨sameCalls_fail s, rfl⟩
    · exact ⟨sameCalls_fail s, rfl⟩
    · exact hsame rfl rfl rfl rfl rfl rfl rfl
  | link prunedList =>
    dsimp only
    split_ifs
    · exact hsame rfl rfl rfl rfl rfl rfl rfl
    · exact ⟨sameCalls_fail s, rfl⟩
  | interInsert srcPool =>
    cases srcPool with
    | nil => exact hsame rfl rfl rfl rfl rfl rfl rfl
    | cons des rest =>
      dsimp only
      split_ifs
      · exact ⟨sameCalls_fail s, rfl⟩
      · exact hsame rfl rfl rfl rfl rfl rfl rfl
      · exact hsame rfl rfl rfl rfl rfl rfl rfl
      · exact hsame rfl rfl rfl rfl rfl rfl rfl
  | setPruned des copyOfNeighbors rest => exact hsame rfl rfl rfl rfl rfl rfl rfl

theorem sameCalls_processDelete (p : IndexParams V) {c : Consolidation}
    (hc : s.consolidation = some c) (loc : Nat) (inUse : Bool) (times : Nat → Nat)
    (dist : Nat → Nat → ℚ) (order : SetOrder) :
    SameCalls s (s.processDelete p c loc inUse times dist order) := by
  have hheld := Safe.held_eq hc
  rw [Threads.processDelete]
  split_ifs
  · exact ⟨rfl, rfl, rfl, hheld.symm, rfl, rfl, rfl⟩
  · exact sameCalls_fail s
  · exact ⟨rfl, rfl, rfl, hheld.symm, rfl, rfl, rfl⟩
  · exact ⟨rfl, rfl, rfl, hheld.symm, rfl, rfl, rfl⟩

theorem sameCalls_write {c : Consolidation} (hc : s.consolidation = some c) (k : Nat)
    (w : Nat × List Nat) : SameCalls s (s.write c k w) :=
  ⟨rfl, rfl, rfl, (Safe.held_eq hc).symm, rfl, rfl, rfl⟩

theorem Shows.of_sameCalls (h : s.Shows p m) (hsame : SameCalls s s') (hsafe : s'.Safe p) :
    s'.Shows p m where
  safe := hsafe
  counted :=
    { slots := hsafe.slots
      live := fun tag => by rw [h.counted.live, hsame.tagToLocation]
      lazyDeleted := by rw [h.counted.lazyDeleted, hsame.deleteSet, hsame.held]
      maxPoints := h.counted.maxPoints }
  held := by rw [h.held, hsame.held]
  checked := by rw [h.checked, hsame.checked]
  locked := by rw [h.locked, hsame.locked]

/-! ## The calls -/

/-- An insertion refuses where the map does. -/
theorem Shows.insertPoint_cases (h : s.Shows p m) (point : V) {tag : Tag} (htag : tag ≠ 0) :
    ∃ mini ret, m.mini.insertPoint point tag = some (mini, ret) ∧
      s.answer p (.insertPoint point tag) = [.code ret] ∧
      (mini = m.mini ∧ s.insertPoint p point tag = s.moveTo s.idx ∨
        s.idx.tagToLocation.lookup tag = none ∧ mini.points = m.mini.points.insert tag point ∧
          mini.lazyDeleted = m.mini.lazyDeleted ∧ mini.maxPoints = m.mini.maxPoints ∧
          ∃ location rest, s.idx.emptySlots.popAny = some (location, rest) ∧
            s.insertPoint p point tag =
              { s.moveTo (Index.register { s.idx with emptySlots := rest, nd := s.idx.nd + 1 } tag
                  location) with
                insertions := s.insertions ++ [⟨location, .storeVector point⟩] }) := by
  have hroom : m.mini.points.size + m.mini.lazyDeleted < m.mini.maxPoints ↔
      s.idx.nd < p.maxPoints := by rw [h.counted.nd_eq, h.counted.maxPoints]
  have hlive : m.mini.Live tag ↔ (s.idx.tagToLocation.lookup tag).isSome = true := by
    rw [MiniIndex.Live, h.counted.live]
  cases hmini : m.mini.insertPoint point tag with
  | none =>
    rw [MiniIndex.insertPoint, if_neg htag] at hmini
    split_ifs at hmini
  | some r =>
    obtain ⟨mini, ret⟩ := r
    obtain ⟨-, ⟨rfl, rfl, hrefused⟩ | ⟨rfl, hfree, hslot, hpoints, hlazy, hmax⟩⟩ :=
      MiniIndex.insertPoint_cases hmini
    · obtain ⟨-, heq, hanswer⟩ | ⟨⟨hnew, hslot⟩, -⟩ := h.safe.insertPoint_cases point tag
      · exact ⟨_, -1, rfl, hanswer, Or.inl ⟨rfl, heq⟩⟩
      · refine absurd ⟨fun hthere => ?_, hroom.mpr hslot⟩ hrefused
        rw [hlive, hnew] at hthere
        cases hthere
    · obtain ⟨hrefused, -⟩ | ⟨⟨hnew, -⟩, location, rest, hpop, heq, hanswer⟩ :=
        h.safe.insertPoint_cases point tag
      · rcases hrefused with hthere | hfull
        · exact absurd (hlive.mpr hthere) hfree
        · exact absurd (hroom.mp hslot) (not_lt.mpr hfull)
      · exact ⟨mini, 0, rfl, hanswer,
          Or.inr ⟨hnew, hpoints, hlazy, hmax, location, rest, hpop, heq⟩⟩

theorem Shows.insertPoint (h : s.Shows p m) (point : V) {tag : Tag} (htag : tag ≠ 0) :
    ∃ mini ret, m.mini.insertPoint point tag = some (mini, ret) ∧
      s.answer p (.insertPoint point tag) = [.code ret] ∧
      (s.insertPoint p point tag).Shows p { m with mini := mini } := by
  have hsafe := h.safe.insertPoint point tag
  obtain ⟨mini, ret, hmini, hanswer,
    ⟨rfl, heq⟩ | ⟨-, hpoints, hlazy, hmax, location, rest, -, heq⟩⟩ :=
      h.insertPoint_cases point htag
  · rw [heq] at hsafe ⊢
    exact ⟨_, ret, hmini, hanswer, hsafe, h.counted, h.held, h.checked, h.locked⟩
  · rw [heq] at hsafe ⊢
    refine ⟨mini, ret, hmini, hanswer, hsafe, ⟨hsafe.slots, fun t => ?_, ?_, ?_⟩, h.held, h.checked,
      h.locked⟩
    · show (mini.points.lookup t).isSome =
        ((s.idx.tagToLocation.insert tag location).lookup t).isSome
      rw [hpoints, Table.lookup_insert_eq, Table.lookup_insert_eq]
      by_cases ht : t = tag
      · rw [if_pos ht, if_pos ht]
        rfl
      · rw [if_neg ht, if_neg ht, h.counted.live]
    · show mini.lazyDeleted = _
      rw [hlazy]
      exact h.counted.lazyDeleted
    · show mini.maxPoints = _
      rw [hmax]
      exact h.counted.maxPoints

theorem Shows.lazyDelete (h : s.Shows p m) (tag : Tag) :
    (s.lazyDelete p tag).Shows p { m with mini := (m.mini.lazyDelete tag).1 } := by
  obtain ⟨heq, hsafe⟩ := h.safe.lazyDelete tag
  rw [heq] at hsafe ⊢
  exact ⟨hsafe, (h.counted.lazyDelete tag).2, h.held, h.checked, h.locked⟩

theorem Shows.held_eq_zero (h : s.Shows p m) : m.held = 0 ↔ s.held = ∅ := by
  rw [h.held, Finset.card_eq_zero]

theorem Shows.check (h : s.Shows p m) :
    (s.check p).Shows p (if m.held = 0 then { m with checked := m.checked + 1 } else m) ∧
      s.answer p .check = m.answer .check := by
  have hsafe := h.safe.check
  rw [SharedIndex.answer, Threads.answer]
  rw [Threads.check] at hsafe ⊢
  rw [h.safe.checkStatus] at hsafe ⊢
  by_cases hheld : m.held = 0
  · have hempty := h.held_eq_zero.mp hheld
    rw [if_pos hempty] at hsafe ⊢
    rw [if_pos hheld, if_pos hheld]
    exact ⟨⟨hsafe, h.counted, h.held, by rw [h.checked], h.locked⟩, rfl⟩
  · have hsome : ¬ s.held = ∅ := fun hempty => hheld (h.held_eq_zero.mpr hempty)
    rw [if_neg hsome] at hsafe ⊢
    rw [if_neg hheld, if_neg hheld]
    exact ⟨h, rfl⟩

theorem Shows.swap (h : s.Shows p m) (hfree : s.consolidation = none) :
    (s.swap p).Shows p { m with held := m.mini.lazyDeleted } := by
  have hsafe := h.safe.swap hfree
  have hlazy := h.counted.lazyDeleted
  rw [Safe.held_eq_empty hfree, Finset.card_empty, Nat.add_zero] at hlazy
  rw [h.safe.swap_eq] at hsafe ⊢
  refine ⟨hsafe, ⟨hsafe.slots, h.counted.live, ?_, h.counted.maxPoints⟩, hlazy, h.checked, h.locked⟩
  show m.mini.lazyDeleted = (∅ : Finset Nat).card + s.idx.deleteSet.card
  rw [hlazy, Finset.card_empty, Nat.zero_add]

theorem Shows.release (h : s.Shows p m) {c : Consolidation} (hc : s.consolidation = some c)
    (order : SetOrder) : (s.release p c order).Shows p m.release ∧
      (s.answer p (.release order)).map withoutCalls = [.report m.report] := by
  have hsafe := h.safe.release hc order
  have hslots := h.safe.slots
  have hheld : m.held = c.oldDeleteSet.card := by rw [h.held, Safe.held_eq hc]
  have hlazy := h.counted.lazyDeleted
  have hsize := h.counted.size_eq
  have hmax := h.counted.maxPoints
  have hcount : s.idx.emptySlots.size + s.idx.nd = p.maxPoints := hslots.slots.count
  have hnd := hslots.nd_eq
  rw [Safe.held_eq hc] at hslots hlazy hnd
  have hleft : m.mini.lazyDeleted - m.held = s.idx.deleteSet.card := by omega
  obtain ⟨es, hes, -, heq, -⟩ := hslots.release order
  refine ⟨?_, ?_⟩
  · rw [Threads.release, heq] at hsafe ⊢
    refine ⟨hsafe, ⟨hsafe.slots, h.counted.live, ?_, hmax⟩, rfl, h.checked, h.locked⟩
    exact hleft
  · rw [Threads.answer, hc, Option.bind_some, heq, SharedIndex.report]
    dsimp only [Option.map_some, Option.toList_some, List.map_cons, List.map_nil, withoutCalls]
    rw [hleft, hheld, hmax, hsize]
    have hrest : s.idx.nd - c.oldDeleteSet.card =
        s.idx.locationToTag.size + s.idx.deleteSet.card := by omega
    have hempty : es.size =
        p.maxPoints - (s.idx.locationToTag.size + s.idx.deleteSet.card) := by omega
    rw [hrest, hempty]
    rfl

/-- Each critical section does to the map what the map does. -/
theorem Shows.step (h : s.Shows p m) {a : Action V} (hstep : s.step p a = some s') :
    ∃ m', m.step a = some m' ∧ s'.Shows p m' := by
  have hsafe := h.safe.step hstep
  cases a with
  | insertPoint point tag =>
    rw [Threads.step] at hstep
    split_ifs at hstep with htag
    obtain ⟨mini, ret, hmini, -, hshows⟩ := h.insertPoint point htag
    refine ⟨{ m with mini := mini }, ?_, Option.some.inj hstep ▸ hshows⟩
    rw [SharedIndex.step, hmini, Option.map_some]
  | advance k times queryDist dist =>
    obtain ⟨ins, -, rfl⟩ := Option.map_eq_some_iff.mp hstep
    exact ⟨m, rfl, h.of_sameCalls (advance_same p s k ins times queryDist dist).1 hsafe⟩
  | lazyDelete tag => exact ⟨_, rfl, Option.some.inj hstep ▸ h.lazyDelete tag⟩
  | lazyDeleteAll tags =>
    obtain rfl := Option.some.inj hstep
    exact ⟨_, rfl, hsafe, (h.counted.lazyDeleteAll tags).2, h.held, h.checked, h.locked⟩
  | check => exact ⟨_, rfl, Option.some.inj hstep ▸ h.check.1⟩
  | lock =>
    rw [Threads.step] at hstep
    rw [SharedIndex.step, h.checked]
    split_ifs at hstep ⊢ with hnone hbusy
    · obtain rfl := Option.some.inj hstep
      exact ⟨_, rfl, hsafe, h.counted, h.held, rfl, hbusy.symm⟩
    · obtain rfl := Option.some.inj hstep
      exact ⟨_, rfl, hsafe, h.counted, h.held, rfl, rfl⟩
  | swap =>
    rw [Threads.step] at hstep
    split_ifs at hstep with hfree
    exact ⟨_, rfl, Option.some.inj hstep ▸ h.swap (Option.isNone_iff_eq_none.mp hfree.2.2)⟩
  | processDelete loc inUse times dist order =>
    obtain ⟨c, hc, hrest⟩ := Option.bind_eq_some_iff.mp hstep
    split_ifs at hrest
    obtain rfl := Option.some.inj hrest
    exact ⟨m, rfl, h.of_sameCalls (sameCalls_processDelete p hc loc inUse times dist order) hsafe⟩
  | write k =>
    obtain ⟨c, hc, hrest⟩ := Option.bind_eq_some_iff.mp hstep
    obtain ⟨w, -, rfl⟩ := Option.map_eq_some_iff.mp hrest
    exact ⟨m, rfl, h.of_sameCalls (sameCalls_write hc k w) hsafe⟩
  | release order =>
    obtain ⟨c, hc, hrest⟩ := Option.bind_eq_some_iff.mp hstep
    split_ifs at hrest
    exact ⟨_, rfl, Option.some.inj hrest ▸ (h.release hc order).1⟩
  | unlock =>
    rw [Threads.step] at hstep
    split_ifs at hstep
    obtain rfl := Option.some.inj hstep
    exact ⟨_, rfl, hsafe, h.counted, h.held, h.checked, rfl⟩

/-- It returns what the map returns. -/
theorem Shows.answer (h : s.Shows p m) {a : Action V} (hstep : s.step p a = some s') :
    (s.answer p a).map withoutCalls = m.answer a := by
  cases a with
  | insertPoint point tag =>
    rw [Threads.step] at hstep
    split_ifs at hstep with htag
    obtain ⟨mini, ret, hmini, hanswer, -⟩ := h.insertPoint point htag
    rw [hanswer, SharedIndex.answer, hmini]
    rfl
  | advance k times queryDist dist => rfl
  | lazyDelete tag =>
    rw [Threads.answer, SharedIndex.answer, (h.counted.lazyDelete tag).1]
    rfl
  | lazyDeleteAll tags =>
    rw [Threads.answer, SharedIndex.answer, (h.counted.lazyDeleteAll tags).1]
    rfl
  | check =>
    rw [h.check.2, SharedIndex.answer]
    split_ifs <;> rfl
  | lock =>
    rw [Threads.answer, SharedIndex.answer, h.locked]
    split_ifs <;> rfl
  | swap => rfl
  | processDelete loc inUse times dist order => rfl
  | write k => rfl
  | release order =>
    obtain ⟨c, hc, -⟩ := Option.bind_eq_some_iff.mp hstep
    exact (h.release hc order).2
  | unlock => rfl

/-! ## Vectors -/

/-- The vector that an insertion still has to store. -/
def pendingOf : Insertion V → Option (Nat × V)
  | ⟨location, .storeVector point⟩ => some (location, point)
  | _ => none

/-- The vectors that are still to be stored. -/
def pending (s : Threads V) : List (Nat × V) := s.insertions.filterMap pendingOf

/-- The vector that a slot has once they are stored. -/
def vectorOf (s : Threads V) (i : Nat) : V := (s.pending.lookup i).getD (s.idx.vectors i)

/-- No slot is released whose vector is still to be stored. -/
def StoredFirst (s : Threads V) : Action V → Prop
  | .release _ => ∀ i ∈ s.held, i ∉ s.pending.map Prod.fst
  | _ => True

/-- Each tag leads to the slot of its vector, which it has or is still to get. -/
structure Keeps (s : Threads V) (m : SharedIndex V) : Prop where
  apart : (s.pending.map Prod.fst).Nodup
  taken : ∀ i ∈ s.pending.map Prod.fst, s.idx.emptySlots.isInSet i = false
  points : ∀ tag, m.mini.points.lookup tag = (s.idx.tagToLocation.lookup tag).map s.vectorOf

theorem keeps_start (p : IndexParams V) : (start p).Keeps (SharedIndex.create p.maxPoints) where
  apart := List.nodup_nil
  taken _ hi := absurd hi List.not_mem_nil
  points _ := rfl

theorem lookup_eq_none_of_not_mem {l : List (Nat × V)} {i : Nat} (h : i ∉ l.map Prod.fst) :
    l.lookup i = none := by
  refine List.lookup_eq_none_iff.mpr fun e he => ?_
  rw [bne_iff_ne]
  rintro rfl
  exact h (List.mem_map_of_mem he)

theorem pending_setPhase {k : Nat} {ins : Insertion V} (hins : s.insertions[k]? = some ins)
    (hnone : pendingOf ins = none) {phase : Phase V}
    (hphase : pendingOf ⟨ins.location, phase⟩ = none) :
    (s.setPhase k ins.location phase).pending = s.pending := by
  obtain ⟨l₁, l₂, hl, hset, -⟩ := Slots.exists_split hins ⟨ins.location, phase⟩
  rw [pending, pending, setPhase]
  dsimp only
  rw [hset, hl, List.filterMap_append, List.filterMap_append, List.filterMap_cons_none hnone,
    List.filterMap_cons_none hphase]

/-- An insertion that has stored its vector touches no other. -/
theorem pending_advance {k : Nat} {ins : Insertion V} (hins : s.insertions[k]? = some ins)
    (hnone : pendingOf ins = none) (p : IndexParams V) (times : Nat → Nat) (queryDist : Nat → ℚ)
    (dist : Nat → Nat → ℚ) :
    (s.advance p k ins times queryDist dist).pending = s.pending ∧
      (s.advance p k ins times queryDist dist).idx.vectors = s.idx.vectors := by
  obtain ⟨location, phase⟩ := ins
  rw [Threads.advance]
  cases phase with
  | storeVector point => cases hnone
  | search =>
    dsimp only
    split
    · exact ⟨rfl, rfl⟩
    · exact ⟨rfl, rfl⟩
    · exact ⟨pending_setPhase hins hnone rfl, rfl⟩
  | link prunedList =>
    dsimp only
    split_ifs
    · exact ⟨pending_setPhase hins hnone rfl, rfl⟩
    · exact ⟨rfl, rfl⟩
  | interInsert srcPool =>
    cases srcPool with
    | nil =>
      obtain ⟨l₁, l₂, hl, -, herase⟩ := Slots.exists_split hins ⟨location, .search⟩
      refine ⟨?_, rfl⟩
      rw [pending, pending]
      dsimp only
      rw [herase, hl, List.filterMap_append, List.filterMap_append, List.filterMap_cons_none hnone]
    | cons des rest =>
      dsimp only
      split_ifs
      · exact ⟨rfl, rfl⟩
      · exact ⟨pending_setPhase hins hnone rfl, rfl⟩
      · exact ⟨pending_setPhase hins hnone rfl, rfl⟩
      · exact ⟨pending_setPhase hins hnone rfl, rfl⟩
  | setPruned des copyOfNeighbors rest => exact ⟨pending_setPhase hins hnone rfl, rfl⟩

/-- A step that stores no vector. -/
theorem Keeps.of_vectors (h : s.Keeps m) (hpending : s'.pending = s.pending)
    (hvectors : s'.idx.vectors = s.idx.vectors)
    (htaken : ∀ i ∈ s.pending.map Prod.fst, s'.idx.emptySlots.isInSet i = false)
    (hpoints : ∀ tag, m'.mini.points.lookup tag =
      (s'.idx.tagToLocation.lookup tag).map s.vectorOf) : s'.Keeps m' where
  apart := by
    rw [hpending]
    exact h.apart
  taken := by
    rw [hpending]
    exact htaken
  points tag := by
    have hsame : s'.vectorOf = s.vectorOf := by
      funext i
      rw [vectorOf, vectorOf, hpending, hvectors]
    rw [hsame]
    exact hpoints tag

/-- A step that the map does not see. -/
theorem Keeps.of_sameCalls (h : s.Keeps m) (hsame : SameCalls s s')
    (hpending : s'.pending = s.pending) (hvectors : s'.idx.vectors = s.idx.vectors) :
    s'.Keeps m := by
  refine h.of_vectors hpending hvectors (fun i hi => ?_) fun tag => ?_
  · rw [hsame.emptySlots]
    exact h.taken i hi
  · rw [hsame.tagToLocation]
    exact h.points tag

/-- Storing a vector takes it off those that are still to be stored. -/
theorem pending_storeVector {k location : Nat} {point : V}
    (hins : s.insertions[k]? = some ⟨location, .storeVector point⟩) :
    ∃ front back, s.pending = front ++ (location, point) :: back ∧
      ((s.setPhase k location .search).moveTo (s.idx.setVector location point)).pending =
        front ++ back := by
  obtain ⟨l₁, l₂, hl, hset, -⟩ := Slots.exists_split hins ⟨location, .search⟩
  refine ⟨l₁.filterMap pendingOf, l₂.filterMap pendingOf, ?_, ?_⟩
  · rw [pending, hl, List.filterMap_append]
    rfl
  · show (s.insertions.set k ⟨location, .search⟩).filterMap pendingOf = _
    rw [hset, List.filterMap_append]
    rfl

/-- Storing its vector, an insertion makes good what its slot is to get. -/
theorem Keeps.vectorOf_storeVector (h : s.Keeps m) {k location : Nat} {point : V}
    (hins : s.insertions[k]? = some ⟨location, .storeVector point⟩) :
    ((s.setPhase k location .search).moveTo (s.idx.setVector location point)).vectorOf =
      s.vectorOf := by
  obtain ⟨front, back, hbefore, hafter⟩ := pending_storeVector hins
  have hapart := h.apart
  rw [hbefore, List.map_append, List.map_cons] at hapart
  have hnew := (List.nodup_cons.mp (List.nodup_middle.mp hapart)).1
  rw [← List.map_append] at hnew
  funext i
  rw [vectorOf, vectorOf, hafter, hbefore]
  by_cases hi : i = location
  · subst hi
    have hout : i ∉ front.map Prod.fst := by
      rw [List.map_append] at hnew
      exact fun hin => hnew (List.mem_append_left _ hin)
    rw [lookup_eq_none_of_not_mem hnew, List.lookup_append, lookup_eq_none_of_not_mem hout,
      List.lookup_cons_self]
    show Function.update s.idx.vectors i point i = point
    exact Function.update_self i point s.idx.vectors
  · rw [List.lookup_append, List.lookup_append, List.lookup_cons]
    have hne : (i == location) = false := beq_eq_false_iff_ne.mpr hi
    rw [hne]
    exact congrArg _ (Function.update_of_ne hi _ _)

theorem Keeps.storeVector (h : s.Keeps m) {k location : Nat} {point : V}
    (hins : s.insertions[k]? = some ⟨location, .storeVector point⟩) :
    ((s.setPhase k location .search).moveTo (s.idx.setVector location point)).Keeps m := by
  obtain ⟨front, back, hbefore, hafter⟩ := pending_storeVector hins
  have hapart := h.apart
  rw [hbefore, List.map_append, List.map_cons] at hapart
  have hrest := (List.nodup_cons.mp (List.nodup_middle.mp hapart)).2
  refine ⟨?_, fun i hi => ?_, fun tag => ?_⟩
  · rw [hafter, List.map_append]
    exact hrest
  · refine h.taken i ?_
    rw [hafter, List.map_append, List.mem_append] at hi
    rw [hbefore, List.map_append, List.mem_append]
    exact hi.imp_right (List.mem_cons_of_mem location)
  · rw [h.vectorOf_storeVector hins]
    exact h.points tag

/-- A new insertion gets the vector of its own slot only. -/
theorem vectorOf_register (s : Threads V) (idx : Index V) (point : V) {location i : Nat}
    (hvectors : idx.vectors = s.idx.vectors) (hi : i ≠ location) :
    ({ s.moveTo idx with
        insertions := s.insertions ++ [⟨location, .storeVector point⟩] } : Threads V).vectorOf i =
      s.vectorOf i := by
  have hother : [(location, point)].lookup i = none :=
    lookup_eq_none_of_not_mem fun hthere => hi (List.mem_singleton.mp hthere)
  let s' : Threads V :=
    { s.moveTo idx with insertions := s.insertions ++ [⟨location, .storeVector point⟩] }
  have hpending : s'.pending = s.pending ++ [(location, point)] := List.filterMap_append
  show (s'.pending.lookup i).getD (idx.vectors i) = _
  rw [hpending, List.lookup_append, hother, Option.or_none, hvectors, vectorOf]

/-- A new tag leads to a slot that nothing is still to be stored in. -/
theorem Keeps.insertPoint (h : s.Keeps m) (hshows : s.Shows p m) (point : V) {tag : Tag}
    (htag : tag ≠ 0) {mini : MiniIndex V} {ret : Int}
    (hmini : m.mini.insertPoint point tag = some (mini, ret)) :
    (s.insertPoint p point tag).Keeps { m with mini := mini } := by
  obtain ⟨mini', ret', hmini', -, ⟨rfl, heq⟩ | ⟨hnew, hpoints, -, -, location, rest, hpop, heq⟩⟩ :=
    hshows.insertPoint_cases point htag
  · rw [hmini] at hmini'
    obtain ⟨rfl, -⟩ := Prod.mk.inj (Option.some.inj hmini')
    rw [heq]
    exact h.of_vectors rfl rfl h.taken h.points
  · rw [hmini] at hmini'
    obtain ⟨rfl, -⟩ := Prod.mk.inj (Option.some.inj hmini')
    rw [heq]
    have hslots := hshows.safe.slots.slots
    have hvalid : s.idx.emptySlots.Valid := hslots.empty_valid
    obtain ⟨hempty, -, -, hin⟩ := hvalid.popAny hpop
    have hout : location ∉ s.pending.map Prod.fst := by
      intro hthere
      have hused := h.taken location hthere
      rw [hempty] at hused
      cases hused
    let s' : Threads V := { s.moveTo (Index.register { s.idx with
      emptySlots := rest, nd := s.idx.nd + 1 } tag location) with
        insertions := s.insertions ++ [⟨location, .storeVector point⟩] }
    have hpending : s'.pending = s.pending ++ [(location, point)] := List.filterMap_append
    refine ⟨?_, fun i hi => ?_, fun t => ?_⟩
    · show (s'.pending.map Prod.fst).Nodup
      rw [hpending, List.map_append]
      exact List.concat_eq_append ▸ h.apart.concat hout
    · have hthere : i ∈ s'.pending.map Prod.fst := hi
      rw [hpending, List.map_append, List.mem_append] at hthere
      show rest.isInSet i = false
      rw [← Bool.not_eq_true, hin]
      rintro ⟨hstill, hne⟩
      rcases hthere with hthere | hthere
      · have hused := h.taken i hthere
        rw [hstill] at hused
        cases hused
      · exact hne (List.mem_singleton.mp hthere)
    · show mini.points.lookup t =
        ((s.idx.tagToLocation.insert tag location).lookup t).map s'.vectorOf
      rw [hpoints, Table.lookup_insert_eq, Table.lookup_insert_eq]
      by_cases ht : t = tag
      · rw [if_pos ht, if_pos ht, Option.map_some, vectorOf, hpending, List.lookup_append,
          lookup_eq_none_of_not_mem hout]
        simp
      · rw [if_neg ht, if_neg ht, h.points]
        -- no old tag leads to the slot that was empty
        refine Option.map_congr fun i hi => ?_
        refine (vectorOf_register s _ point rfl ?_).symm
        rintro rfl
        have hused := (hslots.tagged i (hslots.contains_iff.mpr ⟨t, hi⟩)).2.1
        dsimp only at hused
        rw [hempty] at hused
        cases hused

theorem Keeps.lazyDelete (h : s.Keeps m) (tag : Tag) :
    (s.moveTo (s.idx.lazyDelete tag).1).Keeps
      { m with mini := (m.mini.lazyDelete tag).1 } := by
  obtain ⟨hvectors, hempty⟩ := stores_lazyDelete s.idx tag
  refine h.of_vectors rfl hvectors (fun i hi => ?_) (points_lazyDelete h.points tag)
  exact (congrArg (NaturalNumberSet.isInSet · i) hempty).trans (h.taken i hi)

theorem Keeps.lazyDeleteAll (h : s.Keeps m) (tags : List Tag) :
    (s.moveTo (s.idx.lazyDeleteAll tags).1).Keeps
      { m with mini := (m.mini.lazyDeleteAll tags).1 } := by
  obtain ⟨hvectors, hempty⟩ := stores_lazyDeleteAll s.idx tags
  refine h.of_vectors rfl hvectors (fun i hi => ?_) (points_lazyDeleteAll h.points tags)
  exact (congrArg (NaturalNumberSet.isInSet · i) hempty).trans (h.taken i hi)

theorem Keeps.release (h : s.Keeps m) (hsafe : s.Safe p) {c : Consolidation}
    (hc : s.consolidation = some c) (order : SetOrder)
    (hfirst : ∀ i ∈ s.held, i ∉ s.pending.map Prod.fst) :
    (s.release p c order).Keeps m.release := by
  have hslots := hsafe.slots
  rw [Safe.held_eq hc] at hslots hfirst
  obtain ⟨es, -, hin, heq, -⟩ := hslots.release order
  rw [Threads.release, heq]
  refine h.of_vectors rfl rfl (fun i hi => ?_) h.points
  show es.isInSet i = false
  rw [← Bool.not_eq_true, hin, h.taken i hi]
  rintro (hheld | hfalse)
  · exact hfirst i hheld hi
  · cases hfalse

/-- Every step but a hasty release keeps the vectors. -/
theorem Keeps.step (h : s.Keeps m) (hshows : s.Shows p m) {a : Action V} (hfirst : s.StoredFirst a)
    (hstep : s.step p a = some s') (hmap : m.step a = some m') : s'.Keeps m' := by
  cases a with
  | insertPoint point tag =>
    rw [Threads.step] at hstep
    split_ifs at hstep with htag
    obtain ⟨⟨mini, ret⟩, hmini, rfl⟩ := Option.map_eq_some_iff.mp hmap
    exact Option.some.inj hstep ▸ h.insertPoint hshows point htag hmini
  | advance k times queryDist dist =>
    obtain ⟨ins, hins, rfl⟩ := Option.map_eq_some_iff.mp hstep
    obtain rfl := Option.some.inj hmap
    cases hpending : pendingOf ins with
    | some e =>
      obtain ⟨location, phase⟩ := ins
      cases phase with
      | storeVector point => exact h.storeVector hins
      | search => cases hpending
      | link prunedList => cases hpending
      | interInsert srcPool => cases hpending
      | setPruned des copyOfNeighbors srcPool => cases hpending
    | none =>
      obtain ⟨hsame, hvectors⟩ := pending_advance hins hpending p times queryDist dist
      exact h.of_sameCalls (advance_same p s k ins times queryDist dist).1 hsame hvectors
  | lazyDelete tag =>
    obtain rfl := Option.some.inj hstep
    obtain rfl := Option.some.inj hmap
    rw [(hshows.safe.lazyDelete tag).1]
    exact h.lazyDelete tag
  | lazyDeleteAll tags =>
    obtain rfl := Option.some.inj hstep
    obtain rfl := Option.some.inj hmap
    exact h.lazyDeleteAll tags
  | check =>
    obtain rfl := Option.some.inj hstep
    obtain rfl := Option.some.inj hmap
    rw [Threads.check, hshows.safe.checkStatus]
    split_ifs <;> exact h.of_vectors rfl rfl h.taken h.points
  | lock =>
    rw [Threads.step] at hstep
    rw [SharedIndex.step, hshows.checked] at hmap
    split_ifs at hstep hmap
    · obtain rfl := Option.some.inj hstep
      obtain rfl := Option.some.inj hmap
      exact h.of_vectors rfl rfl h.taken h.points
    · obtain rfl := Option.some.inj hstep
      obtain rfl := Option.some.inj hmap
      exact h.of_vectors rfl rfl h.taken h.points
  | swap =>
    rw [Threads.step] at hstep
    split_ifs at hstep
    obtain rfl := Option.some.inj hstep
    obtain rfl := Option.some.inj hmap
    rw [Threads.swap]
    split_ifs <;> exact h.of_vectors rfl rfl h.taken h.points
  | processDelete loc inUse times dist order =>
    obtain ⟨c, hc, hrest⟩ := Option.bind_eq_some_iff.mp hstep
    split_ifs at hrest
    obtain rfl := Option.some.inj hrest
    obtain rfl := Option.some.inj hmap
    rw [Threads.processDelete]
    split_ifs <;> exact h.of_vectors rfl rfl h.taken h.points
  | write k =>
    obtain ⟨c, hc, hrest⟩ := Option.bind_eq_some_iff.mp hstep
    obtain ⟨w, -, rfl⟩ := Option.map_eq_some_iff.mp hrest
    obtain rfl := Option.some.inj hmap
    exact h.of_sameCalls (sameCalls_write hc k w) rfl rfl
  | release order =>
    obtain ⟨c, hc, hrest⟩ := Option.bind_eq_some_iff.mp hstep
    split_ifs at hrest
    obtain rfl := Option.some.inj hrest
    obtain rfl := Option.some.inj hmap
    exact h.release hshows.safe hc order hfirst
  | unlock =>
    rw [Threads.step] at hstep
    split_ifs at hstep
    obtain rfl := Option.some.inj hstep
    obtain rfl := Option.some.inj hmap
    exact h.of_vectors rfl rfl h.taken h.points

/-- A step leaves the vector that a slot in use has or is to get. -/
theorem Keeps.vectorOf_step (h : s.Keeps m) (hshows : s.Shows p m) {a : Action V}
    (hstep : s.step p a = some s') {i : Nat} (hused : s.idx.Used p i) :
    s'.vectorOf i = s.vectorOf i := by
  cases a with
  | insertPoint point tag =>
    rw [Threads.step] at hstep
    split_ifs at hstep with htag
    obtain rfl := Option.some.inj hstep
    obtain ⟨-, -, -, -, ⟨-, heq⟩ | ⟨-, -, -, -, location, rest, hpop, heq⟩⟩ :=
      hshows.insertPoint_cases point htag
    · rw [heq]
      rfl
    · rw [heq]
      refine vectorOf_register s _ point rfl ?_
      rintro rfl
      have hvalid : s.idx.emptySlots.Valid := hshows.safe.slots.slots.empty_valid
      have hempty := hused.2
      rw [(hvalid.popAny hpop).1] at hempty
      cases hempty
  | advance k times queryDist dist =>
    obtain ⟨ins, hins, rfl⟩ := Option.map_eq_some_iff.mp hstep
    cases hpending : pendingOf ins with
    | some e =>
      obtain ⟨location, phase⟩ := ins
      cases phase with
      | storeVector point => exact congrFun (h.vectorOf_storeVector hins) i
      | search => cases hpending
      | link prunedList => cases hpending
      | interInsert srcPool => cases hpending
      | setPruned des copyOfNeighbors srcPool => cases hpending
    | none =>
      obtain ⟨hsame, hvectors⟩ := pending_advance hins hpending p times queryDist dist
      rw [vectorOf, vectorOf, hsame, hvectors]
  | lazyDelete tag =>
    obtain rfl := Option.some.inj hstep
    rw [(hshows.safe.lazyDelete tag).1]
    exact congrArg (s.pending.lookup i).getD
      (congrFun (stores_lazyDelete s.idx tag).1 i)
  | lazyDeleteAll tags =>
    obtain rfl := Option.some.inj hstep
    exact congrArg (s.pending.lookup i).getD
      (congrFun (stores_lazyDeleteAll s.idx tags).1 i)
  | check =>
    obtain rfl := Option.some.inj hstep
    rw [Threads.check, hshows.safe.checkStatus]
    split_ifs <;> rfl
  | lock =>
    rw [Threads.step] at hstep
    split_ifs at hstep
    · obtain rfl := Option.some.inj hstep
      rfl
    · obtain rfl := Option.some.inj hstep
      rfl
  | swap =>
    rw [Threads.step] at hstep
    split_ifs at hstep
    obtain rfl := Option.some.inj hstep
    rw [Threads.swap]
    split_ifs <;> rfl
  | processDelete loc inUse times dist order =>
    obtain ⟨c, -, hrest⟩ := Option.bind_eq_some_iff.mp hstep
    split_ifs at hrest
    obtain rfl := Option.some.inj hrest
    rw [Threads.processDelete]
    split_ifs <;> rfl
  | write k =>
    obtain ⟨c, -, hrest⟩ := Option.bind_eq_some_iff.mp hstep
    obtain ⟨w, -, rfl⟩ := Option.map_eq_some_iff.mp hrest
    rfl
  | release order =>
    obtain ⟨c, hc, hrest⟩ := Option.bind_eq_some_iff.mp hstep
    split_ifs at hrest
    obtain rfl := Option.some.inj hrest
    have hslots := hshows.safe.slots
    rw [Safe.held_eq hc] at hslots
    obtain ⟨es, -, -, heq, -⟩ := hslots.release order
    rw [Threads.release, heq]
    rfl
  | unlock =>
    rw [Threads.step] at hstep
    split_ifs at hstep
    obtain rfl := Option.some.inj hstep
    rfl

/-! ## Runs -/

/-- So it does not change while the slot stays in use. -/
theorem Keeps.vectorOf_run (h : s.Keeps m) (hshows : s.Shows p m) {later : List (Action V)}
    (hfirst : Traces.Along (Threads.step p) StoredFirst s later) {i : Nat}
    (hused : Traces.Always (Threads.step p) (fun s => s.idx.Used p i) s later)
    (hrun : Traces.run (Threads.step p) s later = some s') : s'.vectorOf i = s.vectorOf i := by
  have hend : (∃ m, s'.Shows p m ∧ s'.Keeps m) ∧ s'.vectorOf i = s.vectorOf i := by
    refine Traces.run_invariant_along
      (I := fun t : Threads V => (∃ m, t.Shows p m ∧ t.Keeps m) ∧ t.vectorOf i = s.vectorOf i)
      (fun t a t' ht ha hstep => ?_) ⟨⟨m, hshows, h⟩, rfl⟩ (hfirst.and hused.along) hrun
    obtain ⟨⟨m, htshows, htkeeps⟩, hsame⟩ := ht
    obtain ⟨m', hm', hshows'⟩ := htshows.step hstep
    exact ⟨⟨m', hshows', htkeeps.step htshows ha.1 hstep hm'⟩,
      (htkeeps.vectorOf_step htshows hstep ha.2).trans hsame⟩
  exact hend.2

/-- A run without hasty releases shows the map and keeps its vectors. -/
theorem keeps_run {actions : List (Action V)}
    (hfirst : Traces.Along (step p) StoredFirst (start p) actions)
    (hrun : Traces.run (step p) (start p) actions = some s) :
    ∃ m, Traces.run SharedIndex.step (SharedIndex.create p.maxPoints) actions = some m ∧
      s.Shows p m ∧ s.Keeps m := by
  obtain ⟨m, hm, hboth, -⟩ := Traces.run_follows (P := StoredFirst)
    (R := fun s m => s.Shows p m ∧ s.Keeps m) (fun _ _ => ([] : List Unit)) (fun _ _ => [])
    (fun s m a s' h hP hstep => by
      obtain ⟨m', hm', hshows⟩ := h.1.step hstep
      exact ⟨m', hm', hshows, h.2.step h.1 hP hstep hm'⟩)
    (fun _ _ _ _ _ _ => rfl) ⟨shows_start p, keeps_start p⟩ hfirst hrun
  exact ⟨m, hm, hboth⟩

/-- Every interleaving returns what the map returns, in the order of the critical
    sections that decide; at its end the map has the tags of the index, and counts
    its deleted slots with those of the consolidation under way. -/
theorem interleavings_refine (p : IndexParams V) {actions : List (Action V)} {s : Threads V}
    (hrun : Traces.run (step p) (start p) actions = some s) :
    ∃ m, Traces.run SharedIndex.step (SharedIndex.create p.maxPoints) actions = some m ∧
      (∀ tag, (m.mini.points.lookup tag).isSome = (s.idx.tagToLocation.lookup tag).isSome) ∧
      m.mini.lazyDeleted = s.idx.deleteSet.card + s.held.card ∧
      Traces.outputs (step p) (fun s a => (s.answer p a).map withoutCalls) (start p) actions =
        Traces.outputs SharedIndex.step SharedIndex.answer (SharedIndex.create p.maxPoints)
          actions := by
  obtain ⟨m, hm, hshows, hsame⟩ := Traces.run_follows (P := fun _ _ => True)
    (fun s a => (s.answer p a).map withoutCalls) SharedIndex.answer
    (fun _ _ _ _ h _ hstep => h.step hstep) (fun _ _ _ _ h hstep => h.answer hstep)
    (shows_start p) (Traces.along_true _ actions) hrun
  exact ⟨m, hm, hshows.counted.live, hshows.counted.lazyDeleted, hsame⟩

/-- Insertions, deletions and four consolidations on three slots: one runs, one
    finds it running, one finds the counts not to add up, and one comes between the
    release of the slots and that of the lock. -/
def lineActions : List (Action ℚ) :=
  [.insertPoint 1 1, goOn 0, .insertPoint 5 2, goOn 0, goOn 0, .insertPoint 7 2, goOn 1, goOn 0,
    goOn 1, goOn 1, .lazyDelete 1, goOn 1, .check, .check, .lock, .lock, .swap, .check,
    goOver 2 true, goOver 0 false, goOver 1 true, .insertPoint 3 3, .write 0, goOver 3 true,
    .insertPoint 3 4, .lazyDelete 2, .write 0, .release .ascending, .check, .lock, .unlock,
    .insertPoint 3 4]

theorem exists_run_lineActions :
    ∃ s, Traces.run (step lineParams) (start lineParams) lineActions = some s := by
  have hend : (Traces.run (step lineParams) (start lineParams) lineActions).any
      (fun _ => true) = true := by decide +kernel
  obtain ⟨s, hs, -⟩ := Traces.exists_run hend
  exact ⟨s, hs⟩

theorem interleavings_refine_line :
    ∃ s m, Traces.run (step lineParams) (start lineParams) lineActions = some s ∧
      Traces.run SharedIndex.step (SharedIndex.create 3) lineActions = some m ∧
      Traces.outputs (step lineParams) (fun s a => (s.answer lineParams a).map withoutCalls)
          (start lineParams) lineActions =
        Traces.outputs SharedIndex.step SharedIndex.answer (SharedIndex.create 3) lineActions ∧
      Traces.outputs SharedIndex.step SharedIndex.answer (SharedIndex.create 3) lineActions =
        [.code 0, .code 0, .code (-1), .code 0, gaveUp .lockFail, gaveUp .inconsistentCountError,
          .code 0, .code (-1), .code 0, .report ⟨.success, 2, 3, 1, 1, 1, 0⟩, gaveUp .lockFail,
          .code 0] := by
  obtain ⟨s, hs⟩ := exists_run_lineActions
  obtain ⟨m, hm, -, -, hsame⟩ := interleavings_refine lineParams hs
  exact ⟨s, m, hs, hm, hsame, by decide +kernel⟩

instance (s : Threads V) : ∀ a, Decidable (s.StoredFirst a)
  | .release _ => inferInstanceAs (Decidable (∀ i ∈ s.held, i ∉ s.pending.map Prod.fst))
  | .insertPoint .. | .advance .. | .lazyDelete _ | .lazyDeleteAll _ | .check | .lock | .swap
  | .processDelete .. | .write _ | .unlock => isTrue trivial

/-- The index as it was after the first `n` actions of a run. -/
def after (p : IndexParams V) (actions : List (Action V)) (n : Nat) : Threads V :=
  (Traces.run (step p) (start p) (actions.take n)).getD (start p)

theorem run_after {actions : List (Action V)}
    (hrun : Traces.run (step p) (start p) actions = some s) (n : Nat) :
    Traces.run (step p) (start p) (actions.take n) = some (after p actions n) ∧
      Traces.run (step p) (after p actions n) (actions.drop n) = some s := by
  rw [← List.take_append_drop n actions] at hrun
  obtain ⟨t, hbefore, hlater⟩ := Traces.run_append.mp hrun
  rw [after, hbefore, Option.getD_some]
  exact ⟨rfl, hlater⟩

/-- Where no slot is released before the vector of its insertion is stored, a search
    that met the slot `i` after `met i` actions reports points of the map; a point at
    its true distance if its vector was stored by then and the slot has stayed in use
    since. -/
theorem stored_searches (p : IndexParams V) {actions : List (Action V)} {s : Threads V}
    (hrun : Traces.run (step p) (start p) actions = some s)
    (hfirst : Traces.Along (step p) StoredFirst (start p) actions) :
    ∃ m, Traces.run SharedIndex.step (SharedIndex.create p.maxPoints) actions = some m ∧
      ∀ query times (met : Nat → Nat) K L resSize, 0 < K → K ≤ L →
        ∃ report, s.searchWithTags p times
            (fun i => p.distance query ((after p actions (met i)).idx.vectors i)) K L resSize =
              some report ∧
          ∀ td ∈ report, ∃ i point, s.idx.tagToLocation.lookup td.1 = some i ∧
            m.mini.Holds td.1 point ∧
              (i ∉ (after p actions (met i)).pending.map Prod.fst →
                Traces.Always (step p) (fun s => s.idx.Used p i) (after p actions (met i))
                  (actions.drop (met i)) →
                td.2 = writtenDistance p.prune.metric (p.distance query point)) := by
  obtain ⟨m, hm, hshows, hkeeps⟩ := keeps_run hfirst hrun
  refine ⟨m, hm, fun query times met K L resSize hK hKL => ?_⟩
  obtain ⟨report, heq, -, -, hlive, -⟩ := hshows.safe.searchWithTags times
    (fun i => p.distance query ((after p actions (met i)).idx.vectors i)) hK hKL resSize
  refine ⟨report, heq, fun td htd => ?_⟩
  obtain ⟨i, hi, hd⟩ := hlive td htd
  have hpoint := hkeeps.points td.1
  rw [hi, Option.map_some] at hpoint
  refine ⟨i, s.vectorOf i, hi, hpoint, fun hstored hused => ?_⟩
  -- what the search met is what the slot has kept
  obtain ⟨hbefore, hlater⟩ := run_after hrun (met i)
  have hsplit := (List.take_append_drop (met i) actions).symm ▸ hfirst
  obtain ⟨m₀, -, hshows₀, hkeeps₀⟩ := keeps_run hsplit.left hbefore
  have hkept := hkeeps₀.vectorOf_run hshows₀ (hsplit.of_append hbefore) hused hlater
  rw [hd, hkept, vectorOf, lookup_eq_none_of_not_mem hstored]
  rfl

/-- Two insertions, one after the other; then the first point is deleted, its slot
    released, and used again for a third. -/
def reusedActions : List (Action ℚ) :=
  .insertPoint 1 1 :: List.replicate 5 (goOn 0) ++
    .insertPoint 5 2 :: List.replicate 6 (goOn 0) ++
      [.lazyDelete 1, .check, .lock, .swap, goOver 0 false, goOver 1 true, .write 0, goOver 2 true,
        goOver 3 true, .write 0, .release .ascending, .unlock, .insertPoint 3 3, goOn 0]

/-- A search that met both slots before the deletion: it reports the second point at
    its distance, and the third at that of the first, whose slot it has. -/
theorem stored_searches_reused :
    ∃ s m, Traces.run (step lineParams) (start lineParams) reusedActions = some s ∧
      Traces.run SharedIndex.step (SharedIndex.create 3) reusedActions = some m ∧
      s.searchWithTags lineParams (fun _ => 7) (fun i => lineParams.distance 4
        ((after lineParams reusedActions 13).idx.vectors i)) 3 4 0 = some [(2, 1), (3, 9)] ∧
      ∃ point, m.mini.Holds 2 point ∧ 1 = writtenDistance .L2 (lineParams.distance 4 point) := by
  have hend : (Traces.run (step lineParams) (start lineParams) reusedActions).any (fun s => decide
      (s.idx.tagToLocation.lookup 2 = some 1 ∧ s.searchWithTags lineParams (fun _ => 7)
        (fun i => lineParams.distance 4 ((after lineParams reusedActions 13).idx.vectors i)) 3 4 0 =
          some [(2, 1), (3, 9)])) = true := by decide +kernel
  obtain ⟨s, hs, hboth⟩ := Traces.exists_run hend
  obtain ⟨hslot, hwritten⟩ := of_decide_eq_true hboth
  obtain ⟨m, hm, hsearch⟩ := stored_searches lineParams hs (by decide +kernel)
  obtain ⟨report, hreport, htrue⟩ := hsearch 4 (fun _ => 7) (fun _ => 13) 3 4 0 (by decide)
    (by decide)
  rw [hwritten] at hreport
  obtain rfl := Option.some.inj hreport
  obtain ⟨i, point, hi, hpoint, hdist⟩ := htrue (2, 1) List.mem_cons_self
  rw [hslot] at hi
  obtain rfl := Option.some.inj hi
  exact ⟨s, m, hs, hm, hwritten, point, hpoint, hdist (by decide +kernel) (by decide +kernel)⟩

/-- A slot that is released too early: the insertion of the deleted point 1 still
    stores its vector there, over that of the point 5 which has the slot by now. -/
example : (Traces.run (step lineParams) (start lineParams)
    [.insertPoint 1 1, .lazyDelete 1, .check, .lock, .swap, goOver 0 false, goOver 1 false,
      goOver 2 true, goOver 3 true, .release .ascending, .insertPoint 5 2, goOn 1, goOn 0]).any
    (fun s => decide (s.idx.tagToLocation.lookup 2 = some 2 ∧ s.idx.vectors 2 = 1)) = true := by
  decide +kernel

end Threads

end QvCache.Vamana
