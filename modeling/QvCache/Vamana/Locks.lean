/-
  QvCache.Vamana.Locks

  The locks of the calls on an index (external/DiskANN/src/index.cpp), one
  instruction for each time a lock is taken or given back.  A scratch space is
  taken like a lock that as many may hold as there are spaces
  (`ScratchStoreManager`).

  `insert_point` has `_update_lock` when it waits for a scratch space, and
  `search_with_tags` has a scratch space when it waits for `_update_lock`.  That
  does no harm as long as `_update_lock` is only ever taken shared, as it is with
  concurrent consolidation; every other lock is taken above those that the thread
  has (`lockLevel`), so the calls do not deadlock (`locks_always`).
  `_consolidate_lock` is only tried, so nobody waits for it.

  The critical sections of `Threads` are pieces of these programs, and write only
  what the locks they take are there for (`sections_always`).
-/

import QvCache.Lib.Locks
import QvCache.Vamana.Interleavings

namespace QvCache.Vamana

open Locks (Mode Instr Leads)

/-- The locks of an index that a thread may have to wait for. -/
inductive Lock where
  | update
  | scratch
  | tag
  | delete
  | node (i : Nat)
deriving DecidableEq

/-- The order of the locks; `_update_lock` stands outside of it. -/
def lockLevel : Lock → WithBot Nat
  | .update => ⊥
  | .scratch => (0 : Nat)
  | .tag => (1 : Nat)
  | .delete => (2 : Nat)
  | .node _ => (3 : Nat)

/-- How many may hold a lock exclusively. -/
def lockCapacity (scratchSpaces : Nat) : Lock → Nat
  | .scratch => scratchSpaces
  | _ => 1

/-! ## Programs -/

/-- A section of its own under a lock. -/
def lockOnce (l : Lock) : List (Instr Lock) := [.acquire l .exclusive, .release l .exclusive]

/-- `insert_point` and `lazy_delete`, from `_update_lock` to where `_tag_lock` is given
    back.  An insertion gives `_delete_lock` back before it stores the tag; only the swap
    of a consolidation can come in between, and it leaves the tags and slots alone. -/
def tagSection : List (Instr Lock) :=
  [.acquire .update .shared, .acquire .tag .exclusive, .acquire .delete .exclusive,
    .release .delete .exclusive, .release .tag .exclusive]

/-- A search that expands the nodes `expanded`. -/
def expandSection (expanded : List Nat) : List (Instr Lock) :=
  expanded.flatMap fun n => lockOnce (.node n)

/-- The links of a new point. -/
def linkSection (location : Nat) : List (Instr Lock) :=
  [.acquire .tag .shared, .acquire (.node location) .exclusive, .release .tag .shared,
    .release (.node location) .exclusive]

/-- A link back, whose list may have to be written in a section of its own. -/
def backSection (des : Nat × Bool) : List (Instr Lock) :=
  lockOnce (.node des.1) ++ if des.2 then lockOnce (.node des.1) else []

/-- The checks in front of a consolidation. -/
def checkSection : List (Instr Lock) :=
  [.acquire .update .shared, .acquire .tag .shared, .acquire .delete .shared,
    .release .delete .shared, .release .tag .shared, .release .update .shared]

/-- What `process_delete` reads: the list of the node, and those of its deleted
    neighbours. -/
def readSection (loc : Nat) (deleted : List Nat) : List (Instr Lock) :=
  .acquire .scratch .exclusive :: lockOnce (.node loc) ++ expandSection deleted

/-- `process_delete` of a node with its deleted neighbours. -/
def repairSection (loc : Nat × List Nat) : List (Instr Lock) :=
  readSection loc.1 loc.2 ++ (if loc.2 = [] then [] else lockOnce (.node loc.1)) ++
    [.release .scratch .exclusive]

/-- The release of the slots. -/
def releaseSection : List (Instr Lock) :=
  [.acquire .tag .exclusive, .acquire .delete .shared, .release .delete .shared,
    .release .tag .exclusive]

/-- A call, with the nodes that it comes to. -/
inductive LockCall where
  | insertRefused
  | insertPoint (expanded : List Nat) (location : Nat) (srcPool : List (Nat × Bool))
  | lazyDelete
  | consolidateRefused
  | consolidateDeletes (workers : List (List (Nat × List Nat))) (frozen : Nat × List Nat)
  | searchWithTags (expanded : List Nat)
  | getNumberOfActiveVectors
  | getNumberOfLazyDeletedPoints

/-- The programs of a call, stage by stage.  The parallel loop of a consolidation is a
    stage with one program for each of its threads. -/
def LockCall.program : LockCall → List (List (List (Instr Lock)))
  | .insertRefused => [[tagSection ++ [.release .update .shared]]]
  | .insertPoint expanded location srcPool =>
    -- the scratch space is given back at the end of the call, in front of `_update_lock`
    [[tagSection ++ (.acquire .scratch .exclusive :: expandSection expanded) ++
      linkSection location ++ srcPool.flatMap backSection ++
      [.release .scratch .exclusive, .release .update .shared]]]
  | .lazyDelete => [[tagSection ++ [.release .update .shared]]]
  | .consolidateRefused => [[checkSection]]
  | .consolidateDeletes workers frozen =>
    [[checkSection ++ lockOnce .delete], workers.map fun locs => locs.flatMap repairSection,
      [repairSection frozen ++ releaseSection]]
  | .searchWithTags expanded =>
    -- here the scratch space comes first
    [[(.acquire .scratch .exclusive :: .acquire .update .shared :: expandSection expanded) ++
      [.acquire .tag .shared, .release .tag .shared, .release .update .shared,
        .release .scratch .exclusive]]]
  | .getNumberOfActiveVectors => [[[.acquire .tag .shared, .release .tag .shared]]]
  | .getNumberOfLazyDeletedPoints => [[[.acquire .delete .shared, .release .delete .shared]]]

/-! ## The order of the locks -/

abbrev updateHeld : List (Lock × Mode) := [(.update, .shared)]

/-- What an insertion has once it has a scratch space. -/
abbrev scratchHeld : List (Lock × Mode) := [(.scratch, .exclusive), (.update, .shared)]

theorem lockLevel_ne_bot {l : Lock} (h : l ≠ .update) : lockLevel l ≠ ⊥ := by
  cases l with
  | update => exact absurd rfl h
  | scratch | tag | delete | node => exact WithBot.coe_ne_bot

/-- A lock other than `_update_lock` that is taken above those that the thread has. -/
theorem leads_acquire {held held' : List (Lock × Mode)} {rest : List (Instr Lock)} {l : Lock}
    {mode : Mode} (hl : l ≠ .update) (habove : ∀ h ∈ held, lockLevel h.1 < lockLevel l)
    (hrest : Leads lockLevel ((l, mode) :: held) rest held') :
    Leads lockLevel held (.acquire l mode :: rest) held' :=
  .acquire (fun hbot => absurd hbot (lockLevel_ne_bot hl)) (fun _ => habove) hrest

/-- `_update_lock` may be taken at any time. -/
theorem leads_update {held held' : List (Lock × Mode)} {rest : List (Instr Lock)}
    (hrest : Leads lockLevel ((.update, .shared) :: held) rest held') :
    Leads lockLevel held (.acquire .update .shared :: rest) held' :=
  .acquire (fun _ => rfl) (fun hne => absurd rfl hne) hrest

/-- The lock that was taken last is given back. -/
theorem leads_release {held held' : List (Lock × Mode)} {rest : List (Instr Lock)} {l : Lock}
    {mode : Mode} (hrest : Leads lockLevel held rest held') :
    Leads lockLevel ((l, mode) :: held) (.release l mode :: rest) held' := by
  refine .release List.mem_cons_self ?_
  rwa [List.erase_cons_head]

theorem leads_lockOnce {held : List (Lock × Mode)} {l : Lock} (hl : l ≠ .update)
    (habove : ∀ h ∈ held, lockLevel h.1 < lockLevel l) :
    Leads lockLevel held (lockOnce l) held :=
  leads_acquire hl habove (leads_release (.nil held))

/-- Below the nodes is where a thread is with anything but a node. -/
theorem leads_node {held : List (Lock × Mode)} (habove : ∀ h ∈ held, lockLevel h.1 < (3 : Nat))
    (i : Nat) : Leads lockLevel held (lockOnce (.node i)) held :=
  leads_lockOnce Lock.noConfusion habove

theorem leads_expandSection {held : List (Lock × Mode)}
    (habove : ∀ h ∈ held, lockLevel h.1 < (3 : Nat)) (expanded : List Nat) :
    Leads lockLevel held (expandSection expanded) held :=
  .flatMap fun i _ => leads_node habove i

theorem updateHeld_lt {l : Lock} (hl : l ≠ .update) :
    ∀ h ∈ updateHeld, lockLevel h.1 < lockLevel l := by
  intro h hh
  rw [List.mem_singleton.mp hh]
  exact WithBot.bot_lt_iff_ne_bot.mpr (lockLevel_ne_bot hl)

theorem scratchHeld_lt {l : Lock} (hl : (0 : Nat) < lockLevel l) :
    ∀ h ∈ scratchHeld, lockLevel h.1 < lockLevel l := by
  intro h hh
  rcases List.mem_cons.mp hh with rfl | hh
  · exact hl
  · rw [List.mem_singleton.mp hh]
    exact WithBot.bot_lt_iff_ne_bot.mpr (ne_bot_of_gt hl)

theorem leads_tagSection : Leads lockLevel [] tagSection updateHeld :=
  leads_update <| leads_acquire Lock.noConfusion (updateHeld_lt Lock.noConfusion) <|
    leads_acquire Lock.noConfusion (by decide) <| leads_release <| leads_release <| .nil _

theorem leads_linkSection (location : Nat) :
    Leads lockLevel scratchHeld (linkSection location) scratchHeld := by
  refine leads_acquire Lock.noConfusion (scratchHeld_lt (by decide)) ?_
  refine leads_acquire Lock.noConfusion (fun h hh => ?_) (.release ?_ ?_)
  · rcases List.mem_cons.mp hh with rfl | hh
    · show (1 : WithBot Nat) < 3
      decide
    · exact scratchHeld_lt (l := .node location) (show (0 : WithBot Nat) < 3 by decide) h hh
  · exact List.mem_cons_of_mem _ List.mem_cons_self
  · -- the node is given back after the tags, although it was taken after them
    have herase : ((Lock.node location, Mode.exclusive) :: (Lock.tag, Mode.shared) ::
        scratchHeld).erase (Lock.tag, Mode.shared) =
          (Lock.node location, Mode.exclusive) :: scratchHeld := by
      rw [List.erase_cons_tail (by simp), List.erase_cons_head]
    rw [herase]
    exact leads_release (.nil _)

theorem leads_backSection (des : Nat × Bool) :
    Leads lockLevel scratchHeld (backSection des) scratchHeld := by
  have hnode := leads_node (scratchHeld_lt (l := .node des.1)
    (show (0 : WithBot Nat) < 3 by decide)) des.1
  refine hnode.append ?_
  split_ifs
  · exact hnode
  · exact .nil _

theorem leads_checkSection : Leads lockLevel [] checkSection [] :=
  leads_update <| leads_acquire Lock.noConfusion (updateHeld_lt Lock.noConfusion) <|
    leads_acquire Lock.noConfusion (by decide) <| leads_release <| leads_release <|
      leads_release <| .nil _

theorem leads_readSection (loc : Nat) (deleted : List Nat) :
    Leads lockLevel [] (readSection loc deleted) [(.scratch, .exclusive)] := by
  have hbelow : ∀ h ∈ [((.scratch, .exclusive) : Lock × Mode)], lockLevel h.1 < (3 : Nat) := by
    decide
  exact leads_acquire Lock.noConfusion (fun _ hh => absurd hh List.not_mem_nil)
    ((leads_node hbelow loc).append (leads_expandSection hbelow deleted))

theorem leads_repairSection (loc : Nat × List Nat) :
    Leads lockLevel [] (repairSection loc) [] := by
  refine ((leads_readSection loc.1 loc.2).append ?_).append (leads_release (.nil []))
  split_ifs
  · exact .nil _
  · exact leads_node (by decide) loc.1

theorem leads_releaseSection : Leads lockLevel [] releaseSection [] :=
  leads_acquire Lock.noConfusion (by decide) <| leads_acquire Lock.noConfusion (by decide) <|
    leads_release <| leads_release <| .nil _

/-- Every program of a call keeps to the order. -/
theorem leads_program (call : LockCall) :
    ∀ stage ∈ call.program, ∀ prog ∈ stage, Leads lockLevel [] prog [] := by
  have hone : ∀ {prog : List (Instr Lock)}, Leads lockLevel [] prog [] →
      ∀ stage ∈ [[prog]], ∀ prog' ∈ stage, Leads lockLevel [] prog' [] := by
    intro prog h stage hstage prog' hprog'
    rw [List.mem_singleton.mp hstage] at hprog'
    exact List.mem_singleton.mp hprog' ▸ h
  have hdelete : Leads lockLevel [] (tagSection ++ [.release .update .shared]) [] :=
    leads_tagSection.append (leads_release (.nil []))
  cases call with
  | insertRefused => exact hone hdelete
  | lazyDelete => exact hone hdelete
  | insertPoint expanded location srcPool =>
    -- section by section, from nothing held to nothing held
    refine hone ((((leads_tagSection.append ?_).append (leads_linkSection location)).append
      (.flatMap fun des _ => leads_backSection des)).append
        (leads_release (leads_release (.nil []))))
    exact leads_acquire Lock.noConfusion (updateHeld_lt Lock.noConfusion)
      (leads_expandSection (by decide) expanded)
  | consolidateRefused => exact hone leads_checkSection
  | consolidateDeletes workers frozen =>
    intro stage hstage prog hprog
    rcases List.mem_cons.mp hstage with rfl | hstage
    · rw [List.mem_singleton.mp hprog]
      exact leads_checkSection.append (leads_lockOnce Lock.noConfusion (by decide))
    rcases List.mem_cons.mp hstage with rfl | hstage
    · obtain ⟨locs, -, rfl⟩ := List.mem_map.mp hprog
      exact .flatMap fun loc _ => leads_repairSection loc
    · rw [List.mem_singleton.mp hstage] at hprog
      rw [List.mem_singleton.mp hprog]
      exact (leads_repairSection frozen).append leads_releaseSection
  | searchWithTags expanded =>
    -- `_update_lock` is taken below the scratch space, which only a shared use may do
    refine hone (Leads.append (leads_acquire Lock.noConfusion (by decide)
      (leads_update (leads_expandSection (by decide) expanded))) ?_)
    exact leads_acquire Lock.noConfusion (by decide) <| leads_release <| leads_release <|
      leads_release <| .nil []
  | getNumberOfActiveVectors =>
    exact hone (leads_acquire Lock.noConfusion (by decide) (leads_release (.nil [])))
  | getNumberOfLazyDeletedPoints =>
    exact hone (leads_acquire Lock.noConfusion (by decide) (leads_release (.nil [])))

/-- Any number of calls, whoever gets the locks that are free: nobody has a lock beside
    an exclusive use of it and no scratch space is had twice, someone can go on as
    long as there is a call under way, and all of them come to an end. -/
theorem locks_always {scratchSpaces : Nat} (P : Locks.Policy (lockCapacity scratchSpaces))
    (actions : List (Locks.Action LockCall)) :
    Traces.Always (Locks.step LockCall.program P) (fun s =>
      (∀ l, .exclusive ∈ Locks.holders s l →
        (Locks.holders s l).length ≤ lockCapacity scratchSpaces l) ∧
      (¬ Locks.Finished s →
        ∃ a t, a.Internal ∧ Locks.step LockCall.program P s a = some t) ∧
      ∀ rest t, (∀ a ∈ rest, a.Internal) →
        Traces.run (Locks.step LockCall.program P) s rest = some t →
          rest.length + Locks.work t ≤ Locks.work s) [] actions :=
  Locks.ordered_always leads_program P actions

theorem lockCapacity_pos {scratchSpaces : Nat} (h : 0 < scratchSpaces) (l : Lock) :
    0 < lockCapacity scratchSpaces l := by
  cases l with
  | scratch => exact h
  | update | tag | delete | node => exact Nat.one_pos

/-- Without concurrent consolidation `consolidate_deletes` has `_update_lock` for itself
    when it comes to a scratch space.  A search that has the last of these and the
    consolidation wait for each other. -/
example :
    let next := Locks.step (fun prog : List (Instr Lock) => [[prog]])
      (Locks.Policy.anyone (lockCapacity_pos Nat.one_pos))
    (Traces.run next []
      [.call [.acquire .update .exclusive, .acquire .scratch .exclusive],
        .call [.acquire .scratch .exclusive, .acquire .update .shared],
        .next 0, .next 1, .go 0 0, .go 1 0]).map
      (fun s => (next s (.go 0 0)).isNone && (next s (.go 1 0)).isNone) = some true := by
  decide

/-! ## Critical sections -/

section Sections

variable {V : Type} {p : IndexParams V} {s s' : Threads V}

/-- The next section of an insertion, whose search expands the nodes `expanded`. -/
def Insertion.sectionLocks (ins : Insertion V) (expanded : List Nat) : List (Instr Lock) :=
  match ins.phase with
  | .storeVector _ => []
  | .search => .acquire .scratch .exclusive :: expandSection expanded
  | .link _ => linkSection ins.location
  | .interInsert [] => [.release .scratch .exclusive, .release .update .shared]
  | .interInsert (des :: _) => lockOnce (.node des)
  | .setPruned des _ _ => lockOnce (.node des)

/-- One slot of the loop of a consolidation, which reads the lists `reads`. -/
def Consolidation.sectionLocks (p : IndexParams V) (c : Consolidation) (reads : Nat → List Nat)
    (loc : Nat) (inUse : Bool) : List (Instr Lock) :=
  if loc ≠ Index.start p ∧ (loc ∈ c.oldDeleteSet ∨ inUse = false) then []
  else
    readSection loc ((reads loc).filter fun ngh => decide (ngh ∈ c.oldDeleteSet)) ++
      if Index.needsRepair reads c.oldDeleteSet loc then [] else [.release .scratch .exclusive]

/-- The locks that a critical section takes and gives back. -/
def Threads.sectionLocks (p : IndexParams V) (s : Threads V) (expanded : List Nat) :
    Action V → List (Instr Lock)
  | .insertPoint point tag =>
    tagSection ++
      -- a refused insertion is at its end
      if (s.insertPoint p point tag).insertions.length = s.insertions.length then
        [.release .update .shared]
      else []
  | .advance k _ _ _ => (s.insertions[k]?).elim [] fun ins => ins.sectionLocks expanded
  | .lazyDelete _ | .lazyDeleteAll _ => tagSection ++ [.release .update .shared]
  | .check => checkSection
  | .lock | .unlock => []
  | .swap => lockOnce .delete
  | .processDelete loc inUse times _ _ =>
    s.consolidation.elim [] fun c => c.sectionLocks p (s.reads times) loc inUse
  | .write k =>
    s.consolidation.elim [] fun c =>
      (c.writes[k]?).elim [] fun w => lockOnce (.node w.1) ++ [.release .scratch .exclusive]
  | .release _ => releaseSection

/-- A piece of the program of a call. -/
def IsPiece (locks : List (Instr Lock)) : Prop :=
  ∃ call : LockCall, ∃ stage ∈ call.program, ∃ prog ∈ stage, locks <:+: prog

theorem isPiece_nil : IsPiece [] :=
  ⟨.lazyDelete, _, List.mem_singleton_self _, _, List.mem_singleton_self _, List.nil_infix⟩

theorem isPiece_tagSection : IsPiece tagSection :=
  ⟨.lazyDelete, _, List.mem_singleton_self _, _, List.mem_singleton_self _,
    List.infix_append_left⟩

theorem isPiece_lazyDelete : IsPiece (tagSection ++ [.release .update .shared]) :=
  ⟨.lazyDelete, _, List.mem_singleton_self _, _, List.mem_singleton_self _, List.infix_rfl⟩

theorem isPiece_insertPoint {locks : List (Instr Lock)} (expanded : List Nat) (location : Nat)
    (srcPool : List (Nat × Bool))
    (h : locks <:+: tagSection ++ (.acquire .scratch .exclusive :: expandSection expanded) ++
      linkSection location ++ srcPool.flatMap backSection ++
      [.release .scratch .exclusive, .release .update .shared]) : IsPiece locks :=
  ⟨.insertPoint expanded location srcPool, _, List.mem_singleton_self _, _,
    List.mem_singleton_self _, h⟩

theorem isPiece_repairSection {locks : List (Instr Lock)} (loc : Nat × List Nat)
    (h : locks <:+: repairSection loc) : IsPiece locks :=
  ⟨.consolidateDeletes [] loc, _,
    List.mem_cons_of_mem _ (List.mem_cons_of_mem _ List.mem_cons_self), _,
    List.mem_singleton_self _, h.trans List.infix_append_left⟩

theorem isPiece_insertion (ins : Insertion V) (expanded : List Nat) :
    IsPiece (ins.sectionLocks expanded) := by
  have hnode : ∀ des, IsPiece (lockOnce (.node des)) := by
    intro des
    refine isPiece_insertPoint [] 0 [(des, false)] ?_
    refine List.infix_append_of_infix_left (List.infix_append_of_infix_right ?_)
    exact List.infix_append_left
  rw [Insertion.sectionLocks]
  split
  · exact isPiece_nil
  · refine isPiece_insertPoint expanded 0 [] ?_
    iterate 3 refine List.infix_append_of_infix_left ?_
    exact List.infix_append_right
  · refine isPiece_insertPoint [] ins.location [] ?_
    iterate 2 refine List.infix_append_of_infix_left ?_
    exact List.infix_append_right
  · exact isPiece_insertPoint [] 0 [] List.infix_append_right
  · exact hnode _
  · exact hnode _

theorem isPiece_consolidation (p : IndexParams V) (c : Consolidation) (reads : Nat → List Nat)
    (loc : Nat) (inUse : Bool) : IsPiece (c.sectionLocks p reads loc inUse) := by
  rw [Consolidation.sectionLocks]
  split
  · exact isPiece_nil
  · refine isPiece_repairSection
      (loc, (reads loc).filter fun ngh => decide (ngh ∈ c.oldDeleteSet)) ?_
    rw [repairSection]
    by_cases hrepair : Index.needsRepair reads c.oldDeleteSet loc = true
    · rw [if_pos hrepair, List.append_nil]
      exact List.infix_append_of_infix_left List.infix_append_left
    · -- nothing is deleted, so nothing is written
      have hnone : (reads loc).filter (fun ngh => decide (ngh ∈ c.oldDeleteSet)) = [] := by
        refine List.filter_eq_nil_iff.mpr fun ngh hngh hdeleted => hrepair ?_
        exact List.any_eq_true.mpr ⟨ngh, hngh, hdeleted⟩
      rw [if_neg hrepair, if_pos hnone, List.append_nil]

theorem isPiece_sectionLocks (p : IndexParams V) (s : Threads V) (expanded : List Nat)
    (a : Action V) : IsPiece (s.sectionLocks p expanded a) := by
  cases a with
  | insertPoint point tag =>
    rw [Threads.sectionLocks]
    split_ifs
    · exact isPiece_lazyDelete
    · rw [List.append_nil]
      exact isPiece_tagSection
  | advance k times queryDist dist =>
    rw [Threads.sectionLocks]
    cases s.insertions[k]? with
    | none => exact isPiece_nil
    | some ins => exact isPiece_insertion ins expanded
  | lazyDelete | lazyDeleteAll => exact isPiece_lazyDelete
  | check => exact ⟨.consolidateRefused, _, List.mem_singleton_self _, _,
      List.mem_singleton_self _, List.infix_rfl⟩
  | lock | unlock => exact isPiece_nil
  | swap => exact ⟨.consolidateDeletes [] (0, []), _, List.mem_cons_self, _,
      List.mem_singleton_self _, List.infix_append_right⟩
  | processDelete loc inUse times dist order =>
    rw [Threads.sectionLocks]
    cases s.consolidation with
    | none => exact isPiece_nil
    | some c => exact isPiece_consolidation p c (s.reads times) loc inUse
  | write k =>
    rw [Threads.sectionLocks]
    cases s.consolidation with
    | none => exact isPiece_nil
    | some c =>
      rw [Option.elim_some]
      cases c.writes[k]? with
      | none => exact isPiece_nil
      | some w =>
        -- the end of a repair of the node; which deleted neighbours it had does not matter
        refine isPiece_repairSection (w.1, [w.1]) ?_
        rw [Option.elim_some, repairSection, List.append_assoc]
        exact List.infix_append_right
  | release order =>
    exact ⟨.consolidateDeletes [] (0, []), _,
      List.mem_cons_of_mem _ (List.mem_cons_of_mem _ List.mem_cons_self), _,
      List.mem_singleton_self _, List.infix_append_right⟩

/-- What is different afterwards has been written under the lock that is there for it.
    The vectors have no lock. -/
structure Guarded (locks : List (Instr Lock)) (idx idx' : Index V) : Prop where
  tags : .acquire .tag .exclusive ∈ locks ∨
    idx'.tagToLocation = idx.tagToLocation ∧ idx'.locationToTag = idx.locationToTag ∧
      idx'.emptySlots = idx.emptySlots ∧ idx'.nd = idx.nd ∧ idx'.dataCompacted = idx.dataCompacted
  deleteSet : .acquire .delete .exclusive ∈ locks ∨ idx'.deleteSet = idx.deleteSet
  graph : ∀ i, .acquire (.node i) .exclusive ∈ locks ∨ idx'.graph i = idx.graph i

theorem Guarded.refl (locks : List (Instr Lock)) (idx : Index V) : Guarded locks idx idx :=
  ⟨Or.inr ⟨rfl, rfl, rfl, rfl, rfl⟩, Or.inr rfl, fun _ => Or.inr rfl⟩

theorem Guarded.setVector (locks : List (Instr Lock)) (idx : Index V) (i : Nat) (point : V) :
    Guarded locks idx (idx.setVector i point) :=
  ⟨Or.inr ⟨rfl, rfl, rfl, rfl, rfl⟩, Or.inr rfl, fun _ => Or.inr rfl⟩

theorem Guarded.setNeighbours {locks : List (Instr Lock)} {i : Nat}
    (h : .acquire (.node i) .exclusive ∈ locks) (idx : Index V) (l : List Nat) :
    Guarded locks idx (idx.setNeighbours i l) where
  tags := Or.inr ⟨rfl, rfl, rfl, rfl, rfl⟩
  deleteSet := Or.inr rfl
  graph j := by
    by_cases hj : j = i
    · exact Or.inl (hj ▸ h)
    · right
      rw [Index.setNeighbours]
      exact Function.update_of_ne hj l idx.graph

/-- Both locks are taken, and the graph is left alone. -/
theorem guarded_tagSection {locks : List (Instr Lock)} {idx idx' : Index V}
    (hgraph : idx'.graph = idx.graph) : Guarded (tagSection ++ locks) idx idx' where
  tags := Or.inl (List.mem_append_left _ (by decide))
  deleteSet := Or.inl (List.mem_append_left _ (by decide))
  graph i := Or.inr (congrFun hgraph i)

namespace Threads

theorem Safe.graph_insertPoint (h : s.Safe p) (point : V) (tag : Tag) :
    (s.insertPoint p point tag).idx.graph = s.idx.graph := by
  obtain ⟨-, heq, -⟩ | ⟨-, location, rest, -, heq, -⟩ := h.insertPoint_cases point tag
  · rw [heq]
    rfl
  · rw [heq]
    rfl

theorem guarded_advance (s : Threads V) {k : Nat} (ins : Insertion V) (expanded : List Nat)
    (times : Nat → Nat) (queryDist : Nat → ℚ) (dist : Nat → Nat → ℚ) :
    Guarded (ins.sectionLocks expanded) s.idx
      (s.advance p k ins times queryDist dist).idx := by
  obtain ⟨location, phase⟩ := ins
  rw [advance, Insertion.sectionLocks]
  cases phase with
  | storeVector point => exact .setVector _ s.idx location point
  | search =>
    dsimp only
    split <;> exact .refl _ _
  | link prunedList =>
    dsimp only
    split_ifs
    · exact .setNeighbours (by simp [linkSection]) s.idx _
    · exact .refl _ _
  | interInsert srcPool =>
    cases srcPool with
    | nil => exact .refl _ _
    | cons des rest =>
      dsimp only
      split_ifs
      · exact .refl _ _
      · exact .refl _ _
      · exact .setNeighbours List.mem_cons_self s.idx _
      · exact .refl _ _
  | setPruned des copyOfNeighbors rest => exact .setNeighbours List.mem_cons_self s.idx _

theorem Safe.guarded (h : s.Safe p) {a : Action V} (hstep : s.step p a = some s')
    (expanded : List Nat) : Guarded (s.sectionLocks p expanded a) s.idx s'.idx := by
  cases a with
  | insertPoint point tag =>
    rw [Threads.step] at hstep
    split_ifs at hstep
    exact Option.some.inj hstep ▸ guarded_tagSection (h.graph_insertPoint point tag)
  | advance k times queryDist dist =>
    obtain ⟨ins, hins, rfl⟩ := Option.map_eq_some_iff.mp hstep
    -- the graph is all that an insertion writes from here on, apart from its vector
    rw [sectionLocks, hins]
    exact guarded_advance s ins expanded times queryDist dist
  | lazyDelete tag =>
    obtain rfl := Option.some.inj hstep
    rw [(h.lazyDelete tag).1]
    exact guarded_tagSection (Index.graph_lazyDelete s.idx tag)
  | lazyDeleteAll tags =>
    obtain rfl := Option.some.inj hstep
    exact guarded_tagSection (Index.graph_lazyDeleteAll s.idx tags)
  | check =>
    obtain rfl := Option.some.inj hstep
    rw [Threads.check]
    split <;> exact .refl _ _
  | lock =>
    rw [Threads.step] at hstep
    split_ifs at hstep <;> exact Option.some.inj hstep ▸ .refl _ _
  | swap =>
    rw [Threads.step] at hstep
    split_ifs at hstep
    obtain rfl := Option.some.inj hstep
    -- the start is never deleted, so the swap goes through
    rw [h.swap_eq]
    exact ⟨Or.inr ⟨rfl, rfl, rfl, rfl, rfl⟩, Or.inl List.mem_cons_self, fun _ => Or.inr rfl⟩
  | processDelete loc inUse times dist order =>
    obtain ⟨c, hc, hrest⟩ := Option.bind_eq_some_iff.mp hstep
    split_ifs at hrest
    obtain rfl := Option.some.inj hrest
    rw [Threads.processDelete]
    split_ifs <;> exact .refl _ _
  | write k =>
    obtain ⟨c, hc, hrest⟩ := Option.bind_eq_some_iff.mp hstep
    obtain ⟨w, hw, rfl⟩ := Option.map_eq_some_iff.mp hrest
    rw [sectionLocks, hc, Option.elim_some, hw]
    exact .setNeighbours List.mem_cons_self s.idx _
  | release order =>
    obtain ⟨c, hc, hrest⟩ := Option.bind_eq_some_iff.mp hstep
    split_ifs at hrest
    obtain rfl := Option.some.inj hrest
    -- all deleted slots of the consolidation are released, and nothing else changes
    have hslots := h.slots
    rw [Safe.held_eq hc] at hslots
    obtain ⟨es, -, -, heq, -⟩ := hslots.release order
    rw [Threads.release, heq]
    exact ⟨Or.inl List.mem_cons_self, Or.inr rfl, fun _ => Or.inr rfl⟩
  | unlock =>
    rw [Threads.step] at hstep
    split_ifs at hstep
    exact Option.some.inj hstep ▸ .refl _ _

/-- In every interleaving the locks of each critical section are a piece of the
    program of a call, and the section writes the tags, the empty slots, the delete
    set and the lists only under the locks that are there for them. -/
theorem sections_always (p : IndexParams V) (actions : List (Action V)) :
    Traces.Always (step p) (fun s => ∀ expanded a t, s.step p a = some t →
      (∃ call : LockCall, ∃ stage ∈ call.program, ∃ prog ∈ stage,
        s.sectionLocks p expanded a <:+: prog) ∧
      Guarded (s.sectionLocks p expanded a) s.idx t.idx) (start p) actions :=
  (safe_always p actions).mono fun s h expanded a _ hstep =>
    ⟨isPiece_sectionLocks p s expanded a, h.guarded hstep expanded⟩

end Threads

end Sections

end QvCache.Vamana
