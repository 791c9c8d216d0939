/-
  QvCache.Backend.LocalView

  When does `PgVectorBackend` serve what its table holds?  A call that goes
  through changes both alike.  A call whose statement fails changes what is
  served and nothing else, so the two stay together exactly if it had nothing to
  change (`Moot`); and it leaves `overlay_` and `removed_ids_` as they were
  exactly if they held its outcome already (`Repeats`).
-/

import QvCache.Backend.PgVector

namespace QvCache

namespace PgVectorBackend

variable {V : Type} {cfg : PgVectorConfig V} {s : PgVectorBackend V}

/-- Every fetch returns what the table holds; only a lost connection keeps it
    from returning. -/
structure ServesTable (cfg : PgVectorConfig V) (s : PgVectorBackend V) : Prop where
  returns : ∀ asked : List (UInt32 × SqlReply), (∀ a ∈ asked, ∀ what, a.2 ≠ .noConnection what) →
    ∃ out, s.fetchVectorsByIds cfg asked = .ok out
  agrees : ∀ asked out, s.fetchVectorsByIds cfg asked = .ok out →
    out = asked.map fun a => s.held cfg a.1

/-- A call that throws leaves the two layers as they were. -/
def KeepsLayers (cfg : PgVectorConfig V) (s : PgVectorBackend V) (w : Write V) : Prop :=
  (∃ what, (s.write cfg w).2 = .error what) → ∀ k,
    (s.write cfg w).1.overlay.lookup k = s.overlay.lookup k ∧
      (k ∈ (s.write cfg w).1.removedIds ↔ k ∈ s.removedIds)

/-- Where the statement fails, the table would have read the same after it. -/
def Moot (cfg : PgVectorConfig V) (s : PgVectorBackend V) (w : Write V) : Prop :=
  ∀ id target, w.target = some (id, target) → w.reply ≠ .done →
    s.held cfg id = target.getD cfg.zeros

/-- Where the statement fails, the layers hold what the call writes to them. -/
def Repeats (s : PgVectorBackend V) (w : Write V) : Prop :=
  ∀ id target, w.target = some (id, target) → w.reply ≠ .done →
    s.overlay.lookup id = target ∧ (id ∈ s.removedIds ↔ target = none)

/-! ## One call -/

theorem servesTable_iff (hs : s.Untouched cfg) :
    ServesTable cfg s ↔ ∀ id, s.served cfg id = s.held cfg id := by
  constructor
  · intro h id
    -- a fetch of this one id, which reads the row if no layer answers
    obtain ⟨out, hout⟩ := h.returns [(id, .done)] (by simp)
    have hserved := (served_of_fetchVectorsByIds hs hout).symm.trans (h.agrees _ out hout)
    exact List.head_eq_of_cons_eq hserved
  · intro h
    refine ⟨fun asked => fetchVectorsByIds_returns cfg s, fun asked out hout => ?_⟩
    rw [served_of_fetchVectorsByIds hs hout]
    exact List.map_congr_left fun a _ => h a.1

theorem served_held_write (h : ∀ id, s.served cfg id = s.held cfg id) (w : Write V) :
    (∀ k, (s.write cfg w).1.served cfg k = (s.write cfg w).1.held cfg k) ↔ Moot cfg s w := by
  cases htarget : w.target with
  | none =>
    -- an insert without a vector throws before it changes anything
    rw [write_of_target_none htarget]
    exact iff_of_true h fun id target hsome => nomatch htarget.symm.trans hsome
  | some t =>
    obtain ⟨id, target⟩ := t
    simp only [served_write htarget, held_write htarget]
    constructor
    · intro hall id' target' hsome hfails
      obtain ⟨rfl, rfl⟩ := Prod.mk.inj (Option.some.inj (htarget.symm.trans hsome))
      -- served is the outcome, held is still the old row
      have hid := hall id
      rw [if_pos rfl, if_neg fun hboth => hfails hboth.1] at hid
      exact hid.symm
    · intro hmoot k
      -- the call concerns one id, the views of the others stay
      by_cases hk : k = id
      · subst hk
        by_cases hdone : w.reply = .done
        · rw [if_pos rfl, if_pos ⟨hdone, rfl⟩]
        · rw [if_pos rfl, if_neg fun hboth => hdone hboth.1]
          exact (hmoot k target htarget hdone).symm
      · rw [if_neg hk, if_neg fun hboth => hk hboth.2]
        exact h k

/-- A call keeps the two views together exactly if it is moot where it fails. -/
theorem servesTable_write (hs : s.Untouched cfg) (h : ServesTable cfg s) (w : Write V) :
    ServesTable cfg (s.write cfg w).1 ↔ Moot cfg s w :=
  (servesTable_iff (untouched_write hs w)).trans
    (served_held_write ((servesTable_iff hs).mp h) w)

theorem keepsLayers_iff (w : Write V) : KeepsLayers cfg s w ↔ Repeats s w := by
  unfold KeepsLayers
  rw [write_throws_iff]
  cases htarget : w.target with
  | none =>
    rw [write_of_target_none htarget]
    exact iff_of_true (fun _ _ => ⟨rfl, Iff.rfl⟩) fun id target hsome =>
      nomatch htarget.symm.trans hsome
  | some t =>
    obtain ⟨id, target⟩ := t
    constructor
    · intro hkeeps id' target' hsome hfails
      obtain ⟨rfl, rfl⟩ := Prod.mk.inj (Option.some.inj (htarget.symm.trans hsome))
      obtain ⟨hlook, hmem⟩ := hkeeps (Or.inr hfails) id
      obtain ⟨hlook', hmem'⟩ := layers_write cfg s htarget id
      rw [if_pos rfl] at hlook' hmem'
      exact ⟨hlook.symm.trans hlook', hmem.symm.trans hmem'⟩
    · intro hrepeats hthrows k
      -- with an id to write, only the statement throws
      have hfails := hthrows.resolve_left nofun
      obtain ⟨hlook, hmem⟩ := hrepeats id target htarget hfails
      obtain ⟨hlook', hmem'⟩ := layers_write cfg s htarget k
      rw [hlook', hmem']
      split_ifs with hk
      · exact hk ▸ ⟨hlook.symm, hmem.symm⟩
      · exact ⟨rfl, Iff.rfl⟩

/-- What is in the layers is what is served. -/
theorem moot_of_repeats (h : ∀ id, s.served cfg id = s.held cfg id) {w : Write V}
    (hrepeats : Repeats s w) : Moot cfg s w := by
  intro id target htarget hfails
  obtain ⟨hlook, hmem⟩ := hrepeats id target htarget hfails
  rw [← h id]
  unfold served
  rw [hlook, if_congr hmem rfl rfl]
  cases target <;> rfl

/-! ## Any sequence of calls -/

/-- From a table that holds the base file's rows, over any sequence of calls:
    the fetches agree with the table throughout if and only if every failing
    call is moot, and calls that throw leave the layers alone as well if and only
    if every failing call repeats what they hold. -/
theorem servesTable_always_iff {rows : Table UInt32 (Row V)} (hloaded : Loaded cfg rows)
    (ws : List (Write V)) :
    (Traces.Always (step cfg) (ServesTable cfg) (start rows) ws ↔
      Traces.Along (step cfg) (Moot cfg) (start rows) ws) ∧
    (Traces.Always (step cfg) (ServesTable cfg) (start rows) ws ∧
        Traces.Along (step cfg) (KeepsLayers cfg) (start rows) ws ↔
      Traces.Along (step cfg) Repeats (start rows) ws) := by
  have huntouched := untouched_start hloaded
  have hstart : ServesTable cfg (start rows) :=
    (servesTable_iff huntouched).mpr (served_start hloaded)
  constructor
  · have htotal : ∀ s w, ∃ s', step cfg s w = some s' := fun s w => ⟨(s.write cfg w).1, rfl⟩
    obtain ⟨t, hrun⟩ := Traces.run_total htotal (start rows) ws
    refine Traces.always_iff_along (J := Untouched cfg) (fun s w s' hs _ hstep => ?_)
      (fun s w s' hs _ hserves hstep => ?_) hrun (Traces.along_true _ _) huntouched hstart
    · obtain rfl := Option.some.inj hstep
      exact untouched_write hs w
    · obtain rfl := Option.some.inj hstep
      exact servesTable_write hs hserves w
  · constructor
    · exact fun h => h.2.mono fun s w => (keepsLayers_iff w).mp
    · intro hrepeats
      refine ⟨?_, hrepeats.mono fun s w => (keepsLayers_iff w).mpr⟩
      -- a failing call that repeats is moot, so both views stay together
      have hboth := Traces.always_of_along
        (I := fun s : PgVectorBackend V => s.Untouched cfg ∧ ServesTable cfg s)
        (fun s w s' hs hP hstep => ?_) ⟨huntouched, hstart⟩ hrepeats
      · exact hboth.mono fun s hs => hs.2
      · obtain rfl := Option.some.inj hstep
        have hmoot := moot_of_repeats ((servesTable_iff hs.1).mp hs.2) hP
        exact ⟨untouched_write hs.1 w, (servesTable_write hs.1 hs.2 w).mpr hmoot⟩

instance [DecidableEq V] (s : PgVectorBackend V) (w : Write V) : Decidable (Repeats s w) :=
  match h : w.target with
  | none => isTrue fun _ _ hsome => nomatch h.symm.trans hsome
  | some (id, target) =>
    decidable_of_iff (w.reply ≠ .done →
        s.overlay.lookup id = target ∧ (id ∈ s.removedIds ↔ target = none))
      ⟨fun hall id' target' hsome => by
        obtain ⟨rfl, rfl⟩ := Prod.mk.inj (Option.some.inj (h.symm.trans hsome))
        exact hall, fun hall => hall id target h⟩

/-! ## Two vectors on a line -/

def lineTable : PgVectorConfig Nat where
  zeros := 0
  formatVector vec := toString vec
  parseVectorText text out := text.toNat?.getD out
  vectorData := [10, 20]
  stored := id

def lineRows : Table UInt32 (Row Nat) :=
  ((∅ : Table UInt32 (Row Nat)).insert 0 ⟨"10", 10⟩).insert 1 ⟨"20", 20⟩

theorem loaded_lineRows : Loaded lineTable lineRows := by
  intro id
  unfold lineRows
  rw [Table.lookup_insert_eq, Table.lookup_insert_eq]
  split_ifs with h1 h0
  · rw [h1]
    rfl
  · rw [h0]
    rfl
  · have hpast : 2 ≤ id.toNat := by
      have h0' : id.toNat ≠ 0 := fun h => h0 (UInt32.toNat_inj.mp h)
      have h1' : id.toNat ≠ 1 := fun h => h1 (UInt32.toNat_inj.mp h)
      omega
    exact (List.getElem?_eq_none hpast).symm

/-- An insert and a remove, each tried again in vain. -/
theorem servesTable_always_iff_again :
    Traces.Always (step lineTable) (ServesTable lineTable) (start lineRows)
      [.insert 5 (some 9) .done, .insert 5 (some 9) (.failed "timeout"), .remove 0 .done,
        .remove 0 (.noConnection "refused")] :=
  ((servesTable_always_iff loaded_lineRows _).2.mpr (by decide +kernel)).1

/-- The statement fails: the insert throws, the row is as it was, and fetches
    return the vector that was not written. -/
theorem failed_insert_is_served :
    ∃ s : PgVectorBackend Nat, Loaded lineTable lineRows ∧
      (start lineRows).write lineTable (.insert 0 (some 11) (.failed "disk full")) =
        (s, .error "pgvector insert failed: disk full") ∧
      s.held lineTable 0 = 10 ∧ s.fetchVectorsByIds lineTable [(0, .done)] = .ok [11] ∧
      ¬ ServesTable lineTable s ∧
      ¬ KeepsLayers lineTable (start lineRows) (.insert 0 (some 11) (.failed "disk full")) := by
  refine ⟨_, loaded_lineRows, rfl, by decide, rfl, fun h => ?_, fun h => ?_⟩
  · have hlist := h.agrees [(0, .done)] [11] rfl
    exact absurd hlist (by decide)
  · have hlook := (h ⟨_, rfl⟩ 0).1
    exact absurd hlook (by decide)

end PgVectorBackend

end QvCache
