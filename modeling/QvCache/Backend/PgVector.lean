/-
  QvCache.Backend.PgVector

  `PgVectorBackend`: a table of vectors in PostgreSQL and, before it, what the
  backend keeps itself.  A fetch asks four layers in this order:

    * `removed_ids_`, which answers with the zero vector;
    * `overlay_`, the vectors of earlier inserts;
    * the base file, by position;
    * the table.

  `insert` and `remove` write the first two and then send their statement; a
  statement that fails throws and leaves the first two as just written.

  How a vector is written as text and read back is left open here
  (`VectorText`), and so is what PostgreSQL makes of the text (`stored`).
-/

import QvCache.Lib.Table
import QvCache.Lib.Traces
import Mathlib.Data.Finset.Basic

namespace QvCache

/-! ## The backend and its table -/

/-- `format_vector`, `parse_vector_text` and the vector of zeros that the latter
    fills in. -/
structure VectorText (V : Type) where
  zeros : V
  formatVector : V → String
  parseVectorText : String → V → V

structure PgVectorConfig (V : Type) extends VectorText V where
  /-- `vector_data_`, the base file; its length is `num_vectors_` -/
  vectorData : List V
  /-- what `vector::text` reads of a row that was written with this text -/
  stored : String → String

/-- How `conn` and the statement after it come out. -/
inductive SqlReply where
  | noConnection (what : String)
  | failed (err : String)
  | done
deriving DecidableEq

/-- A row: the text that `SELECT vector::text` returns and, for the statements
    below, the vector it was last written with. -/
structure Row (V : Type) where
  text : String
  written : V

structure PgVectorBackend (V : Type) where
  overlay : Table UInt32 V
  removedIds : Finset UInt32
  rows : Table UInt32 (Row V)

namespace PgVectorBackend

variable {V : Type}

/-- A backend just constructed over a table. -/
def start (rows : Table UInt32 (Row V)) : PgVectorBackend V := ⟨∅, ∅, rows⟩

/-! ## Fetching -/

def fetchOneFromDb (cfg : PgVectorConfig V) (s : PgVectorBackend V) (reply : SqlReply)
    (id : UInt32) : Except String V :=
  match reply with
  | .noConnection what => .error what
  | .failed _ => .ok cfg.zeros
  | .done =>
    match s.rows.lookup id with
    | none => .ok cfg.zeros
    | some row => .ok (cfg.parseVectorText row.text cfg.zeros)

def fetchOne (cfg : PgVectorConfig V) (s : PgVectorBackend V) (reply : SqlReply) (id : UInt32) :
    Except String V :=
  if id ∈ s.removedIds then .ok cfg.zeros
  else
    match s.overlay.lookup id with
    | some vec => .ok vec
    | none =>
      match cfg.vectorData[id.toNat]? with
      | some vec => .ok vec
      | none => s.fetchOneFromDb cfg reply id

/-- One vector for each id, or the first exception. -/
def fetchVectorsByIds (cfg : PgVectorConfig V) (s : PgVectorBackend V) :
    List (UInt32 × SqlReply) → Except String (List V)
  | [] => .ok []
  | (id, reply) :: rest =>
    match s.fetchOne cfg reply id with
    | .error what => .error what
    | .ok vec =>
      match s.fetchVectorsByIds cfg rest with
      | .error what => .error what
      | .ok out => .ok (vec :: out)

/-! ## Writing -/

/-- `none` is the null pointer. -/
def insert (cfg : PgVectorConfig V) (s : PgVectorBackend V) (reply : SqlReply) (id : UInt32) :
    Option V → PgVectorBackend V × Except String Unit
  | none => (s, .error "pgvector insert: null vector")
  | some copy =>
    let s := { s with
      removedIds := s.removedIds.erase id
      overlay := s.overlay.insert id copy }
    match reply with
    | .noConnection what => (s, .error what)
    | .failed err => (s, .error ("pgvector insert failed: " ++ err))
    | .done =>
      -- ON CONFLICT (id) DO UPDATE
      ({ s with rows := s.rows.insert id ⟨cfg.stored (cfg.formatVector copy), copy⟩ }, .ok ())

def remove (s : PgVectorBackend V) (reply : SqlReply) (id : UInt32) :
    PgVectorBackend V × Except String Unit :=
  let s := { s with
    overlay := s.overlay.erase id
    removedIds := Insert.insert id s.removedIds }
  match reply with
  | .noConnection what => (s, .error what)
  | .failed err => (s, .error ("pgvector delete failed: " ++ err))
  | .done => ({ s with rows := s.rows.erase id }, .ok ())

/-- A call that writes, with the outcome of its statement. -/
inductive Write (V : Type) where
  | insert (id : UInt32) (vector : Option V) (reply : SqlReply)
  | remove (id : UInt32) (reply : SqlReply)

def write (cfg : PgVectorConfig V) (s : PgVectorBackend V) :
    Write V → PgVectorBackend V × Except String Unit
  | .insert id vector reply => s.insert cfg reply id vector
  | .remove id reply => s.remove reply id

/-- The caller may go on after an exception. -/
def step (cfg : PgVectorConfig V) (s : PgVectorBackend V) (w : Write V) :
    Option (PgVectorBackend V) :=
  some (s.write cfg w).1

/-! ## What is served and what the table holds -/

/-- What the backend answers on its own. -/
def served (cfg : PgVectorConfig V) (s : PgVectorBackend V) (id : UInt32) : V :=
  if id ∈ s.removedIds then cfg.zeros
  else (s.overlay.lookup id).getD (cfg.vectorData[id.toNat]?.getD cfg.zeros)

/-- The vector last written to the row of the id, and zeros where there is no
    row. -/
def held (cfg : PgVectorConfig V) (s : PgVectorBackend V) (id : UInt32) : V :=
  ((s.rows.lookup id).map Row.written).getD cfg.zeros

/-- An id that no call has written has the row the base file gave it. -/
def Untouched (cfg : PgVectorConfig V) (s : PgVectorBackend V) : Prop :=
  ∀ id, id ∉ s.removedIds → s.overlay.lookup id = none →
    (s.rows.lookup id).map Row.written = cfg.vectorData[id.toNat]?

/-- The table holds the rows of the base file. -/
def Loaded (cfg : PgVectorConfig V) (rows : Table UInt32 (Row V)) : Prop :=
  ∀ id, (rows.lookup id).map Row.written = cfg.vectorData[id.toNat]?

variable {cfg : PgVectorConfig V} {s : PgVectorBackend V}

theorem untouched_start {rows : Table UInt32 (Row V)} (h : Loaded cfg rows) :
    (start rows).Untouched cfg :=
  fun id _ _ => h id

theorem served_start {rows : Table UInt32 (Row V)} (h : Loaded cfg rows) (id : UInt32) :
    (start rows).served cfg id = (start rows).held cfg id := by
  show (cfg.vectorData[id.toNat]?).getD cfg.zeros = _
  rw [← h id]
  rfl

/-- The table is asked only for ids that have no row. -/
theorem served_of_fetchOne (hs : s.Untouched cfg) {reply : SqlReply} {id : UInt32} {vec : V}
    (h : s.fetchOne cfg reply id = .ok vec) : vec = s.served cfg id := by
  unfold fetchOne at h
  unfold served
  split_ifs at h ⊢ with hremoved
  · exact (Except.ok.inj h).symm
  · cases hover : s.overlay.lookup id with
    | some copy =>
      rw [hover] at h
      exact (Except.ok.inj h).symm
    | none =>
      have hbase := hs id hremoved hover
      rw [hover] at h
      cases hdata : cfg.vectorData[id.toNat]? with
      | some copy =>
        rw [hdata] at h
        exact (Except.ok.inj h).symm
      | none =>
        rw [hdata] at h hbase
        have hrow := Option.map_eq_none_iff.mp hbase
        cases reply with
        | noConnection what => cases h
        | failed err => exact (Except.ok.inj h).symm
        | done =>
          simp only [fetchOneFromDb, hrow] at h
          exact (Except.ok.inj h).symm

theorem fetchOne_returns (cfg : PgVectorConfig V) (s : PgVectorBackend V) {reply : SqlReply}
    (hreply : ∀ what, reply ≠ .noConnection what) (id : UInt32) :
    ∃ vec, s.fetchOne cfg reply id = .ok vec := by
  unfold fetchOne
  split_ifs
  · exact ⟨_, rfl⟩
  · cases s.overlay.lookup id with
    | some copy => exact ⟨_, rfl⟩
    | none =>
      cases cfg.vectorData[id.toNat]? with
      | some copy => exact ⟨_, rfl⟩
      | none =>
        cases reply with
        | noConnection what => exact (hreply what rfl).elim
        | failed err => exact ⟨_, rfl⟩
        | done => cases hrow : s.rows.lookup id <;> exact ⟨_, by simp [fetchOneFromDb, hrow]; rfl⟩

theorem fetchVectorsByIds_returns (cfg : PgVectorConfig V) (s : PgVectorBackend V)
    {asked : List (UInt32 × SqlReply)} (hreply : ∀ a ∈ asked, ∀ what, a.2 ≠ .noConnection what) :
    ∃ out, s.fetchVectorsByIds cfg asked = .ok out := by
  induction asked with
  | nil => exact ⟨[], rfl⟩
  | cons a rest ih =>
    obtain ⟨id, reply⟩ := a
    obtain ⟨vec, hvec⟩ := fetchOne_returns cfg s (hreply _ List.mem_cons_self) id
    obtain ⟨out, hout⟩ := ih fun a ha => hreply a (List.mem_cons_of_mem _ ha)
    exact ⟨vec :: out, by simp only [fetchVectorsByIds, hvec, hout]⟩

theorem served_of_fetchVectorsByIds (hs : s.Untouched cfg) {asked : List (UInt32 × SqlReply)}
    {out : List V} (h : s.fetchVectorsByIds cfg asked = .ok out) :
    out = asked.map fun a => s.served cfg a.1 := by
  induction asked generalizing out with
  | nil => exact (Except.ok.inj h).symm
  | cons a rest ih =>
    obtain ⟨id, reply⟩ := a
    unfold fetchVectorsByIds at h
    cases hvec : s.fetchOne cfg reply id with
    | error what =>
      rw [hvec] at h
      cases h
    | ok vec =>
      rw [hvec] at h
      cases hrest : s.fetchVectorsByIds cfg rest with
      | error what =>
        rw [hrest] at h
        cases h
      | ok out' =>
        rw [hrest] at h
        obtain rfl := Except.ok.inj h
        rw [List.map_cons, ← ih hrest, ← served_of_fetchOne hs hvec]

/-! ## What a call does -/

/-- The id a call is about, with the vector it is to have or `none` where it is
    to have no row.  An insert of a null pointer is about no id. -/
def Write.target : Write V → Option (UInt32 × Option V)
  | .insert id vector _ => vector.map fun vec => (id, some vec)
  | .remove id _ => some (id, none)

def Write.reply : Write V → SqlReply
  | .insert _ _ reply => reply
  | .remove _ reply => reply

theorem write_of_target_none {w : Write V} (h : w.target = none) : (s.write cfg w).1 = s := by
  cases w with
  | insert id vector reply =>
    obtain rfl := Option.map_eq_none_iff.mp h
    rfl
  | remove id reply => cases h

/-- A call throws exactly if it is given nothing or its statement fails. -/
theorem write_throws_iff {w : Write V} :
    (∃ what, (s.write cfg w).2 = .error what) ↔ w.target = none ∨ w.reply ≠ .done := by
  cases w with
  | insert id vector reply =>
    cases vector with
    | none => exact iff_of_true ⟨_, rfl⟩ (Or.inl rfl)
    | some vec =>
      cases reply with
      | done => exact iff_of_false nofun (by simp [Write.target, Write.reply])
      | noConnection what => exact iff_of_true ⟨_, rfl⟩ (Or.inr nofun)
      | failed err => exact iff_of_true ⟨_, rfl⟩ (Or.inr nofun)
  | remove id reply =>
    cases reply with
    | done => exact iff_of_false nofun (by simp [Write.target, Write.reply])
    | noConnection what => exact iff_of_true ⟨_, rfl⟩ (Or.inr nofun)
    | failed err => exact iff_of_true ⟨_, rfl⟩ (Or.inr nofun)

/-- Whatever becomes of the statement, the two layers have taken the call over. -/
theorem layers_write (cfg : PgVectorConfig V) (s : PgVectorBackend V) {w : Write V} {id : UInt32}
    {target : Option V} (h : w.target = some (id, target)) (k : UInt32) :
    ((s.write cfg w).1.overlay.lookup k = if k = id then target else s.overlay.lookup k) ∧
      (k ∈ (s.write cfg w).1.removedIds ↔ if k = id then target = none else k ∈ s.removedIds) := by
  cases w with
  | insert id' vector reply =>
    obtain ⟨vec, rfl, htarget⟩ := Option.map_eq_some_iff.mp h
    obtain ⟨rfl, rfl⟩ := Prod.mk.inj htarget
    have hlayers : (s.write cfg (.insert id' (some vec) reply)).1.overlay =
          s.overlay.insert id' vec ∧
        (s.write cfg (.insert id' (some vec) reply)).1.removedIds = s.removedIds.erase id' := by
      cases reply <;> exact ⟨rfl, rfl⟩
    rw [hlayers.1, hlayers.2, Table.lookup_insert_eq, Finset.mem_erase]
    refine ⟨rfl, ?_⟩
    split_ifs with hk <;> simp [hk]
  | remove id' reply =>
    obtain ⟨rfl, rfl⟩ := Prod.mk.inj (Option.some.inj h)
    have hlayers : (s.write cfg (.remove id' reply)).1.overlay = s.overlay.erase id' ∧
        (s.write cfg (.remove id' reply)).1.removedIds = Insert.insert id' s.removedIds := by
      cases reply <;> exact ⟨rfl, rfl⟩
    rw [hlayers.1, hlayers.2, Table.lookup_erase_eq, Finset.mem_insert]
    refine ⟨rfl, ?_⟩
    split_ifs with hk <;> simp [hk]

/-- Only a statement that succeeds changes the table. -/
theorem rows_write {w : Write V} {id : UInt32} {target : Option V}
    (h : w.target = some (id, target)) (k : UInt32) :
    ((s.write cfg w).1.rows.lookup k).map Row.written =
      if w.reply = .done ∧ k = id then target else (s.rows.lookup k).map Row.written := by
  cases w with
  | insert id' vector reply =>
    obtain ⟨vec, rfl, htarget⟩ := Option.map_eq_some_iff.mp h
    obtain ⟨rfl, rfl⟩ := Prod.mk.inj htarget
    cases reply with
    | done =>
      simp only [write, insert, Table.lookup_insert_eq, Write.reply, true_and]
      split_ifs <;> rfl
    | noConnection what => exact (if_neg fun hboth => nomatch hboth.1).symm
    | failed err => exact (if_neg fun hboth => nomatch hboth.1).symm
  | remove id' reply =>
    obtain ⟨rfl, rfl⟩ := Prod.mk.inj (Option.some.inj h)
    cases reply with
    | done =>
      simp only [write, remove, Table.lookup_erase_eq, Write.reply, true_and]
      split_ifs <;> rfl
    | noConnection what => exact (if_neg fun hboth => nomatch hboth.1).symm
    | failed err => exact (if_neg fun hboth => nomatch hboth.1).symm

theorem untouched_write (hs : s.Untouched cfg) (w : Write V) : (s.write cfg w).1.Untouched cfg := by
  cases htarget : w.target with
  | none =>
    rw [write_of_target_none htarget]
    exact hs
  | some t =>
    obtain ⟨id, target⟩ := t
    intro k hremoved hover
    obtain ⟨hlook, hmem⟩ := layers_write cfg s htarget k
    rw [hlook] at hover
    rw [hmem] at hremoved
    rw [rows_write htarget]
    -- the id of the call is in one layer or the other
    by_cases hk : k = id
    · rw [if_pos hk] at hover hremoved
      exact (hremoved hover).elim
    · rw [if_neg hk] at hover hremoved
      rw [if_neg fun hboth => hk hboth.2]
      exact hs k hremoved hover

theorem served_write {w : Write V} {id : UInt32} {target : Option V}
    (h : w.target = some (id, target)) (k : UInt32) :
    (s.write cfg w).1.served cfg k = if k = id then target.getD cfg.zeros else s.served cfg k := by
  obtain ⟨hlook, hmem⟩ := layers_write cfg s h k
  unfold served
  rw [hlook, if_congr hmem rfl rfl]
  by_cases hk : k = id
  · simp only [if_pos hk]
    cases target <;> rfl
  · simp only [if_neg hk]

theorem held_write {w : Write V} {id : UInt32} {target : Option V}
    (h : w.target = some (id, target)) (k : UInt32) :
    (s.write cfg w).1.held cfg k =
      if w.reply = .done ∧ k = id then target.getD cfg.zeros else s.held cfg k := by
  unfold held
  rw [rows_write h]
  split_ifs <;> rfl

end PgVectorBackend

end QvCache
