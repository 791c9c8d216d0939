/-
  QvCache.System.Shelf

  A small backend for concrete runs: vectors on a line, kept by id, answered
  exactly.  It has the interface of the shipped backends: a lookup that fills up
  with `UINT32_MAX`, a fetch by ids, and updates that upsert where they are
  supported at all.
-/

import QvCache.System.Moves
import QvCache.Theta.History
import QvCache.Theta.Padding
import Mathlib.Algebra.Order.Ring.Abs

namespace QvCache

/-! ## What an upserting backend does -/

/-- A backend that keeps one vector for each id: `insert` replaces it, `remove`
    drops it, and a fetch returns what is kept. -/
structure Upserting {V β : Type} (b : Backend V β) where
  get : β → UInt32 → Option V
  insert_get : ∀ {st st' : β} {id : UInt32} {vec : V}, b.insert st id vec = some st' →
    ∀ id', get st' id' = if id' = id then some vec else get st id'
  remove_get : ∀ {st st' : β} {id : UInt32}, b.remove st id = some st' →
    ∀ id', get st' id' = if id' = id then none else get st id'
  fetch_get : ∀ {st : β} {ids : List UInt32} {vectors : List V},
    b.fetches st ids (some (vectors.map some)) = true →
      ∀ e ∈ ids.zip vectors, get st e.1 = some e.2

/-! ## The shelf -/

/-- Positions on a line, by id. -/
abbrev Shelf := Table UInt32 Nat

def lineDistance (a b : Nat) : ℚ := |(a : ℚ) - b|

/-- The nearest entries of the shelf, filled up to K. -/
def Shelf.nearest (shelf : Shelf) (query K : Nat) : BackendAnswer :=
  paddedAnswer
    ((((shelf.entries.map fun e => (e.1, lineDistance query e.2)).insertionSort
      fun a b => a.2 ≤ b.2).take K).map fun e => (e.1, Double.fin e.2)) K ⟨0xFFFFFFFF, .posInf⟩

/-- The backend that keeps a shelf. -/
def shelfBackend (supportsUpdates : Bool) : Backend Nat Shelf where
  supportsUpdates := supportsUpdates
  answers shelf query K answer := decide (answer = shelf.nearest query K)
  fetches shelf ids fetched := decide (fetched = some (ids.map fun id => shelf.lookup id))
  insert shelf id vec := some (shelf.insert id vec)
  remove shelf id := some (shelf.erase id)

def shelfUpserting (supportsUpdates : Bool) : Upserting (shelfBackend supportsUpdates) where
  get shelf id := shelf.lookup id
  insert_get := by
    intro st st' id vec h id'
    obtain rfl := Option.some.inj h
    exact Table.lookup_insert_eq st id id' vec
  remove_get := by
    intro st st' id h id'
    obtain rfl := Option.some.inj h
    exact Table.lookup_erase_eq st id id'
  fetch_get := by
    intro st ids vectors h e he
    have hlists := Option.some.inj (of_decide_eq_true h)
    -- position by position, the vectors are the looked up ones
    obtain ⟨i, hi⟩ := List.getElem?_of_mem he
    obtain ⟨hid, hvec⟩ := List.getElem?_zip_eq_some.mp hi
    have hget := congrArg (fun l => l[i]?) hlists
    simp only [List.getElem?_map, hid, hvec, Option.map_some] at hget
    exact (Option.some.inj hget).symm

/-- A cache in front of it, with regional thresholds and an exact search. -/
def lineSystem (numberOfMiniIndexes : Nat) (someMiniIndex : 0 < numberOfMiniIndexes)
    (lazyThetaUpdates supportsUpdates : Bool) : SystemConfig Nat Shelf where
  cache := {
    theta := { useRegionalTheta := true, p := 9 / 10, deviationFactor := 1 / 2, pca := lineConfig }
    search := SearchWithTags.exact lineDistance
    numberOfMiniIndexes := numberOfMiniIndexes
    someMiniIndex := someMiniIndex
    memoryIndexMaxPointsPerIndex := 4
    maxSearchThreads := 32
    lazyThetaUpdates := lazyThetaUpdates }
  backend := shelfBackend supportsUpdates

/-- The start of the concrete runs: a full shelf, an empty cache, one worker. -/
def shelfStart (cfg : SystemConfig Nat Shelf) (shelf : List (UInt32 × Nat)) : Sys Nat Shelf :=
  Sys.init cfg (shelf.foldl (fun shelf e => shelf.insert e.1 e.2) ∅) 0 (1 / 2) 1

/-- The sorters of the concrete runs, which keep equal keys in order. -/
def stableSorters : Sorters where
  byDistance := Sorter.tieBreak _ fun _ => false
  byCount := Sorter.tieBreak _ fun _ => false

/-- The labels that take call `i` through `handle_backend_miss`, given the
    backend's answer, when thetas are updated eagerly or lazily. -/
def missLabels (i : Nat) (answer : BackendAnswer) (lazyThetaUpdates : Bool) : List (Label Nat) :=
  [.call i .proceed, .call i (.answer answer), .call i .proceed, .call i .proceed,
    .call i .proceed] ++ if lazyThetaUpdates then [] else [.call i .proceed]

/-- The labels that take call `i`, an insert, to its return; an accepted point is
    noted on the way. -/
def insertLabels (i : Nat) (id : UInt32) (vec : Nat) (accepted : Bool) : List (Label Nat) :=
  .insert id vec :: List.replicate (if accepted then 7 else 6) (.call i .proceed)

/-- The labels that take call `i`, a remove with `n` shards, to its return. -/
def removeLabels (i : Nat) (id : UInt32) (vec n : Nat) : List (Label Nat) :=
  .remove id (some vec) :: List.replicate (5 + n) (.call i .proceed)

/-- The labels that take a worker through a task, given the fetched vectors. -/
def taskLabels (w : Nat) (vectors : List Nat) : List (Label Nat) :=
  [.worker w .proceed, .worker w (.vectors vectors)] ++ vectors.map (fun _ => .worker w .proceed) ++
    [.worker w .proceed]

end QvCache
