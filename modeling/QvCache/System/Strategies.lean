/-
  QvCache.System.Strategies

  The two search strategies from one reachable state.  `PARALLEL` is meant to
  do the same merge on a pool; the states and inputs on which the verdicts are
  the same are those of `Cache.Agreeing`.
-/

import QvCache.Cache.Agreement
import QvCache.System.Shelf

namespace QvCache

namespace Sys

variable {V β : Type} {cfg : SystemConfig V β}

/-- The verdict of `search` under a strategy: the results of a hit, or `none`. -/
def verdict (cfg : SystemConfig V β) (s : Sys V β) (strategy : SearchStrategy) (sorters : Sorters)
    (query : V) (K resSize : Nat) : Option Report :=
  (Cache.lookup cfg.cache sorters { s.cache with searchStrategy := strategy } query K resSize).2

/-- The verdict is what `search` goes by after `set_search_strategy`. -/
theorem calls_search (s : Sys V β) (strategy : SearchStrategy) (sorters : Sorters) (query : V)
    (K resSize : Nat) :
    (Traces.run (step cfg) s [.setSearchStrategy strategy, .search sorters query K resSize]).map
        Sys.calls =
      some (s.calls ++ [lookedUp query K (s.verdict cfg strategy sorters query K resSize)]) :=
  rfl

/-- From every reachable state the strategies give the same verdict, however
    each of them breaks ties, exactly under `Agreeing`. -/
theorem strategies_agree_iff {s : Sys V β} (h : Reachable cfg s)
    (hpool : cfg.cache.searchPool = true) (query : V) {K : Nat} (hK : 1 ≤ K) (resSize : Nat) :
    (∀ sp ss, Cache.SameOutcome (s.verdict cfg .parallel sp query K resSize)
        (s.verdict cfg .sequential ss query K resSize)) ↔
      s.cache.Agreeing cfg.cache query K resSize :=
  Cache.sameOutcome_iff (shaped_of_reachable h).cache hpool hK resSize

/-! ## A tombstone among the nearest -/

/-- Two shards, searched by a pool. -/
def pairSystem : SystemConfig Nat Shelf := lineSystem 2 Nat.two_pos false false

def crowdedShelf : List (UInt32 × Nat) := [(7, 3), (20, 5), (21, 6), (22, 8), (9, 2)]

/-- A miss fills the first shard with 7, 20, 21 and 22.  A second miss is about
    to admit 9, the nearest to 0, when 9 is removed; 9 lands in the second shard
    all the same. -/
def hideNearest : List (Label Nat) :=
  .search stableSorters 6 4 0 ::
    missLabels 0 [(21, .fin 0), (20, .fin 1), (22, .fin 2), (7, .fin 3)] false ++
    taskLabels 0 [6, 5, 8, 3] ++
  [.search stableSorters 0 1 0, .call 1 .proceed, .call 1 (.answer [(9, .fin 2)]),
    .call 1 .proceed] ++
  removeLabels 2 9 2 2 ++
  [.call 1 .proceed, .call 1 .proceed, .call 1 .proceed] ++ taskLabels 0 [2]

theorem run_hideNearest :
    ∃ t : Sys Nat Shelf,
      Traces.run (step pairSystem) (shelfStart pairSystem crowdedShelf) hideNearest = some t ∧
      t.idle = true ∧
      t.verdict pairSystem .parallel stableSorters 0 1 0 = none ∧
      t.verdict pairSystem .sequential stableSorters 0 1 0 = some [(8, 3)] := by
  have hruns : (Traces.run (step pairSystem) (shelfStart pairSystem crowdedShelf) hideNearest).any
      (fun t => decide (t.idle = true ∧
        t.verdict pairSystem .parallel stableSorters 0 1 0 = none ∧
        t.verdict pairSystem .sequential stableSorters 0 1 0 = some [(8, 3)])) = true := by
    decide +kernel
  obtain ⟨t, hrun, ht⟩ := Traces.exists_run hruns
  exact ⟨t, hrun, of_decide_eq_true ht⟩

/-- The equivalence in the state after that run. -/
theorem strategies_agree_iff_hideNearest :
    ∃ t : Sys Nat Shelf,
      Traces.run (step pairSystem) (shelfStart pairSystem crowdedShelf) hideNearest = some t ∧
      ((∀ sp ss, Cache.SameOutcome (t.verdict pairSystem .parallel sp 0 1 0)
          (t.verdict pairSystem .sequential ss 0 1 0)) ↔
        t.cache.Agreeing pairSystem.cache 0 1 0) := by
  obtain ⟨t, hrun, _⟩ := run_hideNearest
  exact ⟨t, hrun, strategies_agree_iff ⟨_, _, _, _, hideNearest, hrun⟩ (by decide) 0 (by decide) 0⟩

/-- The removed 9 is the nearest candidate, so the merge misses.  The sequential
    strategy then hits with 7 from the first shard; the parallel one misses. -/
theorem strategies_differ :
    ∃ t : Sys Nat Shelf, Reachable pairSystem t ∧ t.idle = true ∧
      t.verdict pairSystem .sequential stableSorters 0 1 0 = some [(8, 3)] ∧
      ¬ Cache.SameOutcome (t.verdict pairSystem .parallel stableSorters 0 1 0)
        (t.verdict pairSystem .sequential stableSorters 0 1 0) := by
  obtain ⟨t, hrun, hidle, hparallel, hsequential⟩ := run_hideNearest
  refine ⟨t, ⟨_, _, _, _, hideNearest, hrun⟩, hidle, hsequential, ?_⟩
  rw [hparallel, hsequential]
  intro hsame
  cases hsame

end Sys

end QvCache
