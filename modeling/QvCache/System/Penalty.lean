/-
  QvCache.System.Penalty

  What clears a write penalty?  A write lowers the discount of a region, and
  every theta update of the region resets it, whenever its distance was measured.
  An update that was under way when the write lowered the region, or whose
  backend search began before the write returned, clears it as well.

  `UpdatePending` follows an update from the start of its backend search to its
  application.  If none is pending when the region is lowered, and none begins
  until the write has returned, then whatever clears the penalty was measured
  after the write (`clearedByNewer_of_quiet`).
-/

import QvCache.System.HitSoundness
import QvCache.System.Thetas

namespace QvCache

/-- The query whose theta update a miss still owes. -/
def Call.owes {V : Type} : Call V → Option V
  | .searching query _ => some query
  | .answered query _ _ => some query
  | .filtered query _ _ _ => some query
  | .placed query _ _ _ _ => some query
  | _ => none

/-- A write has returned, if only with an exception. -/
def Call.returned {V : Type} : Call V → Bool
  | .insertReturned _ _ => true
  | .removeReturned _ => true
  | .threw => true
  | _ => false

namespace Sys

variable {V β : Type} {cfg : SystemConfig V β}

/-- Miss `m` has begun its backend search and its update of region `r` has not
    been applied. -/
def UpdatePending (cfg : SystemConfig V β) (s : Sys V β) (r : RegionKey) (m : Nat) : Prop :=
  ∃ query, regionOf cfg query = r ∧
    (s.calls[m]?.bind Call.owes = some query ∨
      ∃ task, s.HasTask task ∧ task.miss = m ∧ task.query = some query)

/-- The step begins the backend search of miss `m` for region `r`. -/
def StartsSearch (cfg : SystemConfig V β) (s : Sys V β) (l : Label V) (r : RegionKey) (m : Nat) :
    Prop :=
  ∃ query K, l = .call m .proceed ∧ s.calls[m]? = some (.missed query K) ∧ regionOf cfg query = r

/-- Call `j` has returned. -/
def HasReturned (s : Sys V β) (j : Nat) : Prop := s.calls[j]?.any Call.returned = true

/-! ## Pending updates -/

/-- A pending update was pending before, unless its search begins with the step. -/
theorem updatePending_step {s s' : Sys V β} {l : Label V} (h : step cfg s l = some s')
    {r : RegionKey} {m : Nat} (hpending : UpdatePending cfg s' r m) :
    UpdatePending cfg s r m ∨ StartsSearch cfg s l r m := by
  obtain ⟨query, hregion, howes | ⟨task, htask, hmiss, hquery⟩⟩ := hpending
  · obtain ⟨call', hcall', howes⟩ := Option.bind_eq_some_iff.mp howes
    rcases calls_step h hcall' with hold | ⟨_, hbegins⟩ | ⟨reply, call, next, rfl, hcall, hmove, rfl⟩
    · exact Or.inl ⟨query, hregion, Or.inl (by rw [hold]; exact howes)⟩
    · cases hbegins with
      | search sorters q K resSize =>
        cases hlook : (s.cache.lookup cfg.cache sorters q K resSize).2 <;> rw [hlook] at howes <;>
          cases howes
      | insert => cases howes
      | remove => cases howes
    · -- from one stage of a miss to the next the owed query is the same
      have hbefore : ∀ q, call.owes = some q → next.call.owes = some q →
          UpdatePending cfg s r m := by
        intro q hq hnext
        obtain rfl := Option.some.inj (hnext.symm.trans howes)
        exact ⟨q, hregion, Or.inl (by rw [hcall]; exact hq)⟩
      cases hmove with
      | started q K =>
        obtain rfl := Option.some.inj howes
        exact Or.inr ⟨q, K, rfl, hcall, hregion⟩
      | answered => exact Or.inl (hbefore _ rfl rfl)
      | filtered => exact Or.inl (hbefore _ rfl rfl)
      | placed => exact Or.inl (hbefore _ rfl rfl)
      | landed id vec shard cache accepted => cases accepted <;> cases howes
      | _ => cases howes
  · -- the update waits in a task: an old one, or one just submitted
    rcases hasTask_step h htask with hold | ⟨i, reply, call, next, rfl, hcall, hmove, hsub⟩
    · exact Or.inl ⟨query, hregion, Or.inr ⟨task, hold, hmiss, hquery⟩⟩
    · cases hmove with
      | deferred q K answer ids shard =>
        -- the query goes from the call to its task
        obtain rfl := Option.some.inj hsub
        obtain rfl : i = m := hmiss
        obtain rfl := Option.some.inj hquery
        exact Or.inl ⟨q, hregion, Or.inl (by rw [hcall]; rfl)⟩
      | submitted =>
        obtain rfl := Option.some.inj hsub
        cases hquery
      | _ => cases hsub

/-- Only a pending update is applied. -/
theorem Applies.pending {s : Sys V β} {l : Label V} {m : Nat} {query : V}
    (h : Applies cfg s l m query) : UpdatePending cfg s (regionOf cfg query) m := by
  cases h with
  | atOnce i _ K answer ids shard hcall =>
    exact ⟨query, rfl, Or.inl (by rw [hcall]; rfl)⟩
  | lazily w task _ hworker hquery =>
    exact ⟨query, rfl, Or.inr ⟨task, Or.inr ⟨w, _, hworker, rfl⟩, rfl, hquery⟩⟩

/-! ## Runs -/

/-- The backend search of miss `m` for region `r` has begun on the way along
    `labels`, and call `j` had returned by then. -/
def SearchedAfter (cfg : SystemConfig V β) (s : Sys V β) (labels : List (Label V)) (j : Nat)
    (r : RegionKey) (m : Nat) : Prop :=
  ∃ before l after u, labels = before ++ l :: after ∧ Traces.run (step cfg) s before = some u ∧
    StartsSearch cfg u l r m ∧ u.HasReturned j

/-- The run goes on from `s` and brings the discount of `r` back to 1, with the
    region still there, only by updates measured after call `j` had returned. -/
def ClearedByNewer (cfg : SystemConfig V β) (s : Sys V β) (labels : List (Label V)) (j : Nat)
    (r : RegionKey) : Prop :=
  ∀ before l after u u', labels = before ++ l :: after →
    Traces.run (step cfg) s before = some u → step cfg u l = some u' →
    u.store.discount r ≠ 1 → u'.store.discount r = 1 → (u'.store.regionThetaMap.lookup r).isSome →
      ∃ m query, Applies cfg u l m query ∧ regionOf cfg query = r ∧
        SearchedAfter cfg s before j r m

/-- Call `j` lowers region `r` with this step. -/
structure Lowers (cfg : SystemConfig V β) (s₀ : Sys V β) (j : Nat) (r : RegionKey) (s₁ : Sys V β) :
    Prop where
  step : Sys.step cfg s₀ (.call j .proceed) = some s₁
  discount : s₁.store.discount r < s₀.store.discount r

/-- No backend search for the region begins before call `j` has returned. -/
def NoEarlySearch (cfg : SystemConfig V β) (j : Nat) (r : RegionKey) (s : Sys V β) (l : Label V) :
    Prop :=
  ∀ m, StartsSearch cfg s l r m → s.HasReturned j

theorem SearchedAfter.snoc {s : Sys V β} {labels : List (Label V)} {j m : Nat} {r : RegionKey}
    (h : SearchedAfter cfg s labels j r m) (l : Label V) :
    SearchedAfter cfg s (labels ++ [l]) j r m := by
  obtain ⟨before, l', after, u, rfl, hrun, hstarts, hreturned⟩ := h
  exact ⟨before, l', after ++ [l], u, by simp, hrun, hstarts, hreturned⟩

/-- Along such a run every pending update has been measured after the return. -/
theorem searchedAfter_of_pending {s s' : Sys V β} {labels : List (Label V)} {j m : Nat}
    {r : RegionKey} (hquiet : ∀ m, ¬ UpdatePending cfg s r m)
    (halong : Traces.Along (step cfg) (NoEarlySearch cfg j r) s labels)
    (hrun : Traces.run (step cfg) s labels = some s') (hpending : UpdatePending cfg s' r m) :
    SearchedAfter cfg s labels j r m := by
  -- induction on the run, last step first
  induction labels using List.reverseRecOn generalizing s' m with
  | nil =>
    obtain rfl := Option.some.inj hrun
    exact absurd hpending (hquiet m)
  | append_singleton labels l ih =>
    obtain ⟨u, hu, hlast⟩ := Traces.run_append.mp hrun
    have hstep := Traces.run_singleton.mp hlast
    have hnow := (halong.of_append hu).1
    -- pending before the last step, or its search has just begun
    rcases updatePending_step hstep hpending with hbefore | hstarts
    · exact (ih halong.left hu hbefore).snoc l
    · exact ⟨labels, l, [], u, rfl, hu, hstarts, hnow m hstarts⟩

/-- A call that has returned does not move. -/
theorem hasReturned_step {s s' : Sys V β} {l : Label V} {j : Nat} (h : step cfg s l = some s')
    (hreturned : s.HasReturned j) : s'.HasReturned j := by
  obtain ⟨call, hcall, hdone⟩ := (Option.any_eq_true _ _).mp hreturned
  have hkept : s'.calls[j]? = some call := by
    refine calls_kept h hcall fun reply heq => ?_
    subst heq
    cases move_of_step h with
    | call _ _ call' next hcall' hmove =>
      rw [hcall] at hcall'
      obtain rfl := Option.some.inj hcall'
      cases hmove <;> cases hdone
  rw [HasReturned, hkept]
  exact hdone

/-- Once the write has returned no search is early. -/
theorem noEarlySearch_of_returned {s : Sys V β} {j : Nat} (hreturned : s.HasReturned j)
    (r : RegionKey) (labels : List (Label V)) :
    Traces.Along (step cfg) (NoEarlySearch cfg j r) s labels := by
  induction labels generalizing s with
  | nil => trivial
  | cons l rest ih => exact ⟨fun _ _ => hreturned, fun s' h => ih (hasReturned_step h hreturned)⟩

/-- The step that lowers a region begins no search. -/
theorem Lowers.not_startsSearch {s₀ s₁ : Sys V β} {j : Nat} {r : RegionKey}
    (h : Lowers cfg s₀ j r s₁) (r' : RegionKey) (m : Nat) :
    ¬ StartsSearch cfg s₀ (.call j .proceed) r' m := by
  rintro ⟨query, K, hl, hcall, _⟩
  obtain ⟨rfl, _⟩ := Label.call.inj hl
  have hlower := h.discount
  cases move_of_step h.step with
  | call _ _ call next hcall' hmove =>
    rw [hcall] at hcall'
    obtain rfl := Option.some.inj hcall'
    cases hmove
    exact absurd hlower (lt_irrefl _)

/-- A write whose penalty meets no pending update of its region, neither when it
    falls nor before the write returns, is cleared by newer updates only. -/
theorem clearedByNewer_of_quiet {s₀ s₁ : Sys V β} {j : Nat} {r : RegionKey}
    (hreach : Reachable cfg s₀) (hlowers : Lowers cfg s₀ j r s₁)
    (hquiet : ∀ m, ¬ UpdatePending cfg s₀ r m) {labels : List (Label V)}
    (halong : Traces.Along (step cfg) (NoEarlySearch cfg j r) s₁ labels) :
    ClearedByNewer cfg s₁ labels j r := by
  rintro before l after u u' rfl hrun hstep hbefore hafter hkept
  have hquiet₁ : ∀ m, ¬ UpdatePending cfg s₁ r m := by
    intro m hpending
    rcases updatePending_step hlowers.step hpending with h | h
    · exact hquiet m h
    · exact hlowers.not_startsSearch r m h
  -- discounts are at most 1 throughout, so reaching 1 is a reset
  have hdiscounted : Discounted u.store := Traces.run_invariant
    (I := fun s : Sys V β => Discounted s.store) (fun _ _ _ hs h => discounted_step hs h)
    (discounted_step (discounted_of_reachable hreach) hlowers.step) hrun
  obtain ⟨m, query, happlies, hregion⟩ := reset_step hdiscounted hstep hbefore hafter hkept
  exact ⟨m, query, happlies, hregion,
    searchedAfter_of_pending hquiet₁ halong.left hrun (hregion ▸ happlies.pending)⟩

/-! ## A late update -/

/-- One shard and lazy thetas. -/
def lazySystem : SystemConfig Nat Shelf := lineSystem 1 Nat.one_pos true false

/-- Nothing is pending while the pool is idle and no call owes an update. -/
theorem not_updatePending_of_idle {s : Sys V β} (hidle : s.idle = true)
    (howes : ∀ call ∈ s.calls, call.owes = none) (r : RegionKey) (m : Nat) :
    ¬ UpdatePending cfg s r m := by
  obtain ⟨hqueue, hworkers⟩ := Bool.and_eq_true_iff.mp hidle
  rintro ⟨query, _, hcall | ⟨task, htask | ⟨w, running, hworker, _⟩, _, _⟩⟩
  · obtain ⟨call, hget, hquery⟩ := Option.bind_eq_some_iff.mp hcall
    rw [howes call (List.mem_of_getElem? hget)] at hquery
    cases hquery
  · rw [List.isEmpty_iff.mp hqueue] at htask
    cases htask
  · have hnone := List.all_eq_true.mp hworkers _ (List.mem_of_getElem? hworker)
    cases hnone

/-- A miss learns the theta of region 0, then an insert into that region. -/
def learnThenInsert : List (Label Nat) :=
  .search stableSorters 0 1 0 :: missLabels 0 [(7, .fin 3)] true ++ taskLabels 0 [3] ++
    (insertLabels 1 9 0 true).take 7

/-- The insert lowers the region, and a miss that follows clears the penalty. -/
theorem clearedByNewer_learnThenInsert :
    ∃ s₀ s₁ : Sys Nat Shelf,
      Traces.run (step lazySystem) (shelfStart lazySystem [(7, 3)]) learnThenInsert = some s₀ ∧
      Lowers lazySystem s₀ 1 [0] s₁ ∧
      ∀ labels, ClearedByNewer lazySystem s₁ labels 1 [0] := by
  have hruns : (Traces.run (step lazySystem) (shelfStart lazySystem [(7, 3)]) learnThenInsert).any
      (fun s₀ => decide
        (s₀.idle = true ∧ s₀.calls = [.missReturned 0 1 [(7, .fin 3)], .penalising 9 0]) &&
        (step lazySystem s₀ (.call 1 .proceed)).any fun s₁ =>
          decide (s₁.store.discount [0] < s₀.store.discount [0] ∧
            s₁.calls[1]?.any Call.returned = true)) = true := by
    decide +kernel
  obtain ⟨s₀, hrun, h₀⟩ := Traces.exists_run hruns
  obtain ⟨hstate, h₁⟩ := Bool.and_eq_true_iff.mp h₀
  obtain ⟨hidle, hcalls⟩ := of_decide_eq_true hstate
  obtain ⟨s₁, hstep, h₂⟩ := (Option.any_eq_true _ _).mp h₁
  obtain ⟨hdiscount, hreturned⟩ := of_decide_eq_true h₂
  have howes : ∀ call ∈ s₀.calls, Call.owes call = none := by
    rw [hcalls]
    decide
  refine ⟨s₀, s₁, hrun, ⟨hstep, hdiscount⟩, fun labels => ?_⟩
  exact clearedByNewer_of_quiet ⟨_, _, _, _, learnThenInsert, hrun⟩ ⟨hstep, hdiscount⟩
    (not_updatePending_of_idle hidle howes [0]) (noEarlySearch_of_returned hreturned [0] labels)

/-- Two misses for region 0 have submitted their updates.  The worker applies the
    first, and an insert is about to lower the region. -/
def queuedThenInsert : List (Label Nat) :=
  [.search stableSorters 0 1 0, .search stableSorters 0 1 0] ++ missLabels 0 [(7, .fin 3)] true ++
    missLabels 1 [(7, .fin 3)] true ++ taskLabels 0 [3] ++ (insertLabels 2 9 0 true).take 7

/-- The insert lowers the region and returns, and then the worker applies the
    update of the second miss, which clears the penalty. -/
theorem late_update_clears :
    ∃ s₀ s₁ : Sys Nat Shelf, Reachable lazySystem s₀ ∧ Lowers lazySystem s₀ 2 [0] s₁ ∧
      s₁.calls[2]? = some (.insertReturned 9 0) ∧
      ¬ ClearedByNewer lazySystem s₁ (taskLabels 0 [3]) 2 [0] := by
  have hruns : (Traces.run (step lazySystem) (shelfStart lazySystem [(7, 3)]) queuedThenInsert).any
      (fun s₀ => (step lazySystem s₀ (.call 2 .proceed)).any fun s₁ =>
        decide (s₁.store.discount [0] < s₀.store.discount [0] ∧
          s₁.calls[2]? = some (.insertReturned 9 0)) &&
        (Traces.run (step lazySystem) s₁ ((taskLabels 0 [3]).take 3)).any fun u =>
          (step lazySystem u (.worker 0 .proceed)).any fun u' =>
            decide (u.store.discount [0] ≠ 1 ∧ u'.store.discount [0] = 1 ∧
              (u'.store.regionThetaMap.lookup [0]).isSome)) = true := by
    decide +kernel
  obtain ⟨s₀, hrun, h₀⟩ := Traces.exists_run hruns
  obtain ⟨s₁, hstep, h₁⟩ := (Option.any_eq_true _ _).mp h₀
  obtain ⟨hwrite, h₂⟩ := Bool.and_eq_true_iff.mp h₁
  obtain ⟨hdiscount, hreturned⟩ := of_decide_eq_true hwrite
  obtain ⟨u, hmid, h₃⟩ := Traces.exists_run h₂
  obtain ⟨u', hclear, h₄⟩ := (Option.any_eq_true _ _).mp h₃
  obtain ⟨hbefore, hafter, hkept⟩ := of_decide_eq_true h₄
  refine ⟨s₀, s₁, ⟨_, _, _, _, queuedThenInsert, hrun⟩, ⟨hstep, hdiscount⟩, hreturned, fun h => ?_⟩
  obtain ⟨m, query, _, _, before, l, after, v, hsplit, _, hstarts, _⟩ :=
    h ((taskLabels 0 [3]).take 3) (.worker 0 .proceed) [] u u' rfl hmid hclear hbefore hafter hkept
  -- no search begins among the steps of a worker
  obtain ⟨_, _, hl, _⟩ := hstarts
  have hmem : l ∈ (taskLabels 0 [3]).take 3 := by
    rw [hsplit]
    simp
  rw [hl] at hmem
  simp [taskLabels] at hmem

end Sys

end QvCache
