/-
  QvCache.System.Freshness

  Is a stale vector served?  A mini-index refuses a tag it already holds, so an
  insert does not replace a cached copy, and an admit task may land a vector it
  has fetched before the insert reached the backend.

  `Fresh` says that every copy in the shards is the vector the backend keeps.  A
  run stays fresh exactly as long as no insert reaches the backend while another
  vector is live under its tag, and no point lands that the backend has since
  replaced (`fresh_step`).  In a fresh state every hit reports the distance to
  the backend's vector (`freshHits_of_fresh`).
-/

import QvCache.System.HitSoundness

namespace QvCache

namespace Sys

variable {V β : Type} {cfg : SystemConfig V β}

/-- Every live copy is the vector the backend keeps for its id, if it keeps one. -/
def Fresh (up : Upserting cfg.backend) (s : Sys V β) : Prop :=
  ∀ id w, up.get s.backend id = some w → ∀ k u, s.cache.HoldsAt k (1 + id) u → u = w

/-- The condition on one step: an insert that reaches the backend finds no other
    vector live under its tag, and a point lands only if the backend keeps no
    other vector for its id. -/
def StepFresh (up : Upserting cfg.backend) (s : Sys V β) (l : Label V) : Prop :=
  (∀ (i : Nat) id vec backend, l = .call i .proceed → s.calls[i]? = some (.inserting id vec) →
    cfg.backend.insert s.backend id vec = some backend →
      ∀ k u, s.cache.HoldsAt k (1 + id) u → u = vec) ∧
  ∀ k id vec w, Lands cfg s l k id vec → up.get s.backend id = some w → vec = w

/-! ## One step -/

/-- Landing a point does not touch the backend. -/
theorem Lands.backend {s s' : Sys V β} {l : Label V} {k : Nat} {id : UInt32} {vec : V}
    (hlands : Lands cfg s l k id vec) (h : step cfg s l = some s') : s'.backend = s.backend := by
  cases hlands with
  | call i _ _ _ hcall =>
    cases move_of_step h with
    | call _ _ call next hcall' hmove =>
      rw [hcall] at hcall'
      obtain rfl := Option.some.inj hcall'
      cases hmove <;> rfl
  | worker => cases move_of_step h <;> rfl

/-- A write to the backend does not touch the shards. -/
theorem holds_of_stored {s s' : Sys V β} {i : Nat} {id : UInt32} {vec : V}
    (h : step cfg s (.call i .proceed) = some s') (hcall : s.calls[i]? = some (.inserting id vec))
    {k : Nat} {tag : Tag} {u : V} : s'.cache.HoldsAt k tag u ↔ s.cache.HoldsAt k tag u := by
  cases move_of_step h with
  | call _ _ call next hcall' hmove =>
    rw [hcall] at hcall'
    obtain rfl := Option.some.inj hcall'
    cases hmove <;> exact Iff.rfl

/-- A step keeps the copies fresh exactly if it meets the condition. -/
theorem fresh_step (hsupports : cfg.backend.supportsUpdates = true) {up : Upserting cfg.backend}
    {s s' : Sys V β} {l : Label V} (hs : Fresh up s) (h : step cfg s l = some s') :
    Fresh up s' ↔ StepFresh up s l := by
  constructor
  · intro hs'
    constructor
    · rintro i id vec backend rfl hcall hinsert k u hholds
      -- the write succeeds here, so the state after it is the one `insert` gave
      have hbackend : s'.backend = backend := by
        cases move_of_step h with
        | call _ _ call next hcall' hmove =>
          rw [hcall] at hcall'
          obtain rfl := Option.some.inj hcall'
          cases hmove with
          | stored _ _ backend' _ hinsert' => exact Option.some.inj (hinsert'.symm.trans hinsert)
          | notStored _ _ hno =>
            rw [hsupports] at hno
            cases hno
          | storeThrew _ _ hthrew =>
            rw [hthrew] at hinsert
            cases hinsert
      -- the copy that was live before is live after, under the new vector
      refine hs' id vec ?_ k u ((holds_of_stored h hcall).mpr hholds)
      rw [hbackend, up.insert_get hinsert, if_pos rfl]
    · intro k id vec w hlands hget
      -- a landing leaves the backend alone, so its vector was the one before
      exact hs' id w (by rw [hlands.backend h]; exact hget) k vec (holds_of_lands hlands h)
  · rintro ⟨hinserts, hlandings⟩ id w hget k u hholds
    -- a write to the backend lands nothing, and a landing writes nothing
    cases backend_step h with
    | same hsame =>
      rw [hsame] at hget
      rcases holds_step h hholds with hold | ⟨id', htag, hlands⟩
      · exact hs id w hget k u hold
      · obtain rfl := (UInt32.add_right_inj 1).mp htag
        exact hlandings k id u w hlands hget
    | inserted i id' vec hl hcall hinsert =>
      subst hl
      have hbefore := (holds_of_stored h hcall).mp hholds
      -- another id keeps its vector and its copies
      rw [up.insert_get hinsert] at hget
      split_ifs at hget with hid
      · obtain rfl := Option.some.inj hget
        exact hinserts i id' vec _ rfl hcall hinsert k u (hid ▸ hbefore)
      · exact hs id w hget k u hbefore
    | removed i id' shard hl hcall hshard hremove =>
      subst hl
      -- after a removal the backend says nothing about the id
      rw [up.remove_get hremove] at hget
      split_ifs at hget
      rcases holds_step h hholds with hold | ⟨_, _, hlands⟩
      · exact hs id w hget k u hold
      · cases hlands with
        | call _ _ _ _ hlanding =>
          rw [hcall] at hlanding
          cases hlanding

/-! ## Hits -/

/-- Every hit reports the distance to `vec` for `id`. -/
def FreshHits (cfg : SystemConfig V β) (id : UInt32) (vec : V) (s : Sys V β) : Prop :=
  ∀ sorters query K resSize hit,
    (s.cache.lookup cfg.cache sorters query K resSize).2 = some hit →
      ∀ td ∈ hit, td.1 = 1 + id → td.2 = cfg.cache.search.distance query vec

theorem freshHits_of_fresh {up : Upserting cfg.backend} {s : Sys V β} (hs : Fresh up s) {id : UInt32}
    {vec : V} (hget : up.get s.backend id = some vec) : FreshHits cfg id vec s := by
  intro sorters query K resSize hit hlook td htd htag
  obtain ⟨idx, hidx, hrun⟩ := (Cache.lookup_hit hlook).reported td htd
  obtain ⟨point, hpoint, hdist⟩ := cfg.cache.search.live idx query K td hrun
  obtain ⟨k, hk⟩ := List.getElem?_of_mem hidx
  have hcopy : s.cache.HoldsAt k (1 + id) point := ⟨idx, hk, htag ▸ hpoint⟩
  rw [hdist, hs id vec hget k point hcopy]

/-! ## The time after an insert -/

/-- The id that a step writes to the backend, or would write if the backend took
    updates. -/
def writes (s : Sys V β) : Label V → Option UInt32
  | .call i _ =>
    match s.calls[i]? with
    | some (.inserting id _) => some id
    | some (.deleting id shard) => if s.cache.memoryIndices.length ≤ shard then some id else none
    | _ => none
  | _ => none

/-- The insert `i` of `id` has reached the backend on the way from `s₀` and has
    returned in `s`, and no other write of `id` has reached the backend since. -/
def InsertedSince (cfg : SystemConfig V β) (id : UInt32) (vec : V) (s₀ : Sys V β) (i : Nat)
    (labels : List (Label V)) (s : Sys V β) : Prop :=
  s₀.calls[i]? = some (.inserting id vec) ∧ s.calls[i]? = some (.insertReturned id vec) ∧
    ∃ s₁, step cfg s₀ (.call i .proceed) = some s₁ ∧ Traces.run (step cfg) s₁ labels = some s ∧
      Traces.Along (step cfg) (fun s l => s.writes l ≠ some id) s₁ labels

theorem get_step {up : Upserting cfg.backend} {s s' : Sys V β} {l : Label V} {id : UInt32}
    (hquiet : s.writes l ≠ some id) (h : step cfg s l = some s') :
    up.get s'.backend id = up.get s.backend id := by
  cases backend_step h with
  | same hsame => rw [hsame]
  | inserted i id' vec hl hcall hinsert =>
    have hne : id ≠ id' := fun heq => hquiet (by simp [writes, hl, hcall, heq])
    rw [up.insert_get hinsert, if_neg hne]
  | removed i id' shard hl hcall hshard hremove =>
    have hne : id ≠ id' := fun heq => hquiet (by simp [writes, hl, hcall, hshard, heq])
    rw [up.remove_get hremove, if_neg hne]

/-- A call that has thrown stays where it is. -/
theorem threw_run {s s' : Sys V β} {i : Nat} {labels : List (Label V)}
    (hthrew : s.calls[i]? = some .threw) (hrun : Traces.run (step cfg) s labels = some s') :
    s'.calls[i]? = some .threw := by
  refine Traces.run_invariant (I := fun s : Sys V β => s.calls[i]? = some .threw) ?_ hthrew hrun
  intro s l s' hs hstep
  -- it has no step of its own left
  refine calls_kept hstep hs fun reply heq => ?_
  subst heq
  cases move_of_step hstep with
  | call _ _ call next hcall hmove =>
    rw [hs] at hcall
    obtain rfl := Option.some.inj hcall
    cases hmove

/-- After an insert the backend keeps its vector. -/
theorem get_of_insertedSince (hsupports : cfg.backend.supportsUpdates = true)
    {up : Upserting cfg.backend} {id : UInt32} {vec : V} {s₀ s : Sys V β} {i : Nat}
    {labels : List (Label V)} (h : InsertedSince cfg id vec s₀ i labels s) :
    up.get s.backend id = some vec := by
  obtain ⟨hcall, hreturned, s₁, hstep, hrun, hquiet⟩ := h
  have hstored : up.get s₁.backend id = some vec := by
    cases move_of_step hstep with
    | call _ _ call next hcall' hmove =>
      rw [hcall] at hcall'
      obtain rfl := Option.some.inj hcall'
      cases hmove with
      | stored _ _ backend _ hinsert =>
        exact (up.insert_get hinsert id).trans (if_pos rfl)
      | notStored _ _ hno =>
        rw [hsupports] at hno
        cases hno
      -- the insert has returned, so it did not throw
      | storeThrew =>
        have hthrew : (s₀.afterCall i (s₀.goesOn .threw)).calls[i]? = some .threw :=
          Slots.getElem?_set_of_some hcall _
        rw [threw_run hthrew hrun] at hreturned
        cases hreturned
  exact Traces.run_invariant_along (I := fun s : Sys V β => up.get s.backend id = some vec)
    (fun s l s' hget hq hstep => (get_step hq hstep).trans hget) hstored hquiet hrun

theorem fresh_init (up : Upserting cfg.backend) (backend : β) (radius : Nat) (alpha : ℚ)
    (threads : Nat) : Fresh up (init cfg backend radius alpha threads) := by
  rintro id w _ k u ⟨idx, hidx, hholds⟩
  have hempty := List.eq_of_mem_replicate (List.mem_of_getElem? hidx)
  rw [hempty] at hholds
  simp [MiniIndex.Holds, MiniIndex.create] at hholds

/-- A run from the initial state keeps all copies fresh if and only if each step
    meets the condition; and then, after each insert and until the next write of
    its id, every hit reports the distance to the inserted vector. -/
theorem fresh_always_iff (hsupports : cfg.backend.supportsUpdates = true) (up : Upserting cfg.backend)
    {backend : β} {radius : Nat} {alpha : ℚ} {threads : Nat} {labels : List (Label V)} {t : Sys V β}
    (hrun : Traces.run (step cfg) (init cfg backend radius alpha threads) labels = some t) :
    (Traces.Always (step cfg) (Fresh up) (init cfg backend radius alpha threads) labels ↔
      Traces.Along (step cfg) (StepFresh up) (init cfg backend radius alpha threads) labels) ∧
    (Traces.Along (step cfg) (StepFresh up) (init cfg backend radius alpha threads) labels →
      ∀ id vec s₀ i since, InsertedSince cfg id vec s₀ i since t → FreshHits cfg id vec t) := by
  have hinit := fresh_init up backend radius alpha threads
  constructor
  · exact Traces.always_iff_along (J := fun _ => True) (Q := fun _ _ => True)
      (fun _ _ _ _ _ _ => trivial) (fun _ _ _ _ _ hs hstep => fresh_step hsupports hs hstep) hrun
      (Traces.along_true _ _) trivial hinit
  · intro halong id vec s₀ i since hinserted
    have hfresh : Fresh up t := Traces.run_invariant_along
      (fun _ _ _ hs hP hstep => (fresh_step hsupports hs hstep).mpr hP) hinit halong hrun
    exact freshHits_of_fresh hfresh (get_of_insertedSince hsupports hinserted)

/-- One shard, eager thetas, and a backend that takes updates. -/
def updatingSystem : SystemConfig Nat Shelf := lineSystem 1 Nat.one_pos false true

/-- A miss admits the vector 3 for the id 7; then 7 is inserted with 5. -/
def overwriteCached : List (Label Nat) := admitOne ++ insertLabels 1 7 5 false

theorem run_overwriteCached :
    ∃ s₀ t : Sys Nat Shelf,
      Traces.run (step updatingSystem) (shelfStart updatingSystem [(7, 3)]) overwriteCached = some t ∧
      t.idle = true ∧ InsertedSince updatingSystem 7 5 s₀ 1 ((insertLabels 1 7 5 false).drop 2) t ∧
      (t.cache.lookup updatingSystem.cache stableSorters 0 1 0).2 = some [(8, 3)] := by
  have hruns : (Traces.run (step updatingSystem) (shelfStart updatingSystem [(7, 3)])
      (admitOne ++ (insertLabels 1 7 5 false).take 1)).any (fun s₀ =>
        decide (s₀.calls[1]? = some (.inserting 7 5)) &&
        (step updatingSystem s₀ (.call 1 .proceed)).any fun s₁ =>
          decide (Traces.Along (step updatingSystem) (fun s l => s.writes l ≠ some 7) s₁
            ((insertLabels 1 7 5 false).drop 2)) &&
          (Traces.run (step updatingSystem) s₁ ((insertLabels 1 7 5 false).drop 2)).any fun t =>
            decide (t.calls[1]? = some (.insertReturned 7 5) ∧ t.idle = true ∧
              (t.cache.lookup updatingSystem.cache stableSorters 0 1 0).2 = some [(8, 3)])) =
      true := by
    decide +kernel
  obtain ⟨s₀, hbefore, h₀⟩ := Traces.exists_run hruns
  obtain ⟨hcall, h₁⟩ := Bool.and_eq_true_iff.mp h₀
  obtain ⟨s₁, hstep, h₂⟩ := (Option.any_eq_true _ _).mp h₁
  obtain ⟨hquiet, h₃⟩ := Bool.and_eq_true_iff.mp h₂
  obtain ⟨t, hafter, h₄⟩ := Traces.exists_run h₃
  obtain ⟨hreturned, hidle, hlook⟩ := of_decide_eq_true h₄
  have hrun : Traces.run (step updatingSystem) (shelfStart updatingSystem [(7, 3)])
      (admitOne ++ (insertLabels 1 7 5 false).take 1 ++
        .call 1 .proceed :: (insertLabels 1 7 5 false).drop 2) =
        some t :=
    Traces.run_append.mpr ⟨s₀, hbefore, Traces.run_cons.mpr ⟨s₁, hstep, hafter⟩⟩
  exact ⟨s₀, t, hrun, hidle, ⟨of_decide_eq_true hcall, hreturned, s₁, hstep, hafter,
    of_decide_eq_true hquiet⟩, hlook⟩

/-- The theorem on that run. -/
theorem fresh_always_iff_overwriteCached :
    ∃ t : Sys Nat Shelf,
      (Traces.Always (step updatingSystem) (@Fresh _ _ updatingSystem (shelfUpserting true))
          (shelfStart updatingSystem [(7, 3)]) overwriteCached ↔
        Traces.Along (step updatingSystem) (@StepFresh _ _ updatingSystem (shelfUpserting true))
          (shelfStart updatingSystem [(7, 3)]) overwriteCached) ∧
      (Traces.Along (step updatingSystem) (@StepFresh _ _ updatingSystem (shelfUpserting true))
          (shelfStart updatingSystem [(7, 3)]) overwriteCached →
        ∀ id vec s₀ i since, InsertedSince updatingSystem id vec s₀ i since t →
          FreshHits updatingSystem id vec t) := by
  obtain ⟨_, t, hrun, _⟩ := run_overwriteCached
  exact ⟨t, fresh_always_iff rfl (shelfUpserting true) hrun⟩

/-- The copy that was cached when the insert came stays and is served: the hit
    reports the distance 3 to the old vector, not the distance 5 to the new. -/
theorem stale_copy_is_served :
    ∃ (s₀ t : Sys Nat Shelf) (since : List (Label Nat)), Reachable updatingSystem t ∧ t.idle = true ∧
      InsertedSince updatingSystem 7 5 s₀ 1 since t ∧ ¬ FreshHits updatingSystem 7 5 t := by
  obtain ⟨s₀, t, hrun, hidle, hinserted, hlook⟩ := run_overwriteCached
  refine ⟨s₀, t, _, ⟨_, _, _, _, overwriteCached, hrun⟩, hidle, hinserted, fun h => ?_⟩
  have hdist := h stableSorters 0 1 0 [(8, 3)] hlook (8, 3) List.mem_cons_self rfl
  revert hdist
  decide +kernel

end Sys

end QvCache
