/-
  QvCache.System.HitSoundness

  Every hit of a reachable system is sound, and from a remove's tombstone on
  until the next insert of the id, no hit contains its tag: the tombstone stays,
  whatever late tasks do to the shards (`buried_of_removedSince`).
-/

import QvCache.System.Shelf

namespace QvCache

namespace Sys

variable {V β : Type} {cfg : SystemConfig V β}

/-- A remove of `id` has returned, and no insert of `id` has begun since it
    raised its tombstone.  (An insert that begins before the remove returns may
    well be the later of the two.) -/
def RemovedSince (cfg : SystemConfig V β) (id : UInt32) (s : Sys V β) : Prop :=
  ∃ i s₀ s₁ labels, Reachable cfg s₀ ∧ s₀.calls[i]? = some (.burying id) ∧
    step cfg s₀ (.call i .proceed) = some s₁ ∧ Traces.run (step cfg) s₁ labels = some s ∧
    (∀ vec, Label.insert id vec ∉ labels) ∧ s.calls[i]? = some (.removeReturned id)

/-- Only an insert of the id takes its tombstone away. -/
theorem buried_step {s s' : Sys V β} {l : Label V} {id : UInt32} (h : step cfg s l = some s')
    (hburied : id ∈ s.cache.deletedIds) (hinsert : ∀ vec, l ≠ .insert id vec) :
    id ∈ s'.cache.deletedIds := by
  rw [deletedIds_step h]
  cases l with
  | insert id' vec =>
    have hne : id ≠ id' := fun heq => hinsert vec (by rw [heq])
    exact Finset.mem_erase_of_ne_of_mem hne hburied
  -- a remove only adds a tombstone
  | call i reply =>
    cases hburies : s.calls[i]?.bind Call.buries with
    | none => simpa [tombstones, hburies] using hburied
    | some id' => simpa [tombstones, hburies] using Or.inr hburied
  | _ => exact hburied

theorem buried_run {s s' : Sys V β} {labels : List (Label V)} {id : UInt32}
    (hrun : Traces.run (step cfg) s labels = some s') (hburied : id ∈ s.cache.deletedIds)
    (hinsert : ∀ vec, Label.insert id vec ∉ labels) : id ∈ s'.cache.deletedIds :=
  Traces.run_invariant_along (I := fun s => id ∈ s.cache.deletedIds)
    (P := fun _ l => ∀ vec, l ≠ Label.insert id vec)
    (fun _ _ _ hI hP hstep => buried_step hstep hI hP) hburied
    (Traces.along_of_forall fun _ hl vec heq => hinsert vec (heq ▸ hl)) hrun

/-- The step `burying` raises the tombstone. -/
theorem buried_of_burying {s s' : Sys V β} {i : Nat} {reply : Reply V} {id : UInt32}
    (h : step cfg s (.call i reply) = some s') (hcall : s.calls[i]? = some (.burying id)) :
    id ∈ s'.cache.deletedIds := by
  rw [deletedIds_step h]
  simp [tombstones, hcall, Call.buries]

theorem buried_of_removedSince {s : Sys V β} {id : UInt32} (h : RemovedSince cfg id s) :
    id ∈ s.cache.deletedIds := by
  obtain ⟨i, s₀, s₁, labels, _, hcall, hstep, hrun, hinsert, _⟩ := h
  exact buried_run hrun (buried_of_burying hstep hcall) hinsert

/-- A tombstoned id is in no hit. -/
theorem not_mem_hit_of_buried {c c' : Cache V} {query : V} {K : Nat} {hit : Report} {id : UInt32}
    (hsound : Cache.SoundHit cfg.cache c c' query K hit) (hburied : id ∈ c.deletedIds) :
    ∀ td ∈ hit, td.1 ≠ 1 + id := by
  intro td htd htag
  have hlive := (hsound.valid td htd).2.2
  -- the hit test subtracts the 1 that the admission added
  rw [htag, UInt32.add_comm, UInt32.add_sub_cancel] at hlive
  exact hlive hburied

/-- A search whose call ends in a hit has found it in its lookup. -/
theorem lookup_of_hit {s s' : Sys V β} {sorters : Sorters} {query : V} {K resSize : Nat}
    {hit : Report} (hstep : step cfg s (.search sorters query K resSize) = some s')
    (hhit : s'.calls[s.calls.length]? = some (.hit query K hit)) :
    (s.cache.lookup cfg.cache sorters query K resSize).2 = some hit ∧
      s'.cache = (s.cache.lookup cfg.cache sorters query K resSize).1 := by
  cases move_of_step hstep with
  | search =>
    have hcall := hhit
    rw [List.getElem?_concat_length] at hcall
    cases hlook : (s.cache.lookup cfg.cache sorters query K resSize).2 with
    | none =>
      rw [hlook] at hcall
      cases hcall
    | some report =>
      rw [hlook] at hcall
      obtain ⟨_, _, rfl⟩ := Call.hit.inj (Option.some.inj hcall)
      exact ⟨rfl, rfl⟩

/-- Every hit is sound, whatever state the search finds, and contains no id that
    was removed and not inserted since. -/
theorem hit_sound {s s' : Sys V β} {sorters : Sorters} {query : V} {K resSize : Nat} {hit : Report}
    (hstep : step cfg s (.search sorters query K resSize) = some s')
    (hhit : s'.calls[s.calls.length]? = some (.hit query K hit)) :
    Cache.SoundHit cfg.cache s.cache s'.cache query K hit ∧
      ∀ id, RemovedSince cfg id s → ∀ td ∈ hit, td.1 ≠ 1 + id := by
  obtain ⟨hlook, hcache⟩ := lookup_of_hit hstep hhit
  have hsound := Cache.lookup_hit hlook
  exact ⟨hcache ▸ hsound, fun id hremoved =>
    not_mem_hit_of_buried hsound (buried_of_removedSince hremoved)⟩

/-- One shard and eager thetas. -/
def soloSystem : SystemConfig Nat Shelf := lineSystem 1 Nat.one_pos false false

/-- A miss admits the one vector on the shelf. -/
def admitOne : List (Label Nat) :=
  [.search stableSorters 0 1 0] ++ missLabels 0 [(7, .fin 3)] false ++ taskLabels 0 [3]

/-- After that, the same search hits. -/
theorem hit_sound_after_admitOne :
    ∃ s s' : Sys Nat Shelf,
      Traces.run (step soloSystem) (shelfStart soloSystem [(7, 3)]) admitOne = some s ∧
      Cache.SoundHit soloSystem.cache s.cache s'.cache 0 1 [(8, 3)] ∧
      ∀ id, RemovedSince soloSystem id s → ∀ td ∈ [((8 : Tag), (3 : ℚ))], td.1 ≠ 1 + id := by
  have hruns : (Traces.run (step soloSystem) (shelfStart soloSystem [(7, 3)]) admitOne).any
      (fun s => (step soloSystem s (.search stableSorters 0 1 0)).any fun s' =>
        decide (s'.calls[s.calls.length]? = some (.hit 0 1 [(8, 3)]))) = true := by
    decide +kernel
  obtain ⟨s, hrun, hnext⟩ := Traces.exists_run hruns
  obtain ⟨s', hstep, hhit⟩ := Option.any_eq_true _ _ |>.mp hnext
  exact ⟨s, s', hrun, hit_sound hstep (of_decide_eq_true hhit)⟩

end Sys

end QvCache
