/-
  QvCache.System.FailedWrite

  What a write leaves in the cache when the backend throws.  `insert` erases the
  tombstone before it asks the backend; `remove` lowers thresholds, buries the
  id, forgets its tag and deletes its points before it does.  Nothing is taken
  back when the exception passes.
-/

import QvCache.System.Thetas
import QvCache.System.Shelf

namespace QvCache

namespace PcaUtils

variable {V : Type} {c : PcaConfig V} {s : PcaUtils} {vec : V} {alpha : ℚ}

/-- A write with this vector lowers some region. -/
def Tightens (c : PcaConfig V) (s : PcaUtils) (vec : V) (alpha : ℚ) : Prop :=
  0 < alpha ∧ alpha < 1 ∧
    ∃ key ∈ visited c s.writeL1Radius (c.computeRegionKey vec), Lowered c s key alpha

/-- A write leaves both maps as they are exactly if it lowers no region: the
    discount of a lowered region always changes. -/
theorem tighten_unchanged_iff :
    (∀ key, (tightenThetaForVector c s vec alpha).1.regionThetaMap.lookup key =
        s.regionThetaMap.lookup key ∧
      (tightenThetaForVector c s vec alpha).1.regionDiscountMap.lookup key =
        s.regionDiscountMap.lookup key) ↔ ¬ Tightens c s vec alpha := by
  rw [tightenThetaForVector_eq]
  split_ifs with hguard
  · refine iff_of_true (fun key => ⟨rfl, rfl⟩) fun h => ?_
    exact not_guarded_iff.mpr ⟨h.1, h.2.1⟩ hguard
  · have halpha := not_guarded_iff.mp hguard
    constructor
    · rintro h ⟨_, _, key, hvisited, hlowered⟩
      rcases tightenAll_lookup (c := c) (s := s)
        (visited c s.writeL1Radius (c.computeRegionKey vec)) alpha key with
        ⟨_, _, _, hdisc⟩ | ⟨hnot, _⟩
      · have hsame := (h key).2
        rw [hdisc] at hsame
        have hless := hlowered.2
        rw [discount, ← hsame] at hless
        exact absurd hless (lt_irrefl _)
      · exact hnot ⟨hvisited, hlowered⟩
    · intro h key
      rcases tightenAll_lookup (c := c) (s := s)
        (visited c s.writeL1Radius (c.computeRegionKey vec)) alpha key with
        ⟨hvisited, hlowered, _⟩ | ⟨_, hlook, hdisc⟩
      · exact absurd ⟨halpha.1, halpha.2, key, hvisited, hlowered⟩ h
      · exact ⟨hlook, hdisc⟩

end PcaUtils

namespace Cache

variable {V : Type} (cfg : CacheConfig V)

/-- What a caller can tell two caches apart by: the tombstones, the record of
    admitted tags, the points of every mini-index, the thresholds and the
    discounts. -/
structure Unchanged (c c' : Cache V) : Prop where
  deletedIds : c'.deletedIds = c.deletedIds
  admitSet : c'.admitSet = c.admitSet
  contents : ∀ k tag vec, c'.HoldsAt k tag vec ↔ c.HoldsAt k tag vec
  globalThetas : ∀ K, c'.thresholds.thetaMap.lookup K = c.thresholds.thetaMap.lookup K
  thetas : ∀ key, c'.thresholds.pcaUtils.regionThetaMap.lookup key =
    c.thresholds.pcaUtils.regionThetaMap.lookup key
  discounts : ∀ key, c'.thresholds.pcaUtils.regionDiscountMap.lookup key =
    c.thresholds.pcaUtils.regionDiscountMap.lookup key

/-- `stale_write_regions` lowers some region. -/
def WriteTightens (c : Cache V) (vec : Option V) : Prop :=
  ∃ v, vec = some v ∧ cfg.theta.useRegionalTheta = true ∧
    PcaUtils.Tightens cfg.theta.pca c.thresholds.pcaUtils v c.writeThetaDiscount

end Cache

/-! ## Writes that fail -/

/-- A write as its caller makes it; `fetched` is what `fetch_backend_vector`
    gets where `remove` is given no vector. -/
inductive WriteCall (V : Type) where
  | insert (id : UInt32) (vec : V)
  | remove (id : UInt32) (given : Option V) (fetched : Option (List (Option V)))

namespace Sys

variable {V β : Type} (cfg : SystemConfig V β)

/-- The vector that a remove penalises the regions of. -/
def removalVector (given : Option V) (fetched : Option (List (Option V))) : Option V :=
  match given with
  | some vec => some vec
  | none => fetchedVector fetched

/-- What the first step of a remove is told. -/
def fetchReply (given : Option V) (fetched : Option (List (Option V))) : Reply V :=
  match given with
  | some _ => .proceed
  | none => .fetched fetched

/-- The write runs without interruption until the exception of `backend->insert`
    or `backend->remove` leaves it.  An insert asks the backend first. -/
def Fails (s : Sys V β) (w : WriteCall V) (s' : Sys V β) : Prop :=
  s'.calls[s.calls.length]? = some .threw ∧
    match w with
    | .insert id vec =>
      Traces.run (step cfg) s [.insert id vec, .call s.calls.length .proceed] = some s'
    | .remove id given fetched =>
      ∃ n, Traces.run (step cfg) s (.remove id given ::
        .call s.calls.length (fetchReply given fetched) ::
          List.replicate n (.call s.calls.length .proceed)) = some s'

/-- The call had nothing to change in the cache. -/
def NothingToDo (s : Sys V β) : WriteCall V → Prop
  | .insert id _ => id ∉ s.cache.deletedIds
  | .remove id given fetched => id ∈ s.cache.deletedIds ∧ 1 + id ∉ s.cache.admitSet ∧
      ¬ s.cache.LiveTag (1 + id) ∧ ¬ s.cache.WriteTightens cfg.cache (removalVector given fetched)

variable {cfg} {s s' : Sys V β} {i n : Nat}

/-! ## A call on its own -/

/-- A call that does not throw yet makes its next step. -/
theorem run_next {call call' : Call V} {cache : Cache V} (hcall : s.calls[i]? = some call)
    (hlive : call ≠ .threw) (hstep : s.callStep cfg i call .proceed = some (s.goesOnWith cache call'))
    (hrun : Traces.run (step cfg) s (List.replicate n (.call i .proceed)) = some s')
    (hthrew : s'.calls[i]? = some .threw) :
    ∃ m, Traces.run (step cfg) (s.moved i cache call') (List.replicate m (.call i .proceed)) =
      some s' := by
  cases n with
  | zero =>
    obtain rfl := Option.some.inj hrun
    rw [hcall] at hthrew
    exact absurd (Option.some.inj hthrew) hlive
  | succ m =>
    obtain ⟨u, hu, hrest⟩ := Traces.run_cons.mp hrun
    rw [step_call hcall hstep] at hu
    obtain rfl := Option.some.inj hu
    exact ⟨m, hrest⟩

/-- A call that has ended makes no more steps. -/
theorem run_ended {call : Call V} (hcall : s.calls[i]? = some call)
    (hstep : s.callStep cfg i call .proceed = none)
    (hrun : Traces.run (step cfg) s (List.replicate n (.call i .proceed)) = some s') : s' = s := by
  cases n with
  | zero => exact (Option.some.inj hrun).symm
  | succ m =>
    obtain ⟨u, hu, _⟩ := Traces.run_cons.mp hrun
    rw [step, hcall, Option.bind_some, hstep] at hu
    cases hu

theorem getElem?_moved (hlt : i < s.calls.length) (cache : Cache V) (call : Call V) :
    (s.moved i cache call).calls[i]? = some call :=
  List.getElem?_set_self hlt

theorem moved_moved (s : Sys V β) (i : Nat) (cache cache' : Cache V) (call call' : Call V) :
    (s.moved i cache call).moved i cache' call' = s.moved i cache' call' := by
  simp [moved]

/-! ## A remove -/

/-- What is left of the cache once the loop over the shards is through. -/
structure Deleted (c c' : Cache V) (memTag : Tag) (k : Nat) : Prop where
  deletedIds : c'.deletedIds = c.deletedIds
  admitSet : c'.admitSet = c.admitSet
  thresholds : c'.thresholds = c.thresholds
  contents : ∀ j tag vec, c'.HoldsAt j tag vec ↔ c.HoldsAt j tag vec ∧ ¬ (k ≤ j ∧ tag = memTag)

theorem deleted_of_run {id : UInt32} {k : Nat} (hcall : s.calls[i]? = some (.deleting id k))
    (hrun : Traces.run (step cfg) s (List.replicate n (.call i .proceed)) = some s')
    (hthrew : s'.calls[i]? = some .threw) : Deleted s.cache s'.cache (1 + id) k := by
  induction n generalizing s k with
  | zero =>
    obtain rfl := Option.some.inj hrun
    rw [hcall] at hthrew
    cases hthrew
  | succ n ih =>
    obtain ⟨u, hu, hrest⟩ := Traces.run_cons.mp hrun
    have hlt := (List.getElem?_eq_some_iff.mp hcall).1
    rw [step, hcall, Option.bind_some, Option.map_eq_some_iff] at hu
    obtain ⟨next, hnext, rfl⟩ := hu
    have hnow : (s.afterCall i next).calls[i]? = some next.call := List.getElem?_set_self hlt
    cases callMove_of_callStep hnext with
    | deleted _ _ hshard =>
      obtain ⟨idxs, _, heq⟩ := s.cache.lazyDeleteIn_eq k (1 + id)
      have hrest := ih hnow hrest
      refine ⟨hrest.deletedIds.trans (s.cache.deletedIds_lazyDeleteIn k _), hrest.admitSet.trans ?_,
        hrest.thresholds.trans (s.cache.thresholds_lazyDeleteIn k _), fun j tag vec => ?_⟩
      · show (s.cache.lazyDeleteIn k (1 + id)).admitSet = s.cache.admitSet
        rw [heq]
      · have hone : (s.cache.lazyDeleteIn k (1 + id)).HoldsAt j tag vec ↔ _ :=
          Cache.holdsAt_lazyDeleteIn
        refine (hrest.contents j tag vec).trans ?_
        show (s.cache.lazyDeleteIn k (1 + id)).HoldsAt j tag vec ∧ _ ↔ _
        rw [hone, and_assoc]
        refine and_congr_right fun _ => ?_
        -- shard `k` now, and the shards after it in the rest of the loop
        constructor
        · rintro ⟨hhere, hlater⟩ ⟨hle, htag⟩
          rcases Nat.eq_or_lt_of_le hle with heq | hlt
          · exact hhere ⟨heq.symm, htag⟩
          · exact hlater ⟨hlt, htag⟩
        · intro h
          exact ⟨fun hhere => h ⟨hhere.1.ge, hhere.2⟩,
            fun hlater => h ⟨Nat.le_of_succ_le hlater.1, hlater.2⟩⟩
    | dropped =>
      obtain rfl := run_ended hnow rfl hrest
      rw [hnow] at hthrew
      cases hthrew
    | notDropped =>
      obtain rfl := run_ended hnow rfl hrest
      rw [hnow] at hthrew
      cases hthrew
    | dropThrew _ _ hshard =>
      obtain rfl := run_ended hnow rfl hrest
      refine ⟨rfl, rfl, rfl, fun j tag vec => ⟨fun h => ⟨h, fun hpast => ?_⟩, fun h => h.1⟩⟩
      exact absurd (Nat.lt_of_lt_of_le h.lt hshard) (not_lt.mpr hpast.1)

/-- From the lowering of the thresholds to the exception. -/
theorem removed_of_run {id : UInt32} {vec : Option V} (hcall : s.calls[i]? = some (.lowering id vec))
    (hrun : Traces.run (step cfg) s (List.replicate n (.call i .proceed)) = some s')
    (hthrew : s'.calls[i]? = some .threw) :
    s'.cache.deletedIds = insert id s.cache.deletedIds ∧
      s'.cache.admitSet = s.cache.admitSet.erase (1 + id) ∧
      s'.cache.thresholds = (s.cache.staleWriteRegions cfg.cache vec).thresholds ∧
      ∀ j tag v, s'.cache.HoldsAt j tag v ↔ s.cache.HoldsAt j tag v ∧ tag ≠ 1 + id := by
  have hlt := (List.getElem?_eq_some_iff.mp hcall).1
  obtain ⟨n₁, hrun₁⟩ := run_next hcall nofun rfl hrun hthrew
  obtain ⟨n₂, hrun₂⟩ := run_next (getElem?_moved hlt _ (.burying id)) nofun rfl hrun₁ hthrew
  rw [moved_moved] at hrun₂
  obtain ⟨n₃, hrun₃⟩ := run_next (getElem?_moved hlt _ (.forgetting id)) nofun rfl hrun₂ hthrew
  rw [moved_moved] at hrun₃
  have hdeleted := deleted_of_run (getElem?_moved hlt _ (.deleting id 0)) hrun₃ hthrew
  refine ⟨hdeleted.deletedIds, hdeleted.admitSet, hdeleted.thresholds, fun j tag v => ?_⟩
  rw [hdeleted.contents]
  refine and_congr Iff.rfl ?_
  rw [and_iff_right (Nat.zero_le j)]

theorem thresholds_unchanged_iff {c : CacheConfig V} (cache : Cache V) (vec : Option V) :
    (∀ key, (cache.staleWriteRegions c vec).thresholds.pcaUtils.regionThetaMap.lookup key =
        cache.thresholds.pcaUtils.regionThetaMap.lookup key ∧
      (cache.staleWriteRegions c vec).thresholds.pcaUtils.regionDiscountMap.lookup key =
        cache.thresholds.pcaUtils.regionDiscountMap.lookup key) ↔ ¬ cache.WriteTightens c vec := by
  unfold Cache.WriteTightens Cache.staleWriteRegions Thresholds.staleWriteRegions
  cases vec with
  | none => exact iff_of_true (fun _ => ⟨rfl, rfl⟩) (by rintro ⟨_, h, _⟩; cases h)
  | some v =>
    by_cases hregional : c.theta.useRegionalTheta = true
    · simp only [hregional, if_true, Option.some.injEq, exists_eq_left', true_and]
      exact PcaUtils.tighten_unchanged_iff
    · simp [hregional]

theorem thetaMap_staleWriteRegions {c : CacheConfig V} (cache : Cache V) (vec : Option V) :
    (cache.staleWriteRegions c vec).thresholds.thetaMap = cache.thresholds.thetaMap := by
  unfold Cache.staleWriteRegions Thresholds.staleWriteRegions
  cases vec with
  | none => rfl
  | some v =>
    dsimp only
    split_ifs <;> rfl

/-! ## The two writes -/

theorem failedInsert_unchanged_iff {id : UInt32} {vec : V} (h : s.Fails cfg (.insert id vec) s') :
    s.cache.Unchanged s'.cache ↔ id ∉ s.cache.deletedIds := by
  obtain ⟨hthrew, hrun⟩ := h
  obtain ⟨u, hu, hlast⟩ := Traces.run_cons.mp hrun
  obtain rfl := Option.some.inj hu
  have hcall : (s.calls ++ [Call.inserting id vec])[s.calls.length]? = some (.inserting id vec) :=
    List.getElem?_concat_length
  have hlt : s.calls.length < (s.calls ++ [Call.inserting id vec]).length := by simp
  have hstep := Traces.run_singleton.mp hlast
  simp only [step, hcall, Option.bind_some] at hstep
  obtain ⟨next, hnext, rfl⟩ := Option.map_eq_some_iff.mp hstep
  -- the exception leaves what the first step of the call has done
  have hcache : next.cache = { s.cache with deletedIds := s.cache.deletedIds.erase id } := by
    have hnow : next.call = .threw := by
      have hset := List.getElem?_set_self (a := next.call) hlt
      exact Option.some.inj (hset.symm.trans hthrew)
    cases callMove_of_callStep hnext with
    | stored => cases hnow
    | notStored => cases hnow
    | storeThrew => rfl
  show s.cache.Unchanged next.cache ↔ _
  rw [hcache]
  constructor
  · exact fun h => Finset.erase_eq_self.mp h.deletedIds
  · exact fun h => ⟨Finset.erase_eq_self.mpr h, rfl, fun _ _ _ => Iff.rfl, fun _ => rfl,
      fun _ => rfl, fun _ => rfl⟩

theorem failedRemove_unchanged_iff {id : UInt32} {given : Option V}
    {fetched : Option (List (Option V))} (h : s.Fails cfg (.remove id given fetched) s') :
    s.cache.Unchanged s'.cache ↔ s.NothingToDo cfg (.remove id given fetched) := by
  obtain ⟨hthrew, n, hrun⟩ := h
  obtain ⟨u, hu, hrest⟩ := Traces.run_cons.mp hrun
  obtain rfl := Option.some.inj hu
  have hcall : (s.calls ++ [Call.removing id given])[s.calls.length]? = some (.removing id given) :=
    List.getElem?_concat_length
  have hlt : s.calls.length < (s.calls ++ [Call.removing id given]).length := by simp
  obtain ⟨u, hu, hloop⟩ := Traces.run_cons.mp hrest
  simp only [step, hcall, Option.bind_some] at hu
  obtain ⟨next, hnext, rfl⟩ := Option.map_eq_some_iff.mp hu
  have hnow : next = ⟨s.cache, s.backend, none, .lowering id (removalVector given fetched)⟩ := by
    cases given with
    | some vec =>
      cases callMove_of_callStep hnext
      rfl
    | none =>
      cases callMove_of_callStep hnext
      rfl
  obtain ⟨hdeleted, hrecord, hthresholds, hcontents⟩ :=
    removed_of_run (by rw [hnow]; exact List.getElem?_set_self hlt) hloop hthrew
  subst hnow
  change s'.cache.deletedIds = insert id s.cache.deletedIds at hdeleted
  change s'.cache.admitSet = s.cache.admitSet.erase (1 + id) at hrecord
  change s'.cache.thresholds = (s.cache.staleWriteRegions cfg.cache _).thresholds at hthresholds
  change ∀ j tag v, s'.cache.HoldsAt j tag v ↔ s.cache.HoldsAt j tag v ∧ tag ≠ 1 + id at hcontents
  have htight := thresholds_unchanged_iff (c := cfg.cache) s.cache (removalVector given fetched)
  rw [← hthresholds] at htight
  constructor
  · intro h
    refine ⟨Finset.insert_eq_self.mp (hdeleted.symm.trans h.deletedIds),
      Finset.erase_eq_self.mp (hrecord.symm.trans h.admitSet), ?_,
      htight.mp fun key => ⟨h.thetas key, h.discounts key⟩⟩
    rintro ⟨k, vec, hheld⟩
    exact ((hcontents k _ vec).mp ((h.contents k _ vec).mpr hheld)).2 rfl
  · rintro ⟨hburied, hforgotten, hdead, hlow⟩
    have hmaps := htight.mpr hlow
    refine ⟨hdeleted.trans (Finset.insert_eq_self.mpr hburied),
      hrecord.trans (Finset.erase_eq_self.mpr hforgotten), fun k tag vec => ?_, fun K => ?_,
      fun key => (hmaps key).1, fun key => (hmaps key).2⟩
    · refine (hcontents k tag vec).trans (and_iff_left_of_imp fun hheld htag => ?_)
      exact hdead ⟨k, vec, htag ▸ hheld⟩
    · rw [hthresholds, thetaMap_staleWriteRegions]

/-- A failed write leaves the cache as it was exactly if it had nothing to do
    there. -/
theorem failedWrite_unchanged_iff (cfg : SystemConfig V β) (s s' : Sys V β) (w : WriteCall V)
    (h : s.Fails cfg w s') : s.cache.Unchanged s'.cache ↔ s.NothingToDo cfg w := by
  cases w with
  | insert id vec => exact failedInsert_unchanged_iff h
  | remove id given fetched => exact failedRemove_unchanged_iff h

end Sys

/-! ## A backend that throws -/

/-- The shelf with room for one entry, and with no way to take it out. -/
def jammedSystem : SystemConfig Nat Shelf where
  cache := (lineSystem 1 Nat.one_pos false true).cache
  backend := { shelfBackend true with
    insert := fun shelf id vec => if shelf.size = 0 then some (shelf.insert id vec) else none
    remove := fun _ _ => none }

namespace Sys

/-- On a full shelf a new id is not stored, and the cache does not know it. -/
theorem failedWrite_unchanged_iff_full : ∃ s',
    (shelfStart jammedSystem [(1, 10)]).Fails jammedSystem (.insert 7 6) s' ∧
      (shelfStart jammedSystem [(1, 10)]).cache.Unchanged s'.cache := by
  have hruns : ∃ s', Traces.run (step jammedSystem) (shelfStart jammedSystem [(1, 10)])
      [.insert 7 6, .call 0 .proceed] = some s' ∧ decide (s'.calls[0]? = some .threw) = true :=
    Traces.exists_run (by decide +kernel)
  obtain ⟨s', hrun, hthrew⟩ := hruns
  have hfails : (shelfStart jammedSystem [(1, 10)]).Fails jammedSystem (.insert 7 6) s' :=
    ⟨of_decide_eq_true hthrew, hrun⟩
  exact ⟨s', hfails, (failedWrite_unchanged_iff jammedSystem _ s' (.insert 7 6) hfails).mpr
    (Finset.notMem_empty 7)⟩

/-- The labels of a failing remove of id 7 after its insert. -/
def jammedRemove : List (Label Nat) :=
  [.remove 7 (some 5), .call 1 .proceed] ++ List.replicate 5 (.call 1 .proceed)

/-- After the insert of id 7 a remove fails: the backend still has the id, the
    cache has buried it, forgotten its tag and deleted its point.  Then an insert
    fails, and the tombstone is gone. -/
theorem failed_writes_change_cache : ∃ s s' s'', Reachable jammedSystem s ∧
    s.Fails jammedSystem (.remove 7 (some 5) none) s' ∧ s'.backend.lookup 7 = some 5 ∧
    s.cache.deletedIds = ∅ ∧ s'.cache.deletedIds = {7} ∧
    s.cache.admitSet = {8} ∧ s'.cache.admitSet = ∅ ∧
    ¬ s.cache.Unchanged s'.cache ∧
    s'.Fails jammedSystem (.insert 7 6) s'' ∧ s''.cache.deletedIds = ∅ ∧
    ¬ s'.cache.Unchanged s''.cache := by
  have hstart : ∃ s, Traces.run (step jammedSystem) (shelfStart jammedSystem [])
      (insertLabels 0 7 5 true) =
      some s ∧ (decide (s.calls.length = 1 ∧ s.cache.deletedIds = ∅ ∧ s.cache.admitSet = {8}) &&
        (Traces.run (step jammedSystem) s jammedRemove).any fun s' =>
          decide (s'.calls.length = 2 ∧ s'.calls[1]? = some .threw ∧ s'.cache.deletedIds = {7} ∧
            s'.cache.admitSet = ∅ ∧ s'.backend.lookup 7 = some 5) &&
          (Traces.run (step jammedSystem) s' [.insert 7 6, .call 2 .proceed]).any fun s'' =>
            decide (s''.calls[2]? = some .threw ∧ s''.cache.deletedIds = ∅)) = true :=
    Traces.exists_run (by decide +kernel)
  obtain ⟨s, hinserted, htest⟩ := hstart
  obtain ⟨hs, hremove⟩ := Bool.and_eq_true_iff.mp htest
  obtain ⟨hlen, hempty, hadmitted⟩ := of_decide_eq_true hs
  obtain ⟨s', hremoved, htest'⟩ := Traces.exists_run hremove
  obtain ⟨hs', hinsert⟩ := Bool.and_eq_true_iff.mp htest'
  obtain ⟨hlen', hthrew', hburied, hforgotten, hkept⟩ := of_decide_eq_true hs'
  obtain ⟨s'', hfailed, htest''⟩ := Traces.exists_run hinsert
  obtain ⟨hthrew'', hrisen⟩ := of_decide_eq_true htest''
  refine ⟨s, s', s'', ⟨_, 0, 1 / 2, 1, insertLabels 0 7 5 true, hinserted⟩,
    ⟨by rw [hlen]; exact hthrew', 5, by rw [hlen]; exact hremoved⟩, hkept, hempty, hburied, hadmitted,
    hforgotten, fun h => ?_, ⟨by rw [hlen']; exact hthrew'', by rw [hlen']; exact hfailed⟩, hrisen,
    fun h => ?_⟩
  · have hsame := h.deletedIds
    rw [hburied, hempty] at hsame
    exact absurd hsame (by decide)
  · have hsame := h.deletedIds
    rw [hrisen, hburied] at hsame
    exact absurd hsame (by decide)

end Sys

end QvCache
