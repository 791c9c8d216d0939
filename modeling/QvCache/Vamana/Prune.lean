/-
  QvCache.Vamana.Prune

  `occlude_list` and `prune_neighbors` (external/DiskANN/src/index.cpp), which
  choose the out-links of a node among candidates.  Candidates are looked at
  nearest first; a chosen one occludes the later ones that are much nearer to it
  than to the node, and a later round with a larger `cur_alpha` gives the
  occluded ones another chance.

  `Occluding` says where a run of the loops stands.  For the Euclidean and the
  cosine distance it gives the two halves of the pruning rule: what is left out
  is covered by something chosen (`occludeList_covers`), and of two chosen
  candidates the nearer one does not occlude the other (`occludeList_separated`).

  Floating point is exact here, with `FLT_MAX` as `⊤`.
-/

import QvCache.Vamana.Queue
import QvCache.Theta.RegionStore
import Mathlib.Algebra.Order.Field.Rat
import Mathlib.Algebra.Order.Ring.Pow
import Mathlib.Data.Rat.Floor
import Mathlib.Data.List.Sort

namespace QvCache.Vamana

/-- `_dist_metric`, `_indexingAlpha`, `_indexingRange`, `_indexingMaxC` and
    `_saturate_graph`. -/
structure PruneParams where
  metric : Metric
  alpha : ℚ
  range : Nat
  maxc : Nat
  saturateGraph : Bool

/-- The pool with the occlude factor of each place, and the result so far. -/
structure OccludeState where
  entries : List (Neighbor ℚ × WithTop ℚ)
  result : List Nat

section

variable (c : PruneParams) (dist : Nat → Nat → ℚ) (location : Nat) (deleted : Finset Nat)

/-- The factor of an entry at distance `d` once a candidate at distance `djk` from
    it was chosen.  With the inner product only the round is remembered, as
    `eps`; with any other metric nothing is occluded. -/
def occludeFactor (curAlpha : ℚ) (factor : WithTop ℚ) (d djk : ℚ) : WithTop ℚ :=
  match c.metric with
  | .L2 | .cosine => if djk = 0 then ⊤ else max factor (d / djk : ℚ)
  | .innerProduct =>
    if curAlpha * -d < -djk then max factor (curAlpha + 1 / 100 : ℚ) else factor
  | .fastL2 => factor

/-- Choosing the candidate `n` at place `i`: it is not considered again, and the
    factors behind it grow. -/
def choose (curAlpha : ℚ) (i : Nat) (n : Neighbor ℚ) (t : Nat) (e : Neighbor ℚ × WithTop ℚ) :
    Neighbor ℚ × WithTop ℚ :=
  if t = i then (e.1, ⊤)
  else if i < t ∧ e.2 ≤ (c.alpha : WithTop ℚ) then
    (e.1, occludeFactor c curAlpha e.2 e.1.distance (dist e.1.id n.id))
  else e

/-- One place of the pool in a round.  The loop ends when the result is full,
    which is to leave all places behind alone. -/
def occludeAt (curAlpha : ℚ) (st : OccludeState) (i : Nat) : OccludeState :=
  match st.entries[i]? with
  | none => st
  | some (n, factor) =>
    if c.range ≤ st.result.length ∨ (curAlpha : WithTop ℚ) < factor then st
    else
      { entries := st.entries.mapIdx (choose c dist curAlpha i n)
        result :=
          if n.id ∈ deleted ∨ n.id = location then st.result else st.result ++ [n.id] }

/-- One round over the pool. -/
def occludeRound (curAlpha : ℚ) (st : OccludeState) : OccludeState :=
  (List.range st.entries.length).foldl (occludeAt c dist location deleted curAlpha) st

/-- The rounds, for `cur_alpha = 1, 1.2, 1.44, …` up to `alpha`. -/
def occludeRounds : Nat → ℚ → OccludeState → OccludeState
  | 0, _, st => st
  | rounds + 1, curAlpha, st =>
    if curAlpha ≤ c.alpha ∧ st.result.length < c.range then
      occludeRounds rounds (curAlpha * (6 / 5)) (occludeRound c dist location deleted curAlpha st)
    else st

/-- More rounds than it takes `cur_alpha` to pass `alpha`. -/
def enoughRounds (alpha : ℚ) : Nat := (5 * alpha.ceil).toNat + 1

/-- `occlude_list` of a sorted pool. -/
def occludeList (pool : List (Neighbor ℚ)) : List Nat :=
  (occludeRounds c dist location deleted (enoughRounds c.alpha) 1
    ⟨(pool.take c.maxc).map fun n => (n, 0), []⟩).result

/-- Filling the list up with the nearest of the pool. -/
def saturate (pool : List (Neighbor ℚ)) (prunedList : List Nat) : List Nat :=
  pool.foldl (fun l n =>
    if l.length < c.range ∧ n.id ∉ l ∧ n.id ≠ location then l ++ [n.id] else l) prunedList

/-- `std::sort` by `operator<`. -/
def sortPool (pool : List (Neighbor ℚ)) : List (Neighbor ℚ) :=
  pool.insertionSort fun a b => a.key ≤ b.key

/-- `prune_neighbors`; `occlude_list` has cut the pool that is filled up from. -/
def pruneNeighbors (pool : List (Neighbor ℚ)) : List Nat :=
  if pool = [] then []
  else
    let prunedList := occludeList c dist location ∅ (sortPool pool)
    if c.saturateGraph = true ∧ 1 < c.alpha then
      saturate c location ((sortPool pool).take c.maxc) prunedList
    else prunedList

end

/-! ## One place -/

section Places

variable {c : PruneParams} {dist : Nat → Nat → ℚ} {location : Nat} {deleted : Finset Nat}

theorem fst_choose (curAlpha : ℚ) (i : Nat) (n : Neighbor ℚ) (t : Nat)
    (e : Neighbor ℚ × WithTop ℚ) : (choose c dist curAlpha i n t e).1 = e.1 := by
  rw [choose]
  split_ifs <;> rfl

/-- The candidate `n` is kept as a link: not deleted, and not the node itself. -/
def Links (location : Nat) (deleted : Finset Nat) (id : Nat) : Prop := id ∉ deleted ∧ id ≠ location

instance : DecidablePred (Links location deleted) :=
  fun id => inferInstanceAs (Decidable (id ∉ deleted ∧ id ≠ location))

/-- What one place of a round does: nothing, because there is no such place, the
    result is full or the candidate is occluded; or it chooses the candidate. -/
theorem occludeAt_cases (c : PruneParams) (dist : Nat → Nat → ℚ) (location : Nat)
    (deleted : Finset Nat) (curAlpha : ℚ) (st : OccludeState) (i : Nat) :
    occludeAt c dist location deleted curAlpha st i = st ∧
        (c.range ≤ st.result.length ∨
          ∀ e, st.entries[i]? = some e → (curAlpha : WithTop ℚ) < e.2) ∨
      ∃ n factor, st.entries[i]? = some (n, factor) ∧ factor ≤ (curAlpha : WithTop ℚ) ∧
        st.result.length < c.range ∧
        occludeAt c dist location deleted curAlpha st i =
          ⟨st.entries.mapIdx (choose c dist curAlpha i n),
            if Links location deleted n.id then st.result ++ [n.id] else st.result⟩ := by
  rw [occludeAt]
  cases hi : st.entries[i]? with
  | none => exact Or.inl ⟨rfl, Or.inr fun e he => absurd he.symm (Option.some_ne_none e)⟩
  | some e =>
    obtain ⟨n, factor⟩ := e
    dsimp only
    by_cases hskip : c.range ≤ st.result.length ∨ (curAlpha : WithTop ℚ) < factor
    · rw [if_pos hskip]
      refine Or.inl ⟨rfl, hskip.imp_right ?_⟩
      rintro hlt e he
      rwa [← Option.some.inj he]
    · rw [if_neg hskip]
      obtain ⟨hroom, hfactor⟩ := not_or.mp hskip
      refine Or.inr ⟨n, factor, rfl, not_lt.mp hfactor, not_le.mp hroom, ?_⟩
      by_cases hlink : Links location deleted n.id
      · rw [if_pos hlink, if_neg (not_or.mpr ⟨hlink.1, hlink.2⟩)]
      · rw [if_neg hlink, if_pos (by rwa [Links, not_and_or, not_not, not_not] at hlink)]

/-- A run of the loops over `pool` that has chosen the places `picked`, in this
    order. -/
structure Occluding (c : PruneParams) (location : Nat) (deleted : Finset Nat)
    (pool : List (Neighbor ℚ)) (st : OccludeState) (picked : List Nat) : Prop where
  pool_eq : st.entries.map Prod.fst = pool
  picked_nodup : picked.Nodup
  picked_lt : ∀ i ∈ picked, i < pool.length
  top : ∀ t e, st.entries[t]? = some e → t ∈ picked → e.2 = ⊤
  untouched : ∀ t e, st.entries[t]? = some e → (∀ j ∈ picked, t < j) → e.2 = 0
  result_eq : st.result = (picked.filterMap fun i => (pool[i]?).map Neighbor.id).filter
    fun id => decide (Links location deleted id)
  length_le : st.result.length ≤ c.range

theorem Occluding.start (pool : List (Neighbor ℚ)) :
    Occluding c location deleted pool ⟨pool.map fun n => (n, 0), []⟩ [] where
  pool_eq := by simp [List.map_map, Function.comp_def]
  picked_nodup := List.nodup_nil
  picked_lt _ hi := absurd hi List.not_mem_nil
  top _ _ _ ht := absurd ht List.not_mem_nil
  untouched t e he _ := by
    rw [List.getElem?_map] at he
    obtain ⟨n, -, rfl⟩ := Option.map_eq_some_iff.mp he
    rfl
  result_eq := rfl
  length_le := Nat.zero_le _

theorem Occluding.getElem?_pool {pool : List (Neighbor ℚ)} {st : OccludeState} {picked : List Nat}
    (h : Occluding c location deleted pool st picked) (t : Nat) :
    pool[t]? = (st.entries[t]?).map Prod.fst := by
  rw [← h.pool_eq, List.getElem?_map]

/-- A candidate is chosen at most once. -/
theorem Occluding.not_picked {pool : List (Neighbor ℚ)} {st : OccludeState} {picked : List Nat}
    (h : Occluding c location deleted pool st picked) {i : Nat} {n : Neighbor ℚ}
    {factor : WithTop ℚ} {curAlpha : ℚ} (hi : st.entries[i]? = some (n, factor))
    (hfactor : factor ≤ (curAlpha : WithTop ℚ)) : i ∉ picked := by
  intro hin
  have htop : factor = ⊤ := h.top i _ hi hin
  rw [htop, top_le_iff] at hfactor
  exact WithTop.coe_ne_top hfactor

theorem Occluding.choose {pool : List (Neighbor ℚ)} {st : OccludeState} {picked : List Nat}
    (h : Occluding c location deleted pool st picked) {i : Nat} {n : Neighbor ℚ}
    {factor : WithTop ℚ} {curAlpha : ℚ} (hi : st.entries[i]? = some (n, factor))
    (hfactor : factor ≤ (curAlpha : WithTop ℚ)) (hroom : st.result.length < c.range) :
    Occluding c location deleted pool
      ⟨st.entries.mapIdx (choose c dist curAlpha i n),
        if Links location deleted n.id then st.result ++ [n.id] else st.result⟩
      (picked ++ [i]) := by
  have hpool : pool[i]? = some n := by rw [h.getElem?_pool, hi]; rfl
  have hnew := h.not_picked hi hfactor
  refine ⟨?_, ?_, ?_, ?_, ?_, ?_, ?_⟩
  · rw [← h.pool_eq]
    refine List.ext_getElem? fun t => ?_
    rw [List.getElem?_map, List.getElem?_map, List.getElem?_mapIdx, Option.map_map]
    refine congrArg (Option.map · _) ?_
    funext e
    exact fst_choose curAlpha i n t e
  · rw [List.nodup_append]
    refine ⟨h.picked_nodup, List.nodup_singleton i, ?_⟩
    rintro a ha b hb rfl
    exact hnew (List.mem_singleton.mp hb ▸ ha)
  · intro t ht
    rcases List.mem_append.mp ht with ht | ht
    · exact h.picked_lt t ht
    · rw [List.mem_singleton.mp ht]
      exact (List.getElem?_eq_some_iff.mp hpool).1
  · intro t e he ht
    rw [List.getElem?_mapIdx] at he
    obtain ⟨old, hold, rfl⟩ := Option.map_eq_some_iff.mp he
    rw [Vamana.choose]
    by_cases hti : t = i
    · rw [if_pos hti]
    · have htop : old.2 = ⊤ := by
        refine h.top t old hold ((List.mem_append.mp ht).resolve_right ?_)
        exact fun hin => hti (List.mem_singleton.mp hin)
      rw [if_neg hti, if_neg, htop]
      rintro ⟨-, hle⟩
      rw [htop, top_le_iff] at hle
      exact WithTop.coe_ne_top hle
  · intro t e he ht
    rw [List.getElem?_mapIdx] at he
    obtain ⟨old, hold, rfl⟩ := Option.map_eq_some_iff.mp he
    have hti : t < i := ht i (by simp)
    rw [Vamana.choose, if_neg (Nat.ne_of_lt hti), if_neg fun hbehind => Nat.lt_asymm hti hbehind.1]
    exact h.untouched t old hold fun j hj => ht j (List.mem_append_left _ hj)
  · have hone : ([i].filterMap fun i => (pool[i]?).map Neighbor.id) = [n.id] := by
      simp [hpool]
    rw [List.filterMap_append, hone, List.filter_append, ← h.result_eq]
    by_cases hlink : Links location deleted n.id <;> simp [hlink]
  · dsimp only
    split_ifs
    · rw [List.length_append]
      exact hroom
    · exact h.length_le

/-! ## Covering and separation -/

/-- How much nearer `n` is to `m` than to the node. -/
def ratio (dist : Nat → Nat → ℚ) (n m : Neighbor ℚ) : WithTop ℚ :=
  if dist n.id m.id = 0 then ⊤ else (n.distance / dist n.id m.id : ℚ)

theorem occludeFactor_eq (hmetric : c.metric = .L2 ∨ c.metric = .cosine) (curAlpha : ℚ)
    (factor : WithTop ℚ) (n m : Neighbor ℚ) :
    occludeFactor c curAlpha factor n.distance (dist n.id m.id) = max factor (ratio dist n m) := by
  rw [ratio]
  rcases hmetric with hmetric | hmetric
  all_goals
    rw [occludeFactor, hmetric]
    dsimp only
    split_ifs
    · exact (max_eq_right le_top).symm
    · rfl

/-- What the factors mean where the distance is Euclidean or the cosine: the
    factor of a place that was not chosen is the greatest ratio to a chosen place
    in front of it, up to where it passes `alpha`. -/
structure Covering (c : PruneParams) (dist : Nat → Nat → ℚ) (pool : List (Neighbor ℚ))
    (st : OccludeState) (picked : List Nat) : Prop where
  covered : ∀ t e, st.entries[t]? = some e → t ∉ picked → e.2 = 0 ∨
    ∃ j ∈ picked, j < t ∧ ∃ m, pool[j]? = some m ∧ e.2 ≤ ratio dist e.1 m
  bounds : ∀ t e, st.entries[t]? = some e → t ∉ picked → ∀ j ∈ picked, j < t →
    ∀ m, pool[j]? = some m → ratio dist e.1 m ≤ e.2 ∨ (c.alpha : WithTop ℚ) < e.2
  separated : picked.Pairwise fun j t => j < t → ∀ m n, pool[j]? = some m → pool[t]? = some n →
    ratio dist n m ≤ (c.alpha : WithTop ℚ)

theorem Covering.start (pool : List (Neighbor ℚ)) :
    Covering c dist pool ⟨pool.map fun n => (n, 0), []⟩ [] where
  covered t e he _ := by
    rw [List.getElem?_map] at he
    obtain ⟨n, -, rfl⟩ := Option.map_eq_some_iff.mp he
    exact Or.inl rfl
  bounds _ _ _ _ _ hj := absurd hj List.not_mem_nil
  separated := List.Pairwise.nil

theorem Covering.choose {pool : List (Neighbor ℚ)} {st : OccludeState} {picked : List Nat}
    (h : Covering c dist pool st picked) (ho : Occluding c location deleted pool st picked)
    (hmetric : c.metric = .L2 ∨ c.metric = .cosine) {i : Nat} {n : Neighbor ℚ}
    {factor : WithTop ℚ} {curAlpha : ℚ} (hi : st.entries[i]? = some (n, factor))
    (hfactor : factor ≤ (curAlpha : WithTop ℚ)) (hcur : curAlpha ≤ c.alpha) (result : List Nat) :
    Covering c dist pool ⟨st.entries.mapIdx (choose c dist curAlpha i n), result⟩
      (picked ++ [i]) := by
  have hpool : pool[i]? = some n := by rw [ho.getElem?_pool, hi]; rfl
  have hnew := ho.not_picked hi hfactor
  have halpha : factor ≤ (c.alpha : WithTop ℚ) := hfactor.trans (WithTop.coe_le_coe.mpr hcur)
  -- the factor of a place that was not chosen, after this choice
  have hstep : ∀ t e, (st.entries.mapIdx (Vamana.choose c dist curAlpha i n))[t]? = some e →
      t ∉ picked ++ [i] → ∃ old, st.entries[t]? = some old ∧ t ∉ picked ∧ e.1 = old.1 ∧
        (i < t ∧ old.2 ≤ (c.alpha : WithTop ℚ) ∧ e.2 = max old.2 (ratio dist old.1 n) ∨
          ¬ (i < t ∧ old.2 ≤ (c.alpha : WithTop ℚ)) ∧ e.2 = old.2) := by
    intro t e he ht
    rw [List.getElem?_mapIdx] at he
    obtain ⟨old, hold, rfl⟩ := Option.map_eq_some_iff.mp he
    rw [List.mem_append, not_or, List.mem_singleton] at ht
    refine ⟨old, hold, ht.1, fst_choose curAlpha i n t old, ?_⟩
    rw [Vamana.choose, if_neg ht.2]
    by_cases hbehind : i < t ∧ old.2 ≤ (c.alpha : WithTop ℚ)
    · rw [if_pos hbehind]
      exact Or.inl ⟨hbehind.1, hbehind.2, occludeFactor_eq hmetric curAlpha old.2 old.1 n⟩
    · rw [if_neg hbehind]
      exact Or.inr ⟨hbehind, rfl⟩
  refine ⟨?_, ?_, ?_⟩
  · intro t e he ht
    obtain ⟨old, hold, htp, hfst, ⟨hit, -, hmax⟩ | ⟨-, hsame⟩⟩ := hstep t e he ht
    · rw [hfst, hmax]
      rcases max_choice old.2 (ratio dist old.1 n) with hleft | hright
      · rw [hleft]
        refine (h.covered t old hold htp).imp_right ?_
        rintro ⟨j, hj, hjt, m, hm, hle⟩
        exact ⟨j, List.mem_append_left _ hj, hjt, m, hm, hle⟩
      · exact Or.inr ⟨i, by simp, hit, n, hpool, hright.le⟩
    · rw [hfst, hsame]
      refine (h.covered t old hold htp).imp_right ?_
      rintro ⟨j, hj, hjt, m, hm, hle⟩
      exact ⟨j, List.mem_append_left _ hj, hjt, m, hm, hle⟩
  · intro t e he ht j hj hjt m hm
    obtain ⟨old, hold, htp, hfst, hcase⟩ := hstep t e he ht
    rw [hfst]
    rcases List.mem_append.mp hj with hj | hj
    · have hbound := h.bounds t old hold htp j hj hjt m hm
      rcases hcase with ⟨-, hle, hmax⟩ | ⟨-, hsame⟩
      · rw [hmax]
        exact Or.inl ((hbound.resolve_right (not_lt.mpr hle)).trans (le_max_left _ _))
      · rwa [hsame]
    · obtain rfl := List.mem_singleton.mp hj
      obtain rfl : n = m := Option.some.inj (hpool.symm.trans hm)
      rcases hcase with ⟨-, -, hmax⟩ | ⟨hnot, hsame⟩
      · rw [hmax]
        exact Or.inl (le_max_right _ _)
      · rw [hsame]
        exact Or.inr (not_le.mp fun hle => hnot ⟨hjt, hle⟩)
  · rw [List.pairwise_append]
    refine ⟨h.separated, List.pairwise_singleton _ _, ?_⟩
    intro j hj t ht hjt m n' hm hn'
    obtain rfl := List.mem_singleton.mp ht
    obtain rfl : n = n' := Option.some.inj (hpool.symm.trans hn')
    have hbound := h.bounds t _ hi hnew j hj hjt m hm
    exact (hbound.resolve_right (not_lt.mpr halpha)).trans halpha

/-! ## Rounds -/

/-- A round with `curAlpha` has nothing more to choose among the first `n` places. -/
def Settled (c : PruneParams) (curAlpha : ℚ) (n : Nat) (st : OccludeState) : Prop :=
  c.range ≤ st.result.length ∨
    ∀ t < n, ∀ e, st.entries[t]? = some e → (curAlpha : WithTop ℚ) < e.2

theorem Settled.mono {a b : ℚ} {n : Nat} {st : OccludeState} (h : Settled c b n st) (hab : a ≤ b) :
    Settled c a n st :=
  h.imp_right fun hbefore t ht e he =>
    (WithTop.coe_le_coe.mpr hab).trans_lt (hbefore t ht e he)

theorem occludeRounds_of_lt {curAlpha : ℚ} (h : c.alpha < curAlpha) (rounds : Nat)
    (st : OccludeState) : occludeRounds c dist location deleted rounds curAlpha st = st := by
  cases rounds with
  | zero => rfl
  | succ rounds => rw [occludeRounds, if_neg fun hgo => not_le.mpr h hgo.1]

/-- What the loops keep; the second part where the metric allows it. -/
def Progress (c : PruneParams) (dist : Nat → Nat → ℚ) (location : Nat) (deleted : Finset Nat)
    (pool : List (Neighbor ℚ)) (st : OccludeState) : Prop :=
  ∃ picked, Occluding c location deleted pool st picked ∧
    (c.metric = .L2 ∨ c.metric = .cosine → Covering c dist pool st picked)

theorem Progress.start (c : PruneParams) (dist : Nat → Nat → ℚ) (location : Nat)
    (deleted : Finset Nat) (pool : List (Neighbor ℚ)) :
    Progress c dist location deleted pool ⟨pool.map fun n => (n, 0), []⟩ :=
  ⟨[], Occluding.start pool, fun _ => Covering.start pool⟩

theorem Progress.length_entries {pool : List (Neighbor ℚ)} {st : OccludeState}
    (h : Progress c dist location deleted pool st) : st.entries.length = pool.length := by
  obtain ⟨picked, ho, -⟩ := h
  rw [← ho.pool_eq, List.length_map]

/-- One place more. -/
theorem Progress.occludeAt {pool : List (Neighbor ℚ)} {st : OccludeState}
    (h : Progress c dist location deleted pool st) {curAlpha : ℚ} (hcur : curAlpha ≤ c.alpha)
    {i : Nat} (hsettled : Settled c curAlpha i st) :
    Progress c dist location deleted pool (occludeAt c dist location deleted curAlpha st i) ∧
      Settled c curAlpha (i + 1) (occludeAt c dist location deleted curAlpha st i) := by
  obtain ⟨picked, ho, hcover⟩ := h
  obtain ⟨hsame, hwhy⟩ | ⟨n, factor, hi, hfactor, hroom, hpick⟩ :=
    occludeAt_cases c dist location deleted curAlpha st i
  · rw [hsame]
    refine ⟨⟨picked, ho, hcover⟩, ?_⟩
    rcases hsettled with hfull | hbefore
    · exact Or.inl hfull
    · refine hwhy.imp_right fun hskip t ht e he => ?_
      rcases Nat.lt_succ_iff_lt_or_eq.mp ht with ht | rfl
      · exact hbefore t ht e he
      · exact hskip e he
  · rw [hpick]
    refine ⟨⟨picked ++ [i], ho.choose hi hfactor hroom, fun hmetric =>
      (hcover hmetric).choose ho hmetric hi hfactor hcur _⟩, Or.inr ?_⟩
    have hbefore := hsettled.resolve_left (not_le.mpr hroom)
    intro t ht e he
    rw [List.getElem?_mapIdx] at he
    obtain ⟨old, hold, rfl⟩ := Option.map_eq_some_iff.mp he
    rw [choose]
    rcases Nat.lt_succ_iff_lt_or_eq.mp ht with ht | rfl
    · rw [if_neg (Nat.ne_of_lt ht), if_neg fun hbehind => Nat.lt_asymm ht hbehind.1]
      exact hbefore t ht old hold
    · rw [if_pos rfl]
      exact WithTop.coe_lt_top curAlpha

/-- A round looks at every place. -/
theorem Progress.occludeRound {pool : List (Neighbor ℚ)} {st : OccludeState}
    (h : Progress c dist location deleted pool st) {curAlpha : ℚ} (hcur : curAlpha ≤ c.alpha) :
    Progress c dist location deleted pool (occludeRound c dist location deleted curAlpha st) ∧
      Settled c curAlpha pool.length (occludeRound c dist location deleted curAlpha st) := by
  rw [Vamana.occludeRound, h.length_entries]
  induction pool.length with
  | zero => exact ⟨h, Or.inr fun t ht => absurd ht (Nat.not_lt_zero t)⟩
  | succ n ih =>
    rw [List.range_succ, List.foldl_append]
    exact ih.1.occludeAt hcur ih.2

/-- The rounds together: each `curAlpha` up to `alpha` had its turn. -/
theorem Progress.occludeRounds {pool : List (Neighbor ℚ)} {st : OccludeState}
    (h : Progress c dist location deleted pool st) {rounds : Nat} {curAlpha : ℚ}
    (hpos : 0 < curAlpha) (henough : c.alpha < curAlpha * (6 / 5) ^ rounds) :
    Progress c dist location deleted pool
        (occludeRounds c dist location deleted rounds curAlpha st) ∧
      ∀ k, curAlpha * (6 / 5) ^ k ≤ c.alpha → Settled c (curAlpha * (6 / 5) ^ k) pool.length
        (occludeRounds c dist location deleted rounds curAlpha st) := by
  have hgrow : ∀ k, curAlpha ≤ curAlpha * (6 / 5) ^ k := fun k =>
    le_mul_of_one_le_right hpos.le (one_le_pow₀ (by norm_num))
  induction rounds generalizing curAlpha st with
  | zero =>
    refine ⟨h, fun k hk => absurd ((hgrow k).trans hk) (not_le.mpr ?_)⟩
    simpa using henough
  | succ rounds ih =>
    rw [Vamana.occludeRounds]
    by_cases hgo : curAlpha ≤ c.alpha ∧ st.result.length < c.range
    · obtain ⟨hround, hsettled⟩ := h.occludeRound hgo.1
      have hmul : ∀ k : Nat, curAlpha * (6 / 5) * (6 / 5) ^ k = curAlpha * (6 / 5) ^ (k + 1) := by
        intro k
        ring
      have hpos' : 0 < curAlpha * (6 / 5) := by positivity
      have hgrow' : ∀ k, curAlpha * (6 / 5) ≤ curAlpha * (6 / 5) * (6 / 5) ^ k := fun k =>
        le_mul_of_one_le_right hpos'.le (one_le_pow₀ (by norm_num))
      rw [if_pos hgo]
      obtain ⟨hprogress, hrest⟩ := ih hround hpos' (by rwa [hmul]) hgrow'
      refine ⟨hprogress, fun k hk => ?_⟩
      cases k with
      | zero =>
        rw [pow_zero, mul_one]
        by_cases hnext : curAlpha * (6 / 5) ≤ c.alpha
        · have hlater := hrest 0 (by rwa [pow_zero, mul_one])
          rw [pow_zero, mul_one] at hlater
          exact hlater.mono (le_mul_of_one_le_right hpos.le (by norm_num))
        · rwa [occludeRounds_of_lt (not_le.mp hnext)]
      | succ k =>
        rw [← hmul] at hk ⊢
        exact hrest k hk
    · rw [if_neg hgo]
      refine ⟨h, fun k hk => Or.inl ?_⟩
      exact not_lt.mp fun hlt => hgo ⟨(hgrow k).trans hk, hlt⟩

/-! ## The result -/

theorem lt_enoughRounds (alpha : ℚ) : alpha < (6 / 5) ^ enoughRounds alpha := by
  have hceil : alpha ≤ alpha.ceil := Rat.le_ceil
  have htoNat : (5 * alpha.ceil : ℤ) ≤ ((5 * alpha.ceil).toNat : ℤ) := Int.self_le_toNat _
  have hcast : (5 * alpha.ceil : ℚ) ≤ ((5 * alpha.ceil).toNat : ℚ) := by exact_mod_cast htoNat
  calc alpha < 1 + ((enoughRounds alpha : Nat) : ℚ) * (1 / 5) := by
        rw [enoughRounds]
        push_cast
        linarith
    _ ≤ (1 + 1 / 5) ^ enoughRounds alpha := one_add_mul_le_pow (by norm_num) _
    _ = (6 / 5) ^ enoughRounds alpha := by norm_num

/-- Where the loops end. -/
theorem occludeList_progress (c : PruneParams) (dist : Nat → Nat → ℚ) (location : Nat)
    (deleted : Finset Nat) (pool : List (Neighbor ℚ)) :
    ∃ st picked, occludeList c dist location deleted pool = st.result ∧
      Occluding c location deleted (pool.take c.maxc) st picked ∧
      (c.metric = .L2 ∨ c.metric = .cosine → Covering c dist (pool.take c.maxc) st picked) ∧
      ∀ k, (6 / 5) ^ k ≤ c.alpha → Settled c ((6 / 5) ^ k) (pool.take c.maxc).length st := by
  have henough : c.alpha < 1 * (6 / 5) ^ enoughRounds c.alpha := by
    rw [one_mul]
    exact lt_enoughRounds c.alpha
  obtain ⟨⟨picked, ho, hcover⟩, hsettled⟩ :=
    (Progress.start c dist location deleted (pool.take c.maxc)).occludeRounds one_pos henough
  simp only [one_mul] at hsettled
  exact ⟨_, picked, rfl, ho, hcover, hsettled⟩

theorem Occluding.mem_result_iff {pool : List (Neighbor ℚ)} {st : OccludeState}
    {picked : List Nat} (h : Occluding c location deleted pool st picked) {id : Nat} :
    id ∈ st.result ↔
      Links location deleted id ∧ ∃ i ∈ picked, ∃ n, pool[i]? = some n ∧ n.id = id := by
  rw [h.result_eq, List.mem_filter, List.mem_filterMap, decide_eq_true_iff, and_comm]
  simp only [Option.map_eq_some_iff]

theorem occludeList_subset {pool : List (Neighbor ℚ)} {id : Nat}
    (h : id ∈ occludeList c dist location deleted pool) :
    Links location deleted id ∧ id ∈ (pool.take c.maxc).map Neighbor.id := by
  obtain ⟨st, picked, heq, ho, -⟩ := occludeList_progress c dist location deleted pool
  rw [heq] at h
  obtain ⟨hlink, i, -, n, hn, rfl⟩ := ho.mem_result_iff.mp h
  exact ⟨hlink, List.mem_map_of_mem (List.mem_of_getElem? hn)⟩

theorem length_occludeList_le (c : PruneParams) (dist : Nat → Nat → ℚ) (location : Nat)
    (deleted : Finset Nat) (pool : List (Neighbor ℚ)) :
    (occludeList c dist location deleted pool).length ≤ c.range := by
  obtain ⟨st, picked, heq, ho, -⟩ := occludeList_progress c dist location deleted pool
  exact heq ▸ ho.length_le

theorem nodup_occludeList {pool : List (Neighbor ℚ)} (hpool : (pool.map Neighbor.id).Nodup) :
    (occludeList c dist location deleted pool).Nodup := by
  obtain ⟨st, picked, heq, ho, -⟩ := occludeList_progress c dist location deleted pool
  rw [heq, ho.result_eq]
  refine List.Nodup.filter _ (List.Nodup.filterMap ?_ ho.picked_nodup)
  intro i j id hi hj
  have htake : ((pool.take c.maxc).map Neighbor.id).Nodup :=
    hpool.sublist ((List.take_sublist _ _).map _)
  rw [← List.getElem?_map] at hi hj
  obtain ⟨hlt, -⟩ := List.getElem?_eq_some_iff.mp hi
  exact (List.getElem?_inj hlt htake).mp (hi.trans hj.symm)

/-- Where the nearest candidate may be a link, there is a link. -/
theorem occludeList_ne_nil {n : Neighbor ℚ} {pool : List (Neighbor ℚ)}
    (halpha : 1 ≤ c.alpha) (hrange : 0 < c.range) (hmaxc : 0 < c.maxc)
    (hlink : Links location deleted n.id) :
    occludeList c dist location deleted (n :: pool) ≠ [] := by
  obtain ⟨st, picked, heq, ho, -, hsettled⟩ :=
    occludeList_progress c dist location deleted (n :: pool)
  have hhead : ((n :: pool).take c.maxc)[0]? = some n := by
    rw [List.getElem?_take_of_lt hmaxc]
    rfl
  rw [heq]
  rcases hsettled 0 (by simpa using halpha) with hfull | hbefore
  · exact List.ne_nil_of_length_pos (hrange.trans_le hfull)
  · rw [ho.getElem?_pool] at hhead
    obtain ⟨e, he, hfst⟩ := Option.map_eq_some_iff.mp hhead
    obtain ⟨hlt, -⟩ := List.getElem?_eq_some_iff.mp he
    have hfactor := hbefore 0 (by rw [← ho.pool_eq, List.length_map]; exact hlt) e he
    have hpicked : 0 ∈ picked := by
      by_contra hout
      have hzero := ho.untouched 0 e he fun j hj => Nat.pos_of_ne_zero fun h0 => hout (h0 ▸ hj)
      rw [hzero, pow_zero] at hfactor
      exact absurd hfactor (by decide)
    rw [← ho.getElem?_pool] at hhead
    exact List.ne_nil_of_mem (ho.mem_result_iff.mpr ⟨hlink, 0, hpicked, n, hhead, rfl⟩)

theorem ratio_le_iff {n m : Neighbor ℚ} (hdist : 0 ≤ dist n.id m.id) {a : ℚ} :
    ratio dist n m ≤ (a : WithTop ℚ) ↔
      0 < dist n.id m.id ∧ n.distance ≤ a * dist n.id m.id := by
  rw [ratio]
  by_cases hzero : dist n.id m.id = 0
  · rw [if_pos hzero, hzero, top_le_iff]
    simp
  · have hpos : 0 < dist n.id m.id := lt_of_le_of_ne hdist (Ne.symm hzero)
    rw [if_neg hzero, WithTop.coe_le_coe, div_le_iff₀ hpos]
    simp [hpos]

theorem lt_ratio_iff {n m : Neighbor ℚ} (hdist : 0 ≤ dist n.id m.id) {a : ℚ} :
    (a : WithTop ℚ) < ratio dist n m ↔ 0 < dist n.id m.id → a * dist n.id m.id < n.distance := by
  rw [← not_le, ratio_le_iff hdist]
  simp

/-- What is left out: the result is full, or something chosen in front of it is so
    near to it that every `cur_alpha` of the loop occludes it. -/
theorem occludeList_covers (dist : Nat → Nat → ℚ) {pool : List (Neighbor ℚ)} (halpha : 1 ≤ c.alpha)
    (hmetric : c.metric = .L2 ∨ c.metric = .cosine) {t : Nat} {n : Neighbor ℚ}
    (hn : (pool.take c.maxc)[t]? = some n) (hlink : Links location deleted n.id) :
    n.id ∈ occludeList c dist location deleted pool ∨
      (occludeList c dist location deleted pool).length = c.range ∨
      ∃ j < t, ∃ m, (pool.take c.maxc)[j]? = some m ∧
        (Links location deleted m.id → m.id ∈ occludeList c dist location deleted pool) ∧
        ∀ k : Nat, (6 / 5) ^ k ≤ c.alpha → (((6 / 5) ^ k : ℚ) : WithTop ℚ) < ratio dist n m := by
  obtain ⟨st, picked, heq, ho, hcover, hsettled⟩ :=
    occludeList_progress c dist location deleted pool
  rw [heq]
  by_cases hpicked : t ∈ picked
  · exact Or.inl (ho.mem_result_iff.mpr ⟨hlink, t, hpicked, n, hn, rfl⟩)
  · by_cases hfull : c.range ≤ st.result.length
    · exact Or.inr (Or.inl (Nat.le_antisymm ho.length_le hfull))
    · have hentry := hn
      rw [ho.getElem?_pool] at hentry
      obtain ⟨e, he, rfl⟩ := Option.map_eq_some_iff.mp hentry
      obtain ⟨hlt, -⟩ := List.getElem?_eq_some_iff.mp hn
      have hfactor : ∀ k : Nat, (6 / 5) ^ k ≤ c.alpha → (((6 / 5) ^ k : ℚ) : WithTop ℚ) < e.2 :=
        fun k hk => (hsettled k hk).resolve_left hfull t hlt e he
      rcases (hcover hmetric).covered t e he hpicked with hzero | ⟨j, hj, hjt, m, hm, hle⟩
      · have hone := hfactor 0 (by simpa using halpha)
        rw [hzero, pow_zero] at hone
        exact absurd hone (by decide)
      · refine Or.inr (Or.inr ⟨j, hjt, m, hm, fun hlinkm => ?_, fun k hk => ?_⟩)
        · exact ho.mem_result_iff.mpr ⟨hlinkm, j, hj, m, hm, rfl⟩
        · exact (hfactor k hk).trans_le hle

/-- Of two chosen candidates, the nearer of which was chosen first, the nearer
    does not occlude the other. -/
theorem occludeList_separated {pool : List (Neighbor ℚ)}
    (hmetric : c.metric = .L2 ∨ c.metric = .cosine)
    (hsorted : (pool.map Neighbor.key).Pairwise (· < ·)) (hpool : (pool.map Neighbor.id).Nodup) :
    (occludeList c dist location deleted pool).Pairwise fun a b =>
      ∀ m ∈ pool, ∀ n ∈ pool, m.id = a → n.id = b → m.key < n.key →
        ratio dist n m ≤ (c.alpha : WithTop ℚ) := by
  obtain ⟨st, picked, heq, ho, hcover, -⟩ := occludeList_progress c dist location deleted pool
  rw [heq, ho.result_eq]
  refine List.Pairwise.filter _ (List.Pairwise.filterMap _ ?_ (hcover hmetric).separated)
  -- a slot stands at one place of the pool
  have hplace : ∀ i id : Nat, ((pool.take c.maxc)[i]?).map Neighbor.id = some id → ∀ m ∈ pool,
      m.id = id → (pool.take c.maxc)[i]? = some m ∧ pool[i]? = some m := by
    intro i id hi m hm hid
    obtain ⟨m', hm', rfl⟩ := Option.map_eq_some_iff.mp hi
    have hin : m' ∈ pool.take c.maxc := List.mem_of_getElem? hm'
    obtain rfl : m' = m := List.inj_on_of_nodup_map hpool (List.mem_of_mem_take hin) hm hid.symm
    obtain ⟨hlt, -⟩ := List.getElem?_eq_some_iff.mp hm'
    refine ⟨hm', ?_⟩
    rwa [List.getElem?_take_of_lt (lt_of_lt_of_le hlt (List.length_take_le _ _))] at hm'
  intro i j hsep a ha b hb m hm n hn hma hnb hlt
  obtain ⟨hmi, hmp⟩ := hplace i a ha m hm hma
  obtain ⟨hnj, hnp⟩ := hplace j b hb n hn hnb
  refine hsep ?_ m n hmi hnj
  by_contra hge
  rcases Nat.eq_or_lt_of_le (not_lt.mp hge) with rfl | hji
  · exact lt_irrefl _ (Option.some.inj (hmp.symm.trans hnp) ▸ hlt)
  · exact lt_asymm hlt (NeighborPriorityQueue.key_lt_of_lt hsorted hnp hmp hji)

/-! ## `prune_neighbors` -/

/-- What holds of a list of links chosen among the slots `ids`. -/
structure LinksFrom (c : PruneParams) (location : Nat) (ids l : List Nat) : Prop where
  subset : ∀ id ∈ l, id ∈ ids
  nodup : l.Nodup
  not_self : location ∉ l
  length_le : l.length ≤ c.range

theorem LinksFrom.saturate {pool : List (Neighbor ℚ)} {ids l : List Nat}
    (h : LinksFrom c location ids l) (hpool : ∀ n ∈ pool, n.id ∈ ids) :
    LinksFrom c location ids (saturate c location pool l) ∧ l ⊆ saturate c location pool l := by
  induction pool generalizing l with
  | nil => exact ⟨h, List.Subset.refl l⟩
  | cons n rest ih =>
    have hrest : ∀ m ∈ rest, m.id ∈ ids := fun m hm => hpool m (List.mem_cons_of_mem n hm)
    rw [Vamana.saturate, List.foldl_cons]
    split_ifs with hadd
    · obtain ⟨hroom, hnew, hself⟩ := hadd
      have hgrown : LinksFrom c location ids (l ++ [n.id]) := by
        refine ⟨?_, ?_, ?_, ?_⟩
        · intro id hid
          rcases List.mem_append.mp hid with hid | hid
          · exact h.subset id hid
          · exact List.mem_singleton.mp hid ▸ hpool n List.mem_cons_self
        · rw [← List.concat_eq_append]
          exact h.nodup.concat hnew
        · simpa [h.not_self] using Ne.symm hself
        · rw [List.length_append]
          exact hroom
      obtain ⟨hlinks, hsub⟩ := ih hgrown hrest
      exact ⟨hlinks, fun id hid => hsub (List.mem_append_left _ hid)⟩
    · exact ih h hrest

theorem perm_sortPool (pool : List (Neighbor ℚ)) : (sortPool pool).Perm pool :=
  List.perm_insertionSort _ _

theorem mem_sortPool {pool : List (Neighbor ℚ)} {n : Neighbor ℚ} : n ∈ sortPool pool ↔ n ∈ pool :=
  (perm_sortPool pool).mem_iff

theorem nodup_sortPool {pool : List (Neighbor ℚ)} (h : (pool.map Neighbor.id).Nodup) :
    ((sortPool pool).map Neighbor.id).Nodup :=
  ((perm_sortPool pool).map Neighbor.id).nodup_iff.mpr h

/-- Sorted by distance, and by slot where that is equal. -/
theorem sorted_sortPool {pool : List (Neighbor ℚ)} (h : (pool.map Neighbor.id).Nodup) :
    ((sortPool pool).map Neighbor.key).Pairwise (· < ·) := by
  have hle : (sortPool pool).Pairwise fun a b => a.key ≤ b.key :=
    @List.pairwise_insertionSort _ (fun a b : Neighbor ℚ => a.key ≤ b.key) _
      ⟨fun a b => le_total a.key b.key⟩ ⟨fun _ _ _ => le_trans⟩ pool
  have hne : (sortPool pool).Pairwise fun a b => a.id ≠ b.id :=
    List.pairwise_map.mp (nodup_sortPool h)
  rw [List.pairwise_map]
  refine (hle.and hne).imp fun hab => lt_of_le_of_ne hab.1 ?_
  exact fun heq => hab.2 (congrArg (fun k => (ofLex k).2) heq)

theorem occludeList_linksFrom (c : PruneParams) (dist : Nat → Nat → ℚ) (location : Nat)
    (deleted : Finset Nat) {pool : List (Neighbor ℚ)} (hpool : (pool.map Neighbor.id).Nodup) :
    LinksFrom c location (pool.map Neighbor.id) (occludeList c dist location deleted pool) where
  subset _ hid := ((List.take_sublist _ _).map Neighbor.id).subset (occludeList_subset hid).2
  nodup := nodup_occludeList hpool
  not_self hself := (occludeList_subset hself).1.2 rfl
  length_le := length_occludeList_le c dist location deleted pool

/-- The links `prune_neighbors` chooses, and those of `occlude_list` among them. -/
theorem pruneNeighbors_spec (c : PruneParams) (dist : Nat → Nat → ℚ) (location : Nat)
    {pool : List (Neighbor ℚ)} (hpool : (pool.map Neighbor.id).Nodup) :
    LinksFrom c location (pool.map Neighbor.id) (pruneNeighbors c dist location pool) ∧
      occludeList c dist location ∅ (sortPool pool) ⊆ pruneNeighbors c dist location pool := by
  rw [pruneNeighbors]
  by_cases hnil : pool = []
  · subst hnil
    rw [if_pos rfl]
    refine ⟨⟨fun _ h => absurd h List.not_mem_nil, List.nodup_nil, List.not_mem_nil,
      Nat.zero_le _⟩, fun id hid => ?_⟩
    have := (occludeList_subset hid).2
    simp [sortPool] at this
  · have hlinks : LinksFrom c location (pool.map Neighbor.id)
        (occludeList c dist location ∅ (sortPool pool)) := by
      have h := occludeList_linksFrom c dist location ∅ (nodup_sortPool hpool)
      exact ⟨fun id hid => ((perm_sortPool pool).map _).mem_iff.mp (h.subset id hid), h.nodup,
        h.not_self, h.length_le⟩
    rw [if_neg hnil]
    dsimp only
    split_ifs
    · refine hlinks.saturate fun n hn => ?_
      exact List.mem_map_of_mem (mem_sortPool.mp (List.mem_of_mem_take hn))
    · exact ⟨hlinks, List.Subset.refl _⟩

/-- A node with a candidate gets a link. -/
theorem pruneNeighbors_ne_nil {pool : List (Neighbor ℚ)} (hpool : (pool.map Neighbor.id).Nodup)
    (halpha : 1 ≤ c.alpha) (hrange : 0 < c.range) (hmaxc : 0 < c.maxc)
    (hself : location ∉ pool.map Neighbor.id) (hsome : pool ≠ []) :
    pruneNeighbors c dist location pool ≠ [] := by
  have hsub := (pruneNeighbors_spec c dist location hpool).2
  cases hsort : sortPool pool with
  | nil => exact absurd (hsort ▸ perm_sortPool pool).nil_eq.symm hsome
  | cons n rest =>
    have hn : n ∈ pool := mem_sortPool.mp (hsort ▸ List.mem_cons_self)
    have hlink : Links location ∅ n.id :=
      ⟨Finset.notMem_empty _, fun heq => hself (heq ▸ List.mem_map_of_mem hn)⟩
    rw [hsort] at hsub
    have hne : occludeList c dist location ∅ (n :: rest) ≠ [] :=
      occludeList_ne_nil halpha hrange hmaxc hlink
    obtain ⟨id, hid⟩ := List.exists_mem_of_ne_nil _ hne
    exact List.ne_nil_of_mem (hsub hid)

theorem pruneNeighbors_of_not_saturate {pool : List (Neighbor ℚ)}
    (hsat : c.saturateGraph = false) :
    pruneNeighbors c dist location pool =
      if pool = [] then [] else occludeList c dist location ∅ (sortPool pool) := by
  rw [pruneNeighbors, hsat]
  rfl

/-- The pruning rule.  The links are different candidates, not the node itself, and
    at most `range`.  A candidate among the `maxc` nearest that gets no link leaves
    a full list, or a link to a nearer candidate that is closer to it than the node
    by every factor the loop goes through.  And of two links the farther one is at
    most `alpha` times as far from the node as from the nearer one. -/
structure PrunedByRule (c : PruneParams) (dist : Nat → Nat → ℚ) (location : Nat)
    (pool : List (Neighbor ℚ)) : Prop where
  links : LinksFrom c location (pool.map Neighbor.id) (pruneNeighbors c dist location pool)
  covered : ∀ n ∈ (sortPool pool).take c.maxc,
    n.id ∈ pruneNeighbors c dist location pool ∨
    (pruneNeighbors c dist location pool).length = c.range ∨
    ∃ m ∈ pool, m.key < n.key ∧ m.id ∈ pruneNeighbors c dist location pool ∧
      ∀ k : Nat, (6 / 5) ^ k ≤ c.alpha → 0 < dist n.id m.id →
        (6 / 5) ^ k * dist n.id m.id < n.distance
  separated : c.saturateGraph = false →
    (pruneNeighbors c dist location pool).Pairwise fun a b =>
      ∀ m ∈ pool, ∀ n ∈ pool, m.id = a → n.id = b → m.key < n.key →
        0 < dist n.id m.id ∧ n.distance ≤ c.alpha * dist n.id m.id

/-- The rule holds for the Euclidean and the cosine distance. -/
theorem pruneNeighbors_rule (hmetric : c.metric = .L2 ∨ c.metric = .cosine)
    (hdist : ∀ a b, 0 ≤ dist a b) (halpha : 1 ≤ c.alpha) {pool : List (Neighbor ℚ)}
    (hpool : (pool.map Neighbor.id).Nodup) (hself : location ∉ pool.map Neighbor.id) :
    PrunedByRule c dist location pool := by
  obtain ⟨hlinks, hsub⟩ := pruneNeighbors_spec c dist location hpool
  have hlink : ∀ n ∈ pool, Links location ∅ n.id := fun n hn =>
    ⟨Finset.notMem_empty _, fun heq => hself (heq ▸ List.mem_map_of_mem hn)⟩
  refine ⟨hlinks, ?_, ?_⟩
  · intro n hn
    obtain ⟨t, ht⟩ := List.mem_iff_getElem?.mp hn
    have hnpool : n ∈ pool := mem_sortPool.mp (List.mem_of_mem_take hn)
    rcases occludeList_covers dist halpha hmetric ht (hlink n hnpool) with
      hin | hfull | ⟨j, hjt, m, hm, hmin, hocc⟩
    · exact Or.inl (hsub hin)
    · refine Or.inr (Or.inl (Nat.le_antisymm hlinks.length_le ?_))
      rw [← hfull]
      have hnodup : (occludeList c dist location ∅ (sortPool pool)).Nodup :=
        nodup_occludeList (nodup_sortPool hpool)
      exact (hnodup.subperm hsub).length_le
    · have hmpool : m ∈ pool := mem_sortPool.mp (List.mem_of_mem_take (List.mem_of_getElem? hm))
      refine Or.inr (Or.inr ⟨m, hmpool, ?_, hsub (hmin (hlink m hmpool)), ?_⟩)
      · have hsorted : (((sortPool pool).take c.maxc).map Neighbor.key).Pairwise (· < ·) :=
          (sorted_sortPool hpool).sublist ((List.take_sublist _ _).map _)
        exact NeighborPriorityQueue.key_lt_of_lt hsorted hm ht hjt
      · exact fun k hk hpos => (lt_ratio_iff (hdist _ _)).mp (hocc k hk) hpos
  · intro hsat
    rw [pruneNeighbors_of_not_saturate hsat]
    split_ifs with hnil
    · exact List.Pairwise.nil
    · refine (occludeList_separated hmetric (sorted_sortPool hpool) (nodup_sortPool hpool)).imp ?_
      intro a b hsep m hm n hn hma hnb hlt
      exact (ratio_le_iff (hdist _ _)).mp
        (hsep m (mem_sortPool.mpr hm) n (mem_sortPool.mpr hn) hma hnb hlt)

/-- On the line, of the candidates 1, 2 and 5 of the node 0 only the first gets a
    link: the others are much closer to it than to the node. -/
theorem pruneNeighbors_rule_line :
    pruneNeighbors ⟨.L2, 6 / 5, 2, 750, false⟩ (fun a b => ((a : ℚ) - b) ^ 2) 0
        [⟨5, 25, false⟩, ⟨1, 1, false⟩, ⟨2, 4, false⟩] = [1] ∧
      PrunedByRule ⟨.L2, 6 / 5, 2, 750, false⟩ (fun a b => ((a : ℚ) - b) ^ 2) 0
        [⟨5, 25, false⟩, ⟨1, 1, false⟩, ⟨2, 4, false⟩] :=
  ⟨by decide +kernel, pruneNeighbors_rule (Or.inl rfl) (fun _ _ => sq_nonneg _)
    (by norm_num) (by decide) (by decide)⟩

end Places

end QvCache.Vamana
