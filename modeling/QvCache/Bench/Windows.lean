/-
  QvCache.Bench.Windows

  The window schedule of the benchmark drivers (benchmarks/qvcache/
  diskann_search.cpp and pgvector_search.cpp, the same loops in both).  Windows
  of splits are run through in rounds, each several times, and every visit of a
  split uses up its next noisy copy; a driver that runs out of copies exits in
  the middle of the run.

  The check before the run counts `window_size / stride` windows for each split,
  rounded down.  A split can lie in one more (`mostVisits`).
-/

import Mathlib.Algebra.Order.BigOperators.Group.List
import Mathlib.Data.List.Count
import Mathlib.Data.List.Nodup
import Mathlib.Order.Interval.Finset.Nat

namespace QvCache

/-! ## Loops -/

/-- A loop over the concatenation is a loop of loops. -/
theorem foldlM_flatMap {σ ι κ ε : Type} (f : ι → List κ) (body : σ → κ → Except ε σ) (l : List ι)
    (s : σ) :
    (l.flatMap f).foldlM body s = l.foldlM (fun s i => (f i).foldlM body s) s := by
  induction l generalizing s with
  | nil => rfl
  | cons i rest ih =>
    rw [List.flatMap_cons, List.foldlM_append, List.foldlM_cons]
    exact congrArg _ (funext fun s' => ih s')

/-- The parameters of a run; all of them are positive. -/
structure Schedule where
  nSplits : Nat
  windowSize : Nat
  stride : Nat
  nRepeat : Nat
  nRound : Nat
  nSplitRepeat : Nat
  queryNum : Nat
  someSplit : 0 < nSplits
  someWindow : 0 < windowSize
  someStride : 0 < stride
  someRepeat : 0 < nRepeat
  someRound : 0 < nRound
  someCopy : 0 < nSplitRepeat

namespace Schedule

/-! ## The run -/

/-- The check before the run. -/
def passesCheck (p : Schedule) : Bool :=
  let minSplitRepeat := 1 + (p.windowSize / p.stride) * p.nRepeat * p.nRound
  !decide (p.nSplitRepeat < minSplitRepeat)

/-- The copy of a split that a visit uses, and the range of its queries. -/
structure Visit where
  split : Nat
  copy : Nat
  queryStart : Nat
  queryEnd : Nat

structure Progress where
  nextCopy : List Nat
  visits : List Visit

def queriesPerOriginalSplit (p : Schedule) : Nat := p.queryNum / (p.nSplits * p.nSplitRepeat)

/-- The body of the innermost loop. -/
def visit (p : Schedule) (s : Progress) (split : Nat) : Except String Progress :=
  let copy := s.nextCopy.getD split 0
  let nextCopy := s.nextCopy.set split (copy + 1)
  if p.nSplitRepeat ≤ copy then
    .error ("Error: split " ++ toString split ++ " needs copy " ++ toString copy ++
      " but n_split_repeat=" ++ toString p.nSplitRepeat)
  else
    let splitOffset := split * p.nSplitRepeat * p.queriesPerOriginalSplit
    let copyOffset := copy * p.queriesPerOriginalSplit
    let queryStart := splitOffset + copyOffset
    let queryEnd := min (queryStart + p.queriesPerOriginalSplit) p.queryNum
    .ok ⟨nextCopy, s.visits ++ [⟨split, copy, queryStart, queryEnd⟩]⟩

/-- The values of `window_start` from one on; `fuel` bounds their number. -/
def windowStartsFrom (p : Schedule) : Nat → Nat → List Nat
  | 0, _ => []
  | fuel + 1, windowStart =>
    if windowStart + p.windowSize ≤ p.nSplits then
      windowStart :: p.windowStartsFrom fuel (windowStart + p.stride)
    else []

def windowStarts (p : Schedule) : List Nat := p.windowStartsFrom (p.nSplits + 1) 0

def start (p : Schedule) : Progress := ⟨List.replicate p.nSplits 1, []⟩

/-- The loops over rounds, windows, repeats and offsets. -/
def run (p : Schedule) : Except String Progress :=
  (List.range p.nRound).foldlM (fun s _ =>
    p.windowStarts.foldlM (fun s windowStart =>
      (List.range p.nRepeat).foldlM (fun s _ =>
        (List.range p.windowSize).foldlM (fun s offset => p.visit s (windowStart + offset)) s) s)
      s) p.start

/-- The driver does not run out of copies, uses none of them twice, and no range
    of queries ends beyond the query file. -/
def RunsClean (p : Schedule) : Prop :=
  ∃ s, p.run = .ok s ∧
    (s.visits.map fun v => (v.split, v.copy)).Nodup ∧
    ∀ v ∈ s.visits, v.copy < p.nSplitRepeat ∧ v.queryEnd ≤ p.queryNum

/-! ## How often a split is visited -/

/-- The number of windows. -/
def windows (p : Schedule) : Nat :=
  if p.windowSize ≤ p.nSplits then (p.nSplits - p.windowSize) / p.stride + 1 else 0

/-- The number of windows that some split lies in: `window_size / stride`
    rounded up, unless there are fewer windows. -/
def mostWindows (p : Schedule) : Nat := min p.windows ((p.windowSize + p.stride - 1) / p.stride)

/-- The splits in the order of their visits. -/
def visited (p : Schedule) : List Nat :=
  (List.range p.nRound).flatMap fun _ =>
    p.windowStarts.flatMap fun windowStart =>
      (List.range p.nRepeat).flatMap fun _ =>
        (List.range p.windowSize).map fun offset => windowStart + offset

theorem run_eq (p : Schedule) : p.run = p.visited.foldlM p.visit p.start := by
  unfold run visited
  simp only [foldlM_flatMap, List.foldlM_map]

/-! ## The windows -/

theorem lt_windows_iff (p : Schedule) (k : Nat) :
    k < p.windows ↔ k * p.stride + p.windowSize ≤ p.nSplits := by
  unfold windows
  split_ifs with hfits
  · rw [Nat.lt_succ_iff, Nat.le_div_iff_mul_le p.someStride]
    omega
  · omega

/-- The loop over the window starts, in closed form. -/
theorem windowStartsFrom_eq (p : Schedule) (fuel k : Nat) (hfuel : p.windows ≤ k + fuel) :
    p.windowStartsFrom fuel (k * p.stride) =
      (List.range' k (p.windows - k)).map fun i => i * p.stride := by
  induction fuel generalizing k with
  | zero =>
    rw [Nat.sub_eq_zero_of_le (show p.windows ≤ k from hfuel)]
    rfl
  | succ fuel ih =>
    rw [windowStartsFrom]
    by_cases hk : k < p.windows
    · have hnext : k * p.stride + p.stride = (k + 1) * p.stride := (Nat.succ_mul k p.stride).symm
      have hcount : p.windows - k = p.windows - (k + 1) + 1 := by omega
      rw [if_pos ((p.lt_windows_iff k).mp hk), hnext, ih (k + 1) (by omega), hcount,
        List.range'_succ, List.map_cons]
    · rw [if_neg fun h => hk ((p.lt_windows_iff k).mpr h), Nat.sub_eq_zero_of_le (Nat.not_lt.mp hk)]
      rfl

theorem windowStarts_eq (p : Schedule) :
    p.windowStarts = (List.range p.windows).map fun i => i * p.stride := by
  have hmany : p.windows ≤ 0 + (p.nSplits + 1) := by
    unfold windows
    split_ifs
    · have hdiv := Nat.div_le_self (p.nSplits - p.windowSize) p.stride
      omega
    · exact Nat.zero_le _
  have hstarts := p.windowStartsFrom_eq (p.nSplits + 1) 0 hmany
  rw [Nat.zero_mul, Nat.sub_zero, ← List.range_eq_range'] at hstarts
  exact hstarts

/-- Window `k` contains the split. -/
def Contains (p : Schedule) (split k : Nat) : Prop :=
  k * p.stride ≤ split ∧ split < k * p.stride + p.windowSize

instance (p : Schedule) (split k : Nat) : Decidable (p.Contains split k) :=
  inferInstanceAs (Decidable (_ ∧ _))

/-- The number of windows that contain a split. -/
def containing (p : Schedule) (split : Nat) : Nat :=
  (List.range p.windows).countP fun k => decide (p.Contains split k)

theorem roundedUp_eq (p : Schedule) :
    (p.windowSize + p.stride - 1) / p.stride = (p.windowSize - 1) / p.stride + 1 := by
  have hsum : p.windowSize + p.stride - 1 = p.windowSize - 1 + p.stride := by
    have hwindow := p.someWindow
    omega
  rw [hsum, Nat.add_div_right _ p.someStride]

/-- A split lies in at most so many windows. -/
theorem containing_le (p : Schedule) (split : Nat) : p.containing split ≤ p.mostWindows := by
  have hlength : p.containing split ≤ p.windows := by
    have hle := List.countP_le_length (p := fun k => decide (p.Contains split k))
      (l := List.range p.windows)
    rwa [List.length_range] at hle
  refine le_min hlength ?_
  -- they lie next to each other and none but the last starts a stride before it ends
  rw [p.roundedUp_eq]
  have hsubset : ((List.range p.windows).filter fun k => decide (p.Contains split k)).toFinset ⊆
      Finset.Ico (split / p.stride - (p.windowSize - 1) / p.stride) (split / p.stride + 1) := by
    intro k hk
    rw [List.mem_toFinset, List.mem_filter, decide_eq_true_eq] at hk
    obtain ⟨-, hstart, hend⟩ := hk
    have hlast : k ≤ split / p.stride := (Nat.le_div_iff_mul_le p.someStride).mpr hstart
    have hwithin : split / p.stride ≤ (p.windowSize - 1) / p.stride + k := by
      rw [← Nat.add_mul_div_right _ _ p.someStride]
      exact Nat.div_le_div_right (by omega)
    rw [Finset.mem_Ico]
    exact ⟨Nat.sub_le_iff_le_add'.mpr hwithin, Nat.lt_succ_of_le hlast⟩
  have hcard := Finset.card_le_card hsubset
  rw [List.toFinset_card_of_nodup (List.nodup_range.filter _), Nat.card_Ico,
    ← List.countP_eq_length_filter] at hcard
  refine hcard.trans ?_
  generalize split / p.stride = last
  generalize (p.windowSize - 1) / p.stride = before
  omega

/-- The split at which the last of these windows starts lies in all of them. -/
theorem exists_mostWindows (p : Schedule) : ∃ split, p.containing split = p.mostWindows := by
  refine ⟨(p.mostWindows - 1) * p.stride, le_antisymm (p.containing_le _) ?_⟩
  have hmost : p.mostWindows ≤ (p.windowSize - 1) / p.stride + 1 :=
    p.roundedUp_eq ▸ min_le_right _ _
  have hall : ∀ k ∈ List.range p.mostWindows,
      decide (p.Contains ((p.mostWindows - 1) * p.stride) k) = true := by
    intro k hk
    have hlt := List.mem_range.mp hk
    have hstart : k * p.stride ≤ (p.mostWindows - 1) * p.stride :=
      Nat.mul_le_mul_right _ (by omega)
    have hend : (p.mostWindows - 1) * p.stride ≤ p.windowSize - 1 :=
      (Nat.mul_le_mul_right _ (by omega)).trans (Nat.div_mul_le_self (p.windowSize - 1) p.stride)
    have hwindow := p.someWindow
    exact decide_eq_true ⟨hstart, by omega⟩
  have hcount := List.countP_eq_length.mpr hall
  rw [List.length_range] at hcount
  have hsublist : (List.range p.mostWindows).Sublist (List.range p.windows) :=
    List.range_sublist.mpr (min_le_left _ _)
  have hle := hsublist.countP_le
    (p := fun k => decide (p.Contains ((p.mostWindows - 1) * p.stride) k))
  rwa [hcount] at hle

/-! ## The visits -/

theorem count_window (p : Schedule) (windowStart split : Nat) :
    ((List.range p.windowSize).map fun offset => windowStart + offset).count split =
      if windowStart ≤ split ∧ split < windowStart + p.windowSize then 1 else 0 := by
  have hmap : ((List.range p.windowSize).map fun offset => windowStart + offset) =
      List.range' windowStart p.windowSize := by
    rw [List.range_eq_range', List.map_add_range', Nat.add_zero]
  rw [hmap, List.Nodup.count List.nodup_range']
  simp only [List.mem_range'_1]

theorem count_flatMap_const (n : Nat) (l : List Nat) (split : Nat) :
    ((List.range n).flatMap fun _ => l).count split = l.count split * n := by
  rw [List.count_flatMap]
  simp [Function.comp_def, Nat.mul_comm]

theorem count_visited (p : Schedule) (split : Nat) :
    p.visited.count split = p.containing split * p.nRepeat * p.nRound := by
  have hwindow : ∀ k, ((List.range p.nRepeat).flatMap fun _ =>
      (List.range p.windowSize).map fun offset => k * p.stride + offset).count split =
      if p.Contains split k then p.nRepeat else 0 := by
    intro k
    rw [count_flatMap_const, count_window]
    by_cases hk : p.Contains split k
    · have hinside : k * p.stride ≤ split ∧ split < k * p.stride + p.windowSize := hk
      rw [if_pos hk, if_pos hinside, Nat.one_mul]
    · have houtside : ¬ (k * p.stride ≤ split ∧ split < k * p.stride + p.windowSize) := hk
      rw [if_neg hk, if_neg houtside, Nat.zero_mul]
  have hstarts : ∀ ks : List Nat, (ks.map fun k => if p.Contains split k then p.nRepeat else 0).sum =
      ks.countP (fun k => decide (p.Contains split k)) * p.nRepeat := by
    intro ks
    induction ks with
    | nil => rw [List.countP_nil, Nat.zero_mul]; rfl
    | cons k rest ih =>
      rw [List.map_cons, List.sum_cons, ih, List.countP_cons]
      by_cases hk : p.Contains split k
      · rw [if_pos hk, if_pos (decide_eq_true hk), Nat.add_mul, Nat.one_mul, Nat.add_comm]
      · rw [if_neg hk, if_neg (by simpa using hk), Nat.add_zero, Nat.zero_add]
  rw [visited, count_flatMap_const, windowStarts_eq, List.flatMap_map, List.count_flatMap,
    containing, ← hstarts]
  exact congrArg (fun ns : List Nat => ns.sum * p.nRound) (List.map_congr_left fun k _ => hwindow k)

theorem visited_lt (p : Schedule) : ∀ split ∈ p.visited, split < p.nSplits := by
  intro split hsplit
  simp only [visited, List.mem_flatMap, List.mem_map, List.mem_range, windowStarts_eq] at hsplit
  obtain ⟨_, _, _, ⟨k, hk, rfl⟩, _, _, offset, hoffset, rfl⟩ := hsplit
  have hfits := (p.lt_windows_iff k).mp hk
  omega

/-! ## The cursors -/

/-- What the run knows after these visits. -/
structure Cursors (p : Schedule) (splits : List Nat) (s : Progress) : Prop where
  nextCopy : s.nextCopy = (List.range p.nSplits).map fun split => 1 + splits.count split
  taken : ∀ v ∈ s.visits, v.copy ≤ splits.count v.split
  fresh : (s.visits.map fun v => (v.split, v.copy)).Nodup
  inside : ∀ v ∈ s.visits, v.copy < p.nSplitRepeat ∧ v.queryEnd ≤ p.queryNum

theorem cursors_start (p : Schedule) : p.Cursors [] p.start where
  nextCopy := by
    have hones : (List.range p.nSplits).map (fun split => 1 + ([] : List Nat).count split) =
        List.replicate (List.range p.nSplits).length 1 :=
      List.map_eq_replicate_iff.mpr fun _ _ => rfl
    rw [hones, List.length_range]
    rfl
  taken := nofun
  fresh := List.nodup_nil
  inside := nofun

theorem Cursors.copy_eq {p : Schedule} {splits : List Nat} {s : Progress} (h : p.Cursors splits s)
    {split : Nat} (hsplit : split < p.nSplits) :
    s.nextCopy.getD split 0 = 1 + splits.count split := by
  rw [h.nextCopy, List.getD_eq_getElem?_getD, List.getElem?_map,
    List.getElem?_range hsplit]
  rfl

/-- A visit that takes the next copy of the split. -/
theorem Cursors.visit {p : Schedule} {splits : List Nat} {s : Progress} (h : p.Cursors splits s)
    {split : Nat} (hsplit : split < p.nSplits) (hcopy : 1 + splits.count split < p.nSplitRepeat) :
    ∃ s', p.visit s split = .ok s' ∧ p.Cursors (splits ++ [split]) s' := by
  rw [Schedule.visit, h.copy_eq hsplit]
  dsimp only
  rw [if_neg (Nat.not_le.mpr hcopy)]
  refine ⟨_, rfl, ?_, ?_, ?_, ?_⟩
  · rw [h.nextCopy]
    refine List.ext_getElem? fun j => ?_
    rw [List.getElem?_set, List.getElem?_map, List.getElem?_map, List.length_map, List.length_range]
    by_cases hj : split = j
    · rw [if_pos hj, if_pos (hj ▸ hsplit), ← hj, List.getElem?_range hsplit, Option.map_some,
        List.count_append, List.count_singleton_self, Nat.add_assoc]
    · rw [if_neg hj]
      rcases lt_or_ge j p.nSplits with hlt | hge
      · rw [List.getElem?_range hlt, Option.map_some, Option.map_some, List.count_append,
          List.count_singleton, if_neg (by simpa using hj), Nat.add_zero]
      · rw [List.getElem?_eq_none (by rwa [List.length_range])]
        rfl
  · intro v hv
    rw [List.count_append]
    rcases List.mem_append.mp hv with hold | hnew
    · exact (h.taken v hold).trans (Nat.le_add_right _ _)
    · rw [List.mem_singleton.mp hnew, List.count_singleton_self, Nat.add_comm]
  · rw [List.map_append, List.nodup_append]
    refine ⟨h.fresh, List.nodup_singleton _, fun a ha b hb => ?_⟩
    -- the copies taken of this split so far are smaller
    obtain ⟨v, hv, rfl⟩ := List.mem_map.mp ha
    rw [List.mem_singleton.mp hb]
    intro heq
    obtain ⟨hsame, hcopies⟩ := Prod.mk.inj heq
    dsimp only at hsame hcopies
    have htaken : v.copy ≤ splits.count split := hsame ▸ h.taken v hv
    omega
  · intro v hv
    rcases List.mem_append.mp hv with hold | hnew
    · exact h.inside v hold
    · rw [List.mem_singleton.mp hnew]
      exact ⟨hcopy, min_le_right _ _⟩

theorem Cursors.exit {p : Schedule} {splits : List Nat} {s : Progress} (h : p.Cursors splits s)
    {split : Nat} (hsplit : split < p.nSplits) (hcopy : p.nSplitRepeat ≤ 1 + splits.count split) :
    ∃ message, p.visit s split = .error message := by
  rw [Schedule.visit, h.copy_eq hsplit]
  exact ⟨_, if_pos hcopy⟩

/-- The run gets through these visits, or some split is visited
    `n_split_repeat` times. -/
theorem foldlM_visit (p : Schedule) {splits : List Nat}
    (hsplits : ∀ split ∈ splits, split < p.nSplits) :
    (∃ s, splits.foldlM p.visit p.start = .ok s ∧ p.Cursors splits s ∧
        ∀ split, splits.count split < p.nSplitRepeat) ∨
      (∃ message, splits.foldlM p.visit p.start = .error message) ∧
        ∃ split, p.nSplitRepeat ≤ splits.count split := by
  induction splits using List.reverseRecOn with
  | nil => exact Or.inl ⟨p.start, rfl, p.cursors_start, fun _ => p.someCopy⟩
  | append_singleton splits split ih =>
    have hsplit := hsplits split (List.mem_append_right _ (List.mem_singleton_self split))
    rcases ih fun j hj => hsplits j (List.mem_append_left _ hj) with
      ⟨s, hs, hcursors, hcount⟩ | ⟨⟨message, herror⟩, j, hj⟩
    · by_cases hcopy : 1 + splits.count split < p.nSplitRepeat
      · obtain ⟨s', hs', hcursors'⟩ := hcursors.visit hsplit hcopy
        refine Or.inl ⟨s', ?_, hcursors', fun j => ?_⟩
        · rw [List.foldlM_append, hs]
          show (p.visit s split >>= fun s => .ok s) = .ok s'
          rw [hs']
          rfl
        · rw [List.count_append]
          by_cases hj : j = split
          · rw [hj, List.count_singleton_self, Nat.add_comm]
            exact hcopy
          · rw [List.count_singleton, if_neg (by simpa using Ne.symm hj), Nat.add_zero]
            exact hcount j
      · obtain ⟨message, herror⟩ := hcursors.exit hsplit (Nat.not_lt.mp hcopy)
        refine Or.inr ⟨⟨message, ?_⟩, split, ?_⟩
        · rw [List.foldlM_append, hs]
          show (p.visit s split >>= fun s => .ok s) = .error message
          rw [herror]
          rfl
        · rw [List.count_append, List.count_singleton_self]
          omega
    · refine Or.inr ⟨⟨message, ?_⟩, j, ?_⟩
      · rw [List.foldlM_append, herror]
        rfl
      · rw [List.count_append]
        omega

/-- The run is clean if and only if the windows that share a split leave copies
    enough. -/
theorem runsClean_iff (p : Schedule) :
    p.RunsClean ↔ p.mostWindows * p.nRepeat * p.nRound < p.nSplitRepeat := by
  obtain ⟨most, hmost⟩ := p.exists_mostWindows
  have hcount := p.count_visited most
  rw [hmost] at hcount
  rcases p.foldlM_visit p.visited_lt with ⟨s, hs, hcursors, henough⟩ | ⟨⟨message, herror⟩, j, hj⟩
  · refine iff_of_true ⟨s, p.run_eq.trans hs, hcursors.fresh, hcursors.inside⟩ ?_
    exact hcount ▸ henough most
  · refine iff_of_false ?_ ?_
    · rintro ⟨s, hs, -⟩
      rw [p.run_eq, herror] at hs
      cases hs
    · rw [Nat.not_lt]
      refine hj.trans ?_
      rw [p.count_visited]
      exact Nat.mul_le_mul_right _ (Nat.mul_le_mul_right _ (p.containing_le j))

/-- The check keeps a driver from running out of copies if and only if it
    refuses the schedule or the windows that share a split leave copies enough. -/
theorem check_suffices_iff (p : Schedule) :
    (p.passesCheck = true → p.RunsClean) ↔
      (p.passesCheck = true → p.mostWindows * p.nRepeat * p.nRound < p.nSplitRepeat) := by
  rw [p.runsClean_iff]

/-- Windows 0..2 and 2..4 of five splits share split 2, and one copy passes the
    check for it. -/
def overlapping : Schedule where
  nSplits := 5
  windowSize := 3
  stride := 2
  nRepeat := 1
  nRound := 1
  nSplitRepeat := 2
  queryNum := 10
  someSplit := by decide
  someWindow := by decide
  someStride := by decide
  someRepeat := by decide
  someRound := by decide
  someCopy := by decide

theorem overlapping_runs_out :
    overlapping.passesCheck = true ∧
      overlapping.run = .error "Error: split 2 needs copy 2 but n_split_repeat=2" ∧
      ¬ overlapping.RunsClean := by
  have hrun : overlapping.run = .error "Error: split 2 needs copy 2 but n_split_repeat=2" := by
    rfl
  refine ⟨rfl, hrun, ?_⟩
  rintro ⟨s, hs, -⟩
  rw [hrun] at hs
  cases hs

end Schedule

end QvCache
