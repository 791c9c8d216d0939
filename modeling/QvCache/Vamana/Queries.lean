/-
  QvCache.Vamana.Queries

  `search_with_tags` on an index that a run of calls leads to.  The candidates of
  the search are slots, with the frozen one and deleted ones among them
  (`Candidates`); what is written is the first of those that have a tag.

  The cache reads an index only through this, as any search that reports live
  points at their true distances, nearest first: it is one
  (`Stores.searchWithTags`).  Where the queue has room for every point and the
  graph leads to each, the search answers like one that looks at all of them
  (`Stores.searchWithTags_exact`), and only there (`Stores.leads_of_exact`).
-/

import QvCache.Vamana.Refines

namespace QvCache

namespace Vamana

namespace Index

variable {V : Type} {p : IndexParams V} {idx : Index V} {mini : MiniIndex V} {query : V} {L : Nat}

/-- What the output loop sees of a slot: its tag, if it has one, and its distance. -/
def node (p : IndexParams V) (idx : Index V) (query : V) (i : Nat) : Option Tag × ℚ :=
  (idx.locationToTag.tryGet i, p.distance query (idx.vectors i))

/-- The slots that a search for `query` with `L` candidates ends with, those
    without a tag among them. -/
structure Candidates (p : IndexParams V) (idx : Index V) (query : V) (L : Nat)
    (slots : List Nat) : Prop where
  length_le : slots.length ≤ L
  sorted : slots.Pairwise fun i j =>
    keyOf (idx.searchGraph p query).dist i < keyOf (idx.searchGraph p query).dist j
  leads : ∀ i ∈ slots, (idx.searchGraph p query).Leads (start p) i
  live : ∀ i ∈ slots, ∀ tag, idx.locationToTag.tryGet i = some tag →
    idx.tagToLocation.lookup tag = some i
  local_best : ∀ i ∈ slots, ∀ m ∈ idx.graph i, m ∈ slots ∨ slots.length = L ∧ ∀ c ∈ slots,
    keyOf (idx.searchGraph p query).dist c < keyOf (idx.searchGraph p query).dist m
  complete : idx.nd < L → ∀ i, (idx.searchGraph p query).Leads (start p) i → i ∈ slots

/-- The slots in use are `_nd` many. -/
theorem SlotsOk.card_used (h : idx.SlotsOk p) :
    ((Finset.range p.maxPoints).filter fun i => idx.emptySlots.isInSet i = false).card = idx.nd := by
  have hsplit := Finset.card_filter_add_card_filter_not (s := Finset.range p.maxPoints)
    fun i => idx.emptySlots.isInSet i = true
  have hcount := h.count
  simp only [Bool.not_eq_true] at hsplit
  rw [h.card_empty, Finset.card_range] at hsplit
  omega

/-- Different slots in use, and the frozen one, that are more than `_nd` are all of
    them. -/
theorem Ok.mem_of_full (h : idx.Ok p) {l : List Nat} (hl : l.Nodup)
    (hused : ∀ i ∈ l, idx.Used p i ∨ i = start p) (hlen : idx.nd < l.length) {i : Nat}
    (hi : idx.Used p i ∨ i = start p) : i ∈ l := by
  let slots := insert (start p)
    ((Finset.range p.maxPoints).filter fun i => idx.emptySlots.isInSet i = false)
  have hmem : ∀ m, m ∈ slots ↔ idx.Used p m ∨ m = start p := by
    intro m
    rw [Finset.mem_insert, Finset.mem_filter, Finset.mem_range, or_comm, Used]
  have hcard : slots.card ≤ l.toFinset.card := by
    rw [List.toFinset_card_of_nodup hl]
    calc slots.card ≤ idx.nd + 1 := h.slots.card_used ▸ Finset.card_insert_le _ _
      _ ≤ l.length := hlen
  have hall : l.toFinset = slots := Finset.eq_of_subset_of_card_le
    (fun m hm => (hmem m).mpr (hused m (List.mem_toFinset.mp hm))) hcard
  rw [← List.mem_toFinset, hall, hmem]
  exact hi

/-- Different slots have different tags. -/
theorem SlotsOk.nodup_tags (h : idx.SlotsOk p) {slots : List Nat} (hslots : slots.Nodup) :
    (slots.filterMap idx.locationToTag.tryGet).Nodup := by
  refine hslots.filterMap fun i j tag hi hj => ?_
  have hslot := (h.inverse tag i).mpr hi
  rw [(h.inverse tag j).mpr hj] at hslot
  exact (Option.some.inj hslot).symm

/-- The nodes of a search with their tags: no tag is there twice. -/
theorem SlotsOk.taggedNodes (h : idx.SlotsOk p) {g : SearchGraph ℚ} {initIds : List Nat}
    {s : Scratch ℚ} (hfound : s.Found g L initIds) :
    (s.bestLNodes.data.map fun n => (idx.locationToTag.tryGet n.id, n.distance)).Pairwise
        (fun a b => a.2 ≤ b.2) ∧
      ((s.bestLNodes.data.map fun n =>
        (idx.locationToTag.tryGet n.id, n.distance)).filterMap Prod.fst).Nodup := by
  constructor
  · refine List.pairwise_map.mpr (hfound.sorted.imp fun hlt => ?_)
    exact (Prod.Lex.lt_iff.mp hlt).elim le_of_lt fun heq => heq.1.le
  · have htags := h.nodup_tags hfound.nodup
    rw [List.filterMap_map] at htags ⊢
    exact htags

/-- A search in an index that is in order comes to an end with such slots. -/
theorem Ok.bestLNodes (h : idx.Ok p) (query : V) (hL : 0 < L) :
    ∃ slots, idx.bestLNodes p query L = some (slots.map (idx.node p query)) ∧
      idx.Candidates p query L slots := by
  have hclosed := h.graph.closed query
  have hstart : ∀ id ∈ [start p], id < (idx.searchGraph p query).slots := by
    intro id hid
    rw [List.mem_singleton.mp hid]
    exact Nat.lt_succ_self _
  obtain ⟨s, hs, hfound⟩ := iterateToFixedPoint_found hL hclosed hstart true
  have hkey : ∀ n ∈ s.bestLNodes.data, n.key = keyOf (idx.searchGraph p query).dist n.id := by
    intro n hn
    rw [Neighbor.key, keyOf, (hfound.visited hn).2]
  have hleads : ∀ i ∈ s.bestLNodes.data.map Neighbor.id,
      (idx.searchGraph p query).Leads (start p) i := by
    intro i hi
    obtain ⟨n, hn, rfl⟩ := List.mem_map.mp hi
    obtain ⟨a, ha, hreach⟩ := hfound.reached n.id (hfound.visited hn).1
    rwa [List.mem_singleton.mp ha] at hreach
  refine ⟨s.bestLNodes.data.map Neighbor.id, ?_, ?_, ?_, hleads, ?_, ?_, ?_⟩
  · rw [Index.bestLNodes, hs, Option.map_some, List.map_map]
    refine congrArg some (List.map_congr_left fun n hn => ?_)
    rw [(hfound.visited hn).2]
    rfl
  · rw [List.length_map]
    exact hfound.length_le
  · refine List.pairwise_map.mpr (hfound.sorted.imp_of_mem fun {a b} ha hb hlt => ?_)
    rwa [hkey a ha, hkey b hb] at hlt
  · exact fun i _ tag htag => (h.slots.inverse tag i).mpr htag
  · intro i hi m hm
    obtain ⟨n, hn, rfl⟩ := List.mem_map.mp hi
    refine (hfound.local_best n hn m hm).imp_right fun hbehind => ?_
    refine ⟨by rw [List.length_map, hbehind.1], fun c hc => ?_⟩
    obtain ⟨e, he, rfl⟩ := List.mem_map.mp hc
    exact hkey e he ▸ hbehind.2 e he
  · intro hroom i hreach
    by_cases hlen : s.bestLNodes.data.length < L
    · exact (hfound.exhaustive hlen i).mpr ⟨start p, List.mem_singleton_self _, hreach⟩
    · -- then the queue holds every slot in use, and the frozen one
      refine h.mem_of_full hfound.nodup (fun m hm => h.graph.leads rfl (hleads m hm)) ?_
        (h.graph.leads rfl hreach)
      rw [List.length_map]
      omega

theorem Candidates.nodup {slots : List Nat} (h : idx.Candidates p query L slots) :
    slots.Nodup :=
  h.sorted.imp fun hlt heq => hlt.ne (congrArg (keyOf (idx.searchGraph p query).dist) heq)

theorem Candidates.sorted_nodes {slots : List Nat} (h : idx.Candidates p query L slots) :
    (slots.map (idx.node p query)).Pairwise fun a b => a.2 ≤ b.2 := by
  refine List.pairwise_map.mpr (h.sorted.imp fun hlt => ?_)
  exact (Prod.Lex.lt_iff.mp hlt).elim le_of_lt fun heq => heq.1.le

theorem Candidates.nodup_tags {slots : List Nat} (h : idx.Candidates p query L slots)
    (hok : idx.SlotsOk p) : ((slots.map (idx.node p query)).filterMap Prod.fst).Nodup := by
  rw [List.filterMap_map]
  exact hok.nodup_tags h.nodup

/-- A candidate with a tag is a live point at its distance. -/
theorem Candidates.live_node {slots : List Nat} (h : idx.Candidates p query L slots)
    {tag : Tag} {d : ℚ} (hin : (some tag, d) ∈ slots.map (idx.node p query)) :
    ∃ i, idx.tagToLocation.lookup tag = some i ∧ d = p.distance query (idx.vectors i) := by
  obtain ⟨i, hi, heq⟩ := List.mem_map.mp hin
  obtain ⟨htag, rfl⟩ := Prod.mk.inj heq
  exact ⟨i, h.live i hi tag htag, rfl⟩

/-- A node with its tag, where it has one. -/
def taggedEntry (node : Option Tag × ℚ) : Option (Tag × ℚ) := node.1.map fun tag => (tag, node.2)

theorem mem_filterMap_taggedEntry {nodes : List (Option Tag × ℚ)} {tag : Tag} {d : ℚ} :
    (tag, d) ∈ nodes.filterMap taggedEntry ↔ (some tag, d) ∈ nodes := by
  simp [taggedEntry, List.mem_filterMap]

theorem map_fst_taggedEntry (nodes : List (Option Tag × ℚ)) :
    (nodes.filterMap taggedEntry).map Prod.fst = nodes.filterMap Prod.fst := by
  rw [List.map_filterMap]
  refine congrArg (List.filterMap · nodes) (funext fun node => ?_)
  rw [taggedEntry, Option.map_map]
  exact Option.map_id'

theorem filterMap_writtenEntry (metric : Metric) (nodes : List (Option Tag × ℚ)) :
    nodes.filterMap (writtenEntry metric) =
      (nodes.filterMap taggedEntry).map fun td => (td.1, writtenDistance metric td.2) := by
  rw [List.map_filterMap]
  refine congrArg (List.filterMap · nodes) (funext fun node => ?_)
  rw [taggedEntry, Option.map_map]
  rfl

/-- What the candidates with tags are for the map that the index stores. -/
theorem Candidates.written (h : idx.Stores p mini) {slots : List Nat}
    (hslots : idx.Candidates p query L slots) :
    let written := (slots.map (idx.node p query)).filterMap (writtenEntry p.prune.metric)
    (written.map Prod.fst).Nodup ∧
      (∀ td ∈ written, ∃ point, mini.Holds td.1 point ∧
        td.2 = writtenDistance p.prune.metric (p.distance query point)) ∧
      written.Pairwise fun a b =>
        orientedKey p.prune.metric a.2 ≤ orientedKey p.prune.metric b.2 := by
  refine ⟨nodup_written _ (hslots.nodup_tags h.ok.slots), fun td htd => ?_,
    sorted_written _ hslots.sorted_nodes⟩
  obtain ⟨⟨tag, d⟩, hin, heq⟩ := List.mem_filterMap.mp htd
  obtain ⟨tag, rfl, rfl⟩ := Option.map_eq_some_iff.mp heq
  obtain ⟨i, hi, rfl⟩ := hslots.live_node hin
  refine ⟨idx.vectors i, ?_, rfl⟩
  rw [MiniIndex.Holds, h.points, hi, Option.map_some]

/-- What `search_with_tags` writes: at most `K` live points, no tag twice, each at
    its distance, the best first. -/
theorem Stores.report (h : idx.Stores p mini) (query : V) {K : Nat} (hK : 0 < K) (hKL : K ≤ L) :
    ∃ report : Report, (∀ resSize, idx.searchWithTags p query K L resSize =
        some (report.take (if resSize = 0 then K else resSize))) ∧
      report.length ≤ K ∧ (report.map Prod.fst).Nodup ∧
      (∀ td ∈ report, ∃ point, mini.Holds td.1 point ∧
        td.2 = writtenDistance p.prune.metric (p.distance query point)) ∧
      report.Pairwise fun a b =>
        orientedKey p.prune.metric a.2 ≤ orientedKey p.prune.metric b.2 := by
  obtain ⟨slots, heq, hslots⟩ := h.ok.bestLNodes query (hK.trans_le hKL)
  obtain ⟨hnodup, hlive, hsorted⟩ := hslots.written h
  have hsub := List.take_sublist K
    ((slots.map (idx.node p query)).filterMap (writtenEntry p.prune.metric))
  refine ⟨_, fun resSize => ?_, List.length_take_le K _, hnodup.sublist (hsub.map Prod.fst),
    fun td htd => hlive td (hsub.subset htd), hsorted.sublist hsub⟩
  rw [Index.searchWithTags, if_neg (not_lt.mpr hKL), heq, Option.map_some,
    searchWithTags_eq_take p.prune.metric hK (Nat.eq_zero_or_pos resSize), Nat.sub_zero,
    List.take_take]
  split_ifs
  · rw [Nat.min_self]
  · rw [Nat.min_comm]

open Classical in
/-- The searches of an index with `L` candidates, as the cache sees them: an exact
    search stands in for what is never asked of this index. -/
noncomputable def shardRun (p : IndexParams V) (idx : Index V) (mini : MiniIndex V) (L : Nat)
    (m : MiniIndex V) (query : V) (K : Nat) : List (Tag × ℚ) :=
  if m = mini ∧ 0 < K ∧ K ≤ L then (idx.searchWithTags p query K L 0).getD []
  else (SearchWithTags.exact p.distance).run m query K

theorem Stores.shardRun_spec (h : idx.Stores p mini) (hmetric : p.prune.metric ≠ .innerProduct)
    (L : Nat) (m : MiniIndex V) (query : V) (K : Nat) :
    (shardRun p idx mini L m query K).length ≤ K ∧
      ((shardRun p idx mini L m query K).map Prod.fst).Nodup ∧
      (∀ td ∈ shardRun p idx mini L m query K,
        ∃ point, m.Holds td.1 point ∧ td.2 = p.distance query point) ∧
      (shardRun p idx mini L m query K).Pairwise fun a b => a.2 ≤ b.2 := by
  rw [shardRun]
  split_ifs with hask
  · obtain ⟨rfl, hK, hKL⟩ := hask
    obtain ⟨report, heq, hlen, hnodup, hlive, hsorted⟩ := h.report query hK hKL
    have hkey : ∀ d, orientedKey p.prune.metric d = d := fun d => if_neg hmetric
    have hwritten : ∀ d, writtenDistance p.prune.metric d = d := fun d => if_neg hmetric
    simp only [hkey, hwritten] at hlive hsorted
    rw [heq, if_pos rfl, List.take_of_length_le hlen, Option.getD_some]
    exact ⟨hlen, hnodup, hlive, hsorted⟩
  · exact ⟨(SearchWithTags.exact p.distance).length_le m query K,
      (SearchWithTags.exact p.distance).nodup m query K,
      (SearchWithTags.exact p.distance).live m query K,
      (SearchWithTags.exact p.distance).sorted m query K⟩

/-- For L2 and COSINE this is a search that the cache admits. -/
noncomputable def Stores.shardSearch (h : idx.Stores p mini)
    (hmetric : p.prune.metric ≠ .innerProduct) (L : Nat) : SearchWithTags V where
  distance := p.distance
  run := shardRun p idx mini L
  length_le m query K := (h.shardRun_spec hmetric L m query K).1
  nodup m query K := (h.shardRun_spec hmetric L m query K).2.1
  live m query K := (h.shardRun_spec hmetric L m query K).2.2.1
  sorted m query K := (h.shardRun_spec hmetric L m query K).2.2.2

/-- The index answers as that search does on the map that it stores. -/
theorem Stores.searchWithTags (h : idx.Stores p mini) (hmetric : p.prune.metric ≠ .innerProduct)
    (query : V) {K : Nat} (hK : 0 < K) (hKL : K ≤ L) (resSize : Nat) :
    idx.searchWithTags p query K L resSize =
      some ((h.shardSearch hmetric L).results mini query K resSize) := by
  obtain ⟨report, heq, hlen, -⟩ := h.report query hK hKL
  have hrun : (h.shardSearch hmetric L).run mini query K = report := by
    show shardRun p idx mini L mini query K = report
    rw [shardRun, if_pos ⟨rfl, hK, hKL⟩, heq, if_pos rfl, List.take_of_length_le hlen,
      Option.getD_some]
  rw [heq, SearchWithTags.results, hrun]

/-- Where the queue has room for every slot in use and the graph leads to every
    live one, the candidates with tags are all live points. -/
theorem Candidates.perm_points (h : idx.Stores p mini) {slots : List Nat}
    (hslots : idx.Candidates p query L slots) (hroom : idx.nd < L)
    (hconnected : ∀ tag i, idx.tagToLocation.lookup tag = some i →
      (idx.searchGraph p query).Leads (start p) i) :
    ((slots.map (idx.node p query)).filterMap taggedEntry).Perm
      (mini.points.entries.map fun e => (e.1, p.distance query e.2)) := by
  have hkeys : (mini.points.entries.map fun e => (e.1, p.distance query e.2)).map Prod.fst =
      mini.points.keys := by
    simp [AList.keys, List.keys]
  refine (List.perm_ext_iff_of_nodup ?_ ?_).mpr ?_
  · exact List.Nodup.of_map Prod.fst
      (map_fst_taggedEntry (slots.map (idx.node p query)) ▸ hslots.nodup_tags h.ok.slots)
  · exact List.Nodup.of_map Prod.fst (hkeys ▸ mini.points.keys_nodup)
  · rintro ⟨tag, d⟩
    rw [mem_filterMap_taggedEntry]
    constructor
    · intro hin
      obtain ⟨i, hi, rfl⟩ := hslots.live_node hin
      have hpoint : mini.points.lookup tag = some (idx.vectors i) := by
        rw [h.points, hi, Option.map_some]
      have hentry := (List.mem_dlookup_iff mini.points.nodupKeys).mp hpoint
      exact List.mem_map.mpr ⟨⟨tag, idx.vectors i⟩, hentry, rfl⟩
    · intro hin
      obtain ⟨⟨tag, point⟩, hentry, heq⟩ := List.mem_map.mp hin
      obtain ⟨rfl, rfl⟩ := Prod.mk.inj heq
      have hpoint : mini.points.lookup tag = some point :=
        (List.mem_dlookup_iff mini.points.nodupKeys).mpr hentry
      rw [h.points, Option.map_eq_some_iff] at hpoint
      obtain ⟨i, hi, rfl⟩ := hpoint
      refine List.mem_map.mpr ⟨i, hslots.complete hroom i (hconnected tag i hi), ?_⟩
      rw [node, (h.ok.slots.inverse tag i).mp hi]

/-- Then the distances are those of a search that looks at every point. -/
theorem Stores.searchWithTags_exact (h : idx.Stores p mini) (hroom : idx.nd < L)
    (hconnected : ∀ tag i, idx.tagToLocation.lookup tag = some i →
      (idx.searchGraph p query).Leads (start p) i) {K : Nat} (hK : 0 < K) (hKL : K ≤ L) :
    ∃ report, idx.searchWithTags p query K L 0 = some report ∧
      report.map Prod.snd = ((SearchWithTags.exact p.distance).run mini query K).map fun td =>
        writtenDistance p.prune.metric td.2 := by
  obtain ⟨slots, heq, hslots⟩ := h.ok.bestLNodes query (hK.trans_le hKL)
  let nodes := slots.map (idx.node p query)
  refine ⟨_, by rw [Index.searchWithTags, if_neg (not_lt.mpr hKL), heq, Option.map_some,
    searchWithTags_eq_take p.prune.metric hK (Or.inl rfl), if_pos rfl, Nat.sub_zero], ?_⟩
  let points := mini.points.entries.map fun e => (e.1, p.distance query e.2)
  have hfound : ((nodes.filterMap taggedEntry).map Prod.snd).Pairwise (· ≤ ·) := by
    refine List.pairwise_map.mpr (hslots.sorted_nodes.filterMap taggedEntry ?_)
    intro a b hle td htd td' htd'
    obtain ⟨tag, _, rfl⟩ := Option.map_eq_some_iff.mp htd
    obtain ⟨tag', _, rfl⟩ := Option.map_eq_some_iff.mp htd'
    exact hle
  have hpoints : ((points.insertionSort fun a b => a.2 ≤ b.2).map Prod.snd).Pairwise (· ≤ ·) :=
    List.pairwise_map.mpr (List.pairwise_insertionSort (fun a b : Tag × ℚ => a.2 ≤ b.2) points)
  -- both list the same distances upwards
  have hsame : (nodes.filterMap taggedEntry).map Prod.snd =
      (points.insertionSort fun a b => a.2 ≤ b.2).map Prod.snd :=
    List.Perm.eq_of_pairwise' hfound hpoints
      (((hslots.perm_points h hroom hconnected).trans
        (List.perm_insertionSort _ _).symm).map Prod.snd)
  calc ((nodes.filterMap (writtenEntry p.prune.metric)).take K).map Prod.snd
      = (((nodes.filterMap taggedEntry).map Prod.snd).map
          (writtenDistance p.prune.metric)).take K := by
        rw [filterMap_writtenEntry, List.map_take, List.map_map, List.map_map]
        rfl
    _ = ((points.insertionSort fun a b => a.2 ≤ b.2).take K).map fun td =>
          writtenDistance p.prune.metric td.2 := by
        rw [hsame, List.map_map, List.map_take]
        rfl

/-- A search with room for all points that answers so has found each of them. -/
theorem Stores.leads_of_exact (h : idx.Stores p mini) {K : Nat} (hK : 0 < K) (hKL : K ≤ L)
    (hall : mini.points.size ≤ K) {report : Report}
    (hreport : idx.searchWithTags p query K L 0 = some report)
    (hlength : report.length = ((SearchWithTags.exact p.distance).run mini query K).length)
    {tag : Tag} {i : Nat} (hi : idx.tagToLocation.lookup tag = some i) :
    (idx.searchGraph p query).Leads (start p) i := by
  obtain ⟨slots, heq, hslots⟩ := h.ok.bestLNodes query (hK.trans_le hKL)
  obtain ⟨hnodup, -⟩ := hslots.written h
  rw [Index.searchWithTags, if_neg (not_lt.mpr hKL), heq, Option.map_some,
    searchWithTags_eq_take p.prune.metric hK (Or.inl rfl), if_pos rfl, Nat.sub_zero] at hreport
  obtain rfl := Option.some.inj hreport
  have hsub := List.take_sublist K
    ((slots.map (idx.node p query)).filterMap (writtenEntry p.prune.metric))
  -- a tag that is written has its slot among the candidates
  have hwritten : ∀ t ∈ (((slots.map (idx.node p query)).filterMap
      (writtenEntry p.prune.metric)).take K).map Prod.fst,
        ∃ j ∈ slots, idx.tagToLocation.lookup t = some j := by
    intro t ht
    obtain ⟨td, htd, rfl⟩ := List.mem_map.mp ht
    obtain ⟨n, hn, hentry⟩ := List.mem_filterMap.mp (hsub.subset htd)
    obtain ⟨j, hj, rfl⟩ := List.mem_map.mp hn
    obtain ⟨t, htag, rfl⟩ := Option.map_eq_some_iff.mp hentry
    exact ⟨j, hj, hslots.live j hj t htag⟩
  have hkeys : ∀ t, t ∈ mini.points.keys ↔ (idx.tagToLocation.lookup t).isSome := by
    intro t
    rw [← AList.mem_keys, ← AList.lookup_isSome, h.isSome_lookup]
  have hperm : ((((slots.map (idx.node p query)).filterMap
      (writtenEntry p.prune.metric)).take K).map Prod.fst).Perm mini.points.keys := by
    refine ((hnodup.sublist (hsub.map Prod.fst)).subperm fun t ht => ?_).perm_of_length_le ?_
    · obtain ⟨j, -, hj⟩ := hwritten t ht
      rw [hkeys, hj]
      rfl
    · have hrun : ((SearchWithTags.exact p.distance).run mini query K).length =
          min K mini.points.size := by
        simp [SearchWithTags.exact, Table.size]
      rw [List.length_map, hlength, hrun, Nat.min_eq_right hall, Table.size_eq_length_keys]
  obtain ⟨j, hj, hlookup⟩ := hwritten tag (hperm.mem_iff.mpr ((hkeys tag).mpr (hi ▸ rfl)))
  rw [hi] at hlookup
  obtain rfl := Option.some.inj hlookup
  exact hslots.leads i hj

end Index

end Vamana

end QvCache
