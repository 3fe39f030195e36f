import Ccann.Search.FixedPoint
import Ccann.Search.Page

/-! Page search gives every id in its pool an exact distance, although it leaves the other nodes of the
last pages it reads. The candidates in front of `k` have pages that were read. A page that is read in the
last round is therefore the page of the last candidate only, and that candidate is the one it is read for.
No page is read twice, so no id gets two distances. The loop ends: a round reads a page, or turns to the
pages of the round before for the first time, or moves `k` on. -/

namespace Ccann.Search

open Concurrent Pools Nodes Layout Traversals List Function Option
open Disk.RingIo (maxEvents)

variable {F : Type*}

/-- A search in a static index. `retset` has 4096 entries. -/
structure PageQuery [LinearOrder F] (P : Params F) (D : PageFile) (N : Net) : Prop where
  ordered : P.Ordered
  length : 1 ≤ P.lSearch
  length_lt : P.lSearch < 4096
  width : 1 ≤ P.beamWidth
  node : 0 ∈ N.nodes
  holds : D.Holds N

def PageLoop.cursor (s : PageLoop F) : ℕ :=
  if s.phase = .select then s.k else min s.nk (s.k + 1)

open PageLoop

def PageLoop.waiting (s : PageLoop F) : List Fetch :=
  if s.phase = .select then s.snapshot else s.frontier

def PageLoop.scored (s : PageLoop F) : List ℕ :=
  s.full.map Merge.Neighbor.id

section Invariant

variable [LinearOrder F] {P : Params F} {D : PageFile} {N : Net} {s : PageLoop F}
  {fs : List Fetch} {ids : List ℕ}

/-- What holds at any time. The nodes of visited pages have exact distances except for those on pages of
the frontier, and those on pages of the round before that were not picked. A candidate in front of the
cursor is not one of the latter. -/
structure Paging (P : Params F) (D : PageFile) (N : Net) (s : PageLoop F) : Prop where
  sweeping : Sweeping P N s.toSweep
  reads : s.reads.Perm s.pageVisited
  pages_nodup : s.pageVisited.Nodup
  pages : ∀ p ∈ s.pageVisited, ∃ z ∈ N.nodes, D.id2page z = p
  flags : ∀ c ∈ s.retset, c.flag = false → D.id2page c.id ∈ s.pageVisited
  fetched : ∀ f ∈ s.frontier ++ s.snapshot, D.Fetched N f ∧ f.page ∈ s.pageVisited
  distinct : ((s.frontier ++ s.snapshot).map Fetch.page).Nodup
  front : ∀ c ∈ s.retset.take s.cursor, D.id2page c.id ∈ s.pageVisited ∧
    ∀ f ∈ s.waiting, f.page = D.id2page c.id → c.id = f.id
  cursor_le : s.cursor ≤ s.retset.length
  once : s.scored.Nodup
  done : ∀ z, z ∈ s.scored ↔ z ∈ N.nodes ∧ D.id2page z ∈ s.pageVisited ∧
    (∀ f ∈ s.frontier, f.page ≠ D.id2page z) ∧ ∀ f ∈ s.snapshot, f.page = D.id2page z → z = f.id
  sectors : ∀ j f, s.frontier[j]? = some f → j ∈ s.inFlight ∨ s.sector j = D.disk f.page
  lastPages : ∀ j f, s.snapshot[j]? = some f → s.lastPages j = D.disk f.page
  inFlight : ∀ j ∈ s.inFlight, j < s.frontier.length
  idle : s.phase = .select → s.frontier = [] ∧ s.inFlight = []
  cleared : s.phase = .wait → s.snapshot = []
  round : s.phase ≠ .select → s.k < s.retset.length
  unchanged : s.phase = .rest → s.nk = s.retset.length

theorem Paging.init (h : PageQuery P D N) {sector lastPages : ℕ → ℕ → Record}
    (hs : P.pageStart sector lastPages = some s) : Paging P D N s := by
  unfold Params.pageStart at hs
  split_ifs at hs
  cases hs
  constructor
  · refine ⟨pooled_fresh P 0, h.length, ?_, fun n hn => absurd hn not_mem_nil⟩
    intro z hz
    rw [mem_singleton.mp hz]
    exact h.node
  · exact List.Perm.refl _
  · exact nodup_nil
  · exact fun p hp => absurd hp not_mem_nil
  · intro c hc hflag
    rw [mem_singleton.mp hc] at hflag
    cases hflag
  · exact fun f hf => absurd hf not_mem_nil
  · exact nodup_nil
  · exact fun c hc => absurd hc not_mem_nil
  · exact Nat.zero_le _
  · exact nodup_nil
  · intro z
    simp [scored]
  · exact fun j f hf => by cases hf
  · exact fun j f hf => by cases hf
  · exact fun j hj => absurd hj not_mem_nil
  · exact fun _ => ⟨rfl, rfl⟩
  · exact fun _ => rfl
  · exact fun hne => absurd rfl hne
  · exact fun hrest => by cases hrest

theorem mapM_fetch (h : ids.mapM D.fetch = some fs) :
    fs.map Fetch.id = ids ∧ ∀ f ∈ fs, D.fetch f.id = some f := by
  induction ids generalizing fs with
  | nil =>
    cases h
    exact ⟨rfl, fun f hf => absurd hf not_mem_nil⟩
  | cons z ids ih =>
    rw [mapM_cons] at h
    simp only [bind_eq_bind, bind_eq_some_iff, Option.pure_def, some.injEq] at h
    obtain ⟨f, hf, fs', hfs, rfl⟩ := h
    obtain ⟨hids, hall⟩ := ih hfs
    have hid : f.id = z := by
      obtain ⟨arr, -, heq⟩ := map_eq_some_iff.mp hf
      rw [← heq]
    refine ⟨by rw [map_cons, hid, hids], ?_⟩
    intro g hg
    rcases mem_cons.mp hg with rfl | hg
    · rw [hid]
      exact hf
    · exact hall g hg

theorem exists_mapM_fetch (h : D.Holds N) (hids : ∀ z ∈ ids, z ∈ N.nodes) :
    ∃ fs, ids.mapM D.fetch = some fs :=
  exists_mapM fun z hz => (h.fetch (hids z hz)).imp fun _ hf => hf.1

theorem Paging.inside (hs : Paging P D N s) : ∀ c ∈ s.retset, c.id ∈ N.nodes := by
  intro c hc
  apply hs.sweeping.inside
  exact hs.sweeping.pooled.subset (mem_map_of_mem hc)

omit [LinearOrder F] in
theorem picked_picks (P : Params F) (D : PageFile) (s : PageLoop F) :
    Picks D.id2page P.beamWidth s.pageVisited (s.retset.drop s.k) (s.picked P D) :=
  takePages_picks _ _ _ _

theorem Paging.picked_nodes (hs : Paging P D N s) : ∀ z ∈ (s.picked P D).1, z ∈ N.nodes := by
  intro z hz
  obtain ⟨c, hc, rfl⟩ := mem_map.mp ((picked_picks P D s).subset hz)
  exact hs.inside c (mem_of_mem_drop hc)

/-- The pages of a new frontier. -/
theorem Paging.frontier_pages (hs : Paging P D N s)
    (hfs : (s.picked P D).1.mapM D.fetch = some fs) :
    fs.map Fetch.page = (s.picked P D).1.map D.id2page ∧ fs.map Fetch.id = (s.picked P D).1 ∧
      (∀ f ∈ fs, D.Fetched N f) ∧ ∀ f ∈ fs, f.page ∉ s.pageVisited := by
  obtain ⟨hids, hall⟩ := mapM_fetch hfs
  have hfetched : ∀ f ∈ fs, D.Fetched N f := by
    intro f hf
    refine ⟨hs.picked_nodes f.id ?_, hall f hf⟩
    rw [← hids]
    exact mem_map_of_mem hf
  refine ⟨?_, hids, hfetched, ?_⟩
  · rw [← hids, List.map_map]
    apply map_congr_left
    intro f hf
    exact (hfetched f hf).page
  · intro f hf
    rw [(hfetched f hf).page]
    apply (picked_picks P D s).new
    rw [← hids]
    exact mem_map_of_mem hf

section Select

variable (h : PageQuery P D N) (hs : Paging P D N s) (hphase : s.phase = .select)
  (hk : s.k < s.retset.length) (hfs : (s.picked P D).1.mapM D.fetch = some fs)

include hs hfs

theorem Paging.mem_select (p : ℕ) :
    p ∈ (s.picked P D).2.1 ↔ p ∈ fs.map Fetch.page ∨ p ∈ s.pageVisited := by
  rw [(picked_picks P D s).visited, ← (hs.frontier_pages hfs).1, mem_append, mem_reverse]

/-- The new frontier asks for pages that are not visited, each of them once. -/
theorem Paging.select_pages : (s.reads ++ fs.map Fetch.page).Perm (s.picked P D).2.1 ∧
    (s.picked P D).2.1.Nodup ∧ ∀ p ∈ (s.picked P D).2.1, ∃ z ∈ N.nodes, D.id2page z = p := by
  have hpick := picked_picks P D s
  obtain ⟨hpages, -, hfetched, hnew⟩ := hs.frontier_pages hfs
  refine ⟨?_, ?_, fun p hp => ?_⟩
  · rw [hpick.visited, hpages]
    exact perm_append_comm.trans ((reverse_perm _).symm.append hs.reads)
  · rw [hpick.visited, ← hpages]
    refine nodup_append.mpr ⟨nodup_reverse.mpr (hpages ▸ hpick.nodup), hs.pages_nodup, ?_⟩
    rintro p hp _ hq rfl
    obtain ⟨f, hf, rfl⟩ := mem_map.mp (mem_reverse.mp hp)
    exact hnew f hf hq
  · rcases (hs.mem_select hfs p).mp hp with hp | hp
    · obtain ⟨f, hf, rfl⟩ := mem_map.mp hp
      exact ⟨f.id, (hfetched f hf).node, (hfetched f hf).page.symm⟩
    · exact hs.pages p hp

include hphase

theorem Paging.select_requests :
    (∀ f ∈ fs ++ s.snapshot, D.Fetched N f ∧ f.page ∈ (s.picked P D).2.1) ∧
      ((fs ++ s.snapshot).map Fetch.page).Nodup := by
  obtain ⟨hpages, -, hfetched, hnew⟩ := hs.frontier_pages hfs
  have hsnapshot : ∀ f ∈ s.snapshot, D.Fetched N f ∧ f.page ∈ s.pageVisited :=
    fun f hf => hs.fetched f (mem_append_right _ hf)
  have hmem := hs.mem_select hfs
  refine ⟨fun f hf => ?_, ?_⟩
  · rcases mem_append.mp hf with hf | hf
    · exact ⟨hfetched f hf, (hmem _).mpr (.inl (mem_map_of_mem hf))⟩
    · exact ⟨(hsnapshot f hf).1, (hmem _).mpr (.inr (hsnapshot f hf).2)⟩
  · have hold := hs.distinct
    rw [(hs.idle hphase).1, nil_append] at hold
    rw [map_append]
    refine nodup_append.mpr ⟨hpages ▸ (picked_picks P D s).nodup, hold, ?_⟩
    rintro p hp _ hq rfl
    obtain ⟨f, hf, rfl⟩ := mem_map.mp hp
    obtain ⟨e, he, heq⟩ := mem_map.mp hq
    exact hnew f hf (heq ▸ (hsnapshot e he).2)

theorem Paging.select_done (z : ℕ) : z ∈ s.scored ↔ z ∈ N.nodes ∧
    D.id2page z ∈ (s.picked P D).2.1 ∧ (∀ f ∈ fs, f.page ≠ D.id2page z) ∧
    ∀ f ∈ s.snapshot, f.page = D.id2page z → z = f.id := by
  obtain ⟨-, -, -, hnew⟩ := hs.frontier_pages hfs
  rw [hs.done z, (hs.idle hphase).1, hs.mem_select hfs]
  constructor
  · rintro ⟨hz, hpage, -, hsnap⟩
    exact ⟨hz, .inr hpage, fun f hf heq => hnew f hf (heq ▸ hpage), hsnap⟩
  · rintro ⟨hz, hpage, hfr, hsnap⟩
    refine ⟨hz, hpage.resolve_left fun hp => ?_, fun f hf => absurd hf not_mem_nil, hsnap⟩
    obtain ⟨f, hf, heq⟩ := mem_map.mp hp
    exact hfr f hf heq

include h hk

/-- The candidates up to the first one that a round looks at. -/
theorem Paging.select_front :
    ∀ c ∈ (s.retset.take s.k ++ (s.picked P D).2.2).take (min s.retset.length (s.k + 1)),
      D.id2page c.id ∈ (s.picked P D).2.1 ∧ ∀ f ∈ fs, f.page = D.id2page c.id → c.id = f.id := by
  have hpick := picked_picks P D s
  obtain ⟨hpages, hids, hfetched, hnew⟩ := hs.frontier_pages hfs
  have hdrop := drop_eq_getElem_cons hk
  have hmem := hs.mem_select hfs
  have hvisited : ∀ z, D.id2page z ∈ s.pageVisited →
      D.id2page z ∈ (s.picked P D).2.1 ∧ ∀ f ∈ fs, f.page = D.id2page z → z = f.id :=
    fun z hz => ⟨(hmem _).mpr (.inr hz), fun f hf heq => absurd (heq ▸ hz) (hnew f hf)⟩
  intro c hc
  have hlen : (s.retset.take s.k).length = s.k := length_take_of_le hk.le
  have hcursor : min s.retset.length (s.k + 1) = s.k + 1 := Nat.min_eq_right hk
  rw [hcursor, take_append, hlen, take_of_length_le (by omega), Nat.add_sub_cancel_left] at hc
  rcases mem_append.mp hc with hc | hc
  · have hcursor : s.cursor = s.k := if_pos hphase
    exact hvisited _ (hs.front c (by rwa [hcursor])).1
  · have hid : c.id = s.retset[s.k].id := by
      have hhead := congrArg (take 1) hpick.same
      rw [hdrop, ← map_take] at hhead
      have hc' := mem_map_of_mem (f := Cand.toNeighbor) hc
      rw [hhead] at hc'
      exact congrArg Merge.Neighbor.id (mem_singleton.mp hc')
    have hhead := head_mem_takePages (s.retset.drop (s.k + 1)) h.width
      (hs.flags _ (getElem_mem hk))
    rw [← hdrop, ← hid] at hhead
    rcases hhead with hpage | hsel
    · exact hvisited _ hpage
    · refine ⟨(hmem _).mpr (.inl (hpages ▸ mem_map_of_mem hsel)), fun f hf heq => ?_⟩
      rw [(hfetched f hf).page] at heq
      exact (inj_on_of_nodup_map hpick.nodup (hids ▸ mem_map_of_mem hf) hsel heq).symm

theorem Paging.select :
    Paging P D N { s with
      retset := s.retset.take s.k ++ (s.picked P D).2.2
      nk := s.retset.length
      pageVisited := (s.picked P D).2.1
      phase := .rest
      frontier := fs
      inFlight := range fs.length
      reads := s.reads ++ fs.map Fetch.page } := by
  have hpick := picked_picks P D s
  have hsame : (s.retset.take s.k ++ (s.picked P D).2.2).map Cand.toNeighbor =
      s.retset.map Cand.toNeighbor := by
    rw [map_append, hpick.same, ← map_append, take_append_drop]
  have hlen : (s.retset.take s.k ++ (s.picked P D).2.2).length = s.retset.length := by
    simpa using congrArg length hsame
  obtain ⟨hreads, hnodup, hnodes⟩ := hs.select_pages hfs
  obtain ⟨hfetched, hdistinct⟩ := hs.select_requests hphase hfs
  refine ⟨?_, hreads, hnodup, hnodes, ?_, hfetched, hdistinct, hs.select_front h hphase hk hfs, ?_,
    hs.once, hs.select_done hphase hfs, ?_, hs.lastPages, fun j hj => mem_range.mp hj,
    fun hsel => (by cases hsel), fun hwait => (by cases hwait), fun _ => hlen.symm ▸ hk,
    fun _ => hlen.symm⟩
  · exact ⟨hs.sweeping.pooled.of_neighbors hsame, hlen.le.trans hs.sweeping.length_le,
      hs.sweeping.inside, hs.sweeping.exact⟩
  · intro c hc hflag
    have hold : c ∈ s.retset → D.id2page c.id ∈ (s.picked P D).2.1 :=
      fun hc => (hs.mem_select hfs _).mpr (.inr (hs.flags c hc hflag))
    rcases mem_append.mp hc with hc | hc
    · exact hold (mem_of_mem_take hc)
    · exact (hpick.flags c hc).elim (fun hc => hold (mem_of_mem_drop hc)) fun hpage => hpage
  · exact (Nat.min_le_left _ _).trans_eq hlen.symm
  · exact fun j f hf => .inl (mem_range.mpr (List.getElem?_eq_some_iff.mp hf).1)

end Select

theorem Paging.land (hs : Paging P D N s) {i j : ℕ} {f : Fetch} (hi : s.inFlight[i]? = some j)
    (hf : s.frontier[j]? = some f) :
    Paging P D N { s with
      inFlight := s.inFlight.eraseIdx i
      sector := update s.sector j (D.disk f.page) } := by
  obtain ⟨hilt, rfl⟩ := List.getElem?_eq_some_iff.mp hi
  have hperm : (s.inFlight[i] :: s.inFlight.eraseIdx i).Perm s.inFlight :=
    getElem_cons_eraseIdx_perm hilt
  refine ⟨hs.sweeping, hs.reads, hs.pages_nodup, hs.pages, hs.flags, hs.fetched, hs.distinct,
    hs.front, hs.cursor_le, hs.once, hs.done, ?_, hs.lastPages, ?_, ?_, hs.cleared, hs.round,
    hs.unchanged⟩
  · intro j g hg
    by_cases hj : j = s.inFlight[i]
    · right
      show update s.sector _ _ j = _
      have hgf : g = f := by
        rw [hj] at hg
        exact some.inj (hg.symm.trans hf)
      rw [hj, update_self, hgf]
    · rcases hs.sectors j g hg with hmem | hsector
      · exact .inl ((mem_cons.mp (hperm.symm.subset hmem)).resolve_left hj)
      · exact .inr ((update_of_ne hj _ _).trans hsector)
  · exact fun j hj => hs.inFlight j (hperm.subset (mem_cons_of_mem _ hj))
  · intro hsel
    obtain ⟨hfr, hnone⟩ := hs.idle hsel
    rw [hnone] at hilt
    exact absurd hilt (Nat.not_lt_zero _)

theorem Paging.restNodes_eq (hs : Paging P D N s) :
    s.restNodes D = s.snapshot.map fun f => D.others f (D.disk f.page) := by
  apply zipIdx_map_congr
  intro j f hf
  show D.others f (s.lastPages j) = _
  rw [hs.lastPages j f hf]

theorem Paging.ownNodes_eq (h : PageQuery P D N) (hs : Paging P D N s) (hnone : s.inFlight = []) :
    s.ownNodes D = s.frontier.map fun f => (f.id, ⟨N.coords f.id, N.nhood f.id⟩) := by
  have hmap : (s.frontier.zipIdx.map fun p => D.own p.1 (s.sector p.2)) =
      s.frontier.map fun f => [(f.id, ⟨N.coords f.id, N.nhood f.id⟩)] := by
    apply zipIdx_map_congr
    intro j f hf
    have hsector : s.sector j = D.disk f.page := by
      refine (hs.sectors j f hf).resolve_left ?_
      rw [hnone]
      exact not_mem_nil
    show D.own f (s.sector j) = _
    rw [hsector]
    exact h.holds.own_eq (hs.fetched f (mem_append_left _ (mem_of_getElem? hf))).1
  rw [ownNodes, flatMap_def, hmap, ← flatMap_def]
  exact map_eq_flatMap.symm

/-- What is pushed in a round leaves the candidates in front of the cursor. -/
theorem Paging.front_swept (hs : Paging P D N s) (hphase : s.phase ≠ .select) {w : Sweep F}
    (hswept : Swept s.toSweep w) : ∀ c ∈ w.retset.take (min w.nk (s.k + 1)),
      D.id2page c.id ∈ s.pageVisited ∧ ∀ f ∈ s.frontier, f.page = D.id2page c.id → c.id = f.id := by
  intro c hc
  have hcut : w.retset.take (min w.nk (s.k + 1)) = s.retset.take (min w.nk (s.k + 1)) := by
    have htake := congrArg (take (s.k + 1)) hswept.take
    rwa [take_take, take_take, Nat.min_comm] at htake
  have hle : min w.nk (s.k + 1) ≤ s.cursor := by
    rw [cursor, if_neg hphase]
    have := hswept.le
    omega
  have hwaiting : s.waiting = s.frontier := if_neg hphase
  rw [hcut] at hc
  rw [← hwaiting]
  exact hs.front c (take_subset_take_left _ hle hc)

section Scores

variable (h : PageQuery P D N) (hs : Paging P D N s)

include hs

theorem Paging.flags_swept {w : Sweep F} (hswept : Swept s.toSweep w) :
    ∀ c ∈ w.retset, c.flag = false → D.id2page c.id ∈ s.pageVisited := by
  intro c hc hflag
  rcases hswept.mem c hc with hc | hyes
  · exact hs.flags c hc hflag
  · cases hflag.symm.trans hyes

include h

theorem Paging.mem_restNodes (z : ℕ) : z ∈ (s.restNodes D).flatten.map Prod.fst ↔
    ∃ f ∈ s.snapshot, z ∈ N.nodes ∧ D.id2page z = f.page ∧ z ≠ f.id := by
  rw [hs.restNodes_eq, ← flatMap_def, map_flatMap, mem_flatMap]
  refine exists_congr fun f => and_congr_right fun hf => ?_
  exact h.holds.mem_others_ids (hs.fetched f (mem_append_right _ hf)).1

/-- The other nodes on the pages of the round before get their distances now. -/
theorem Paging.rest_scored :
    (s.scored ++ (s.restNodes D).flatten.map Prod.fst).Nodup ∧
    ∀ z, z ∈ s.scored ++ (s.restNodes D).flatten.map Prod.fst ↔ z ∈ N.nodes ∧
      D.id2page z ∈ s.pageVisited ∧ ∀ f ∈ s.frontier, f.page ≠ D.id2page z := by
  have hmem := hs.mem_restNodes h
  have hfetched : ∀ f ∈ s.snapshot, D.Fetched N f ∧ f.page ∈ s.pageVisited :=
    fun f hf => hs.fetched f (mem_append_right _ hf)
  obtain ⟨-, hsnap, hdisj⟩ := nodup_append.mp (map_append ▸ hs.distinct)
  refine ⟨nodup_append.mpr ⟨hs.once, ?_, ?_⟩, fun z => ?_⟩
  · rw [hs.restNodes_eq, ← flatMap_def, map_flatMap]
    refine nodup_flatMap.mpr ⟨fun f hf => h.holds.others_nodup (hfetched f hf).1, ?_⟩
    refine (pairwise_map.mp hsnap).imp_of_mem ?_
    intro f g hf hg hpage z hz hz'
    obtain ⟨-, hzf, -⟩ := (h.holds.mem_others_ids (hfetched f hf).1).mp hz
    obtain ⟨-, hzg, -⟩ := (h.holds.mem_others_ids (hfetched g hg).1).mp hz'
    exact hpage (hzf.symm.trans hzg)
  · rintro z hz _ hw rfl
    obtain ⟨f, hf, -, hpage, hother⟩ := (hmem z).mp hw
    exact hother (((hs.done z).mp hz).2.2.2 f hf hpage.symm)
  · rw [mem_append, hmem]
    constructor
    · rintro (hz | ⟨f, hf, hz, hpage, -⟩)
      · obtain ⟨hnode, hpage, hfront, -⟩ := (hs.done z).mp hz
        exact ⟨hnode, hpage, hfront⟩
      · refine ⟨hz, hpage ▸ (hfetched f hf).2, fun g hg heq => ?_⟩
        exact hdisj _ (mem_map_of_mem hg) _ (mem_map_of_mem hf) (heq.trans hpage)
    · rintro ⟨hz, hpage, hfront⟩
      by_cases hother : ∃ f ∈ s.snapshot, z ∈ N.nodes ∧ D.id2page z = f.page ∧ z ≠ f.id
      · exact .inr hother
      · refine .inl ((hs.done z).mpr ⟨hz, hpage, hfront, fun f hf heq => ?_⟩)
        by_contra hzf
        exact hother ⟨f, hf, hz, heq.symm, hzf⟩

theorem Paging.rest (hphase : s.phase = .rest) :
    Paging P D N { s with
      toSweep := (s.restNodes D).foldl (Sweep.restPage P) s.toSweep
      snapshot := []
      phase := .wait } := by
  have hlists : ∀ ns ∈ s.restNodes D, N.Lists ns := by
    rw [hs.restNodes_eq]
    intro ns hns
    obtain ⟨f, hf, rfl⟩ := mem_map.mp hns
    exact h.holds.others_lists (hs.fetched f (mem_append_right _ hf)).1
  obtain ⟨hsweep, hswept, hids⟩ := hs.sweeping.restPages h.ordered hlists
  obtain ⟨honce, hdone⟩ := hs.rest_scored h
  rw [scored, ← hids] at honce
  have hne : s.phase ≠ .select := by
    rw [hphase]
    exact PagePhase.noConfusion
  have hround := (hs.round hne).trans_le hswept.length
  generalize (s.restNodes D).foldl (Sweep.restPage P) s.toSweep = w at *
  refine ⟨hsweep, hs.reads, hs.pages_nodup, hs.pages, hs.flags_swept hswept, ?_, ?_,
    hs.front_swept hne hswept, (Nat.min_le_right _ _).trans hround, honce, fun z => ?_,
    hs.sectors, fun j f hf => (by cases hf), hs.inFlight, fun hsel => (by cases hsel), fun _ => rfl,
    fun _ => hround, fun hrest => (by cases hrest)⟩
  · intro f hf
    rw [append_nil] at hf
    exact hs.fetched f (mem_append_left _ hf)
  · show ((s.frontier ++ []).map Fetch.page).Nodup
    rw [append_nil]
    exact (nodup_append.mp (map_append ▸ hs.distinct)).1
  · show z ∈ w.full.map Merge.Neighbor.id ↔ _
    rw [hids]
    simpa [scored] using hdone z

omit h in
/-- The nodes that the frontier was picked for get their distances now. -/
theorem Paging.own_scored (hempty : s.snapshot = []) :
    (s.scored ++ s.frontier.map Fetch.id).Nodup ∧
    ∀ z, z ∈ s.scored ++ s.frontier.map Fetch.id ↔ z ∈ N.nodes ∧ D.id2page z ∈ s.pageVisited ∧
      ∀ f ∈ s.frontier, f.page = D.id2page z → z = f.id := by
  have hfetched : ∀ f ∈ s.frontier, D.Fetched N f ∧ f.page ∈ s.pageVisited :=
    fun f hf => hs.fetched f (mem_append_left _ hf)
  have hpages : (s.frontier.map Fetch.page).Nodup := by
    have := hs.distinct
    rwa [hempty, append_nil] at this
  refine ⟨nodup_append.mpr ⟨hs.once, ?_, ?_⟩, fun z => ?_⟩
  · apply List.Nodup.map_on _ (List.Nodup.of_map _ hpages)
    intro f hf g hg heq
    apply inj_on_of_nodup_map hpages hf hg
    rw [(hfetched f hf).1.page, (hfetched g hg).1.page, heq]
  · rintro z hz _ hw rfl
    obtain ⟨f, hf, rfl⟩ := mem_map.mp hw
    exact ((hs.done f.id).mp hz).2.2.1 f hf (hfetched f hf).1.page
  · rw [mem_append]
    constructor
    · rintro (hz | hz)
      · obtain ⟨hnode, hpage, hfront, -⟩ := (hs.done z).mp hz
        exact ⟨hnode, hpage, fun f hf heq => absurd heq (hfront f hf)⟩
      · obtain ⟨f, hf, rfl⟩ := mem_map.mp hz
        refine ⟨(hfetched f hf).1.node, (hfetched f hf).1.page ▸ (hfetched f hf).2, ?_⟩
        intro g hg heq
        rw [← (hfetched f hf).1.page] at heq
        rw [inj_on_of_nodup_map hpages hg hf heq]
    · rintro ⟨hz, hpage, hother⟩
      by_cases hfront : ∃ f ∈ s.frontier, f.page = D.id2page z
      · obtain ⟨f, hf, heq⟩ := hfront
        exact .inr (mem_map.mpr ⟨f, hf, (hother f hf heq).symm⟩)
      · refine .inl ((hs.done z).mpr ⟨hz, hpage, fun f hf heq => hfront ⟨f, hf, heq⟩, ?_⟩)
        rw [hempty]
        exact fun f hf => absurd hf not_mem_nil

theorem Paging.expand (hphase : s.phase = .wait) (hnone : s.inFlight = []) :
    Paging P D N { s with
      toSweep := (s.ownNodes D).foldl (Sweep.visit P) s.toSweep
      k := if ((s.ownNodes D).foldl (Sweep.visit P) s.toSweep).nk ≤ s.k then
        ((s.ownNodes D).foldl (Sweep.visit P) s.toSweep).nk else s.k + 1
      phase := .select
      frontier := []
      snapshot := s.frontier
      lastPages := fun i => if i < s.frontier.length then s.sector i else s.lastPages i } := by
  have hown := hs.ownNodes_eq h hnone
  have hlists : N.Lists (s.ownNodes D) := by
    rw [hown]
    intro z r hz
    obtain ⟨f, hf, heq⟩ := mem_map.mp hz
    cases heq
    exact ⟨(hs.fetched f (mem_append_left _ hf)).1.node, rfl⟩
  obtain ⟨hsweep, hswept, hids⟩ := hs.sweeping.visits h.ordered hlists
  have hown' : (s.ownNodes D).map Prod.fst = s.frontier.map Fetch.id := by
    rw [hown, List.map_map]
    rfl
  have hempty := hs.cleared hphase
  obtain ⟨honce, hdone⟩ := hs.own_scored hempty
  rw [scored, ← hown', ← hids] at honce
  have hne : s.phase ≠ .select := by
    rw [hphase]
    exact PagePhase.noConfusion
  have hrequests := And.intro hs.fetched hs.distinct
  rw [hempty, append_nil] at hrequests
  generalize (s.ownNodes D).foldl (Sweep.visit P) s.toSweep = w at *
  have hk : (if w.nk ≤ s.k then w.nk else s.k + 1) = min w.nk (s.k + 1) := by
    split_ifs <;> omega
  refine ⟨hsweep, hs.reads, hs.pages_nodup, hs.pages, hs.flags_swept hswept, hrequests.1,
    hrequests.2, ?_, ?_, honce, fun z => ?_, fun j f hf => (by cases hf), ?_,
    fun j hj => absurd (hnone ▸ hj) not_mem_nil, fun _ => ⟨rfl, hnone⟩,
    fun hwait => (by cases hwait), fun hsel => absurd rfl hsel, fun hrest => (by cases hrest)⟩
  · show ∀ c ∈ w.retset.take (if w.nk ≤ s.k then w.nk else s.k + 1), _
    rw [hk]
    exact hs.front_swept hne hswept
  · show (if w.nk ≤ s.k then w.nk else s.k + 1) ≤ w.retset.length
    rw [hk]
    exact (Nat.min_le_right _ _).trans ((hs.round hne).trans_le hswept.length)
  · show z ∈ w.full.map Merge.Neighbor.id ↔ _
    rw [hids, hown']
    simpa [scored] using hdone z
  · intro j f hf
    have hj := (List.getElem?_eq_some_iff.mp hf).1
    show (if j < s.frontier.length then s.sector j else s.lastPages j) = _
    rw [if_pos hj]
    refine (hs.sectors j f hf).resolve_left ?_
    rw [hnone]
    exact not_mem_nil

end Scores

end Invariant

section Ends

variable [LinearOrder F] {P : Params F} {D : PageFile} {N : Net} {s t : PageLoop F} {pages l : ℕ}

/-- A bound for the steps that are left. A page that is not visited pays for a round, for the cursor to
start again, and for the round in which the other nodes of the page follow. -/
def PageLoop.left (pages l : ℕ) (s : PageLoop F) : ℕ :=
  (6 * l + 7) * (pages - s.pageVisited.length) +
    match s.phase with
    | .select => (if s.snapshot.isEmpty then 0 else 3 * l + 3) + 3 * (l - s.k)
    | .rest => s.inFlight.length + 2 +
        if s.frontier.isEmpty then if s.snapshot.isEmpty then 3 * (l - (s.k + 1)) else 3 * l
        else 6 * l + 3
    | .wait => s.inFlight.length + 1 +
        if s.frontier.isEmpty then 3 * (l - min s.nk (s.k + 1)) else 6 * l + 3

theorem Paging.visited_le (hs : Paging P D N s) :
    s.pageVisited.length ≤ (N.nodes.image D.id2page).card := by
  have hsub : s.pageVisited.toFinset ⊆ N.nodes.image D.id2page := by
    intro p hp
    obtain ⟨z, hz, rfl⟩ := hs.pages p (mem_toFinset.mp hp)
    exact Finset.mem_image_of_mem _ hz
  have hcard := Finset.card_le_card hsub
  rwa [toFinset_card_of_nodup hs.pages_nodup] at hcard

omit [LinearOrder F] in
theorem left_select (hphase : s.phase = .select) (hk : s.k < l) {fs : List Fetch}
    {retset : List (Cand F)} {nk : ℕ} {visited reads : List ℕ}
    (hvisited : visited.length = fs.length + s.pageVisited.length) (hle : visited.length ≤ pages) :
    ({ s with
      retset := retset
      nk := nk
      pageVisited := visited
      phase := .rest
      frontier := fs
      inFlight := range fs.length
      reads := reads } : PageLoop F).left pages l < s.left pages l := by
  simp only [left, hphase, hvisited, length_range]
  cases fs with
  | nil =>
    simp only [length_nil, isEmpty_nil, if_true, Nat.zero_add]
    split_ifs <;> omega
  | cons f fs =>
    have hsplit : pages - s.pageVisited.length =
        pages - ((f :: fs).length + s.pageVisited.length) + (f :: fs).length := by
      omega
    have hpay : 6 * l + 6 + (f :: fs).length ≤ (6 * l + 7) * (f :: fs).length := by
      have hone : 6 * l + 6 ≤ (6 * l + 6) * (f :: fs).length :=
        Nat.le_mul_of_pos_right _ (Nat.succ_pos _)
      rw [Nat.succ_mul (6 * l + 6)]
      omega
    rw [hsplit, Nat.mul_add]
    simp only [isEmpty_cons, Bool.false_eq_true, if_false]
    split_ifs <;> omega

variable (h : PageQuery P D N) {sector lastPages : ℕ → ℕ → Record} {s₀ : PageLoop F}
  {as : List PageAct}

include h

theorem Paging.step (hs : Paging P D N s) {a : PageAct} (hstep : pageStep P D s a = some t) :
    Paging P D N t ∧ t.left (N.nodes.image D.id2page).card P.lSearch <
      s.left (N.nodes.image D.id2page).card P.lSearch := by
  cases a with
  | select =>
    simp only [pageStep, ite_none_right_eq_some] at hstep
    obtain ⟨⟨hphase, hk, -, -⟩, hstep⟩ := hstep
    obtain ⟨fs, hfs, rfl⟩ := map_eq_some_iff.mp hstep
    have ht := hs.select h hphase hk hfs
    refine ⟨ht, left_select hphase (hk.trans_le hs.sweeping.length_le) ?_ ht.visited_le⟩
    rw [(picked_picks P D s).visited, length_append, length_reverse, length_map,
      ← (mapM_fetch hfs).1, length_map]
  | land i =>
    simp only [pageStep, bind_eq_some_iff] at hstep
    obtain ⟨j, hi, hstep⟩ := hstep
    obtain ⟨f, hf, rfl⟩ := map_eq_some_iff.mp hstep
    have hlt := (List.getElem?_eq_some_iff.mp hi).1
    refine ⟨hs.land hi hf, ?_⟩
    have hphase : s.phase ≠ .select := by
      intro hsel
      rw [(hs.idle hsel).2] at hlt
      exact absurd hlt (Nat.not_lt_zero _)
    simp only [left, length_eraseIdx_of_lt hlt]
    cases hp : s.phase with
    | select => exact absurd hp hphase
    | rest =>
      dsimp only
      omega
    | wait =>
      dsimp only
      omega
  | rest =>
    simp only [pageStep, ite_none_right_eq_some, some.injEq] at hstep
    obtain ⟨hphase, rfl⟩ := hstep
    refine ⟨hs.rest h hphase, ?_⟩
    simp only [left, hphase]
    cases hfr : s.frontier with
    | cons f fs =>
      simp only [isEmpty_cons, Bool.false_eq_true, if_false]
      omega
    | nil =>
      simp only [isEmpty_nil, if_true]
      cases hsnap : s.snapshot with
      | cons f fs =>
        simp only [isEmpty_cons, Bool.false_eq_true, if_false]
        omega
      | nil =>
        have hnk := hs.unchanged hphase
        have hround := hs.round (by rw [hphase]; exact PagePhase.noConfusion)
        have hnone : s.restNodes D = [] := by rw [restNodes, hsnap]; rfl
        rw [hnone, foldl_nil, hnk]
        simp only [isEmpty_nil, if_true]
        omega
  | expand =>
    simp only [pageStep, ite_none_right_eq_some, some.injEq] at hstep
    obtain ⟨⟨hphase, hnone⟩, rfl⟩ := hstep
    rw [List.isEmpty_iff] at hnone
    refine ⟨hs.expand h hphase hnone, ?_⟩
    simp only [left, hphase, hnone, length_nil]
    cases hfr : s.frontier with
    | cons f fs =>
      simp only [isEmpty_cons, Bool.false_eq_true, if_false]
      omega
    | nil =>
      have hown : s.ownNodes D = [] := by rw [ownNodes, hfr]; rfl
      rw [hown, foldl_nil]
      simp only [isEmpty_nil, if_true]
      split_ifs <;> omega

/-- Where the loop cannot go on it has ended, or there are more requests than can be sent. -/
theorem Paging.stuck (hs : Paging P D N s) (hstuck : ∀ a, pageStep P D s a = none) :
    s.finished = true ∨ maxEvents < (s.picked P D).1.length := by
  cases hphase : s.phase with
  | select =>
    rcases Nat.lt_or_ge s.k s.retset.length with hk | hk
    · right
      by_contra hle
      have hknown : (s.retset.all fun c => D.known c.id) = true := by
        apply all_eq_true.mpr
        intro c hc
        exact (h.holds.nodes c.id).mp (hs.inside c hc)
      obtain ⟨fs, hfs⟩ := exists_mapM_fetch h.holds hs.picked_nodes
      have hselect := hstuck .select
      simp only [pageStep] at hselect
      rw [if_pos ⟨hphase, hk, hknown, Nat.le_of_not_lt hle⟩, hfs] at hselect
      cases hselect
    · left
      simp [finished, hphase, hk]
  | rest =>
    have hrest := hstuck .rest
    simp only [pageStep, if_pos hphase] at hrest
    cases hrest
  | wait =>
    cases hnone : s.inFlight with
    | nil =>
      have hexpand := hstuck .expand
      simp only [pageStep] at hexpand
      rw [if_pos ⟨hphase, by rw [hnone]; rfl⟩] at hexpand
      cases hexpand
    | cons j js =>
      have hj : j < s.frontier.length := hs.inFlight j (by simp [hnone])
      have hland := hstuck (.land 0)
      simp only [pageStep, hnone, getElem?_cons_zero, bind_some,
        getElem?_eq_getElem hj] at hland
      cases hland

theorem PageQuery.paging (hstart : P.pageStart sector lastPages = some s₀)
    (hrun : run (pageStep P D) s₀ as = some s) : Paging P D N s :=
  run_invariant (fun _ _ _ hs hstep => (hs.step h hstep).1) (Paging.init h hstart) hrun

theorem PageQuery.length_le (hstart : P.pageStart sector lastPages = some s₀)
    (hrun : run (pageStep P D) s₀ as = some s) :
    as.length ≤ s₀.left (N.nodes.image D.id2page).card P.lSearch := by
  have hle := length_le_of_run (I := Paging P D N)
    (fun _ _ _ hs hstep => hs.step h hstep) (Paging.init h hstart) hrun
  omega

end Ends

/-- With no more requests in a round than can be sent at once, page search takes a bounded number of
steps and goes on to its end. It reads no page twice and gives no id two exact distances, and where it
ends every id in the pool has one. -/
theorem page_search_exact [LinearOrder F] (P : Params F) (D : PageFile) (N : Net)
    (h : PageQuery P D N) (hwidth : P.beamWidth ≤ maxEvents) (sector lastPages : ℕ → ℕ → Record) :
    ∃ s₀, P.pageStart sector lastPages = some s₀ ∧
      (∀ as s, run (pageStep P D) s₀ as = some s →
        as.length ≤ s₀.left (N.nodes.image D.id2page).card P.lSearch ∧
        s.reads.Nodup ∧ s.scored.Nodup ∧
        (s.finished = true → ∀ c ∈ s.retset,
          ⟨c.id, P.compare P.query (N.coords c.id)⟩ ∈ s.full) ∧
        ((∀ a, pageStep P D s a = none) → s.finished = true)) ∧
      ∃ as s, run (pageStep P D) s₀ as = some s ∧ s.finished = true := by
  obtain ⟨s₀, hstart⟩ : ∃ s₀, P.pageStart sector lastPages = some s₀ :=
    ⟨_, if_pos (hwidth.trans (by decide))⟩
  have hends : ∀ as s, run (pageStep P D) s₀ as = some s →
      (∀ a, pageStep P D s a = none) → s.finished = true := by
    intro as s hrun hnone
    rcases (h.paging hstart hrun).stuck h hnone with hfin | hmany
    · exact hfin
    · have hle := (picked_picks P D s).length_le
      omega
  refine ⟨s₀, hstart, ?_, ?_⟩
  · intro as s hrun
    have hs := h.paging hstart hrun
    refine ⟨h.length_le hstart hrun, hs.reads.nodup_iff.mpr hs.pages_nodup, hs.once, ?_,
      hends as s hrun⟩
    intro hfin c hc
    rw [finished, Bool.and_eq_true, decide_eq_true_iff, decide_eq_true_iff] at hfin
    obtain ⟨hphase, hk⟩ := hfin
    have hcursor : s.cursor = s.k := if_pos hphase
    have hwaiting : s.waiting = s.snapshot := if_pos hphase
    obtain ⟨hpage, hwait⟩ := hs.front c (by rwa [hcursor, take_of_length_le hk])
    rw [hwaiting] at hwait
    have hscored : c.id ∈ s.scored := by
      apply (hs.done c.id).mpr
      refine ⟨hs.inside c hc, hpage, ?_, hwait⟩
      rw [(hs.idle hphase).1]
      exact fun f hf => absurd hf not_mem_nil
    obtain ⟨n, hn, hid⟩ := mem_map.mp hscored
    rw [← hid, ← hs.sweeping.exact n hn]
    exact hn
  · obtain ⟨as, s, hrun, hnone⟩ := exists_maximal_run fun _ _ hrun => h.length_le hstart hrun
    exact ⟨as, s, hrun, hends as s hrun hnone⟩

section Star

/-- A star in a file with two nodes on each page, in the order of their ids. -/
def starFile (n : ℕ) : PageFile where
  geometry := { nnodesPerSector := 2, pos := pairGeometry.pos, le_max := pairGeometry.le_max }
  index := loadEqual
    { nnodesPerSector := 2, pos := pairGeometry.pos, le_max := pairGeometry.le_max } (n + 1)
  disk p j := (star n).graph.version ((p - 1) * 2 + j) 0

theorem starFile_holds (n : ℕ) : (starFile n).Holds (star n) where
  inverse := (loadEqual_consistent (n + 1)).id2loc_iff
  nodes z := by
    show z ∈ Finset.range (n + 1) ↔ (if z < n + 1 then some z else none).isSome = true
    simp
  content z l hl := by
    have hl' : (if z < n + 1 then some z else none) = some l := hl
    obtain rfl := some.inj (ite_none_right_eq_some.mp hl').2
    have hloc := (starFile n).geometry.sectorToLoc_locSectorNo z
    show (star n).graph.version ((starFile n).geometry.sectorToLoc _ _) 0 = _
    rw [hloc]
    rfl

theorem starFile_query (n l width : ℕ) (hl : 1 ≤ l) (hlt : l < 4096) (hw : 1 ≤ width) :
    PageQuery { starParams l with beamWidth := width } (starFile n) (star n) where
  ordered := ordered_of_natParams rfl
  length := hl
  length_lt := hlt
  width := hw
  node := Finset.mem_range.mpr (Nat.succ_pos n)
  holds := starFile_holds n

theorem page_search_star_ends :
    ∃ s₀ as s, (starParams 5).pageStart (fun _ _ => ⟨[], []⟩) (fun _ _ => ⟨[], []⟩) = some s₀ ∧
      run (pageStep (starParams 5) (starFile 9)) s₀ as = some s ∧ s.finished = true ∧
      ∀ c ∈ s.retset, ⟨c.id, [0].sum⟩ ∈ s.full := by
  obtain ⟨s₀, hstart, hruns, as, s, hrun, hfin⟩ := page_search_exact (starParams 5) (starFile 9)
    (star 9) (starFile_query 9 5 4 (by decide) (by decide) (by decide)) (by decide)
    (fun _ _ => ⟨[], []⟩) fun _ _ => ⟨[], []⟩
  exact ⟨s₀, as, s, hstart, hrun, hfin, (hruns as s hrun).2.2.2.1 hfin⟩

/-- With a width of more than `MAX_N_SECTOR_READS` the search crashes at once. -/
theorem page_search_too_wide :
    PageQuery { starParams 5 with beamWidth := 513 } (starFile 9) (star 9) ∧
      ∀ sector lastPages,
        ({ starParams 5 with beamWidth := 513 } : Params ℕ).pageStart sector lastPages = none := by
  refine ⟨starFile_query 9 5 513 (by decide) (by decide) (by decide), fun sector lastPages => ?_⟩
  exact if_neg (by decide)

end Star

end Ccann.Search
