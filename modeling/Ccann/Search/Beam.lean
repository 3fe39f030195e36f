import Ccann.Search.Pool

/-! The loop of `do_beam_search` on a graph that does not change. A round takes candidates from
the cursor on, clears their flags, reads their records and expands them; the cursor then goes back
to the least place at which a candidate was inserted, or on by one. All candidates in front of the
cursor have been expanded, whatever the length of the pool is, and the loop ends because a
candidate is expanded at most once and a round without one moves the cursor on. -/

namespace Ccann.Search

open Concurrent Pools List

variable {F : Type*}

/-- A finite graph that does not change. -/
structure Net where
  coords : ℕ → List ℕ
  nhood : ℕ → List ℕ
  nodes : Finset ℕ
  closed : ∀ x ∈ nodes, ∀ y ∈ nhood x, y ∈ nodes

def Net.graph (N : Net) : Graph :=
  ⟨N.coords, fun id _ => N.nhood id⟩

def Loop.expanded (s : Loop F) : List ℕ :=
  s.found.full.map fun n => n.id

open Loop

theorem Loop.expanded_of_found {P : Params F} {s t : Loop F} {id : ℕ} {r : Nodes.Record}
    {q : Scratch} (h : t.found = (P.copyCoords id r q s.found).2) :
    t.expanded = s.expanded ++ [id] := by
  rw [expanded, expanded, h]
  exact map_append

def Loop.taken (s : Loop F) : List ℕ :=
  s.expanded ++ s.frontier.map Prod.fst

def Loop.cursor (s : Loop F) : ℕ :=
  if s.inRound then min s.nk (s.k + 1) else s.k

section Moves

variable {P : Params F} {g : Graph} {q : Scratch} {s : Loop F}

theorem step_beam (hmode : P.mode = .beam) {x y : Scratch × Loop F} {a : Act}
    (h : P.step g x a = some y) : ∃ b, BeamMove P g x.1 x.2 b y := by
  unfold Params.step at h
  rw [hmode] at h
  cases a with
  | beam a => exact ⟨a, beam_move h⟩
  | pipe a | para a => cases h

/-- Where the loop cannot go on, it has ended, or a buffer of the query is too small. -/
theorem beam_stuck (hmode : P.mode = .beam) (hstuck : ∀ a, P.step g (q, s) a = none) :
    P.finished s = true ∨
      maxNSectorReads < (takeBeam P.beamWidth (s.retset.drop s.k)).1.length ∨
      s.frontier ≠ [] ∧ P.coordRoom ≤ s.found.dataBufIdx := by
  have hread := hstuck (.beam (.read
    (replicate (takeBeam P.beamWidth (s.retset.drop s.k)).1.length 0)))
  have hexpand := hstuck (.beam .expand)
  have hnext := hstuck (.beam .next)
  simp only [Params.step, hmode, beamStep, length_replicate] at hread hexpand hnext
  cases hin : s.inRound with
  | false =>
    rcases Nat.lt_or_ge s.k s.retset.length with hk | hk
    · right
      left
      by_contra hle
      rw [if_pos ⟨by simp [hin], hk, trivial, Nat.le_of_not_lt hle⟩] at hread
      cases hread
    · left
      simp [Params.finished, hmode, hin, hk]
  | true =>
    right
    right
    cases hfr : s.frontier with
    | nil =>
      rw [if_pos ⟨hin, by rw [hfr]; rfl⟩] at hnext
      cases hnext
    | cons p rest =>
      refine ⟨cons_ne_nil _ _, ?_⟩
      by_contra hlt
      rw [hfr] at hexpand
      simp only [if_pos (Nat.lt_of_not_le hlt)] at hexpand
      cases hexpand

theorem init_of_entry {m : ℕ} (hentry : P.entries = [(m, P.pqDist₀ m)]) :
    P.init = { retset := [P.fresh m], visited := [m], lSearch := P.lSearch } := by
  cases hmode : P.mode <;> simp only [Params.init, hmode, hentry] <;> rfl

end Moves

section Take

def unflag (sel : List ℕ) (c : Cand F) : Cand F :=
  if c.id ∈ sel then { c with flag := false } else c

@[simp] theorem unflag_id (sel : List ℕ) (c : Cand F) : (unflag sel c).id = c.id := by
  unfold unflag
  split <;> rfl

@[simp] theorem unflag_distance (sel : List ℕ) (c : Cand F) :
    (unflag sel c).distance = c.distance := by
  unfold unflag
  split <;> rfl

theorem unflag_eq_self {sel : List ℕ} {c : Cand F} (h : c.id ∉ sel) : unflag sel c = c :=
  if_neg h

theorem unflag_flag (sel : List ℕ) (c : Cand F) :
    (unflag sel c).flag = true ↔ c.flag = true ∧ c.id ∉ sel := by
  unfold unflag
  split_ifs with h
  · simp [h]
  · simp [h]

theorem flagged_ids_subset (cs : List (Cand F)) :
    (cs.filter fun c => c.flag).map (fun c => c.id) ⊆ cs.map fun c => c.id :=
  map_subset _ filter_sublist.subset

theorem takeBeam_eq (width : ℕ) {cs : List (Cand F)} (hnodup : (cs.map fun c => c.id).Nodup) :
    (takeBeam width cs).1.Sublist ((cs.filter fun c => c.flag).map fun c => c.id) ∧
      (takeBeam width cs).2 = cs.map (unflag (takeBeam width cs).1) := by
  induction cs generalizing width with
  | nil => cases width <;> exact ⟨nil_sublist _, rfl⟩
  | cons c cs ih =>
    obtain ⟨hc, hnodup⟩ := nodup_cons.mp hnodup
    cases width with
    | zero =>
      refine ⟨nil_sublist _, ?_⟩
      show c :: cs = (c :: cs).map (unflag [])
      exact (map_id'' (fun d => unflag_eq_self not_mem_nil) _).symm
    | succ width =>
      unfold takeBeam
      split_ifs with hflag
      · obtain ⟨hsub, heq⟩ := ih width hnodup
        constructor
        · rw [filter_cons_of_pos hflag, map_cons]
          exact hsub.cons_cons _
        · have hrest : ∀ d ∈ cs, unflag (takeBeam width cs).1 d =
              unflag (c.id :: (takeBeam width cs).1) d := by
            intro d hd
            have hne : d.id ≠ c.id := fun h => hc (mem_map.mpr ⟨d, hd, h⟩)
            simp [unflag, hne]
          show _ :: (takeBeam width cs).2 = _
          rw [heq, map_cons, map_congr_left hrest]
          simp [unflag]
      · obtain ⟨hsub, heq⟩ := ih (width + 1) hnodup
        constructor
        · rw [filter_cons_of_neg hflag]
          exact hsub
        · have hnot : c.id ∉ (takeBeam (width + 1) cs).1 := fun hm =>
            hc (flagged_ids_subset cs (hsub.subset hm))
          show c :: (takeBeam (width + 1) cs).2 = _
          rw [map_cons, unflag_eq_self hnot, ← heq]

/-- The first candidate is taken if it can be. -/
theorem head_mem_takeBeam {width : ℕ} (hw : 1 ≤ width) (c : Cand F) (cs : List (Cand F))
    (hflag : c.flag = true) : c.id ∈ (takeBeam width (c :: cs)).1 := by
  obtain ⟨w, rfl⟩ := Nat.exists_eq_add_of_le' hw
  rw [takeBeam, if_pos hflag]
  exact mem_cons_self

/-- The pool after a beam was taken from place `k` on. -/
theorem take_append_takeBeam {pool : List (Cand F)} (hnodup : (pool.map fun c => c.id).Nodup)
    (k width : ℕ) :
    pool.take k ++ (takeBeam width (pool.drop k)).2 =
      pool.map (unflag (takeBeam width (pool.drop k)).1) := by
  have hsplit : ((pool.take k).map (fun c => c.id) ++ (pool.drop k).map fun c => c.id).Nodup := by
    rwa [← map_append, take_append_drop]
  obtain ⟨-, hdrop, hdisj⟩ := nodup_append.mp hsplit
  obtain ⟨hsub, heq⟩ := takeBeam_eq width hdrop
  have hkeep : ∀ c ∈ pool.take k, unflag (takeBeam width (pool.drop k)).1 c = c := by
    intro c hc
    apply unflag_eq_self
    intro hm
    exact hdisj _ (mem_map_of_mem hc) _ (flagged_ids_subset _ (hsub.subset hm)) rfl
  have htake : (pool.take k).map (unflag (takeBeam width (pool.drop k)).1) = pool.take k :=
    (map_congr_left hkeep).trans (map_id' _)
  calc pool.take k ++ (takeBeam width (pool.drop k)).2
      = (pool.take k ++ pool.drop k).map (unflag (takeBeam width (pool.drop k)).1) := by
        rw [map_append, htake, ← heq]
    _ = pool.map (unflag (takeBeam width (pool.drop k)).1) := by rw [take_append_drop]

theorem ids_takeBeam (pool : List (Cand F)) (k width : ℕ) :
    (pool.take k ++ (takeBeam width (pool.drop k)).2).map (fun c => c.id) =
      pool.map fun c => c.id := by
  rw [map_append, (takeBeam_spec width (pool.drop k)).2, ← map_append,
    take_append_drop]

theorem length_takeBeam_le (width : ℕ) (cs : List (Cand F)) :
    (takeBeam width cs).1.length ≤ width := by
  induction cs generalizing width with
  | nil => cases width <;> simp [takeBeam]
  | cons c cs ih =>
    cases width with
    | zero => simp [takeBeam]
    | succ width =>
      unfold takeBeam
      split_ifs
      · exact Nat.succ_le_succ (ih width)
      · exact ih (width + 1)

end Take

section Invariant

/-- What is discovered once a further node is expanded. -/
theorem mem_discovered {N : Net} {m id z : ℕ} {expanded : List ℕ} :
    (z ∈ N.nhood id ∨ z = m ∨ ∃ x ∈ expanded, z ∈ N.nhood x) ↔
      z = m ∨ ∃ x ∈ expanded ++ [id], z ∈ N.nhood x := by
  simp only [mem_append, mem_singleton, or_and_right, exists_or, exists_eq_left]
  rw [or_comm, or_assoc]

variable [LinearOrder F] {P : Params F} {N : Net} {m : ℕ} {s t : Loop F} {q : Scratch}

/-- What holds of a beam search from `m` at any time. The flags of the candidates tell which were
taken, and no candidate in front of the cursor has its flag. -/
structure Beaming (P : Params F) (N : Net) (m : ℕ) (s : Loop F) : Prop where
  pooled : Pooled P s.visited s.retset
  discovered : ∀ z, z ∈ s.visited ↔ z = m ∨ ∃ x ∈ s.expanded, z ∈ N.nhood x
  inside : ∀ z ∈ s.visited, z ∈ N.nodes
  nodup : s.taken.Nodup
  taken : s.taken ⊆ s.visited
  flags : ∀ c ∈ s.retset, c.flag = false ↔ c.id ∈ s.taken
  front : ∀ c ∈ s.retset.take s.cursor, c.flag = false
  cursor_le : s.cursor ≤ s.retset.length
  records : ∀ p ∈ s.frontier, p.2 = ⟨N.coords p.1, N.nhood p.1⟩
  idle : s.inRound = false → s.frontier = []
  copied : s.found.dataBufIdx = s.expanded.length
  room : s.expanded.length ≤ P.coordRoom
  exact : ∀ n ∈ s.found.full, n.distance = P.compare P.query (N.coords n.id)

theorem Beaming.init (hentry : P.entries = [(m, P.pqDist₀ m)])
    (hm : m ∈ N.nodes) : Beaming P N m P.init := by
  rw [init_of_entry hentry]
  refine ⟨pooled_fresh P m, ?_, ?_, ?_, ?_, ?_, ?_, ?_, ?_, ?_, ?_, Nat.zero_le _, ?_⟩
  · intro z
    simp [expanded]
  · intro z hz
    rw [mem_singleton.mp hz]
    exact hm
  · exact nodup_nil
  · exact nil_subset _
  · intro c hc
    rw [mem_singleton.mp hc]
    simp [Params.fresh, Loop.taken, Loop.expanded]
  · intro c hc
    exact absurd hc not_mem_nil
  · exact Nat.zero_le _
  · intro p hp
    exact absurd hp not_mem_nil
  · intro _
    rfl
  · rfl
  · intro n hn
    exact absurd hn not_mem_nil

theorem readAll_ids (g : Graph) {ids vs : List ℕ} (h : vs.length = ids.length) :
    (g.readAll ids vs).map Prod.fst = ids := by
  rw [Graph.readAll, map_map]
  exact map_fst_zip (Nat.le_of_eq h.symm)

/-- The candidates of a beam are in the pool, are different, and were not taken before. -/
theorem Beaming.selected (h : Beaming P N m s) (hround : s.inRound = false) :
    (s.expanded ++ (takeBeam P.beamWidth (s.retset.drop s.k)).1).Nodup ∧
      (takeBeam P.beamWidth (s.retset.drop s.k)).1 ⊆ s.retset.map fun c => c.id := by
  have hdrop : ((s.retset.drop s.k).map fun c => c.id).Nodup :=
    h.pooled.nodup.sublist ((drop_sublist _ _).map _)
  have hsub := (takeBeam_eq P.beamWidth hdrop).1
  have htaken : s.taken = s.expanded := by
    rw [Loop.taken, h.idle hround, map_nil, append_nil]
  have hmem : ∀ z ∈ (takeBeam P.beamWidth (s.retset.drop s.k)).1,
      ∃ c ∈ s.retset, c.flag = true ∧ c.id = z := by
    intro z hz
    obtain ⟨c, hc, hid⟩ := mem_map.mp (hsub.subset hz)
    obtain ⟨hc, hflag⟩ := mem_filter.mp hc
    exact ⟨c, mem_of_mem_drop hc, hflag, hid⟩
  constructor
  · apply nodup_append.mpr
    refine ⟨htaken ▸ h.nodup, ?_, ?_⟩
    · exact hdrop.sublist (hsub.trans (filter_sublist.map _))
    · rintro x hx _ hz rfl
      obtain ⟨c, hc, hflag, rfl⟩ := hmem x hz
      rw [(h.flags c hc).mpr (htaken ▸ hx)] at hflag
      cases hflag
  · intro z hz
    obtain ⟨c, hc, -, rfl⟩ := hmem z hz
    exact mem_map_of_mem hc

/-- The start of a round. -/
theorem Beaming.read (h : Beaming P N m s) (hw : 1 ≤ P.beamWidth) (hround : s.inRound = false)
    (hk : s.k < s.retset.length) {vs : List ℕ}
    (hvs : vs.length = (takeBeam P.beamWidth (s.retset.drop s.k)).1.length) :
    Beaming P N m { s with
      retset := s.retset.take s.k ++ (takeBeam P.beamWidth (s.retset.drop s.k)).2
      nk := s.retset.length
      inRound := true
      frontier := N.graph.readAll (takeBeam P.beamWidth (s.retset.drop s.k)).1 vs } := by
  obtain ⟨hnodup, hsel⟩ := h.selected hround
  have hids := readAll_ids N.graph hvs
  have hhead : ∀ c, s.retset[s.k]? = some c → c.flag = true →
      c.id ∈ (takeBeam P.beamWidth (s.retset.drop s.k)).1 := by
    intro c hc hflag
    obtain ⟨hlt, rfl⟩ := List.getElem?_eq_some_iff.mp hc
    rw [drop_eq_getElem_cons hlt]
    exact head_mem_takeBeam hw _ _ hflag
  rw [take_append_takeBeam h.pooled.nodup]
  generalize hgen : (takeBeam P.beamWidth (s.retset.drop s.k)).1 = sel at *
  have hpool : (s.retset.map (unflag sel)).map (fun c => c.id) = s.retset.map fun c => c.id := by
    rw [map_map]
    exact map_congr_left fun c _ => unflag_id sel c
  have htaken : ∀ z, z ∈ s.taken ↔ z ∈ s.expanded := by
    intro z
    rw [Loop.taken, h.idle hround, map_nil, append_nil]
  refine ⟨⟨?_, ?_, ?_, ?_, ?_⟩, h.discovered, h.inside, ?_, ?_, ?_, ?_, ?_, ?_, ?_, h.copied,
    h.room, h.exact⟩
  · simpa using h.pooled.ne_nil
  · apply pairwise_map.mpr
    exact h.pooled.sorted.imp fun hab => by simpa using hab
  · rw [hpool]
    exact h.pooled.nodup
  · rw [hpool]
    exact h.pooled.subset
  · intro c hc
    obtain ⟨d, hd, rfl⟩ := mem_map.mp hc
    rw [unflag_distance, unflag_id]
    exact h.pooled.scored d hd
  · show (s.expanded ++ (N.graph.readAll sel vs).map Prod.fst).Nodup
    rw [hids]
    exact hnodup
  · show s.expanded ++ (N.graph.readAll sel vs).map Prod.fst ⊆ s.visited
    rw [hids]
    apply append_subset.mpr
    exact ⟨fun z hz => h.taken ((htaken z).mpr hz), List.Subset.trans hsel h.pooled.subset⟩
  · intro c hc
    obtain ⟨d, hd, rfl⟩ := mem_map.mp hc
    show (unflag sel d).flag = false ↔
      (unflag sel d).id ∈ s.expanded ++ (N.graph.readAll sel vs).map Prod.fst
    rw [hids, unflag_id, mem_append, ← htaken, ← h.flags d hd, ← Bool.not_eq_true, unflag_flag,
      not_and_not_right, ← Bool.not_eq_true]
    exact Decidable.imp_iff_not_or
  · intro c hc
    have hcur : (min s.retset.length (s.k + 1)) = s.k + 1 := by omega
    have hc' : c ∈ ((s.retset.map (unflag sel)).take (min s.retset.length (s.k + 1))) := hc
    rw [hcur, ← map_take] at hc'
    obtain ⟨d, hd, rfl⟩ := mem_map.mp hc'
    obtain ⟨i, hi⟩ := mem_iff_getElem?.mp hd
    obtain ⟨hil, -⟩ := List.getElem?_eq_some_iff.mp hi
    rw [length_take] at hil
    rw [getElem?_take_of_lt (by omega)] at hi
    rw [← Bool.not_eq_true, unflag_flag]
    rintro ⟨hflag, hnot⟩
    rcases Nat.lt_or_ge i s.k with hik | hik
    · have hold := h.front d (mem_of_getElem? (i := i) (by
        rw [cursor, hround, if_neg (by simp), getElem?_take_of_lt hik]
        exact hi))
      rw [hold] at hflag
      cases hflag
    · have heq : i = s.k := by omega
      exact hnot (hhead d (heq ▸ hi) hflag)
  · show min s.retset.length (s.k + 1) ≤ (s.retset.map (unflag sel)).length
    rw [length_map]
    omega
  · intro p hp
    obtain ⟨-, v, hv⟩ := Graph.mem_readAll hp
    exact hv
  · intro hno
    cases hno

/-- The expansion of a node, and the next length of the pool. -/
theorem Beaming.expand (hP : P.Ordered) (hmode : P.mode = .beam) (h : Beaming P N m s) {id l : ℕ}
    {r : Nodes.Record} {rest : List (ℕ × Nodes.Record)} (hfr : s.frontier = (id, r) :: rest)
    (hroom : s.found.dataBufIdx < P.coordRoom) :
    Beaming P N m { expandNode P id r q { s with frontier := rest } with lSearch := l } := by
  set u : Loop F := { expandNode P id r q { s with frontier := rest } with lSearch := l }
  have hr : r = ⟨N.coords id, N.nhood id⟩ := h.records (id, r) (hfr ▸ mem_cons_self)
  have hround : s.inRound = true := by
    by_contra hno
    rw [h.idle (by simpa using hno)] at hfr
    cases hfr
  have htaken : s.taken = s.expanded ++ id :: rest.map Prod.fst := by
    rw [Loop.taken, hfr, map_cons]
  obtain ⟨hnodup, hnew⟩ := discover_new r.nhood s.visited
  have hpool := foldl_offer_pooled (l := s.lSearch) (x := (s.retset, s.nk)) hP h.pooled hnodup hnew
  have hpush := foldl_offer_pushed (l := s.lSearch) (x := (s.retset, s.nk)) hP h.pooled hnodup hnew
  rw [← discover_snd] at hpool
  have hseen : ∀ z, z ∈ (discover r.nhood s.visited).2 ↔ z ∈ N.nhood id ∨ z ∈ s.visited := by
    intro z
    rw [mem_discover_snd, hr]
  have hexp : u.expanded = s.expanded ++ [id] := expanded_of_found (r := r) (q := q) rfl
  have htaken' : u.taken = s.taken := by
    rw [Loop.taken, hexp, htaken, append_assoc]
    rfl
  have hidtaken : id ∈ s.taken := by simp [htaken]
  generalize hgen : (discover r.nhood s.visited).1.foldl (P.offer s.lSearch) (s.retset, s.nk) = x
    at hpool hpush
  have hret : u.retset = x.1 := congrArg Prod.fst hgen
  have hnk : u.nk = x.2 := congrArg Prod.snd hgen
  have hcur : u.cursor = min x.2 (s.k + 1) := by
    have hin : u.inRound = true := hround
    rw [cursor, if_pos hin, hnk]
    rfl
  have hcur₀ : s.cursor = min s.nk (s.k + 1) := by rw [cursor, if_pos hround]
  have hle := hpush.le
  have hlength := hpush.length
  have hcle := h.cursor_le
  refine ⟨?_, ?_, ?_, ?_, ?_, ?_, ?_, ?_, ?_, ?_, ?_, ?_, ?_⟩
  · rw [hret]
    exact hpool
  · intro z
    rw [hexp]
    show z ∈ (discover r.nhood s.visited).2 ↔ _
    rw [hseen, h.discovered]
    exact mem_discovered
  · intro z hz
    rcases (hseen z).mp hz with hz | hz
    · exact N.closed id (h.inside id (h.taken hidtaken)) z hz
    · exact h.inside z hz
  · rw [htaken']
    exact h.nodup
  · rw [htaken']
    intro z hz
    exact (hseen z).mpr (.inr (h.taken hz))
  · rw [hret, htaken']
    intro c hc
    rcases hpush.mem c hc with hc | ⟨hfresh, hnot⟩
    · exact h.flags c hc
    · constructor
      · intro hflag
        rw [hfresh] at hflag
        cases hflag
      · intro hmem
        exact absurd (h.taken hmem) hnot
  · rw [hret, hcur]
    intro c hc
    have hsame : x.1.take (min x.2 (s.k + 1)) = s.retset.take (min x.2 (s.k + 1)) := by
      have hcut := congrArg (take (min x.2 (s.k + 1))) hpush.take
      rwa [take_take, take_take, Nat.min_eq_left (Nat.min_le_left _ _)] at hcut
    rw [hsame] at hc
    apply h.front
    rw [hcur₀]
    exact (take_sublist_take_left (by omega)).subset hc
  · rw [hret, hcur]
    have hlength' : s.retset.length ≤ x.1.length := hlength
    have hle' : x.2 ≤ s.nk := hle
    omega
  · intro p hp
    exact h.records p (hfr ▸ mem_cons_of_mem _ hp)
  · intro hno
    have hin : s.inRound = false := hno
    rw [hround] at hin
    cases hin
  · rw [hexp, length_append]
    show (if P.mode = .beam then s.found.dataBufIdx + 1 else s.found.dataBufIdx) = _
    rw [if_pos hmode, h.copied]
    rfl
  · rw [hexp, length_append, ← h.copied]
    exact hroom
  · intro n hn
    rcases mem_append.mp (show n ∈ s.found.full ++ [_] from hn) with hn | hn
    · exact h.exact n hn
    · rw [mem_singleton.mp hn, hr]

section

variable (h : Beaming P N m s)

include h

/-- The end of a round. -/
theorem Beaming.next (hround : s.inRound = true) (hfr : s.frontier = []) :
    Beaming P N m { s with
      inRound := false, k := if s.nk ≤ s.k then s.nk else s.k + 1 } := by
  have hcur : ({ s with inRound := false, k := if s.nk ≤ s.k then s.nk else s.k + 1 } :
      Loop F).cursor = s.cursor := by
    simp only [cursor, hround, if_true, Bool.false_eq_true, if_false]
    split <;> omega
  refine ⟨h.pooled, h.discovered, h.inside, h.nodup, h.taken, h.flags, ?_, ?_, h.records, ?_,
    h.copied, h.room, h.exact⟩
  · rw [hcur]
    exact h.front
  · rw [hcur]
    exact h.cursor_le
  · intro _
    exact hfr

theorem Beaming.length_le {l : List ℕ} (hnodup : l.Nodup) (hsub : l ⊆ s.visited) :
    l.length ≤ N.nodes.card := by
  rw [← toFinset_card_of_nodup hnodup]
  apply Finset.card_le_card
  intro z hz
  exact h.inside z (hsub (mem_toFinset.mp hz))

theorem Beaming.expanded_nodup : s.expanded.Nodup :=
  (nodup_append.mp h.nodup).1

theorem Beaming.expanded_le : s.expanded.length ≤ N.nodes.card :=
  h.length_le h.expanded_nodup (List.Subset.trans (subset_append_left _ _) h.taken)

theorem Beaming.pool_le : s.retset.length ≤ N.nodes.card := by
  rw [← length_map (f := fun c : Cand F => c.id)]
  exact h.length_le h.pooled.nodup h.pooled.subset

end

/-- How many steps are left at most in a graph with `n` nodes: each of the nodes can be expanded
once, and can then send the cursor back. -/
def Loop.left (n : ℕ) (s : Loop F) : ℕ :=
  (n - s.expanded.length) * (2 * n + 2) + 2 * (n - s.cursor) + if s.inRound then 1 else 0

theorem Beaming.move (hP : P.Ordered) (hmode : P.mode = .beam) (hw : 1 ≤ P.beamWidth)
    (h : Beaming P N m s) {b : BeamAct} {q' : Scratch} (hmove : BeamMove P N.graph q s b (q', t)) :
    Beaming P N m t ∧ t.left N.nodes.card < s.left N.nodes.card := by
  cases hmove with
  | read hround hk hvs =>
    refine ⟨h.read hw hround hk hvs, ?_⟩
    have hpool := h.pool_le
    have hcur : s.cursor = s.k := by simp [cursor, hround]
    have hmin : min s.retset.length (s.k + 1) = s.k + 1 := by omega
    simp only [left, hround, hcur, Bool.false_eq_true, if_false]
    show (_ - s.expanded.length) * _ + 2 * (_ - min s.retset.length (s.k + 1)) + 1 < _
    rw [hmin]
    omega
  | @expand id r rest hfr hroom =>
    have ht := h.expand (q := q) hP hmode hfr hroom
      (l := P.nextL (expandNode P id r q { s with frontier := rest }))
    refine ⟨ht, ?_⟩
    have hle := ht.expanded_le
    generalize hu : ({ expandNode P id r q { s with frontier := rest } with
      lSearch := P.nextL (expandNode P id r q { s with frontier := rest }) } : Loop F) = u at *
    have hexp : u.expanded.length = s.expanded.length + 1 := by
      rw [← hu, expanded_of_found (s := s) (r := r) (q := q) rfl]
      exact length_append
    have hin : u.left N.nodes.card ≤
        (N.nodes.card - u.expanded.length) * (2 * N.nodes.card + 2) + (2 * N.nodes.card + 1) := by
      rw [left]
      split <;> omega
    have hsucc : N.nodes.card - s.expanded.length = N.nodes.card - u.expanded.length + 1 := by
      omega
    refine hin.trans_lt ?_
    rw [left, hsucc, Nat.succ_mul (N.nodes.card - u.expanded.length)]
    omega
  | next hround hfr =>
    refine ⟨h.next hround hfr, ?_⟩
    have hcur : ({ s with inRound := false, k := if s.nk ≤ s.k then s.nk else s.k + 1 } :
        Loop F).cursor = s.cursor := by
      simp only [cursor, hround, if_true, Bool.false_eq_true, if_false]
      split <;> omega
    simp only [left, hcur, hround, if_true, Bool.false_eq_true, if_false]
    exact Nat.lt_succ_self _

/-- Where the loop has ended, the whole pool is expanded. -/
theorem Beaming.pool_expanded (hmode : P.mode = .beam) (h : Beaming P N m s)
    (hfin : P.finished s = true) : ∀ c ∈ s.retset, c.id ∈ s.expanded := by
  simp only [Params.finished, hmode, Bool.and_eq_true, Bool.not_eq_true', decide_eq_true_eq] at hfin
  obtain ⟨hround, hk⟩ := hfin
  intro c hc
  have hflag : c.flag = false := by
    apply h.front
    rwa [cursor, hround, if_neg (by simp), take_of_length_le hk]
  have htaken := (h.flags c hc).mp hflag
  rwa [Loop.taken, h.idle hround, map_nil, append_nil] at htaken

end Invariant

section Runs

variable [LinearOrder F] {P : Params F} {N : Net} {m : ℕ} {q : Scratch} {x : Scratch × Loop F}
  {as : List Act}

/-- A query that beam search takes, without an in-memory index. -/
structure BeamQuery (P : Params F) (N : Net) (m : ℕ) : Prop where
  ordered : P.Ordered
  mode : P.mode = .beam
  length : 1 ≤ P.lSearch
  width : 1 ≤ P.beamWidth
  entry : P.entries = [(m, P.pqDist₀ m)]
  node : m ∈ N.nodes

theorem BeamQuery.step (h : BeamQuery P N m) (x : Scratch × Loop F) (a : Act)
    (y : Scratch × Loop F) (hx : Beaming P N m x.2) (hstep : P.step N.graph x a = some y) :
    Beaming P N m y.2 ∧ y.2.left N.nodes.card < x.2.left N.nodes.card :=
  have ⟨_, hmove⟩ := step_beam h.mode hstep
  hx.move h.ordered h.mode h.width hmove

variable (h : BeamQuery P N m) (hrun : run (P.step N.graph) (q, P.init) as = some x)

include h hrun

theorem BeamQuery.beaming : Beaming P N m x.2 :=
  run_invariant (I := fun x : Scratch × Loop F => Beaming P N m x.2)
    (fun x a y hx hstep => (h.step x a y hx hstep).1) (Beaming.init h.entry h.node) hrun

/-- A bound on the number of steps. -/
theorem BeamQuery.length_le : as.length ≤ P.init.left N.nodes.card := by
  have hle := length_le_of_run (I := fun x : Scratch × Loop F => Beaming P N m x.2)
    (μ := fun x => x.2.left N.nodes.card) h.step (Beaming.init h.entry h.node) hrun
  exact (Nat.le_add_right _ _).trans hle

end Runs

end Ccann.Search
