import Ccann.Search.Beam

/-! Beam search without deletions. The pool has the nearest of all discovered ids at any time, so
where the loop ends it is a fixed point of the greedy search: every id in the pool is expanded, and
what is not in the pool is not nearer. The loop ends unless a buffer of the query is too small for
it: there are `MAX_N_SECTOR_READS` sectors for a frontier, and `coord_scratch` has room for
`MAX_N_CMPS / sizeof(T)` vectors, while the assertion stops the program after `MAX_N_CMPS`. -/

namespace Ccann.Search

open Concurrent Pools

variable {F : Type*} [LinearOrder F] {P : Params F} {N : Net} {m : ℕ} {s t : Loop F} {q : Scratch}

structure FixedPoint (P : Params F) (N : Net) (m l : ℕ) (s : Loop F) : Prop where
  once : s.expanded.Nodup
  sorted : Sorted s.retset
  distinct : (s.retset.map fun c => c.id).Nodup
  expanded : ∀ c ∈ s.retset, c.id ∈ s.expanded
  discovered : ∀ z, z ∈ s.visited ↔ z = m ∨ ∃ x ∈ s.expanded, z ∈ N.nhood x
  nearest : Nearest P.pqDist₀ l s.visited (s.retset.map fun c => c.id)

structure Greedy (P : Params F) (N : Net) (m : ℕ) (s : Loop F) : Prop extends Beaming P N m s where
  bound : s.lSearch = P.lSearch
  nearest : Nearest P.pqDist₀ P.lSearch s.visited (s.retset.map fun c => c.id)

omit [LinearOrder F] in
theorem liveIndex_lt (live : ℕ → Bool) {need : ℕ} (hneed : 1 ≤ need) (pool : List (Cand F))
    (hlive : ∀ c ∈ pool, live c.id = true) : liveIndex live need pool < need := by
  induction pool generalizing need with
  | nil => exact hneed
  | cons c cs ih =>
    rw [liveIndex, if_pos (hlive c List.mem_cons_self)]
    split_ifs with hone
    · omega
    · have hlt := ih (show 1 ≤ need - 1 by omega) fun d hd => hlive d (List.mem_cons_of_mem _ hd)
      omega

omit [LinearOrder F] in
/-- Without a deletion set the pool keeps its length. -/
theorem nextL_eq (hl : 1 ≤ P.lSearch) (hdel : P.dynSearchL = false ∨ P.excludeNodes = [])
    (hbound : s.lSearch = P.lSearch) : P.nextL s = P.lSearch := by
  unfold Params.nextL
  split_ifs with hdyn
  · have hempty : P.excludeNodes = [] := hdel.resolve_left (by simp [hdyn])
    have hlt := liveIndex_lt (fun id => !decide (P.id2tag id ∈ P.excludeNodes)) hl s.retset
      fun c _ => by simp [hempty]
    omega
  · exact hbound

theorem Greedy.init (hl : 1 ≤ P.lSearch)
    (hentry : P.entries = [(m, P.pqDist₀ m)]) (hm : m ∈ N.nodes) : Greedy P N m P.init := by
  refine ⟨Beaming.init hentry hm, rfl, ?_⟩
  rw [init_of_entry hentry]
  exact nearest_singleton hl m

theorem Greedy.move (hP : P.Ordered) (hmode : P.mode = .beam) (hl : 1 ≤ P.lSearch)
    (hw : 1 ≤ P.beamWidth) (hdel : P.dynSearchL = false ∨ P.excludeNodes = [])
    (h : Greedy P N m s) {b : BeamAct} {q' : Scratch} (hmove : BeamMove P N.graph q s b (q', t)) :
    Greedy P N m t := by
  refine ⟨(h.toBeaming.move hP hmode hw hmove).1, ?_, ?_⟩
  · cases hmove with
    | read | next => exact h.bound
    | expand => exact nextL_eq hl hdel h.bound
  · cases hmove with
    | read =>
      show Nearest _ _ _ ((s.retset.take s.k ++ (takeBeam P.beamWidth (s.retset.drop s.k)).2).map _)
      rw [ids_takeBeam]
      exact h.nearest
    | @expand id r rest =>
      obtain ⟨hnodup, hnew⟩ := discover_new r.nhood s.visited
      have hnear := foldl_offer_nearest (x := (s.retset, s.nk)) hP h.pooled hnodup hnew h.nearest
      rw [← discover_snd, ← h.bound] at hnear
      rw [← h.bound]
      exact hnear
    | next => exact h.nearest

theorem Greedy.fixedPoint (hmode : P.mode = .beam) (h : Greedy P N m s)
    (hfin : P.finished s = true) : FixedPoint P N m P.lSearch s :=
  ⟨h.expanded_nodup, h.pooled.sorted, h.pooled.nodup, h.pool_expanded hmode hfin, h.discovered,
    h.nearest⟩

theorem BeamQuery.greedy (h : BeamQuery P N m)
    (hdel : P.dynSearchL = false ∨ P.excludeNodes = []) {as : List Act} {x : Scratch × Loop F}
    (hrun : run (P.step N.graph) (q, P.init) as = some x) : Greedy P N m x.2 :=
  run_invariant (I := fun x : Scratch × Loop F => Greedy P N m x.2)
    (fun _ _ _ hx hstep =>
      have ⟨_, hmove⟩ := step_beam h.mode hstep
      hx.move h.ordered h.mode h.length h.width hdel hmove)
    (Greedy.init h.length h.entry h.node) hrun

/-- The loop of beam search takes a bounded number of steps. Where it ends, it is at a fixed point
of the greedy search; it ends everywhere except where a frontier has more than `MAX_N_SECTOR_READS`
ids or `coord_scratch` is full and there is another id to expand. -/
theorem beam_search_fixed_point (P : Params F) (N : Net) (m : ℕ) (h : BeamQuery P N m)
    (hdel : P.dynSearchL = false ∨ P.excludeNodes = []) (q : Scratch) :
    (∀ as x, run (P.step N.graph) (q, P.init) as = some x →
      as.length ≤ P.init.left N.nodes.card ∧
      (P.finished x.2 = true → FixedPoint P N m P.lSearch x.2) ∧
      ((∀ a, P.step N.graph x a = none) → P.finished x.2 = true ∨
        maxNSectorReads < (takeBeam P.beamWidth (x.2.retset.drop x.2.k)).1.length ∨
        x.2.frontier ≠ [] ∧ x.2.expanded.length = P.coordRoom)) ∧
    (P.beamWidth ≤ maxNSectorReads → N.nodes.card ≤ P.coordRoom →
      (∀ as x, run (P.step N.graph) (q, P.init) as = some x →
        (∀ a, P.step N.graph x a = none) → P.finished x.2 = true) ∧
      ∃ as x, run (P.step N.graph) (q, P.init) as = some x ∧ P.finished x.2 = true) := by
  have hstuck : ∀ as x, run (P.step N.graph) (q, P.init) as = some x →
      (∀ a, P.step N.graph x a = none) → P.finished x.2 = true ∨
        maxNSectorReads < (takeBeam P.beamWidth (x.2.retset.drop x.2.k)).1.length ∨
        x.2.frontier ≠ [] ∧ x.2.expanded.length = P.coordRoom := by
    intro as x hrun hnone
    have hx := h.beaming hrun
    rcases beam_stuck (q := x.1) h.mode hnone with hfin | hwide | ⟨hfr, hfull⟩
    · exact .inl hfin
    · exact .inr (.inl hwide)
    · rw [hx.copied] at hfull
      exact .inr (.inr ⟨hfr, Nat.le_antisymm hx.room hfull⟩)
  refine ⟨fun as x hrun => ⟨h.length_le hrun, ?_, hstuck as x hrun⟩, ?_⟩
  · exact (h.greedy hdel hrun).fixedPoint h.mode
  intro hwidth hcard
  have hends : ∀ as x, run (P.step N.graph) (q, P.init) as = some x →
      (∀ a, P.step N.graph x a = none) → P.finished x.2 = true := by
    intro as x hrun hnone
    have hx := h.beaming hrun
    rcases hstuck as x hrun hnone with hfin | hwide | ⟨hfr, hfull⟩
    · exact hfin
    · have hle := length_takeBeam_le P.beamWidth (x.2.retset.drop x.2.k)
      omega
    · have hle := hx.length_le hx.nodup hx.taken
      have hpos : 0 < x.2.frontier.length := List.length_pos_iff.mpr hfr
      rw [Loop.taken, List.length_append, List.length_map] at hle
      omega
  obtain ⟨as, x, hrun, hnone⟩ := exists_maximal_run fun as x => h.length_le (q := q)
  exact ⟨hends, as, x, hrun, hends as x hrun hnone⟩

section Star

def star (n : ℕ) : Net where
  coords i := [i]
  nhood i := if i = 0 then List.range (n + 1) else []
  nodes := Finset.range (n + 1)
  closed x _ y hy := by
    split_ifs at hy with h
    · rwa [List.mem_range, ← Finset.mem_range] at hy
    · exact absurd hy List.not_mem_nil

def starParams (l : ℕ) : Params ℕ where
  toOccludeParams := natParams
  mode := .beam
  lSearch := l
  beamWidth := 4
  query := [0]
  compare a _ := a.sum
  pqDist₀ i := i
  excludeNodes := []
  dynSearchL := true
  id2tag i := i
  entries := [(0, 0)]
  medoid := 0

theorem starParams_query (l n : ℕ) (hl : 1 ≤ l) : BeamQuery (starParams l) (star n) 0 where
  ordered := ordered_of_natParams rfl
  mode := rfl
  length := hl
  width := Nat.le_of_ble_eq_true rfl
  entry := rfl
  node := Finset.mem_range.mpr (Nat.succ_pos n)

theorem beam_search_star_ends :
    ∃ as x, run ((starParams 5).step (star 9).graph) (fun _ => [], (starParams 5).init) as =
      some x ∧ (starParams 5).finished x.2 = true ∧ FixedPoint (starParams 5) (star 9) 0 5 x.2 := by
  obtain ⟨hruns, hends⟩ := beam_search_fixed_point (starParams 5) (star 9) 0
    (starParams_query 5 9 (by decide)) (.inr rfl) fun _ => []
  obtain ⟨-, as, x, hrun, hfin⟩ := hends (by decide) (by decide)
  exact ⟨as, x, hrun, hfin, (hruns as x hrun).2.1 hfin⟩

/-- A search that ends with room for more nodes than a star has has expanded them all. -/
theorem star_le_maxNCmps {l n : ℕ} (hl : n + 1 < l) {as : List Act} {x : Scratch × Loop ℕ}
    (hrun : run ((starParams l).step (star n).graph) (q, (starParams l).init) as = some x)
    (hfin : (starParams l).finished x.2 = true) : n + 1 ≤ maxNCmps := by
  have h := starParams_query l n (Nat.one_le_of_lt hl)
  have hx := h.greedy (.inr rfl) hrun
  have hfix := hx.fixedPoint h.mode hfin
  have hcard : (star n).nodes.card = n + 1 := Finset.card_range _
  have hlength := hx.pool_le
  have hall : ∀ z ∈ x.2.visited, z ∈ x.2.expanded := by
    intro z hz
    by_cases hpool : z ∈ x.2.retset.map fun c => c.id
    · obtain ⟨c, hc, rfl⟩ := List.mem_map.mp hpool
      exact hfix.expanded c hc
    · have hfull : _ = l := (hx.nearest.far z hz hpool).1
      rw [List.length_map] at hfull
      omega
  have hzero : 0 ∈ x.2.expanded := hall 0 ((hfix.discovered 0).mpr (.inl rfl))
  have hsub : List.range (n + 1) ⊆ x.2.expanded := by
    intro z hz
    apply hall
    apply (hfix.discovered z).mpr
    exact .inr ⟨0, hzero, hz⟩
  have hle := (List.nodup_range.subperm hsub).length_le
  rw [List.length_range] at hle
  exact hle.trans (hx.room.trans_eq (Nat.div_one maxNCmps))

theorem beam_search_star_never_ends :
    ¬ ∃ as x, run ((starParams 20000).step (star 16384).graph)
      (fun _ => [], (starParams 20000).init) as = some x ∧
        (starParams 20000).finished x.2 = true := by
  rintro ⟨as, x, hrun, hfin⟩
  have hle := star_le_maxNCmps (by decide) hrun hfin
  rw [maxNCmps] at hle
  omega

end Star

end Ccann.Search
