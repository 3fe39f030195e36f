import Ccann.Search.FixedPoint
import Ccann.Search.Pipe

/-! The loop of `do_para_search` hands the neighbours of a node to workers, and they come back to the
pool at any time later. What was offered to the pool so far is what was discovered except for the ids
that the workers still have. The pool has the nearest of the offered ids at any time; where the loop ends,
the workers have none, and the pool is a fixed point as in the other searches. A search that is about to
stop expands nodes without their neighbours. Then the pool can run dry, but never has fewer candidates to
expand, together with those that were expanded, than at any time before. -/

namespace Ccann.Search

open Concurrent Pools Nodes List Option

variable {F : Type*}

def Loop.pending (s : Loop F) : List ℕ :=
  s.onFlightComps.flatMap Prod.fst

/-- How many nodes are expanded if nothing else is found. -/
def Loop.prospect (s : Loop F) : ℕ :=
  s.expanded.length + s.retset.countP fun c => !c.visited

theorem takeFinished_ids (cs : List (List ℕ × Bool)) :
    (takeFinished cs).1.flatten ++ (takeFinished cs).2.flatMap Prod.fst = cs.flatMap Prod.fst := by
  conv_rhs => rw [← takeFinished_append cs, flatMap_append, flatMap_map]
  rw [flatMap_id']

theorem flatMap_set_finished {cs : List (List ℕ × Bool)} {i : ℕ} {ids : List ℕ} {b : Bool}
    (h : cs[i]? = some (ids, b)) :
    (cs.set i (ids, true)).flatMap Prod.fst = cs.flatMap Prod.fst := by
  induction cs generalizing i with
  | nil => rfl
  | cons c cs ih =>
    cases i with
    | zero =>
      cases h
      rfl
    | succ i =>
      rw [set_cons_succ, flatMap_cons, flatMap_cons, ih h]

section Invariant

variable [LinearOrder F] {P : Params F} {N : Net} {m : ℕ} {q : Scratch} {seen : List ℕ}
  {s t : Loop F} {pool : List (Cand F)} {id v : ℕ} {q' : Scratch} {a : ParaAct} {r : Record}

/-- What holds of a para search at any time. `seen` are the ids that were offered to the pool. -/
structure Spread (P : Params F) (seen : List ℕ) (s : Loop F) : Prop where
  bound : s.lSearch = P.lSearch
  pooled : Pooled P seen s.retset
  nearest : Nearest P.pqDist₀ P.lSearch seen (s.retset.map fun c => c.id)
  found : ∀ z, z ∈ s.visited ↔ z ∈ seen ∨ z ∈ s.pending
  pending_nodup : s.pending.Nodup
  unseen : ∀ z ∈ s.pending, z ∉ seen
  expanded_nodup : s.expanded.Nodup
  expanded_subset : s.expanded ⊆ seen
  marks : s.earlyStop = false → ∀ c ∈ s.retset, c.visited = true ↔ c.id ∈ s.expanded

/-- The discovered ids are the entry and the neighbours of expanded nodes. -/
def Discovered (N : Net) (m : ℕ) (s : Loop F) : Prop :=
  ∀ z, z ∈ s.visited ↔ z = m ∨ ∃ x ∈ s.expanded, z ∈ N.nhood x

theorem Spread.init (hl : 1 ≤ P.lSearch)
    (hentry : P.entries = [(m, P.pqDist₀ m)]) : Spread P [m] P.init ∧ Discovered N m P.init := by
  rw [init_of_entry hentry]
  refine ⟨⟨rfl, pooled_fresh P m, nearest_singleton hl m, ?_, nodup_nil, ?_, nodup_nil,
    nil_subset _, ?_⟩, ?_⟩
  · intro z
    simp [Loop.pending]
  · intro z hz
    exact absurd hz not_mem_nil
  · intro _ c hc
    rw [mem_singleton.mp hc]
    simp [Params.fresh, Loop.expanded]
  · intro z
    simp [Loop.expanded]

/-- The pool once its first candidate that is not visited is. -/
theorem Spread.visit (h : Spread P seen s) (hstop : s.earlyStop = false)
    (hvisit : visitFirst (fun _ => true) (fun c => { c with visited := true }) s.retset =
      some (id, pool)) :
    Spread P seen { s with retset := pool, found := (P.copyCoords id r q s.found).2 } ∧
      id ∉ s.expanded ∧
      ({ s with retset := pool, found := (P.copyCoords id r q s.found).2 } : Loop F).prospect =
        s.prospect := by
  obtain ⟨pre, c, post, hret, hpool, rfl, hvisited, -, -⟩ := visitFirst_cases hvisit
  have hc : c ∈ s.retset := by simp [hret]
  have hids : pool.map (fun d => d.id) = s.retset.map fun d => d.id := by
    rw [hret, hpool, map_append, map_append]
    rfl
  have hexp : ({ s with retset := pool, found := (P.copyCoords c.id r q s.found).2 } :
      Loop F).expanded = s.expanded ++ [c.id] := Loop.expanded_of_found (q := q) rfl
  have hnot : c.id ∉ s.expanded := fun hmem => by
    rw [(h.marks hstop c hc).mpr hmem] at hvisited
    cases hvisited
  have hold : ∀ d ∈ pre ++ post, d ∈ s.retset := by
    intro d hd
    rw [hret]
    exact mem_place.mpr (.inr hd)
  refine ⟨⟨h.bound, h.pooled.of_neighbors ?_, ?_, h.found, h.pending_nodup, h.unseen, ?_, ?_, ?_⟩,
    hnot, ?_⟩
  · rw [hret, hpool, map_append, map_append]
    rfl
  · rw [hids]
    exact h.nearest
  · rw [hexp]
    exact (perm_append_singleton _ _).nodup_iff.mpr (nodup_cons.mpr ⟨hnot, h.expanded_nodup⟩)
  · rw [hexp]
    apply append_subset.mpr
    refine ⟨h.expanded_subset, ?_⟩
    rintro z hz
    rw [mem_singleton.mp hz]
    exact h.pooled.subset (mem_map_of_mem hc)
  · intro _ d hd
    rw [hexp, mem_append, mem_singleton]
    rw [hpool] at hd
    rcases mem_place.mp hd with rfl | hd
    · simp
    · rw [h.marks hstop d (hold d hd)]
      constructor
      · exact .inl
      · rintro (hmem | heq)
        · exact hmem
        · have hnodup := h.pooled.nodup
          rw [hret, map_append, map_cons, perm_middle.nodup_iff, nodup_cons,
            ← map_append] at hnodup
          exact absurd (List.mem_map.mpr ⟨d, hd, heq⟩) hnodup.1
  · rw [Loop.prospect, Loop.prospect, hexp, length_append, hret]
    show _ + pool.countP _ = _
    rw [hpool, countP_append, countP_append, countP_cons, countP_cons, hvisited]
    simp
    omega

theorem Spread.expand (h : Spread P seen s) (hstop : s.earlyStop = false)
    (hvisit : visitFirst (fun _ => true) (fun c => { c with visited := true }) s.retset =
      some (id, pool)) :
    Spread P seen { s with
      retset := pool
      visited := (discover (N.graph.nhood id v) s.visited).2
      found := (P.copyCoords id (N.graph.version id v) q s.found).2
      onFlightComps :=
        s.onFlightComps ++ [((discover (N.graph.nhood id v) s.visited).1, false)] } := by
  obtain ⟨hs, -, -⟩ := h.visit (q := q) (r := N.graph.version id v) hstop hvisit
  set ids := (discover (N.graph.nhood id v) s.visited).1 with hids
  obtain ⟨hnodup, hnew⟩ := discover_new (N.graph.nhood id v) s.visited
  have hpending : (s.onFlightComps ++ [(ids, false)]).flatMap Prod.fst = s.pending ++ ids := by
    rw [flatMap_append, flatMap_singleton]
    rfl
  refine ⟨hs.bound, hs.pooled, hs.nearest, ?_, ?_, ?_, hs.expanded_nodup, hs.expanded_subset,
    hs.marks⟩
  · intro z
    show z ∈ (discover (N.graph.nhood id v) s.visited).2 ↔
      z ∈ seen ∨ z ∈ (s.onFlightComps ++ [(_, _)]).flatMap Prod.fst
    rw [hpending, discover_snd, mem_append, mem_reverse, mem_append, h.found]
    tauto
  · show ((s.onFlightComps ++ [(_, _)]).flatMap Prod.fst).Nodup
    rw [hpending]
    apply nodup_append.mpr
    refine ⟨h.pending_nodup, hnodup, ?_⟩
    rintro z hz _ hw rfl
    exact hnew z hw ((h.found z).mpr (.inr hz))
  · intro z hz
    rcases mem_append.mp (hpending ▸ (show z ∈ (s.onFlightComps ++ [_]).flatMap Prod.fst from hz))
      with hz | hz
    · exact h.unseen z hz
    · exact fun hseen => hnew z hz ((h.found z).mpr (.inl hseen))

omit [LinearOrder F] in
theorem Discovered.expand (hs : Discovered N m s) :
    Discovered N m { s with
      retset := pool
      visited := (discover (N.graph.nhood id v) s.visited).2
      found := (P.copyCoords id (N.graph.version id v) q s.found).2
      onFlightComps :=
        s.onFlightComps ++ [((discover (N.graph.nhood id v) s.visited).1, false)] } := by
  intro z
  rw [Loop.expanded_of_found (P := P) (q := q) (r := N.graph.version id v) (s := s) rfl]
  show z ∈ (discover (N.nhood id) s.visited).2 ↔ _
  rw [mem_discover_snd, hs z]
  exact mem_discovered

theorem Spread.finish (h : Spread P seen s) {i : ℕ} {ids : List ℕ} {b : Bool}
    (hcomp : s.onFlightComps[i]? = some (ids, b)) :
    Spread P seen { s with onFlightComps := s.onFlightComps.set i (ids, true) } := by
  have hpending : ({ s with onFlightComps := s.onFlightComps.set i (ids, true) } : Loop F).pending =
      s.pending := flatMap_set_finished hcomp
  refine ⟨h.bound, h.pooled, h.nearest, ?_, ?_, ?_, h.expanded_nodup, h.expanded_subset, h.marks⟩
  · rw [hpending]
    exact h.found
  · rw [hpending]
    exact h.pending_nodup
  · rw [hpending]
    exact h.unseen

/-- What the workers have finished is offered to the pool. -/
theorem Spread.poll (hP : P.Ordered) (h : Spread P seen s) :
    Spread P ((takeFinished s.onFlightComps).1.flatten.reverse ++ seen)
      (P.pushNbrs (takeFinished s.onFlightComps).1.flatten
        { s with onFlightComps := (takeFinished s.onFlightComps).2 }) ∧
      s.prospect ≤ (P.pushNbrs (takeFinished s.onFlightComps).1.flatten
        { s with onFlightComps := (takeFinished s.onFlightComps).2 }).prospect := by
  have hsplit := takeFinished_ids s.onFlightComps
  generalize (takeFinished s.onFlightComps).1.flatten = ys at *
  generalize hrest : (takeFinished s.onFlightComps).2 = rest at *
  have hpending : s.pending = ys ++ rest.flatMap Prod.fst := hsplit.symm
  have hsp := h.pending_nodup
  rw [hpending] at hsp
  obtain ⟨hnodup, hrestnodup, hdisj⟩ := nodup_append.mp hsp
  have hnew : ∀ y ∈ ys, y ∉ seen := by
    intro y hy
    apply h.unseen
    rw [hpending]
    exact mem_append_left _ hy
  have hpooled := foldl_offer_pooled (l := s.lSearch) (x := (s.retset, s.nk)) hP h.pooled hnodup hnew
  have hpush := foldl_offer_pushed (l := s.lSearch) (x := (s.retset, s.nk)) hP h.pooled hnodup hnew
  have hnear := foldl_offer_nearest (x := (s.retset, s.nk)) hP h.pooled hnodup hnew h.nearest
  have hcount := (foldl_offer_rule (l := s.lSearch) hP (M := fun _ _ x =>
    s.retset.countP (fun c => !c.visited) ≤ x.1.countP fun c => !c.visited)
    (fun y _ _ _ _ _ _ _ hoff hM => hM.trans (hoff.countP_le rfl)) (x := (s.retset, s.nk)) h.pooled
    hnodup hnew (Nat.le_refl _)).2
  refine ⟨⟨h.bound, hpooled, ?_, ?_, hrestnodup, ?_, h.expanded_nodup, ?_, ?_⟩, ?_⟩
  · rw [← h.bound] at hnear ⊢
    exact hnear
  · intro z
    show z ∈ s.visited ↔ z ∈ ys.reverse ++ seen ∨ z ∈ rest.flatMap Prod.fst
    rw [h.found, hpending, mem_append, mem_append, mem_reverse]
    tauto
  · intro z hz hseen
    rcases mem_append.mp hseen with hz' | hz'
    · exact hdisj z (mem_reverse.mp hz') z hz rfl
    · refine h.unseen z ?_ hz'
      rw [hpending]
      exact mem_append_right _ hz
  · exact List.Subset.trans h.expanded_subset (subset_append_right _ _)
  · intro hstop c hc
    rcases hpush.mem c hc with hc | ⟨hfresh, hnot⟩
    · exact h.marks hstop c hc
    · constructor
      · intro hvisited
        rw [hfresh] at hvisited
        cases hvisited
      · exact fun hmem => absurd (h.expanded_subset hmem) hnot
  · exact Nat.add_le_add_left hcount _

theorem Spread.stopRest (h : Spread P seen s) (hstop : s.earlyStop = true) :
    Spread P seen { s with retset := s.retset.map fun c => { c with visited := true } } := by
  have hids : (s.retset.map fun c => { c with visited := true }).map (fun c => c.id) =
      s.retset.map fun c => c.id := by
    rw [List.map_map]
    rfl
  refine ⟨h.bound, h.pooled.of_neighbors ?_, ?_, h.found, h.pending_nodup, h.unseen,
    h.expanded_nodup, h.expanded_subset, ?_⟩
  · rw [List.map_map]
    rfl
  · rw [hids]
    exact h.nearest
  · intro hno
    have hno' : s.earlyStop = false := hno
    rw [hstop] at hno'
    cases hno'

/-- Where the workers have nothing and all candidates are visited. -/
theorem Spread.fixedPoint (h : Spread P seen s) (hdisc : Discovered N m s)
    (hstop : s.earlyStop = false) (hpending : s.pending = [])
    (hall : ∀ c ∈ s.retset, c.visited = true) : FixedPoint P N m P.lSearch s := by
  have hmem : ∀ z, z ∈ s.visited ↔ z ∈ seen := by
    intro z
    rw [h.found, hpending]
    simp
  refine ⟨h.expanded_nodup, h.pooled.sorted, h.pooled.nodup, ?_, hdisc, ?_⟩
  · intro c hc
    exact (h.marks hstop c hc).mp (hall c hc)
  · refine ⟨h.nearest.sorted, h.nearest.nodup, ?_, h.nearest.length_le, ?_⟩
    · intro z hz
      exact (hmem z).mpr (h.nearest.subset hz)
    · intro z hz
      exact h.nearest.far z ((hmem z).mp hz)

/-- A search that is about to stop reads a node and does not look at its neighbours. -/
theorem Spread.likely (h : Spread P seen s) (hstop : s.earlyStop = false) {early : Bool}
    (hvisit : visitFirst (fun _ => true) (fun c => { c with visited := true }) s.retset =
      some (id, pool)) :
    Spread P seen { s with
      retset := pool
      found := (P.copyCoords id r q s.found).2
      earlyStop := early } := by
  obtain ⟨hs, -, -⟩ := h.visit (q := q) (r := r) hstop hvisit
  exact ⟨hs.bound, hs.pooled, hs.nearest, hs.found, hs.pending_nodup, hs.unseen, hs.expanded_nodup,
    hs.expanded_subset, fun _ => hs.marks hstop⟩

theorem Spread.move (hP : P.Ordered) (h : Spread P seen s)
    (hmove : ParaMove P N.graph q s a (q', t)) : ∃ seen', Spread P seen' t := by
  cases hmove with
  | expand hstop hvisit => exact ⟨_, h.expand hstop hvisit⟩
  | likely hstop hvisit => exact ⟨_, h.likely hstop hvisit⟩
  | finish hcomp => exact ⟨_, h.finish hcomp⟩
  | poll => exact ⟨_, (h.poll hP).1⟩
  | stopRest hstop => exact ⟨_, h.stopRest hstop⟩

/-- Only nodes of the graph are discovered. -/
theorem Spread.nodes (h : Spread P seen s) (hmove : ParaMove P N.graph q s a (q', t))
    (hnodes : ∀ z ∈ s.visited, z ∈ N.nodes) : ∀ z ∈ t.visited, z ∈ N.nodes := by
  cases hmove with
  | @expand id v pool hstop hvisit =>
    intro z hz
    have hid : id ∈ N.nodes := by
      apply hnodes
      apply (h.found id).mpr
      exact .inl (h.pooled.subset (visitFirst_spec hvisit fun _ => rfl).1)
    rcases mem_discover_snd.mp hz with hz | hz
    · exact N.closed id hid z hz
    · exact hnodes z hz
  | likely | finish | poll | stopRest => exact hnodes

theorem Spread.prospect_le (hP : P.Ordered) (h : Spread P seen s) (hstop : s.earlyStop = false)
    (hmove : ParaMove P N.graph q s a (q', t)) : s.prospect ≤ t.prospect := by
  cases hmove with
  | @expand id v _ _ hvisit | @likely id v _ _ _ hvisit =>
    exact (h.visit (q := q) (r := N.graph.version id v) hstop hvisit).2.2.ge
  | finish => exact Nat.le_refl _
  | poll => exact (h.poll hP).2
  | stopRest hstop' => cases hstop.symm.trans hstop'

omit [LinearOrder F] in
theorem Discovered.move (hs : Discovered N m s) (hno : ∀ v stop, a = .calcBest v stop → stop = .no)
    (hmove : ParaMove P N.graph q s a (q', t)) : Discovered N m t := by
  cases hmove with
  | expand => exact hs.expand
  | likely _ _ hstop => exact absurd (hno _ _ rfl) hstop
  | finish | poll | stopRest => exact hs

omit [LinearOrder F] in
/-- The search is to stop early only if the rule says so. -/
theorem ParaMove.early (hmove : ParaMove P N.graph q s a (q', t)) (hs : s.earlyStop = false)
    (ht : t.earlyStop = true) :
    ∃ v, a = .calcBest v .early ∧ t.expanded.length = s.expanded.length + 1 := by
  cases hmove with
  | @likely id v pool stop =>
    cases of_decide_eq_true ht
    refine ⟨v, rfl, ?_⟩
    simp [Loop.expanded, Params.copyCoords]
  | expand | finish | poll => cases hs.symm.trans ht
  | stopRest hstop => cases hs.symm.trans hstop

omit [LinearOrder F] in
theorem ParaMove.earlyStop (hmove : ParaMove P N.graph q s (.calcBest v .early) (q', t)) :
    t.earlyStop = true := by
  cases hmove
  rfl

omit [LinearOrder F] in
theorem ParaMove.stopped (hmove : ParaMove P N.graph q s a (q', t)) (hs : s.earlyStop = true) :
    t.earlyStop = true ∧ t.expanded = s.expanded := by
  cases hmove with
  | expand hstop | likely hstop => cases hstop.symm.trans hs
  | finish | poll | stopRest => exact ⟨hs, rfl⟩

end Invariant

end Ccann.Search
