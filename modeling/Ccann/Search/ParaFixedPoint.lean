import Ccann.Search.ParaRing

/-! Para search without early stops. Each read is followed by a task, so sectors and slots are used in the
same order, and a sector is free where its slot is. Then the search is the one without buffers at every
step, and it is at a fixed point of the greedy search where it ends. All of this needs an index on
persistent memory and lists that fit into a slot: below are a search that does not wait for a read, and
one whose distances run over into the next slot. -/

namespace Ccann.Search

open Concurrent Pools Nodes List

variable {F : Type*}

/-- A para search that its buffers have room for. -/
structure ParaQuery [LinearOrder F] (P : ParaParams F) (N : Net) (m : ℕ) : Prop where
  ordered : P.Ordered
  mode : P.mode = .para
  length : 1 ≤ P.lSearch
  width : P.beamWidth ≤ maxNComputes
  entry : P.entries = [(m, P.pqDist₀ m)]
  node : m ∈ N.nodes
  degree : ∀ z ∈ N.nodes, (N.nhood z).length ≤ distRoom
  onPm : P.onPm = true

section Invariant

variable [LinearOrder F] {P : ParaParams F} {N : Net} {m : ℕ} {q q' : Scratch} {x y : ParaRing F}
  {a : RingParaAct} {g : Graph}

/-- What holds at any time, whatever the rule for early stops says. -/
structure Searching (P : ParaParams F) (N : Net) (x : ParaRing F) : Prop where
  slotted : Slotted P x
  spread : ∃ seen, Spread P.toParams seen x.abs
  nodes : ∀ z ∈ x.abs.visited, z ∈ N.nodes

theorem Searching.init (h : ParaQuery P N m) (sector : ℕ → Record) (dist : ℕ → F)
    (finished : ℕ → Bool) :
    Searching P N (P.initRing sector dist finished) ∧
      Discovered N m (P.initRing sector dist finished).abs := by
  obtain ⟨hspread, hdisc⟩ := Spread.init (N := N) h.length h.entry
  refine ⟨⟨Slotted.init sector dist finished, ⟨_, hspread⟩, ?_⟩, hdisc⟩
  intro z hz
  rcases (hdisc z).mp hz with rfl | ⟨_, hmem, -⟩
  · exact h.node
  · cases hmem

theorem Searching.step (h : ParaQuery P N m) (hx : Searching P N x)
    (hfree : ∀ v, a = .calcBest v → x.Free)
    (hstep : paraRingStep P N.graph (q, x) a = some (q', y)) :
    Searching P N y ∧ (y.abs = x.abs ∨
      ∃ b, paraStep P.toParams N.graph (q, x.abs) b = some (q', y.abs) ∧
        ∀ v stop, b = .calcBest v stop → a = .calcBest v ∧ stop = x.verdict P N.graph v) := by
  obtain ⟨seen, hspread⟩ := hx.spread
  have hdeg : ∀ c ∈ x.loop.retset, ∀ v, (N.graph.nhood c.id v).length ≤ distRoom := by
    intro c hc v
    apply h.degree
    apply hx.nodes
    apply (hspread.found _).mpr
    exact .inl (hspread.pooled.subset (mem_map_of_mem hc))
  obtain ⟨hslotted, ⟨-, habs⟩ | ⟨b, hb, hverdict⟩⟩ :=
    hx.slotted.step h.onPm h.width hfree hdeg hstep
  · refine ⟨⟨hslotted, ?_, ?_⟩, .inl habs⟩
    · rw [habs]
      exact ⟨seen, hspread⟩
    · rw [habs]
      exact hx.nodes
  · have hmove := para_move hb
    exact ⟨⟨hslotted, hspread.move h.ordered hmove, hspread.nodes hmove hx.nodes⟩,
      .inr ⟨b, hb, hverdict⟩⟩

/-- Where the search ends nothing is in flight. -/
theorem Searching.idle (hx : Searching P N x) (hend : x.ended = true) :
    (∀ c ∈ x.loop.retset, c.visited = true) ∧ x.comps = [] ∧ x.running = [] ∧ x.results = [] := by
  rw [ParaRing.ended, Bool.and_eq_true, all_eq_true, List.isEmpty_iff] at hend
  obtain ⟨hall, hcomps⟩ := hend
  have hnone : ∀ t, t ∉ x.comps := by
    rw [hcomps]
    exact fun t => not_mem_nil
  refine ⟨hall, hcomps, ?_, ?_⟩
  · apply eq_nil_iff_forall_not_mem.mpr
    intro t ht
    exact hnone t (hx.slotted.running t ht).1
  · apply eq_nil_iff_forall_not_mem.mpr
    intro slot hmem
    obtain ⟨t, ht, -⟩ := hx.slotted.results slot hmem
    exact hnone t ht

/-- What holds in addition if there are no early stops: the sector of a task has the number of its slot. -/
structure Steady (P : ParaParams F) (N : Net) (m : ℕ) (x : ParaRing F) : Prop
    extends Searching P N x where
  next : x.sectorIdx = x.compIdx
  aligned : ∀ t ∈ x.comps, t.sector = t.slot
  discovered : Discovered N m x.abs
  onward : x.abs.earlyStop = false

omit [LinearOrder F] in
theorem verdict_of_exit_none (hexit : P.exit = none) (v : ℕ) : x.verdict P g v = .no := by
  unfold ParaRing.verdict ParaRing.judge
  rw [hexit]
  split <;> rfl

theorem Steady.free (hx : Steady P N m x) (hlt : x.comps.length < maxNComputes) : x.Free := by
  intro t ht
  rw [hx.aligned t ht, hx.next]
  exact hx.slotted.compIdx_ne hlt ht

omit [LinearOrder F] in
theorem aligned_step (hexit : P.exit = none) (hw : P.beamWidth ≤ maxNComputes)
    (hnext : x.sectorIdx = x.compIdx) (haligned : ∀ t ∈ x.comps, t.sector = t.slot)
    (hstep : paraRingStep P g (q, x) a = some (q', y)) :
    y.sectorIdx = y.compIdx ∧ ∀ t ∈ y.comps, t.sector = t.slot := by
  cases a with
  | calcBest v =>
    obtain ⟨-, -, id, pool, -, -, rfl⟩ := calcBest_cases hw hstep
    simp only [ParaRing.expand, ParaRing.judge, hexit]
    refine ⟨by rw [hnext]; rfl, ?_⟩
    intro t ht
    rcases mem_append.mp ht with ht | ht
    · exact haligned t ht
    · rw [mem_singleton.mp ht]
      exact hnext
  | look =>
    cases hstep
    exact ⟨hnext, haligned⟩
  | land i =>
    obtain ⟨r, -, heq⟩ := Option.map_eq_some_iff.mp hstep
    cases heq
    exact ⟨hnext, haligned⟩
  | compute i =>
    obtain ⟨t, -, heq⟩ := Option.map_eq_some_iff.mp hstep
    cases heq
    exact ⟨hnext, haligned⟩
  | see i =>
    obtain ⟨slot, -, heq⟩ := Option.map_eq_some_iff.mp hstep
    cases heq
    exact ⟨hnext, haligned⟩
  | poll =>
    cases hstep
    exact ⟨hnext, fun t ht => haligned t ((dropWhile_sublist _).subset ht)⟩
  | stopRest =>
    simp only [paraRingStep, Option.ite_none_right_eq_some, Option.some.injEq] at hstep
    cases hstep.2
    exact ⟨hnext, haligned⟩

theorem Steady.free_of_step (h : ParaQuery P N m) (hx : Steady P N m x)
    (hstep : paraRingStep P N.graph (q, x) a = some (q', y)) (v : ℕ) (ha : a = .calcBest v) :
    x.Free := by
  subst ha
  exact hx.free (calcBest_cases h.width hstep).2.1

theorem Steady.step (h : ParaQuery P N m) (hexit : P.exit = none) (hx : Steady P N m x)
    (hstep : paraRingStep P N.graph (q, x) a = some (q', y)) : Steady P N m y := by
  obtain ⟨hnext, haligned⟩ := aligned_step hexit h.width hx.next hx.aligned hstep
  obtain ⟨hy, habs | ⟨b, hb, hverdict⟩⟩ :=
    hx.toSearching.step h (hx.free_of_step h hstep) hstep
  · refine ⟨hy, hnext, haligned, ?_, ?_⟩
    · rw [habs]
      exact hx.discovered
    · rw [habs]
      exact hx.onward
  · have hno : ∀ v stop, b = .calcBest v stop → stop = .no := by
      intro v stop heq
      rw [(hverdict v stop heq).2]
      exact verdict_of_exit_none hexit v
    refine ⟨hy, hnext, haligned, hx.discovered.move hno (para_move hb), ?_⟩
    apply Bool.eq_false_iff.mpr
    intro hearly
    obtain ⟨v, heq, -⟩ := (para_move hb).early hx.onward hearly
    cases hno v _ heq

end Invariant

/-- Where a para search without early stops ends, nothing is in flight and the pool is a fixed point of
the greedy search. No step writes to the sector of a task that is still in the queue, or hands its slot to
another task, and only the worker of the task writes to the slot. -/
theorem para_search_fixed_point [LinearOrder F] (P : ParaParams F) (N : Net) (m : ℕ)
    (h : ParaQuery P N m) (hexit : P.exit = none) (q : Scratch) (sector : ℕ → Record)
    (dist : ℕ → F) (finished : ℕ → Bool) (as : List RingParaAct) (x : Scratch × ParaRing F)
    (hrun : run (paraRingStep P N.graph) (q, P.initRing sector dist finished) as = some x) :
    (x.2.ended = true → FixedPoint P.toParams N m P.lSearch x.2.loop ∧
      x.2.comps = [] ∧ x.2.running = [] ∧ x.2.results = []) ∧
    ∀ a y, paraRingStep P N.graph x a = some y → ∀ t ∈ x.2.comps, Intact x.2 y.2 t := by
  have hx : Steady P N m x.2 := by
    refine run_invariant (I := fun x : Scratch × ParaRing F => Steady P N m x.2)
      (fun x a y hx hstep => hx.step h hexit hstep) ?_ hrun
    obtain ⟨hsearch, hdisc⟩ := Searching.init h sector dist finished
    exact ⟨hsearch, rfl, fun t ht => absurd ht not_mem_nil, hdisc, rfl⟩
  constructor
  · intro hend
    obtain ⟨hall, hcomps, hrunning, hresults⟩ := hx.idle hend
    obtain ⟨seen, hspread⟩ := hx.spread
    have hpending : x.2.abs.pending = [] := by
      show (x.2.comps.map _).flatMap _ = []
      rw [hcomps]
      rfl
    have hfix := hspread.fixedPoint hx.discovered hx.onward hpending hall
    exact ⟨⟨hfix.once, hfix.sorted, hfix.distinct, hfix.expanded, hfix.discovered, hfix.nearest⟩,
      hcomps, hrunning, hresults⟩
  · intro a y hstep t ht
    exact hx.slotted.intact h.onPm h.width (hx.free_of_step h hstep) hstep ht

section Runs

def paraParams (onPm : Bool) : ParaParams ℕ where
  toParams := { starParams 5 with mode := .para }
  exit := none
  kSearch := 1
  onPm := onPm

def paraStart (onPm : Bool) : Scratch × ParaRing ℕ :=
  (fun _ => [], (paraParams onPm).initRing (fun _ => ⟨[], []⟩) (fun _ => 0) fun _ => false)

def outOfOrder : List RingParaAct :=
  [.calcBest 0, .compute 0, .see 0, .poll, .calcBest 0, .calcBest 0, .compute 1, .see 0, .poll,
    .compute 0, .see 0, .poll]

theorem para_search_star_ends :
    ∃ x, run (paraRingStep (paraParams true) (star 2).graph) (paraStart true) outOfOrder = some x ∧
      x.2.ended = true ∧ FixedPoint (paraParams true).toParams (star 2) 0 5 x.2.loop := by
  refine exists_some_imp (P := fun x => x.2.ended = true) (by decide +kernel)
    fun x hrun hend => ⟨hend, ?_⟩
  have hquery : ParaQuery (paraParams true) (star 2) 0 :=
    ⟨ordered_of_natParams rfl, rfl, by decide, by decide, rfl, by decide, by decide, rfl⟩
  exact ((para_search_fixed_point (paraParams true) (star 2) 0 hquery rfl _ _ _ _ _ x hrun).1 hend).1

def broad (ys : List ℕ) : Graph where
  coords i := [i]
  nhood i _ := if i = 0 then [1, 2] else if i = 1 then ys else if i = 2 then [600] else []

theorem discover_of_new {ys visited : List ℕ} (hnodup : ys.Nodup)
    (hnew : ∀ y ∈ ys, y ∉ visited) : discover ys visited = (ys, ys.reverse ++ visited) := by
  induction ys generalizing visited with
  | nil => rfl
  | cons y ys ih =>
    obtain ⟨hy, hnodup⟩ := nodup_cons.mp hnodup
    have hrest : ∀ z ∈ ys, z ∉ y :: visited := by
      intro z hz hmem
      rcases mem_cons.mp hmem with rfl | hmem
      · exact hy hz
      · exact hnew z (mem_cons_of_mem _ hz) hmem
    rw [discover, if_neg (hnew y mem_cons_self), ih hnodup hrest, reverse_cons,
      append_assoc]
    rfl

/-- Nodes 1 and 2 are expanded next. The worker of node 2 is the first to finish, and that of node 1
writes one distance too many. -/
theorem dists_overwritten {ys : List ℕ} (hnodup : ys.Nodup) (hnew : ∀ y ∈ ys, y ∉ [2, 1, 0])
    (hlast : 600 ∉ ys) (hlen : ys.length = 513) {x : Scratch × ParaRing ℕ}
    (hret : x.2.loop.retset =
      [⟨⟨0, 0⟩, true, true⟩, ⟨⟨1, 1⟩, true, false⟩, ⟨⟨2, 2⟩, true, false⟩])
    (hvisited : x.2.loop.visited = [2, 1, 0]) (hstop : x.2.loop.earlyStop = false)
    (hcomps : x.2.comps = []) (hrunning : x.2.running = []) (hsector : x.2.sectorIdx = 1)
    (hcomp : x.2.compIdx = 1) :
    ∃ y z, run (paraRingStep (paraParams true) (broad ys)) x
        [.calcBest 0, .calcBest 0, .compute 1] = some y ∧
      paraRingStep (paraParams true) (broad ys) y (.compute 0) = some z ∧
      ∃ t ∈ y.2.comps, t ∉ y.2.running ∧ z.2.dists t ≠ y.2.dists t := by
  have hfirst := discover_of_new hnodup hnew
  have hsecond : discover [600] (ys.reverse ++ [2, 1, 0]) =
      ([600], 600 :: (ys.reverse ++ [2, 1, 0])) := by
    apply discover_of_new (nodup_singleton _)
    intro y hy
    rw [mem_singleton.mp hy]
    simpa using hlast
  have hover : ys[512] ≠ 600 := fun heq => hlast (heq ▸ getElem_mem _)
  simpa [run, paraRingStep, ParaRing.expand, ParaRing.judge, ParaRing.recordOf, visitFirst, paraParams,
    starParams, Params.maxWidth, broad, Graph.version, hret, hvisited, hstop, hcomps, hrunning,
    hsector, hcomp, hfirst, hsecond, hlen, maxNSectorReads, maxNComputes, ParaRing.dists,
    ParaRing.compute, distRoom, compactNbrs] using hover

/-- More neighbours than a slot has room for. -/
def tooMany : List ℕ :=
  (range 513).map (· + 3)

/-- On a device that is not persistent memory, the record of a node comes too late: it overwrites the
sector of a task in the queue, and the neighbours of the node are never discovered. On persistent memory,
the 513th distance of a task overwrites the first one of the next task. -/
theorem para_search_buffers_overwritten :
    (∃ x y z, run (paraRingStep (paraParams false) (star 1).graph) (paraStart false)
        [.calcBest 0] = some x ∧
      paraRingStep (paraParams false) (star 1).graph x (.land 0) = some y ∧
      (∃ t ∈ x.2.comps, y.2.sector t.sector ≠ x.2.sector t.sector) ∧
      run (paraRingStep (paraParams false) (star 1).graph) y [.compute 0, .see 0, .poll] = some z ∧
      z.2.ended = true ∧ 0 ∈ z.2.loop.expanded ∧ 1 ∈ (star 1).nhood 0 ∧ 1 ∉ z.2.loop.visited) ∧
    ∃ x y, run (paraRingStep (paraParams true) (broad tooMany)) (paraStart true)
        [.calcBest 0, .compute 0, .see 0, .poll, .calcBest 0, .calcBest 0, .compute 1] = some x ∧
      paraRingStep (paraParams true) (broad tooMany) x (.compute 0) = some y ∧
      ∃ t ∈ x.2.comps, t ∉ x.2.running ∧ y.2.dists t ≠ x.2.dists t := by
  constructor
  · obtain ⟨x, hx, y, hy, ht, z, hz⟩ : ∃ x, run (paraRingStep (paraParams false) (star 1).graph)
        (paraStart false) [.calcBest 0] = some x ∧
        ∃ y, paraRingStep (paraParams false) (star 1).graph x (.land 0) = some y ∧
          (∃ t ∈ x.2.comps, y.2.sector t.sector ≠ x.2.sector t.sector) ∧
          ∃ z, run (paraRingStep (paraParams false) (star 1).graph) y [.compute 0, .see 0, .poll] =
            some z ∧ z.2.ended = true ∧ 0 ∈ z.2.loop.expanded ∧ 1 ∈ (star 1).nhood 0 ∧
              1 ∉ z.2.loop.visited := by
      decide +kernel
    exact ⟨x, y, z, hx, hy, ht, hz⟩
  · obtain ⟨x, hrun, hret, hvisited, hstop, hcomps, hrunning, hsector, hcomp⟩ :
        ∃ x, run (paraRingStep (paraParams true) (broad tooMany)) (paraStart true)
          [.calcBest 0, .compute 0, .see 0, .poll] = some x ∧ x.2.loop.retset =
            [⟨⟨0, 0⟩, true, true⟩, ⟨⟨1, 1⟩, true, false⟩, ⟨⟨2, 2⟩, true, false⟩] ∧
          x.2.loop.visited = [2, 1, 0] ∧ x.2.loop.earlyStop = false ∧ x.2.comps = [] ∧
          x.2.running = [] ∧ x.2.sectorIdx = 1 ∧ x.2.compIdx = 1 := by
      decide +kernel
    have hnodup : tooMany.Nodup := nodup_range.map fun a b h => Nat.add_right_cancel h
    obtain ⟨y, z, hy, hz⟩ := dists_overwritten hnodup (by simp [tooMany]) (by simp [tooMany])
      (by simp [tooMany]) hret hvisited hstop hcomps hrunning hsector hcomp
    refine ⟨y, z, ?_, hz⟩
    rw [show [RingParaAct.calcBest 0, .compute 0, .see 0, .poll, .calcBest 0, .calcBest 0, .compute 1] =
      [.calcBest 0, .compute 0, .see 0, .poll] ++ [.calcBest 0, .calcBest 0, .compute 1] from rfl,
      run_append, hrun, Option.bind_some]
    exact hy

end Runs

end Ccann.Search
