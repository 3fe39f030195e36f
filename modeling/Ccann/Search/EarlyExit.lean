import Ccann.Search.ParaFixedPoint
import Ccann.Search.Deleted
import Ccann.Search.Links
import Ccann.Lists.Traversals

/-! Para search with early stops, which compares medians of the last exact distances. Once the medians are
stable the search stops if it has expanded more than `k_search` nodes. If it has not, it expands the next
candidate without its neighbours and goes on ("wait for retset to be full"). But nothing fills the pool
then: the number of expanded nodes together with the candidates to be expanded stays what it is until
computations in flight bring new ones. So the search has `k_search` results if that number is large enough
whenever the rule says so. Below is a chain of nodes at equal distance where it is not. -/

namespace Ccann.Search

open Concurrent Pools Nodes Traversals List Option

variable {F : Type*}

section Results

/-- The loop of `para_search`: the first `k` results, where an id that follows itself is left out. -/
def copyResults : ℕ → Option ℕ → List (Merge.Neighbor F) → List (Merge.Neighbor F)
  | 0, _, _ => []
  | _, _, [] => []
  | k + 1, last, n :: ns =>
    if last = some n.id then copyResults (k + 1) (some n.id) ns
    else n :: copyResults k (some n.id) ns

/-- The results of `para_search`, of which it returns the tags and the distances. -/
def ParaParams.results (P : ParaParams F) (f : Found F) : List (Merge.Neighbor F) :=
  copyResults P.kSearch none ((P.sortNeighbors f.full).take P.lSearch)

def ParaParams.paraSearch (P : ParaParams F) (f : Found F) : List (ℕ × F) :=
  (P.results f).map fun n => (P.id2tag n.id, n.distance)

theorem copyResults_of_nodup (k : ℕ) {last : Option ℕ} {ns : List (Merge.Neighbor F)}
    (hlast : ∀ n ∈ ns, last ≠ some n.id) (hnodup : (ns.map Merge.Neighbor.id).Nodup) :
    copyResults k last ns = ns.take k := by
  induction ns generalizing k last with
  | nil => cases k <;> rfl
  | cons n ns ih =>
    cases k with
    | zero => rfl
    | succ k =>
      obtain ⟨hn, hnodup⟩ := nodup_cons.mp hnodup
      rw [copyResults, if_neg (hlast n mem_cons_self), take_succ_cons, ih k _ hnodup]
      intro y hy heq
      exact hn (mem_map.mpr ⟨y, hy, (some.inj heq).symm⟩)

/-- If no node was expanded twice, there are as many results as were asked for. -/
theorem results_of_nodup {P : ParaParams F} {f : Found F} (hkl : P.kSearch ≤ P.lSearch)
    (hnodup : (f.full.map Merge.Neighbor.id).Nodup) (hk : P.kSearch ≤ f.full.length) :
    (P.results f).length = P.kSearch ∧ ((P.results f).map Merge.Neighbor.id).Nodup := by
  have hperm : (P.sortNeighbors f.full).Perm f.full := perm_insertionSort _ _
  have hsorted : ((P.sortNeighbors f.full).map Merge.Neighbor.id).Nodup :=
    (hperm.map _).nodup_iff.mpr hnodup
  have htake : (((P.sortNeighbors f.full).take P.lSearch).map Merge.Neighbor.id).Nodup :=
    hsorted.sublist ((take_sublist _ _).map _)
  have hres : P.results f = ((P.sortNeighbors f.full).take P.lSearch).take P.kSearch := by
    apply copyResults_of_nodup _ _ htake
    intro n _ h
    cases h
  rw [hres]
  refine ⟨?_, htake.sublist ((take_sublist _ _).map _)⟩
  rw [length_take, length_take, hperm.length_eq]
  omega

end Results

section Reach

variable [LinearOrder F] {P : Params F} {N : Net} {m l k : ℕ} {s : Loop F}

/-- A search that ends at a fixed point has expanded `l` nodes, or all that can be reached. -/
theorem FixedPoint.le_expanded (h : FixedPoint P N m l s) (hkl : k ≤ l) {ids : Finset ℕ}
    (hk : k ≤ ids.card) (hids : ∀ z ∈ ids, Relation.ReflTransGen N.graph.Link m z) :
    k ≤ s.expanded.length := by
  have hpool : (s.retset.map fun c => c.id) ⊆ s.expanded := by
    intro z hz
    obtain ⟨c, hc, rfl⟩ := mem_map.mp hz
    exact h.expanded c hc
  rcases Nat.lt_or_ge (s.retset.map fun c => c.id).length l with hlt | hge
  · have hall : ∀ z ∈ s.visited, z ∈ s.expanded := by
      intro z hz
      by_contra hnot
      have hfull := (h.nearest.far z hz fun hmem => hnot (hpool hmem)).1
      omega
    have hreach : ∀ z, Relation.ReflTransGen N.graph.Link m z → z ∈ s.expanded := by
      intro z hz
      induction hz with
      | refl => exact hall m ((h.discovered m).mpr (.inl rfl))
      | tail _ hlink ih =>
        obtain ⟨_, hmem⟩ := hlink
        exact hall _ ((h.discovered _).mpr (.inr ⟨_, ih, hmem⟩))
    have hsub : ids ⊆ s.expanded.toFinset := by
      intro z hz
      exact mem_toFinset.mpr (hreach z (hids z hz))
    exact hk.trans ((Finset.card_le_card hsub).trans (toFinset_card_le _))
  · have hle := (h.distinct.subperm hpool).length_le
    omega

end Reach

variable {P : ParaParams F} {N : Net} {m : ℕ} {q q' : Scratch} {x y : ParaRing F} {a : RingParaAct}

section Invariant

variable [LinearOrder F]

/-- A candidate is expanded where its sector is free. If the rule says that the search is about to stop,
there are enough candidates. -/
def Ample (P : ParaParams F) (g : Graph) (x : Scratch × ParaRing F) (a : RingParaAct) : Prop :=
  ∀ v, a = .calcBest v →
    x.2.Free ∧ (x.2.verdict P g v = .likely → P.kSearch ≤ x.2.loop.prospect)

instance (g : Graph) (x : Scratch × ParaRing F) (a : RingParaAct) : Decidable (Ample P g x a) :=
  match a with
  | .calcBest v =>
    decidable_of_iff ((∀ t ∈ x.2.comps, t.sector ≠ x.2.sectorIdx) ∧
        (x.2.verdict P g v = .likely → P.kSearch ≤ x.2.loop.prospect))
      ⟨fun h w hw => by cases hw; exact h, fun h => h v rfl⟩
  | .look => isTrue fun _ h => by cases h
  | .land _ => isTrue fun _ h => by cases h
  | .compute _ => isTrue fun _ h => by cases h
  | .see _ => isTrue fun _ h => by cases h
  | .poll => isTrue fun _ h => by cases h
  | .stopRest => isTrue fun _ h => by cases h

/-- What holds in addition to `Searching` if there are always enough candidates. -/
structure Lasting (P : ParaParams F) (N : Net) (m : ℕ) (x : ParaRing F) : Prop
    extends Searching P N x where
  enough : x.abs.earlyStop = false → Discovered N m x.abs ∨ P.kSearch ≤ x.abs.prospect
  stopped : x.abs.earlyStop = true → P.kSearch < x.abs.expanded.length

omit [LinearOrder F] in
theorem judge_early {r : Record} (h : (x.judge P r).2 = .early) :
    P.kSearch < x.abs.expanded.length + 1 := by
  have hlen : x.abs.expanded.length = x.loop.found.full.length := length_map _
  rw [hlen]
  unfold ParaRing.judge Watch.judge at h
  cases hexit : P.exit with
  | none =>
    rw [hexit] at h
    cases h
  | some R =>
    simp only [hexit] at h
    split_ifs at h with h₁ h₂ h₃ h₄
    exact h₄

omit [LinearOrder F] in
theorem verdict_early {g : Graph} {v : ℕ} (h : x.verdict P g v = .early) :
    P.kSearch < x.abs.expanded.length + 1 := by
  unfold ParaRing.verdict at h
  split at h
  · cases h
  · exact judge_early h

theorem Lasting.step (h : ParaQuery P N m) (hx : Lasting P N m x) (hample : Ample P N.graph (q, x) a)
    (hstep : paraRingStep P N.graph (q, x) a = some (q', y)) : Lasting P N m y := by
  obtain ⟨hy, habs | ⟨b, hb, hverdict⟩⟩ :=
    hx.toSearching.step h (fun v ha => (hample v ha).1) hstep
  · refine ⟨hy, ?_, ?_⟩
    · rw [habs]
      exact hx.enough
    · rw [habs]
      exact hx.stopped
  obtain ⟨seen, hspread⟩ := hx.spread
  have hmove := para_move hb
  cases hstop : x.abs.earlyStop with
  | true =>
    obtain ⟨hstop', hexp⟩ := hmove.stopped hstop
    refine ⟨hy, fun hno => ?_, fun _ => ?_⟩
    · cases hno.symm.trans hstop'
    · rw [hexp]
      exact hx.stopped hstop
  | false =>
    refine ⟨hy, fun hno => ?_, fun hearly => ?_⟩
    · have hmono := hspread.prospect_le h.ordered hstop hmove
      by_cases hlikely : ∃ v, b = .calcBest v .likely
      · obtain ⟨v, rfl⟩ := hlikely
        obtain ⟨ha, hv⟩ := hverdict v _ rfl
        exact .inr (((hample v ha).2 hv.symm).trans hmono)
      · rcases hx.enough hstop with hdisc | hle
        · left
          apply hdisc.move _ hmove
          intro v stop heq
          cases stop with
          | no => rfl
          | likely => exact absurd ⟨v, heq⟩ hlikely
          | early =>
            subst heq
            cases hno.symm.trans hmove.earlyStop
        · exact .inr (hle.trans hmono)
    · obtain ⟨v, heq, hlen⟩ := hmove.early hstop hearly
      rw [hlen]
      exact verdict_early (hverdict v _ heq).2.symm

/-- Where the search ends, it has expanded enough nodes. -/
theorem Lasting.le_expanded (hx : Lasting P N m x) (hend : x.ended = true)
    (hkl : P.kSearch ≤ P.lSearch) {ids : Finset ℕ} (hk : P.kSearch ≤ ids.card)
    (hids : ∀ z ∈ ids, Relation.ReflTransGen N.graph.Link m z) :
    P.kSearch ≤ x.abs.expanded.length := by
  obtain ⟨hall, hcomps, -, -⟩ := hx.idle hend
  obtain ⟨seen, hspread⟩ := hx.spread
  cases hstop : x.abs.earlyStop with
  | true => exact (hx.stopped hstop).le
  | false =>
    rcases hx.enough hstop with hdisc | hle
    · have hpending : x.abs.pending = [] := by
        show (x.comps.map _).flatMap _ = []
        rw [hcomps]
        rfl
      exact (hspread.fixedPoint hdisc hstop hpending hall).le_expanded hkl hk hids
    · have hnone : x.abs.retset.countP (fun c => !c.visited) = 0 := by
        apply countP_eq_zero.mpr
        intro c hc
        rw [hall c hc]
        decide
      rw [Loop.prospect, hnone] at hle
      exact hle

end Invariant

section Ends

variable {n : ℕ} {g : Graph}

/-- Whether a step gets the search any further: to poll does where the first task of the queue is
finished, to mark all candidates does where one of them is not. -/
def ParaRing.busy (x : ParaRing F) : RingParaAct → Bool
  | .look => false
  | .poll => x.comps.head?.any fun t => x.finished t.slot
  | .stopRest => x.loop.retset.any fun c => !c.visited
  | _ => true

open ParaRing

/-- A bound for such steps in a graph of `n` nodes. -/
def ParaRing.left (n : ℕ) (x : ParaRing F) : ℕ :=
  7 * (n - x.loop.found.full.length) + 2 * x.running.length + x.results.length + 2 * x.comps.length +
    if x.loop.earlyStop && x.loop.retset.any (fun c => !c.visited) then 1 else 0

theorem expand_counts (P : ParaParams F) (g : Graph) (x : ParaRing F) (q : Scratch) (id v : ℕ)
    (pool : List (Cand F)) :
    (x.expand P g q id v pool).loop.found.full.length = x.loop.found.full.length + 1 ∧
      (x.expand P g q id v pool).running.length ≤ x.running.length + 1 ∧
      (x.expand P g q id v pool).results = x.results ∧
      (x.expand P g q id v pool).comps.length ≤ x.comps.length + 1 := by
  simp only [expand]
  cases (x.judge P (x.recordOf P g id v)).2 with
  | no => simp [Params.copyCoords]
  | likely => simp [Params.copyCoords]
  | early => simp [Params.copyCoords]

/-- To poll takes the first task from the queue, or leaves all as it is. -/
theorem poll_left {y : Scratch × ParaRing F} (hstep : paraRingStep P g (q, x) .poll = some y) :
    (if x.busy .poll then 1 else 0) + y.2.left n ≤ x.left n := by
  cases hstep
  rcases dropWhile_cases (fun t => x.finished t.slot) x.comps with
    ⟨hany, hlt⟩ | ⟨hany, htake, hdrop⟩
  · have hbusy : x.busy .poll = true := hany
    simp only [hbusy, left, if_true]
    split_ifs <;> omega
  · have hbusy : x.busy .poll = false := hany
    simp [hbusy, left, htake, hdrop]

theorem left_step (hw : P.beamWidth ≤ maxNComputes) (hreads : x.reads = [])
    (hle : y.loop.found.full.length ≤ n) (hstep : paraRingStep P g (q, x) a = some (q', y)) :
    (if x.busy a then 1 else 0) + y.left n ≤ x.left n := by
  cases a with
  | calcBest v =>
    obtain ⟨-, -, id, pool, -, -, rfl⟩ := calcBest_cases hw hstep
    obtain ⟨hfull, hrunning, hresults, hcomps⟩ :=
      expand_counts P g x q id v pool
    rw [hfull] at hle
    rw [show x.busy (.calcBest v) = true from rfl, left, left, hfull, hresults]
    split_ifs <;> omega
  | look =>
    cases hstep
    exact Nat.le_of_eq (Nat.zero_add _)
  | land i =>
    simp only [paraRingStep, hreads] at hstep
    cases hstep
  | compute i =>
    obtain ⟨t, hi, heq⟩ := map_eq_some_iff.mp hstep
    have hlt : i < x.running.length := (List.getElem?_eq_some_iff.mp hi).1
    cases heq
    simp only [busy, left, length_eraseIdx_of_lt hlt, length_append,
      length_singleton, if_true]
    omega
  | see i =>
    obtain ⟨slot, hi, heq⟩ := map_eq_some_iff.mp hstep
    have hlt : i < x.results.length := (List.getElem?_eq_some_iff.mp hi).1
    cases heq
    simp only [busy, left, length_eraseIdx_of_lt hlt, if_true]
    omega
  | poll => exact poll_left (y := (q', y)) hstep
  | stopRest =>
    simp only [paraRingStep, ite_none_right_eq_some, some.injEq] at hstep
    obtain ⟨hstop, heq⟩ := hstep
    cases heq
    have hnone : ((x.loop.retset.map fun c => { c with visited := true }).any fun c => !c.visited) =
        false := by
      simp
    simp only [busy, left, hstop, hnone, Bool.and_false, Bool.true_and,
      Bool.false_eq_true, if_false]
    exact (Nat.add_comm _ _).le

/-- A search that has not ended can be got further. -/
theorem exists_busy (hx : Slotted P x) (hend : x.ended = false) :
    ∃ a y, x.busy a = true ∧ paraRingStep P N.graph (q, x) a = some y := by
  cases hcomps : x.comps with
  | cons t comps =>
    have ht : t ∈ x.comps := by simp [hcomps]
    cases hfin : x.finished t.slot with
    | true => exact ⟨.poll, _, by simp [busy, hcomps, hfin], rfl⟩
    | false =>
      -- The first task is with a worker, or the search has not seen yet that it is finished.
      rcases hx.waits t ht hfin with hrun | hres
      · obtain ⟨i, hi⟩ := mem_iff_getElem?.mp hrun
        exact ⟨.compute i, _, rfl, by rw [paraRingStep, hi]; rfl⟩
      · obtain ⟨i, hi⟩ := mem_iff_getElem?.mp hres
        exact ⟨.see i, _, rfl, by rw [paraRingStep, hi]; rfl⟩
  | nil =>
    have hsome : (x.loop.retset.any fun c => !c.visited) = true := by
      rw [ended, hcomps] at hend
      simpa using hend
    cases hstop : x.loop.earlyStop with
    | true => exact ⟨.stopRest, _, hsome, if_pos hstop⟩
    | false =>
      have hstep : (paraRingStep P N.graph (q, x) (.calcBest 0)).isSome = true := by
        cases hvisit : visitFirst (fun _ => true) (fun c => { c with visited := true })
            x.loop.retset with
        | some p => simp [paraRingStep, hstop, hcomps, hvisit, Params.maxWidth]
        | none =>
          obtain ⟨c, hc, hno⟩ := any_eq_true.mp hsome
          cases visitFirst_eq_none hvisit hc (by simpa using hno)
      obtain ⟨y, hy⟩ := isSome_iff_exists.mp hstep
      exact ⟨.calcBest 0, y, rfl, hy⟩

theorem Searching.full_le [LinearOrder F] (hx : Searching P N x) :
    x.loop.found.full.length ≤ N.nodes.card := by
  obtain ⟨seen, hspread⟩ := hx.spread
  have hsub : x.abs.expanded.toFinset ⊆ N.nodes := by
    intro z hz
    apply hx.nodes
    apply (hspread.found z).mpr
    exact .inl (hspread.expanded_subset (mem_toFinset.mp hz))
  have hcard := Finset.card_le_card hsub
  rw [toFinset_card_of_nodup hspread.expanded_nodup, Loop.expanded, length_map] at hcard
  exact hcard

end Ends

/-- A para search with early stops where there are always enough candidates. Where it ends, it returns
`k_search` results with distinct ids. It gets further in at most `7 n` steps of a run in a graph of `n`
nodes, and can always do so until it ends. -/
theorem para_search_returns_k [LinearOrder F] (P : ParaParams F) (N : Net) (m : ℕ)
    (h : ParaQuery P N m) (hkl : P.kSearch ≤ P.lSearch) (ids : Finset ℕ)
    (hk : P.kSearch ≤ ids.card) (hids : ∀ z ∈ ids, Relation.ReflTransGen N.graph.Link m z)
    (q : Scratch) (sector : ℕ → Record) (dist : ℕ → F) (finished : ℕ → Bool)
    (as : List RingParaAct) (x : Scratch × ParaRing F)
    (hample : Meets (paraRingStep P N.graph) (Ample P N.graph)
      (q, P.initRing sector dist finished) as)
    (hrun : run (paraRingStep P N.graph) (q, P.initRing sector dist finished) as = some x) :
    (x.2.ended = true → (P.paraSearch x.2.loop.found).length = P.kSearch ∧
      ((P.results x.2.loop.found).map Merge.Neighbor.id).Nodup) ∧
    countSteps (paraRingStep P N.graph) (fun x a => x.2.busy a)
      (q, P.initRing sector dist finished) as ≤ 7 * N.nodes.card ∧
    (x.2.ended = false → ∃ a y, x.2.busy a = true ∧ paraRingStep P N.graph x a = some y) := by
  have hstart : Lasting P N m (P.initRing sector dist finished) := by
    obtain ⟨hsearch, hdisc⟩ := Searching.init h sector dist finished
    refine ⟨hsearch, fun _ => .inl hdisc, ?_⟩
    intro hearly
    cases hearly
  have hx : Lasting P N m x.2 :=
    run_invariant_of_meets (I := fun x : Scratch × ParaRing F => Lasting P N m x.2)
      (fun x a y hx ha hstep => hx.step h ha hstep) hstart hample hrun
  refine ⟨?_, ?_, fun hend => exists_busy hx.slotted hend⟩
  · intro hend
    obtain ⟨seen, hspread⟩ := hx.spread
    have hlen := hx.le_expanded hend hkl hk hids
    rw [Loop.expanded, length_map] at hlen
    obtain ⟨hcount, hnodup⟩ := results_of_nodup hkl hspread.expanded_nodup hlen
    refine ⟨?_, hnodup⟩
    rw [ParaParams.paraSearch, length_map]
    exact hcount
  · have hcount := countSteps_le_of_run (I := fun x : Scratch × ParaRing F => Lasting P N m x.2)
      (C := fun x a => x.2.busy a) (μ := fun x => x.2.left N.nodes.card)
      (fun x a y hx ha hstep => ?_) hstart hample hrun
    · have hbound : (P.initRing sector dist finished).left N.nodes.card = 7 * N.nodes.card := rfl
      dsimp only at hcount
      omega
    · have hy := hx.step h ha hstep
      exact ⟨hy, left_step h.width hx.slotted.reads hy.full_le hstep⟩

section Path

/-- A chain of `n` nodes. -/
def path (n : ℕ) : Net where
  coords i := [i]
  nhood i := if i + 1 < n then [i + 1] else []
  nodes := Finset.range n
  closed x _ y hy := by
    split_ifs at hy with h
    · rw [mem_singleton.mp hy]
      exact Finset.mem_range.mpr h
    · exact absurd hy not_mem_nil

theorem path_reach (n z : ℕ) (hz : z ∈ Finset.range n) :
    Relation.ReflTransGen (path n).graph.Link 0 z := by
  induction z with
  | zero => exact .refl
  | succ z ih =>
    have hlt := Finset.mem_range.mp hz
    have hlink : (path n).graph.Link z (z + 1) := ⟨0, by simp [path, Net.graph, hlt]⟩
    exact (ih (Finset.mem_range.mpr (Nat.lt_of_succ_lt hlt))).tail hlink

theorem star_reach (n z : ℕ) (hz : z ∈ Finset.range (n + 1)) :
    Relation.ReflTransGen (star n).graph.Link 0 z :=
  .single ⟨0, by simpa [star, Net.graph] using hz⟩

def centInf : ℕ := 10 ^ 9

def centParams : Merge.OccludeParams ℕ :=
  { natParams with
    ops := { natOps with div := fun a b => if a = centInf then centInf else a * 100 / b } }

def centOps : StopOps ℕ where
  inf := centInf
  eps := 0
  tauStable := 5
  ofNat n := 100 * n
  add a b := if a = centInf ∨ b = centInf then centInf else a + b
  sub a b := if a = centInf ∨ b = centInf then centInf else max a b - min a b
  mul a b := a * b / 100
  abs a := a
  sqrt a := Nat.sqrt (100 * a)
  emptyPush s _ := s
  emptyMedian _ := centInf

/-- A search in the order of the ids. The exact distance of each node is 1. -/
def earlyParams (k : ℕ) : ParaParams ℕ where
  toParams := { starParams 26 with
    toOccludeParams := centParams
    mode := .para
    compare := fun _ _ => 100 }
  exit := some centOps
  kSearch := k
  onPm := true

theorem earlyParams_query (k : ℕ) {N : Net} (hnode : 0 ∈ N.nodes)
    (hdegree : ∀ z ∈ N.nodes, (N.nhood z).length ≤ distRoom) : ParaQuery (earlyParams k) N 0 where
  ordered := ⟨fun _ _ => decide_eq_true_iff, fun _ _ => decide_eq_true_iff,
    fun _ _ => decide_eq_true_iff⟩
  mode := rfl
  length := (by decide : 1 ≤ 26)
  width := (by decide : 4 ≤ 512)
  entry := rfl
  node := hnode
  degree := hdegree
  onPm := rfl

def earlyStart (k : ℕ) : Scratch × ParaRing ℕ :=
  (fun _ => [], (earlyParams k).initRing (fun _ => ⟨[], []⟩) (fun _ => 0) fun _ => false)

/-- Each of 24 nodes is expanded after the one before it is done, and `n` more follow. -/
def oneByOne (n : ℕ) : List RingParaAct :=
  (replicate 24 [.calcBest 0, .compute 0, .see 0, .poll]).flatten ++ replicate n (.calcBest 0)

/-- The medians are stable after 24 nodes of a star. With 25 results asked for, one candidate is
expanded without its neighbours, and the search stops at the next. -/
theorem para_search_returns_star :
    (∃ x, run (paraRingStep (earlyParams 25) (star 29).graph) (earlyStart 25) (oneByOne 0) = some x ∧
      x.2.verdict (earlyParams 25) (star 29).graph 0 = .likely) ∧
    ∃ x, run (paraRingStep (earlyParams 25) (star 29).graph) (earlyStart 25) (oneByOne 2) = some x ∧
      x.2.loop.earlyStop = true ∧ ((earlyParams 25).paraSearch x.2.loop.found).length = 25 := by
  refine ⟨by decide +kernel, exists_some_imp
    (P := fun x => x.2.ended = true ∧ x.2.loop.earlyStop = true) (by decide +kernel)
    fun x hrun ⟨hend, hearly⟩ => ?_⟩
  have hample : Meets (paraRingStep (earlyParams 25) (star 29).graph)
      (Ample (earlyParams 25) (star 29).graph) (earlyStart 25) (oneByOne 2) := by
    decide +kernel
  have h := para_search_returns_k (earlyParams 25) (star 29) 0
    (earlyParams_query 25 (by decide) (by decide)) (by decide) (Finset.range 30) (by decide)
    (star_reach 29) _ _ _ _ (oneByOne 2) x hample hrun
  exact ⟨hearly, (h.1 hend).1⟩

/-- All 26 results of a search of length 26 are asked for. After 25 nodes the medians are stable. -/
theorem para_search_returns_too_few :
    ParaQuery (earlyParams 26) (path 30) 0 ∧
      (∀ z ∈ Finset.range 30, Relation.ReflTransGen (path 30).graph.Link 0 z) ∧
      ∃ x, run (paraRingStep (earlyParams 26) (path 30).graph) (earlyStart 26) (oneByOne 1) = some x ∧
        x.2.ended = true ∧ ((earlyParams 26).paraSearch x.2.loop.found).length = 25 := by
  refine ⟨earlyParams_query 26 (by decide) (by decide), path_reach 30, ?_⟩
  decide +kernel

end Path

end Ccann.Search
