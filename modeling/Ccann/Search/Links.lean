import Ccann.Search.Loops
import Ccann.Dynamic.Slots
import Ccann.Merge.Correct

/-! The ids that an insert links its point to. Whatever the distances and the schedule are, they
come from the expanded nodes of its search, and these are reached from the entry points by links
of the graph. Nothing on the way looks at the deletion set. So an insert keeps clear of the deleted
points for every query, mode and schedule if and only if no deleted point is reached from an entry
point: a search with a pool of one candidate can be led along any path of links. -/

namespace Ccann.Search

open Nodes Concurrent List Params

variable {F : Type*} {P : Params F} {g : Graph}

section Prune

variable {y : ℕ}

theorem mem_dropMedoid {result : List (Merge.Neighbor F)} (h : y ∈ P.dropMedoid result) :
    y ∈ result.map Merge.Neighbor.id := by
  obtain ⟨⟨c, i⟩, hc, rfl⟩ := mem_map.mp h
  exact mem_map_of_mem (fst_mem_of_mem_zipIdx (mem_filter.mp hc).1)

theorem length_dropMedoid_le (result : List (Merge.Neighbor F)) :
    (P.dropMedoid result).length ≤ result.length := by
  rw [dropMedoid, length_map]
  exact (length_filter_le _ _).trans length_zipIdx.le

section

variable (coordOf : ℕ → List ℕ) (pool : List (Merge.Neighbor F))

include coordOf pool

theorem occludeList_chosen :
    Merge.Chosen { P.toOccludeParams with
      pqDist := fun a b => P.compare (coordOf b) (coordOf a) } pool (P.occludeList coordOf pool) :=
  Merge.occludeListPq_chosen pool

theorem pruneNeighbors_subset : P.pruneNeighbors coordOf pool ⊆ pool.map Merge.Neighbor.id := by
  have hsort : (P.sortNeighbors pool).map Merge.Neighbor.id ⊆ pool.map Merge.Neighbor.id :=
    map_subset _ (perm_insertionSort _ pool).subset
  have hch := occludeList_chosen (P := P) coordOf (P.sortNeighbors pool)
  have hkept : P.dropMedoid (P.occludeList coordOf (P.sortNeighbors pool)) ⊆
      pool.map Merge.Neighbor.id := fun y hy =>
    hsort (map_subset _ hch.subset (mem_dropMedoid hy))
  have hle : (P.dropMedoid (P.occludeList coordOf (P.sortNeighbors pool))).length ≤ P.range :=
    (length_dropMedoid_le _).trans hch.le
  unfold pruneNeighbors
  split_ifs
  · exact (Merge.fillUp_spec hsort hkept hle).1
  · exact hkept

end

theorem newNhood_subset (q : Scratch) (f : Found F) :
    P.newNhood q f ⊆ f.full.map Merge.Neighbor.id :=
  List.Subset.trans (pruneNeighbors_subset _ _)
    (map_subset _ (perm_insertionSort _ f.full).subset)

theorem mem_fillUp {xs l : List ℕ} (hy : y ∈ xs ∨ y ∈ l) (hlen : l.length + xs.length ≤ P.range) :
    y ∈ Merge.fillUp P.toOccludeParams xs l := by
  induction xs generalizing l with
  | nil => exact hy.resolve_left not_mem_nil
  | cons x xs ih =>
    rw [length_cons] at hlen
    unfold Merge.fillUp
    split_ifs with hfull hmem
    · omega
    · refine ih ?_ (by omega)
      rcases hy with hy | hy
      · rcases mem_cons.mp hy with rfl | hy
        · exact .inr hmem
        · exact .inl hy
      · exact .inr hy
    · refine ih ?_ (by rw [length_append, length_singleton]; omega)
      rw [mem_append, mem_singleton]
      rcases hy with hy | hy
      · rcases mem_cons.mp hy with rfl | hy
        · exact .inr (.inr rfl)
        · exact .inl hy
      · exact .inr (.inl hy)

/-- With `alpha` above one and room for twice the pool, the prune drops nothing. -/
theorem mem_newNhood (halpha : P.ops.lt P.one P.alpha = true) {q : Scratch} {f : Found F}
    (hy : y ∈ f.full.map Merge.Neighbor.id) (hlen : 2 * f.full.length ≤ P.range) :
    y ∈ P.newNhood q f := by
  have hperm : ∀ pool : List (Merge.Neighbor F), (P.sortNeighbors pool).Perm pool := fun pool =>
    perm_insertionSort _ pool
  have hch := occludeList_chosen (P := P) (f.coordOf q) (P.sortNeighbors (P.sortNeighbors f.full))
  have hkept := (length_dropMedoid_le (P := P) _).trans
    (hch.nodup.subperm hch.subset).length_le
  have hfull : (P.sortNeighbors (P.sortNeighbors f.full)).length = f.full.length :=
    ((hperm _).trans (hperm _)).length_eq
  rw [hfull] at hkept
  rw [newNhood, pruneNeighbors, if_pos halpha]
  refine mem_fillUp (.inl ?_) ?_
  · exact (((hperm _).trans (hperm _)).map Merge.Neighbor.id).mem_iff.mpr hy
  · rw [length_map, hfull]
    omega

end Prune

section Reached

/-- Some version of the record of `x` lists `y`. -/
def Graph.Link (g : Graph) (x y : ℕ) : Prop :=
  ∃ v, y ∈ g.nhood x v

/-- The ids in a search are in a set, and the records it holds are versions of their nodes. -/
structure Inside (ok : ℕ → Prop) (g : Graph) (s : Loop F) : Prop where
  ids : ∀ x ∈ s.ids, ok x
  held : ∀ p ∈ s.held, ∃ v, p.2 = g.version p.1 v
  full : ∀ x ∈ s.found.full.map Merge.Neighbor.id, ok x

variable {ok : ℕ → Prop} {y : Scratch × Loop F}

theorem inside_init (h : ∀ e ∈ P.entries, ok e.1) : Inside ok g P.init := by
  have hpool : P.init.retset.map (fun c => c.id) ⊆ P.entries.map Prod.fst := by
    have hmap : (P.entries.map fun e => ({ id := e.1, distance := e.2 } : Cand F)).map
        (fun c => c.id) = P.entries.map Prod.fst := by
      rw [map_map]
      rfl
    unfold init
    cases P.mode
    · exact hmap ▸ sortPool_ids _
    · exact hmap ▸ List.Subset.refl _
    · exact hmap ▸ sortPool_ids _
  refine ⟨fun x hx => ?_, fun p hp => ?_, fun x hx => ?_⟩
  · have hx := Loop.ids_subset_iff.mpr ⟨hpool, nil_subset _, nil_subset _,
      nil_subset _, nil_subset _⟩ hx
    obtain ⟨e, he, rfl⟩ := mem_map.mp hx
    exact h e he
  · exact absurd hp not_mem_nil
  · exact absurd hx not_mem_nil

theorem Inside.move (hlink : ∀ x y, ok x → g.Link x y → ok y) {x : Scratch × Loop F}
    (h : Inside ok g x.2) (hm : Move P g x y) : Inside ok g y.2 := by
  cases hm with
  | quiet hids hheld hfound =>
    refine ⟨fun z hz => h.ids z (hids hz), fun p hp => ?_, hfound ▸ h.full⟩
    rcases hheld p hp with hp | ⟨-, hv⟩
    · exact h.held p hp
    · exact hv
  | @expand q s t id r hid hr hids hheld hfound =>
    have hok := h.ids id hid
    have hversion : ∃ v, r = g.version id v := by
      rcases hr with hr | hr
      · exact h.held _ hr
      · exact hr
    obtain ⟨v, rfl⟩ := hversion
    refine ⟨fun z hz => ?_, fun p hp => h.held p (hheld hp), fun z hz => ?_⟩
    · rcases mem_append.mp (hids hz) with hz | hz
      · exact h.ids z hz
      · exact hlink id z hok ⟨v, hz⟩
    · rw [hfound, copyCoords, map_append, mem_append] at hz
      rcases hz with hz | hz
      · exact h.full z hz
      · rw [map_singleton, mem_singleton] at hz
        exact hz ▸ hok

/-- A search expands only ids of a set that is closed under links and holds its entry points. -/
theorem inside_of_run (ok : ℕ → Prop) (hentry : ∀ e ∈ P.entries, ok e.1)
    (hlink : ∀ x y, ok x → g.Link x y → ok y) {q : Scratch} {acts : List Act}
    (hrun : run (P.step g) (q, P.init) acts = some y) : Inside ok g y.2 :=
  run_invariant (I := fun x : Scratch × Loop F => Inside ok g x.2)
    (fun _ _ _ h hs => h.move hlink (step_move hs)) (inside_init hentry) hrun

end Reached

section Lead

/-- A path of `n` links from `x` to `y`. -/
def Graph.Within (g : Graph) (y : ℕ) : ℕ → ℕ → Prop
  | 0, x => x = y
  | n + 1, x => ∃ z, g.Link x z ∧ g.Within y n z

variable {x n z : ℕ}

theorem exists_within {y : ℕ} (h : Relation.ReflTransGen g.Link x y) : ∃ n, g.Within y n x := by
  induction h using Relation.ReflTransGen.head_induction_on with
  | refl => exact ⟨0, rfl⟩
  | head hxz _ ih =>
    obtain ⟨n, hn⟩ := ih
    exact ⟨n + 1, _, hxz, hn⟩

/-- A search that is to be led from `start` to `goal` by at most `limit` links. -/
structure Lead where
  graph : Graph
  start : ℕ
  goal : ℕ
  limit : ℕ
  id2tag : ℕ → ℕ
  deleted : List ℕ

/-- The number of links to the goal, or `limit + 1` if there are more. -/
noncomputable def Lead.hops (L : Lead) (x : ℕ) : ℕ :=
  sInf {n | L.graph.Within L.goal n x ∨ n = L.limit + 1}

variable {L : Lead} {ys visited : List ℕ}

theorem hops_spec (L : Lead) (x : ℕ) :
    L.graph.Within L.goal (L.hops x) x ∨ L.hops x = L.limit + 1 :=
  Nat.sInf_mem (s := {n | L.graph.Within L.goal n x ∨ n = L.limit + 1}) ⟨L.limit + 1, .inr rfl⟩

theorem hops_le (h : L.graph.Within L.goal n x ∨ n = L.limit + 1) : L.hops x ≤ n :=
  Nat.sInf_le h

theorem hops_link (h : L.graph.Link x z) : L.hops x ≤ L.hops z + 1 := by
  rcases hops_spec L z with hz | hz
  · exact hops_le (.inl ⟨z, h, hz⟩)
  · exact (hops_le (.inr rfl)).trans (by omega)

theorem exists_closer (hx : L.hops x = n + 1) (hn : n < L.limit) :
    ∃ z, L.graph.Link x z ∧ L.hops z = n := by
  rcases hops_spec L x with hw | hw
  · rw [hx] at hw
    obtain ⟨z, hlink, hz⟩ := hw
    have hle := hops_link hlink
    exact ⟨z, hlink, le_antisymm (hops_le (.inl hz)) (by omega)⟩
  · omega

theorem eq_of_hops_eq_zero (h : L.hops x = 0) : x = L.goal := by
  rcases hops_spec L x with hw | hw
  · rwa [h] at hw
  · omega

theorem mem_discover_of_notMem (hz : z ∈ ys) (hv : z ∉ visited) : z ∈ (discover ys visited).1 := by
  have hmem := mem_discover_snd.mpr (.inl hz : z ∈ ys ∨ z ∈ visited)
  rw [discover_snd, mem_append, mem_reverse] at hmem
  exact hmem.resolve_right hv

/-- A para search with a pool of one, whose distances count the links to the goal. -/
noncomputable def Lead.params (L : Lead) : Params ℚ where
  toOccludeParams := { Merge.ringParams.toOccludeParams with range := 2 * (L.limit + 1) }
  mode := .para
  lSearch := 1
  beamWidth := 1
  query := []
  compare _ _ := 0
  pqDist₀ x := L.hops x
  excludeNodes := L.deleted
  dynSearchL := false
  id2tag := L.id2tag
  entries := [(L.start, L.hops L.start)]
  medoid := L.start

theorem Lead.params_mode (L : Lead) : L.params.mode = .para := rfl

section Offer

variable {z nk : ℕ} {c : Cand ℚ} (hc : c.distance = L.hops c.id)

include hc in
theorem offer_lead_of_le (hle : L.hops c.id ≤ L.hops z) :
    L.params.offer 1 ([c], nk) z = ([c], nk) := by
  have hge : L.params.le c.distance (L.params.pqDist₀ z) = true := by
    rw [hc]
    exact decide_eq_true (Nat.cast_le.mpr hle)
  exact if_pos ⟨rfl, hge⟩

include hc in
theorem offer_lead_of_lt (hlt : L.hops z < L.hops c.id) :
    L.params.offer 1 ([c], nk) z = ([{ id := z, distance := L.hops z }], 0) := by
  have hge : L.params.le c.distance (L.params.pqDist₀ z) = false := by
    rw [hc]
    exact decide_eq_false (not_le.mpr (Nat.cast_lt.mpr hlt))
  have habove : above L.params.ops.lt [c]
      { id := z, distance := L.params.pqDist₀ z } 0 = true := by
    show decide ((L.hops z : ℚ) < c.distance) = true
    rw [hc]
    exact decide_eq_true (Nat.cast_lt.mpr hlt)
  have hpool : insertIntoPool L.params.ops.lt [c]
      { id := z, distance := L.params.pqDist₀ z } =
        ([{ id := z, distance := L.params.pqDist₀ z }, c], 0) := if_pos habove
  have hfull : ¬([c].length = 1 ∧
      [c].getLast?.any (fun c => L.params.le c.distance
        (L.params.pqDist₀ z)) = true) := by
    rintro ⟨-, h⟩
    exact absurd (h.symm.trans hge) (by decide)
  rw [offer, if_neg hfull, hpool, Nat.min_zero]
  rfl

include hc in
/-- A pool of one keeps the closest of its candidate and those it is offered. -/
theorem foldl_offer_lead (nk : ℕ) (ys : List ℕ) :
    ∃ c' nk', ys.foldl (L.params.offer 1) ([c], nk) = ([c'], nk') ∧
      c'.distance = L.hops c'.id ∧ (∀ z ∈ ys, L.hops c'.id ≤ L.hops z) ∧
      (c' = c ∨ c'.visited = false ∧ c'.id ∈ ys ∧ L.hops c'.id < L.hops c.id) := by
  induction ys generalizing c nk with
  | nil => exact ⟨c, nk, rfl, hc, by simp, .inl rfl⟩
  | cons z ys ih =>
    rcases le_or_gt (L.hops c.id) (L.hops z) with hle | hlt
    · obtain ⟨c', nk', hfold, hd, hmin, hcase⟩ := ih hc nk
      have hle' : L.hops c'.id ≤ L.hops c.id := by
        rcases hcase with rfl | ⟨-, -, hlt⟩
        · exact le_rfl
        · exact hlt.le
      refine ⟨c', nk', by rw [foldl_cons, offer_lead_of_le hc hle, hfold], hd, ?_, ?_⟩
      · exact forall_mem_cons.mpr ⟨hle'.trans hle, hmin⟩
      · exact hcase.imp_right fun h => ⟨h.1, mem_cons_of_mem _ h.2.1, h.2.2⟩
    · obtain ⟨c', nk', hfold, hd, hmin, hcase⟩ :=
        ih (c := { id := z, distance := L.hops z }) rfl 0
      refine ⟨c', nk', by rw [foldl_cons, offer_lead_of_lt hc hlt, hfold], hd, ?_, .inr ?_⟩
      · refine forall_mem_cons.mpr ⟨?_, hmin⟩
        rcases hcase with rfl | ⟨-, -, hlt⟩
        · exact le_rfl
        · exact hlt.le
      · rcases hcase with rfl | ⟨hv, hmem, hlt'⟩
        · exact ⟨rfl, mem_cons_self, hlt⟩
        · exact ⟨hv, mem_cons_of_mem _ hmem, hlt'.trans hlt⟩

end Offer

/-- A state between two visits. -/
def single (c : Cand ℚ) (visited : List ℕ) (f : Found ℚ) (nk : ℕ) : Loop ℚ :=
  { retset := [c], visited := visited, lSearch := 1, found := f, nk := nk }

/-- The steps that expand the candidate of a pool of one and offer its neighbours. -/
def visitOne (v : ℕ) : List Act :=
  [.para (.calcBest v .no), .para (.finish 0), .para .poll]

theorem run_visitOne (v nk : ℕ) (q : Scratch) {c c' : Cand ℚ} {nk' : ℕ} (visited : List ℕ)
    (f : Found ℚ) (hc : c.visited = false)
    (hfold : (discover (L.graph.nhood c.id v) visited).1.foldl (L.params.offer 1)
      ([{ c with visited := true }], nk) = ([c'], nk')) :
    run (L.params.step L.graph) (q, single c visited f nk) (visitOne v) = some
      ((L.params.copyCoords c.id (L.graph.version c.id v) q f).1,
        single c' (discover (L.graph.nhood c.id v) visited).2
          (L.params.copyCoords c.id (L.graph.version c.id v) q f).2 nk') := by
  simp only [visitOne, single, run, step, Lead.params_mode, paraStep, visitFirst, hc]
  simp [pushNbrs, takeFinished, hfold]

/-- The search is led to its goal. -/
theorem exists_run_lead (nk : ℕ) (q : Scratch) (c : Cand ℚ) (visited : List ℕ) (f : Found ℚ)
    (hc : c.visited = false) (hd : c.distance = L.hops c.id) (hn : L.hops c.id = n)
    (hle : n ≤ L.limit) (hvis : ∀ z ∈ visited, n ≤ L.hops z) :
    ∃ acts q' s',
      run (L.params.step L.graph) (q, single c visited f nk) acts = some (q', s') ∧
      L.params.finished s' = true ∧ L.goal ∈ s'.found.full.map Merge.Neighbor.id ∧
      s'.found.full.length = f.full.length + (n + 1) := by
  induction n generalizing q c visited nk f with
  | zero =>
    obtain ⟨c', nk', hfold, -, -, hcase⟩ := foldl_offer_lead (c := { c with visited := true })
      hd nk (discover (L.graph.nhood c.id 0) visited).1
    rcases hcase with rfl | ⟨-, -, hlt⟩
    · refine ⟨visitOne 0, _, _, run_visitOne 0 nk q visited f hc hfold, rfl, ?_, ?_⟩
      · simp [single, copyCoords, ← eq_of_hops_eq_zero hn]
      · simp [single, copyCoords]
    · exact absurd (hn ▸ hlt) (Nat.not_lt_zero _)
  | succ n ih =>
    obtain ⟨z, ⟨v, hz⟩, hzn⟩ := exists_closer hn hle
    obtain ⟨c', nk', hfold, hd', hmin, hcase⟩ := foldl_offer_lead (c := { c with visited := true })
      hd nk (discover (L.graph.nhood c.id v) visited).1
    have hfresh : z ∈ (discover (L.graph.nhood c.id v) visited).1 :=
      mem_discover_of_notMem hz fun hmem => by
        have := hvis z hmem
        omega
    have hle' := hmin z hfresh
    rcases hcase with rfl | ⟨hv, hmem, -⟩
    · have hn' : L.hops c.id ≤ L.hops z := hle'
      omega
    · have hlink : ∀ w ∈ L.graph.nhood c.id v, n ≤ L.hops w := fun w hw => by
        have := hops_link ⟨v, hw⟩
        omega
      have hn' : L.hops c'.id = n :=
        le_antisymm (hzn ▸ hle') (hlink _ (discover_subset _ _ hmem))
      have hvis' : ∀ w ∈ (discover (L.graph.nhood c.id v) visited).2, n ≤ L.hops w := by
        intro w hw
        rcases mem_discover_snd.mp hw with hw | hw
        · exact hlink w hw
        · exact (Nat.le_succ n).trans (hvis w hw)
      obtain ⟨acts, q', s', hrun, hfin, hy, hlen⟩ :=
        ih nk' (L.params.copyCoords c.id (L.graph.version c.id v) q f).1 c'
          (discover (L.graph.nhood c.id v) visited).2
          (L.params.copyCoords c.id (L.graph.version c.id v) q f).2 hv hd' hn'
          (Nat.le_of_succ_le hle) hvis'
      refine ⟨visitOne v ++ acts, q', s', ?_, hfin, hy, ?_⟩
      · rw [run_append, run_visitOne v nk q visited f hc hfold, Option.bind_some, hrun]
      · rw [hlen]
        simp only [copyCoords, length_append, length_singleton]
        omega

end Lead

section Insert

/-- The target of an insert links to ids of a set only, and so do the new links to it. -/
structure LinksWithin {n : ℕ} (ok : ℕ → Prop) (x t : Dynamic.State n) : Prop where
  target : ∀ r, t.record x.curId = some r → ∀ y ∈ r.nhood, ok y
  reverse : ∀ z r r', x.record z = some r → t.record z = some r' → x.curId ∉ r.nhood →
    x.curId ∈ r'.nhood → ok z

theorem linksWithin_of_inserted {n : ℕ} {C : Dynamic.Params F} {p : Dynamic.Point n}
    {x t : Dynamic.State n} {ok : ℕ → Prop} (h : Dynamic.Inserted C p x t)
    (hok : ∀ y ∈ p.newNhood, ok y) : LinksWithin ok x t := by
  refine ⟨fun r hr => ?_, fun z r r' hr hr' hnot hmem => ?_⟩
  · rw [h.target] at hr
    cases hr
    exact hok
  · by_cases hz : z = x.curId
    · rw [hz, h.target] at hr'
      cases hr'
      exact hok z (hz ▸ hmem)
    · by_contra hbad
      rw [h.other z hz fun hin => hbad (hok z hin), hr] at hr'
      cases hr'
      exact hnot hmem

/-- Whatever the query, the mode and the schedule are, an insert links its point to no deleted
point and no deleted point to it, if and only if no deleted point is reached from an id that
searches start from. -/
theorem insert_avoids_deleted_iff (g : Graph) (starts : Set ℕ) (id2tag : ℕ → ℕ)
    (deleted : List ℕ) :
    (∀ e ∈ starts, ∀ y, Relation.ReflTransGen g.Link e y → id2tag y ∉ deleted) ↔
      ∀ (F : Type) (P : Params F), (∀ e ∈ P.entries, e.1 ∈ starts) →
        P.excludeNodes = deleted → P.id2tag = id2tag →
        ∀ (q₀ q₁ q : Scratch) (acts : List Act) (s : Loop F),
          run (P.step g) (q₀, P.init) acts = some (q₁, s) → P.finished s = true →
            (∀ y ∈ P.newNhood q s.found, id2tag y ∉ deleted) ∧
            ∀ (n : ℕ) (C : Dynamic.Params F) (p : Dynamic.Point n) (x t : Dynamic.State n),
              Layout.Consistent C.geo x.toIndex →
              (∀ i r, x.record i = some r → r.nhood.length ≤ C.range) → p.Valid C x →
              p.newNhood = P.newNhood q s.found → Dynamic.insertInPlace C p x = some t →
                LinksWithin (fun y => id2tag y ∉ deleted) x t := by
  constructor
  · intro h F P hentries _ _ q₀ q₁ q acts s hrun _
    -- The ids reached from the entry points are a set that the search does not leave.
    have hin := inside_of_run (fun y => ∃ e ∈ starts, Relation.ReflTransGen g.Link e y)
      (fun e he => ⟨e.1, hentries e he, .refl⟩)
      (fun x y ⟨e, he, hx⟩ hxy => ⟨e, he, hx.tail hxy⟩) hrun
    have hnew : ∀ y ∈ P.newNhood q s.found, id2tag y ∉ deleted := fun y hy => by
      obtain ⟨e, he, hreach⟩ := hin.full y (newNhood_subset q s.found hy)
      exact h e he y hreach
    refine ⟨hnew, fun n C p x t hcons hdeg hp hpn ht => ?_⟩
    obtain ⟨t', ht', hins⟩ := Dynamic.insertInPlace_spec hcons hdeg hp
    cases ht'.symm.trans ht
    exact linksWithin_of_inserted hins fun y hy => hnew y (hpn ▸ hy)
  · intro h e he y hreach
    obtain ⟨N, hN⟩ := exists_within hreach
    let L : Lead := ⟨g, e, y, N, id2tag, deleted⟩
    have hle : L.hops e ≤ N := hops_le (.inl hN)
    have hinit : L.params.init = single { id := e, distance := L.hops e } [e] {} 0 := rfl
    obtain ⟨acts, q₁, s, hrun, hfin, hy, hlen⟩ := exists_run_lead (L := L) 0 (fun _ => [])
      { id := e, distance := L.hops e } [e] {} rfl rfl rfl hle (by simp)
    refine (h ℚ L.params ?_ rfl rfl (fun _ => []) q₁ q₁ acts s ?_ hfin).1 y ?_
    · intro p hp
      rw [mem_singleton.mp hp]
      exact he
    · rw [hinit]
      exact hrun
    · have halpha : decide ((1 : ℚ) < 6 / 5) = true := by norm_num
      refine mem_newNhood halpha hy ?_
      rw [hlen]
      show 2 * (0 + (L.hops e + 1)) ≤ 2 * (N + 1)
      omega

end Insert

section Pair

def pair : Graph where
  coords i := [i]
  nhood i _ := [1 - i]

/-- A search for a point next to node 1, which is deleted. -/
def pairParams (mode : Mode) : Params ℚ where
  toOccludeParams := Merge.ringParams.toOccludeParams
  mode := mode
  lSearch := 4
  beamWidth := 2
  query := [1]
  compare a b := if a = b then 0 else 1
  pqDist₀ i := if i = 1 then 0 else 1
  excludeNodes := [1]
  dynSearchL := false
  id2tag i := i
  entries := [(0, 1)]
  medoid := 0

def pairActs : Mode → List Act
  | .beam => [.beam (.read [0]), .beam .expand, .beam .next, .beam (.read [0]), .beam .expand,
      .beam .next, .beam (.read []), .beam .next]
  | .pipe => [.pipe .send, .pipe .rescore, .pipe (.land 0 0), .pipe .poll, .pipe .calcBest,
      .pipe .send, .pipe (.land 0 0), .pipe .poll, .pipe .calcBest]
  | .para => [.para (.calcBest 0 .no), .para (.finish 0), .para .poll, .para (.calcBest 0 .no),
      .para (.finish 0), .para .poll]

/-- The search ends and gives a deleted node to the insert. -/
def PairLinks (mode : Mode) : Prop :=
  ∃ x, run ((pairParams mode).step pair) (fun _ => [], (pairParams mode).init) (pairActs mode) =
    some x ∧ (pairParams mode).finished x.2 = true ∧
      ∃ y ∈ (pairParams mode).newNhood x.1 x.2.found,
        (pairParams mode).id2tag y ∈ (pairParams mode).excludeNodes

/-- In every mode the insert links to the deleted node. -/
theorem insert_links_deleted_point :
    PairLinks .beam ∧ PairLinks .pipe ∧ PairLinks .para := by
  unfold PairLinks
  decide +kernel

end Pair

end Ccann.Search
