import Ccann.Search.Beam

/-! Beam search with a deletion set. With `dyn_search_l` the bound on the pool is computed anew after
each expansion, so that there is room for `l_search` ids that are not deleted. But the neighbours of
the expanded node are offered under the old bound, and the new one can be smaller; an id that is
dropped does not come back. No live id is lost where the bound leaves room for all deleted ids that
are in the pool or are offered. The results are cut to `l_search` before deleted ids are left out of
them, so too many deleted ids among the nearest ones hide the others. -/

namespace Ccann.Search

open Concurrent Pools List

variable {F : Type*} {P : Params F} {N : Net} {m : ℕ} {s t : Loop F} {q : Scratch}

def Params.live (P : Params F) (id : ℕ) : Bool :=
  !decide (P.id2tag id ∈ P.excludeNodes)

/-- There is room for the ids, or for the deleted ones among them and in the pool and `l_search`
others. -/
def Params.Roomy (P : Params F) (l : ℕ) (ys : List ℕ) (pool : List (Cand F)) : Prop :=
  pool.length + ys.length ≤ l ∨
    P.lSearch + (pool.map (fun c => c.id) ++ ys).countP (fun y => !P.live y) ≤ l

instance (l : ℕ) (ys : List ℕ) (pool : List (Cand F)) : Decidable (P.Roomy l ys pool) :=
  inferInstanceAs (Decidable (_ ∨ _))

/-- What the next expansion offers fits into the pool in this sense. -/
def Params.Unhurried (P : Params F) (x : Scratch × Loop F) (_ : Act) : Prop :=
  ∀ p ∈ x.2.frontier.head?, P.Roomy x.2.lSearch (discover p.2.nhood x.2.visited).1 x.2.retset

instance (x : Scratch × Loop F) (a : Act) : Decidable (P.Unhurried x a) :=
  inferInstanceAs (Decidable (∀ p ∈ _, _))

section Kept

variable [LinearOrder F] {seen ys : List ℕ} {pool : List (Cand F)} {l nk y : ℕ}
  {x : List (Cand F) × ℕ}

omit [LinearOrder F] in
theorem countP_take_place (dead : ℕ → Bool) (pre post ys : List ℕ) (k : ℕ) :
    ((pre ++ y :: post).take k ++ ys).countP dead ≤ (pre ++ post ++ y :: ys).countP dead := by
  have hsub : ((pre ++ y :: post).take k ++ ys).Sublist (pre ++ y :: post ++ ys) :=
    (take_sublist k _).append_right ys
  refine hsub.countP_le.trans (Nat.le_of_eq ?_)
  simp only [countP_append, countP_cons]
  omega

/-- An id that is offered while there is room. -/
theorem Offered.kept_live (h : Offered P l pool nk y x) (hp : Pooled P seen pool) (hy : y ∉ seen)
    (hroom : P.Roomy l (y :: ys) pool)
    (hkept : Kept P.pqDist₀ P.live P.lSearch seen (pool.map fun c => c.id)) :
    P.Roomy l ys x.1 ∧ Kept P.pqDist₀ P.live P.lSearch (y :: seen) (x.1.map fun c => c.id) := by
  -- A full pool is one with room for all deleted ids.
  have hdead : l ≤ pool.length →
      P.lSearch + (pool.map (fun c => c.id) ++ y :: ys).countP (fun y => !P.live y) ≤ l := by
    intro hfull
    apply hroom.resolve_left
    rw [length_cons]
    omega
  cases h with
  | skip hfull hfar =>
    have hcount := hdead (Nat.le_of_eq hfull.symm)
    rw [countP_append, countP_cons] at hcount
    constructor
    · right
      rw [countP_append]
      dsimp only
      omega
    · refine hkept.skip hp.nodup hp.subset hy (hp.ids_le (List.Subset.refl _) hfar) ?_
      rw [length_map]
      omega
  | @place pre post hpool hpre hpost hfull =>
    subst hpool
    have hlen := length_place pre post (P.fresh y)
    have hle := hp.ids_le (subset_append_left _ _) hpre
    have hge := hp.le_ids (subset_append_right _ _) hpost
    have hsorted := hp.sorted_ids
    have hnodup := hp.nodup
    have hsub := hp.subset
    rw [map_append] at hnodup hsub hsorted hkept hdead
    have hids : ((pre ++ P.fresh y :: post).take (grown l (pre ++ post).length)).map
        (fun c => c.id) = (pre.map (fun c => c.id) ++ y :: post.map fun c => c.id).take
          (grown l (pre ++ post).length) := by
      rw [map_take, map_append, map_cons]
      rfl
    have hcount := countP_take_place (y := y) (fun y => !P.live y) (pre.map fun c => c.id)
      (post.map fun c => c.id) ys (grown l (pre ++ post).length)
    simp only [Params.Roomy, hids]
    constructor
    · rcases hroom with hroom | hroom
      · left
        have htake := length_take_le (grown l (pre ++ post).length) (pre ++ P.fresh y :: post)
        rw [length_cons] at hroom
        rw [grown, if_pos (by omega)] at htake ⊢
        omega
      · right
        rw [map_append] at hroom
        omega
    · refine hkept.place hsorted hnodup hsub hy hle hge ?_
      have hplace := length_place (pre.map fun c => c.id) (post.map fun c => c.id) y
      rw [← map_append, length_map] at hplace
      by_cases hfull : (pre ++ post).length < l
      · left
        rw [hplace, grown, if_pos hfull]
      · right
        have hdead := hdead (Nat.le_of_not_lt hfull)
        rw [countP_append] at hcount
        rw [length_take, hplace]
        unfold grown at hcount ⊢
        rw [if_neg hfull] at hcount ⊢
        omega

theorem foldl_offer_kept (hP : P.Ordered) (hp : Pooled P seen x.1) (hnodup : ys.Nodup)
    (hnew : ∀ y ∈ ys, y ∉ seen) (hroom : P.Roomy l ys x.1)
    (hkept : Kept P.pqDist₀ P.live P.lSearch seen (x.1.map fun c => c.id)) :
    Kept P.pqDist₀ P.live P.lSearch (ys.reverse ++ seen)
      ((ys.foldl (P.offer l) x).1.map fun c => c.id) := by
  refine (foldl_offer_rule hP (M := fun ys seen x => P.Roomy l ys x.1 ∧
    Kept P.pqDist₀ P.live P.lSearch seen (x.1.map fun c => c.id)) ?_ hp hnodup hnew
      ⟨hroom, hkept⟩).2.2
  rintro y ys seen pool nk x hp hy hoff ⟨hroom, hkept⟩
  exact hoff.kept_live hp hy hroom hkept

/-- A search that has lost no live id too early. -/
structure Sparing (P : Params F) (N : Net) (m : ℕ) (s : Loop F) : Prop extends Beaming P N m s where
  kept : Kept P.pqDist₀ P.live P.lSearch s.visited (s.retset.map fun c => c.id)

theorem Sparing.init (h : BeamQuery P N m) : Sparing P N m P.init := by
  refine ⟨Beaming.init h.entry h.node, ?_⟩
  have hinit : P.init = { retset := [P.fresh m], visited := [m], lSearch := P.lSearch } := by
    simp only [Params.init, h.mode, h.entry]
    rfl
  rw [hinit]
  intro z hz _
  exact .inl hz

theorem Sparing.move (h : BeamQuery P N m) (hs : Sparing P N m s) {a : Act}
    (hroom : P.Unhurried (q, s) a) {b : BeamAct} {q' : Scratch}
    (hmove : BeamMove P N.graph q s b (q', t)) : Sparing P N m t := by
  refine ⟨(hs.toBeaming.move h.ordered h.mode h.width hmove).1, ?_⟩
  cases hmove with
  | read =>
    show Kept _ _ _ _ ((s.retset.take s.k ++ (takeBeam P.beamWidth (s.retset.drop s.k)).2).map _)
    rw [ids_takeBeam]
    exact hs.kept
  | @expand id r rest hfr =>
    obtain ⟨hnodup, hnew⟩ := discover_new r.nhood s.visited
    have hfits := hroom (id, r) (by rw [hfr]; rfl)
    have hkept := foldl_offer_kept (x := (s.retset, s.nk)) h.ordered hs.pooled hnodup hnew hfits
      hs.kept
    rw [← discover_snd] at hkept
    exact hkept
  | next => exact hs.kept

theorem BeamQuery.sparing (h : BeamQuery P N m) {as : List Act} {x : Scratch × Loop F}
    (hroom : Meets (P.step N.graph) P.Unhurried (q, P.init) as)
    (hrun : run (P.step N.graph) (q, P.init) as = some x) : Sparing P N m x.2 :=
  run_invariant_of_meets (I := fun x : Scratch × Loop F => Sparing P N m x.2)
    (fun x a _ hx (hroom : P.Unhurried x a) hstep =>
      have ⟨_, hmove⟩ := step_beam h.mode hstep
      hx.move h (q := x.1) (a := a) hroom hmove)
    (Sparing.init h) hroom hrun

end Kept

section Results

/-- `beam_search`: the tags and distances of the first expanded nodes. -/
def Params.beamSearch (P : Params F) (kSearch : ℕ) (f : Found F) : List (ℕ × F) :=
  (((P.sortNeighbors f.full).take P.lSearch).take kSearch).map fun n => (P.id2tag n.id, n.distance)

/-- The last loop of `search` copies what is not deleted until there are `K` tags. -/
def copyLive (deleted : ℕ → Bool) (K : ℕ) : ℕ → List (ℕ × F) → List (ℕ × F)
  | _, [] => []
  | pos, r :: rs =>
    if deleted r.1 then if pos = K then [] else copyLive deleted K pos rs
    else r :: if pos + 1 = K then [] else copyLive deleted K (pos + 1) rs

def resultRoom : ℕ := 4096

/-- `DynamicSSDIndex::search` after the search itself; `none` if the results do not fit. -/
def Params.search (P : Params F) (K : ℕ) (f : Found F) : Option (List (ℕ × F)) :=
  if (P.beamSearch P.lSearch f).length ≤ resultRoom then
    some (copyLive (fun tag => decide (tag ∈ P.excludeNodes)) K 0 (P.beamSearch P.lSearch f))
  else none

/-- The results fit, and there are no live nodes among the expanded ones that are cut off, unless
those in front of them are enough. The loop of `search` does not see that it has to copy nothing,
unless the first result is deleted. -/
structure Params.Shown (P : Params F) (K : ℕ) (f : Found F) : Prop where
  fits : min P.lSearch f.full.length ≤ resultRoom
  some_asked : K = 0 → ∀ n ∈ (P.sortNeighbors f.full).head?, P.live n.id = false
  enough : K ≤ ((P.sortNeighbors f.full).take P.lSearch).countP (fun n => P.live n.id) ∨
    ((P.sortNeighbors f.full).drop P.lSearch).countP (fun n => P.live n.id) = 0

instance (K : ℕ) (f : Found F) : Decidable (P.Shown K f) :=
  decidable_of_iff (min P.lSearch f.full.length ≤ resultRoom ∧
      (K = 0 → ∀ n ∈ (P.sortNeighbors f.full).head?, P.live n.id = false) ∧
      (K ≤ ((P.sortNeighbors f.full).take P.lSearch).countP (fun n => P.live n.id) ∨
        ((P.sortNeighbors f.full).drop P.lSearch).countP (fun n => P.live n.id) = 0))
    ⟨fun h => ⟨h.1, h.2.1, h.2.2⟩, fun h => ⟨h.fits, h.some_asked, h.enough⟩⟩

theorem copyLive_of_ne (deleted : ℕ → Bool) {K pos : ℕ} (hne : pos ≠ K) (rs : List (ℕ × F)) :
    copyLive deleted K pos rs =
      if pos < K then (rs.filter fun r => !deleted r.1).take (K - pos)
      else rs.filter fun r => !deleted r.1 := by
  induction rs generalizing pos with
  | nil => simp [copyLive]
  | cons r rs ih =>
    unfold copyLive
    by_cases hdel : deleted r.1 = true
    · rw [if_pos hdel, if_neg hne, ih hne, filter_cons_of_neg (by simp [hdel])]
    · rw [if_neg hdel, filter_cons_of_pos (by simp [hdel])]
      by_cases hlast : pos + 1 = K
      · rw [if_pos hlast, if_pos (by omega), show K - pos = 1 by omega]
        rfl
      · rw [if_neg hlast, ih hlast]
        by_cases hlt : pos < K
        · rw [if_pos hlt, if_pos (by omega), show K - pos = K - (pos + 1) + 1 by omega]
          rfl
        · rw [if_neg hlt, if_neg (by omega)]

theorem copyLive_zero_eq_nil (deleted : ℕ → Bool) (rs : List (ℕ × F)) :
    copyLive deleted 0 0 rs = [] ↔ ∀ r ∈ rs.head?, deleted r.1 = true := by
  cases rs with
  | nil => simp [copyLive]
  | cons r rs =>
    unfold copyLive
    by_cases hdel : deleted r.1 = true
    · simp [hdel]
    · simp [hdel]

theorem beamSearch_lSearch (f : Found F) :
    P.beamSearch P.lSearch f =
      ((P.sortNeighbors f.full).take P.lSearch).map fun n => (P.id2tag n.id, n.distance) := by
  rw [Params.beamSearch, take_take, Nat.min_self]

theorem length_beamSearch (f : Found F) :
    (P.beamSearch P.lSearch f).length = min P.lSearch f.full.length := by
  rw [beamSearch_lSearch, length_map, length_take, Params.sortNeighbors,
    length_insertionSort]

/-- What is copied if something is asked for. -/
theorem copyLive_beamSearch {K : ℕ} (hK : 0 < K) (f : Found F) :
    copyLive (fun tag => decide (tag ∈ P.excludeNodes)) K 0 (P.beamSearch P.lSearch f) =
      ((((P.sortNeighbors f.full).take P.lSearch).filter fun n => P.live n.id).take K).map fun n =>
        (P.id2tag n.id, n.distance) := by
  rw [copyLive_of_ne _ hK.ne, if_pos hK, beamSearch_lSearch, filter_map, map_take]
  rfl

theorem head?_beamSearch (hl : 1 ≤ P.lSearch) (f : Found F) :
    (∀ r ∈ (P.beamSearch P.lSearch f).head?, decide (r.1 ∈ P.excludeNodes) = true) ↔
      ∀ n ∈ (P.sortNeighbors f.full).head?, P.live n.id = false := by
  rw [beamSearch_lSearch, head?_map, head?_take, if_neg (by omega)]
  cases (P.sortNeighbors f.full).head? with
  | none => simp
  | some n => simp [Params.live]

theorem length_filter_live (f : Found F) :
    ((f.full.map fun n => n.id).filter P.live).length =
      ((P.sortNeighbors f.full).take P.lSearch).countP (fun n => P.live n.id) +
        ((P.sortNeighbors f.full).drop P.lSearch).countP fun n => P.live n.id := by
  have hperm : (P.sortNeighbors f.full).Perm f.full := perm_insertionSort _ _
  rw [← countP_append, take_append_drop, hperm.countP_eq, ← countP_eq_length_filter,
    countP_map]
  rfl

variable [LinearOrder F] {f : Found F} {K : ℕ} {dist : ℕ → F}

theorem sorted_sortNeighbors (hP : P.Ordered) (full : List (Merge.Neighbor F)) :
    (P.sortNeighbors full).Pairwise fun a b => a.distance ≤ b.distance :=
  pairwise_sort hP id full

/-- The results are the nearest live ones of the expanded nodes. -/
def Params.Right (P : Params F) (dist : ℕ → F) (K : ℕ) (f : Found F) : Prop :=
  ∃ ids, Nearest dist K ((f.full.map fun n => n.id).filter P.live) ids ∧
    P.search K f = some (ids.map fun id => (P.id2tag id, dist id))

/-- The nearest live ones in the order in which they are sorted. -/
theorem nearest_sortNeighbors (hP : P.Ordered) (hdist : ∀ n ∈ f.full, n.distance = dist n.id)
    (hnodup : (f.full.map fun n => n.id).Nodup) (K : ℕ) :
    Nearest dist K ((f.full.map fun n => n.id).filter P.live)
      ((((P.sortNeighbors f.full).filter fun n => P.live n.id).map fun n => n.id).take K) := by
  have hperm : (P.sortNeighbors f.full).Perm f.full := perm_insertionSort _ _
  apply nearest_take
  · apply pairwise_map.mpr
    refine ((sorted_sortNeighbors hP f.full).filter _).imp_of_mem fun ha hb hab => ?_
    have ha := hperm.subset (mem_of_mem_filter ha)
    have hb := hperm.subset (mem_of_mem_filter hb)
    rwa [← hdist _ ha, ← hdist _ hb]
  · exact ((hperm.map _).nodup_iff.mpr hnodup).sublist (filter_sublist.map _)
  · intro z
    rw [filter_map]
    exact ((hperm.filter _).map _).symm.mem_iff

theorem Params.Shown.right (hP : P.Ordered) (hdist : ∀ n ∈ f.full, n.distance = dist n.id)
    (hnodup : (f.full.map fun n => n.id).Nodup) (hl : 1 ≤ P.lSearch) (h : P.Shown K f) :
    P.Right dist K f := by
  refine ⟨_, nearest_sortNeighbors hP hdist hnodup K, ?_⟩
  rw [Params.search, length_beamSearch, if_pos h.fits, Option.some.injEq]
  rcases Nat.eq_zero_or_pos K with rfl | hK
  · rw [take_zero, map_nil, copyLive_zero_eq_nil, head?_beamSearch hl]
    exact h.some_asked rfl
  · -- The first `K` live ones are found before the cut.
    have hcut : (((P.sortNeighbors f.full).take P.lSearch).filter fun n => P.live n.id).take K =
        ((P.sortNeighbors f.full).filter fun n => P.live n.id).take K := by
      conv_rhs => rw [← take_append_drop P.lSearch (P.sortNeighbors f.full), filter_append]
      rcases h.enough with henough | hnone
      · rw [countP_eq_length_filter] at henough
        rw [take_append_of_le_length henough]
      · rw [countP_eq_length_filter] at hnone
        rw [length_eq_zero_iff.mp hnone, append_nil]
    rw [copyLive_beamSearch hK, hcut, ← map_take, map_map]
    refine map_congr_left fun n hn => ?_
    have hmem := mem_of_mem_filter (mem_of_mem_take hn)
    rw [Function.comp_apply, hdist n ((perm_insertionSort _ _).subset hmem)]

theorem Params.Right.shown (hnodup : (f.full.map fun n => n.id).Nodup) (hl : 1 ≤ P.lSearch)
    (h : P.Right dist K f) : P.Shown K f := by
  obtain ⟨ids, hn, hsearch⟩ := h
  have hlen := hn.length_eq (hnodup.filter _)
  rw [length_filter_live] at hlen
  rw [Params.search, length_beamSearch] at hsearch
  split_ifs at hsearch with hfits
  rw [Option.some.injEq] at hsearch
  refine ⟨hfits, ?_, ?_⟩
  · rintro rfl
    rw [Nat.zero_min, length_eq_zero_iff] at hlen
    rw [hlen, map_nil, copyLive_zero_eq_nil, head?_beamSearch hl] at hsearch
    exact hsearch
  · rcases Nat.eq_zero_or_pos K with rfl | hK
    · exact .inl (Nat.zero_le _)
    · rw [copyLive_beamSearch hK] at hsearch
      have hcopied := congrArg length hsearch
      rw [length_map, length_take, length_map, ← countP_eq_length_filter] at hcopied
      omega

end Results

/-- Without losing live ids too early the search finds what it would find if nothing was deleted,
and the results are right exactly if the deleted ids do not crowd them out. -/
theorem deletion_aware_search [LinearOrder F] (P : Params F) (N : Net) (m : ℕ)
    (h : BeamQuery P N m) (q : Scratch) (as : List Act) (x : Scratch × Loop F)
    (hrun : run (P.step N.graph) (q, P.init) as = some x) (hfin : P.finished x.2 = true) :
    (Meets (P.step N.graph) P.Unhurried (q, P.init) as →
      ∀ z ∈ x.2.visited, P.live z = true →
        z ∈ x.2.expanded ∨ Beaten P.pqDist₀ P.live P.lSearch x.2.visited z) ∧
    ∀ K, P.Right (fun id => P.compare P.query (N.coords id)) K x.2.found ↔ P.Shown K x.2.found := by
  have hx := h.beaming hrun
  constructor
  · intro hroom z hz hlive
    refine ((h.sparing hroom hrun).kept z hz hlive).imp_left fun hpool => ?_
    obtain ⟨c, hc, rfl⟩ := mem_map.mp hpool
    exact hx.pool_expanded h.mode hfin c hc
  · intro K
    constructor
    · exact fun hright => hright.shown hx.expanded_nodup h.length
    · exact fun hshown => hshown.right h.ordered hx.exact hx.expanded_nodup h.length

section Chain

/-- Node 0 with an edge to each of `first`, and edges from each node to the next one. -/
def chain (first : List ℕ) : Net where
  coords i := [i]
  nhood i := (if i = 0 then first else [i + 1]).filter (· < 3)
  nodes := Finset.range 3
  closed x _ y hy := Finset.mem_range.mpr (by simpa using (mem_filter.mp hy).2)

def chainParams (deleted : List ℕ) : Params ℕ where
  toOccludeParams := natParams
  mode := .beam
  lSearch := 2
  beamWidth := 1
  query := [0]
  compare _ b := b.sum
  pqDist₀ i := i
  excludeNodes := deleted
  dynSearchL := true
  id2tag i := i
  entries := [(0, 0)]
  medoid := 0

theorem chainParams_query (deleted first : List ℕ) :
    BeamQuery (chainParams deleted) (chain first) 0 where
  ordered := ordered_of_natParams rfl
  mode := rfl
  length := Nat.le_of_ble_eq_true rfl
  width := Nat.le_of_ble_eq_true rfl
  entry := rfl
  node := Finset.mem_range.mpr (Nat.le_of_ble_eq_true rfl)

def chainActs (n : ℕ) : List Act :=
  (replicate n [.beam (.read [0]), .beam .expand, .beam .next]).flatten

/-- Node 1 is deleted. The pool makes room for node 2, which is found; node 0 is the result. -/
theorem deletion_aware_search_chain :
    ∃ x, run ((chainParams [1]).step (chain [1]).graph) (fun _ => [], (chainParams [1]).init)
      (chainActs 3) = some x ∧
      (∀ z ∈ x.2.visited, (chainParams [1]).live z = true → z ∈ x.2.expanded ∨
        Beaten (chainParams [1]).pqDist₀ (chainParams [1]).live 2 x.2.visited z) ∧
      (chainParams [1]).Right (fun id => [id].sum) 1 x.2.found := by
  refine exists_some_imp (P := fun x => (chainParams [1]).finished x.2 = true ∧
    (chainParams [1]).Shown 1 x.2.found) (by decide +kernel) fun x hrun ⟨hfin, hshown⟩ => ?_
  have hroom : Meets ((chainParams [1]).step (chain [1]).graph) (chainParams [1]).Unhurried
      (fun _ => [], (chainParams [1]).init) (chainActs 3) := by
    decide +kernel
  obtain ⟨hkept, hright⟩ := deletion_aware_search (chainParams [1]) (chain [1]) 0
    (chainParams_query [1] [1]) (fun _ => []) (chainActs 3) x hrun hfin
  exact ⟨hkept hroom, (hright 1).mpr hshown⟩

/-- Nodes 0 and 1 are deleted. If both other nodes are neighbours of node 0, then node 2 is dropped
before the pool makes room for it. If node 2 is a neighbour of node 1 only, it is found, but there is
no result. -/
theorem search_loses_live_node :
    (∃ x, run ((chainParams [0, 1]).step (chain [1, 2]).graph)
      (fun _ => [], (chainParams [0, 1]).init) (chainActs 2) = some x ∧
        (chainParams [0, 1]).finished x.2 = true ∧
        ∃ z ∈ x.2.visited, (chainParams [0, 1]).live z = true ∧ z ∉ x.2.expanded ∧
          ¬ Beaten (chainParams [0, 1]).pqDist₀ (chainParams [0, 1]).live 2 x.2.visited z) ∧
    ∃ x, run ((chainParams [0, 1]).step (chain [1]).graph)
      (fun _ => [], (chainParams [0, 1]).init) (chainActs 3) = some x ∧
        (chainParams [0, 1]).finished x.2 = true ∧ 2 ∈ x.2.expanded ∧
        (chainParams [0, 1]).live 2 = true ∧ (chainParams [0, 1]).search 1 x.2.found = some [] := by
  decide +kernel

end Chain

end Ccann.Search
