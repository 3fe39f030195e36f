import Ccann.Concurrent.Runs
import Ccann.Search.Pool

/-! The search of the in-memory index. `iterate_to_fixed_point` keeps the nearest nodes in an array
of `Lsize + 1` places, which are filled with node 0 at the largest distance before a node is found;
the last place has the node that was last pushed out. The callers read places that no node was put
into as if there were one, and `search_with_tags_fast` skips the place of a node without a tag, such
as the frozen point, in its output too. -/

namespace Ccann.Index

open Concurrent Search Pools List

variable {F : Type*}

/-- A query and the index it is asked. `dist` is the distance of a node to the query, and the frozen
point, if there is one, is the node `maxPoints`. The loop crashes on a list with any other id. -/
structure Query (F : Type*) extends Merge.OccludeParams F where
  lSize : ℕ
  dist : ℕ → F
  maxPoints : ℕ
  numFrozenPts : ℕ
  ep : ℕ
  finalGraph : ℕ → List ℕ
  locationToTag : ℕ → Option ℕ
  ep_lt : ep < maxPoints + numFrozenPts
  finalGraph_lt : ∀ n, ∀ m ∈ finalGraph n, m < maxPoints + numFrozenPts

/-- The first `l` places of `best_L_nodes`, the last one, and `inserted_into_pool`. -/
structure Best (F : Type*) where
  pool : List (Cand F)
  inserted : List ℕ
  spill : Option (Cand F) := none
  k : ℕ := 0

namespace Query

section Loop

variable (I : Query F)

/-- A disk search whose pool takes the same nodes. -/
def params : Params F where
  toOccludeParams := I.toOccludeParams
  mode := .beam
  lSearch := I.lSize
  beamWidth := 1
  query := []
  compare _ _ := I.ops.zero
  pqDist₀ := I.dist
  excludeNodes := []
  dynSearchL := false
  id2tag n := n
  entries := []
  medoid := I.ep

/-- A node that is inserted into a full pool moves the last one to the place behind it. -/
def offer (x : (List (Cand F) × ℕ) × Option (Cand F)) (y : ℕ) :
    (List (Cand F) × ℕ) × Option (Cand F) :=
  (I.params.offer I.lSize x.1 y,
    if x.1.1.length = I.lSize ∧ ¬ x.1.1.getLast?.any fun c => I.le c.distance (I.dist y) then
      x.1.1.getLast?
    else x.2)

def expand (s : Best F) (c : Cand F) : (List (Cand F) × ℕ) × Option (Cand F) :=
  (discover (I.finalGraph c.id) s.inserted).1.foldl I.offer
    ((s.pool.set s.k { c with flag := false }, s.pool.length), s.spill)

/-- The next `k`: back to the first place a node was put at, or on by one. -/
def cursor (s : Best F) (c : Cand F) : ℕ :=
  if (I.expand s c).1.2 ≤ s.k then (I.expand s c).1.2 else s.k + 1

def step (s : Best F) : Best F :=
  match s.pool[s.k]? with
  | none => s
  | some c =>
    if c.flag then
      { pool := (I.expand s c).1.1
        inserted := (discover (I.finalGraph c.id) s.inserted).2
        spill := (I.expand s c).2
        k := I.cursor s c }
    else { s with k := s.k + 1 }

/-- The loop; `none` if it has not ended after `fuel` rounds. -/
def iterateToFixedPoint : ℕ → Best F → Option (Best F)
  | 0, _ => none
  | fuel + 1, s =>
    if s.k < s.pool.length then iterateToFixedPoint fuel (I.step s) else some s

def start : Best F where
  pool := [I.params.fresh I.ep]
  inserted := [I.ep]

/-- All places of `best_L_nodes`. -/
def bestLNodes (s : Best F) : List (Merge.Neighbor F) :=
  s.pool.map (fun c => c.toNeighbor) ++
    (replicate (I.lSize - s.pool.length) ⟨0, I.huge⟩ ++
      [(s.spill.map fun c => c.toNeighbor).getD ⟨0, I.huge⟩])

def tagged (nn : Merge.Neighbor F) : Option (ℕ × F) :=
  (I.locationToTag nn.id).map fun tag => (tag, nn.distance)

def numbered (nn : Merge.Neighbor F) : Option (ℕ × F) :=
  if nn.id < I.maxPoints then some (nn.id, nn.distance) else none

end Loop

/-- The loop of `search` over the places; it asks if there are `K` results after each of them. -/
def collect (label : Merge.Neighbor F → Option (ℕ × F)) (K : ℕ) :
    List (Merge.Neighbor F) → List (ℕ × F) → List (ℕ × F)
  | [], out => out
  | nn :: nns, out =>
    if (out ++ (label nn).toList).length = K then out ++ (label nn).toList
    else collect label K nns (out ++ (label nn).toList)

section Results

variable (I : Query F)

/-- The `search` that gives out tags. -/
def searchTags (K : ℕ) (s : Best F) : List (ℕ × F) :=
  collect I.tagged K (I.bestLNodes s) []

/-- The `search` that gives out indices. -/
def searchIndices (K : ℕ) (s : Best F) : List (ℕ × F) :=
  collect I.numbered K (I.bestLNodes s) []

/-- What is written to each place of `tags` and `dists`. -/
def searchWithTagsFast (s : Best F) : List (Option (ℕ × F)) :=
  ((I.bestLNodes s).take I.lSize).map I.tagged

/-- The entry ids of para and pipe search, whose `mem_tags` are zeroes before the call. -/
def memTags (s : Best F) : List ℕ :=
  (I.searchWithTagsFast s).map fun o => (o.map Prod.fst).getD 0

def Reached (n : ℕ) : Prop :=
  Relation.ReflTransGen (fun x y => y ∈ I.finalGraph x) I.ep n

/-- Distinct nodes that are reached, in the order of their distances. -/
def Listed [LE F] (ns : List ℕ) : Prop :=
  ns.Nodup ∧ (∀ n ∈ ns, I.Reached n) ∧ ns.Pairwise fun x y => I.dist x ≤ I.dist y

/-- Such nodes are given out with their distances; the places behind them are untouched. -/
def Right [LE F] (label : Merge.Neighbor F → Option (ℕ × F)) (out : List (Option (ℕ × F))) : Prop :=
  ∃ (ns : List ℕ) (rest : ℕ), I.Listed ns ∧ (∀ n ∈ ns, (label ⟨n, I.dist n⟩).isSome) ∧
    out = ns.map (fun n => label ⟨n, I.dist n⟩) ++ replicate rest none

/-- The entry ids are distinct, and all of them are results. -/
def RightEntries (s : Best F) : Prop :=
  (I.memTags s).Nodup ∧
    (I.memTags s).map some = (I.searchWithTagsFast s).map (Option.map Prod.fst)

/-- Only points have tags, each its own. -/
structure TagsPoints : Prop where
  lt : ∀ n, (I.locationToTag n).isSome → n < I.maxPoints
  inj : ∀ m n tag, I.locationToTag m = some tag → I.locationToTag n = some tag → m = n

theorem Reached.lt {n : ℕ} {I : Query F} (h : I.Reached n) : n < I.maxPoints + I.numFrozenPts := by
  cases h with
  | refl => exact I.ep_lt
  | tail _ hedge => exact I.finalGraph_lt _ _ hedge

end Results

variable {I : Query F} {s : Best F} {label : Merge.Neighbor F → Option (ℕ × F)} {c : Cand F}
  {ns : List ℕ}

theorem finite_reached (I : Query F) : {n | I.Reached n}.Finite :=
  (Set.finite_lt_nat _).subset fun _ hn => Reached.lt hn

/-- Distinct reached nodes are not more than there are. -/
theorem length_le_ncard (hnodup : ns.Nodup) (hreach : ∀ n ∈ ns, I.Reached n) :
    ns.length ≤ {n | I.Reached n}.ncard := by
  rw [← toFinset_card_of_nodup hnodup, ← Set.ncard_coe_finset]
  exact Set.ncard_le_ncard (fun n hn => hreach n (mem_toFinset.mp hn)) I.finite_reached

theorem collect_some {K : ℕ} (rest nns : List (Merge.Neighbor F)) (out : List (ℕ × F))
    (hlabel : ∀ nn ∈ nns, (label nn).isSome) (hlt : out.length < K)
    (hle : K ≤ out.length + nns.length) :
    (collect label K (nns ++ rest) out).map some =
      out.map some ++ (nns.take (K - out.length)).map label := by
  induction nns generalizing out with
  | nil => exact absurd hle (by simpa using hlt)
  | cons nn nns ih =>
    obtain ⟨a, ha⟩ := Option.isSome_iff_exists.mp (hlabel nn mem_cons_self)
    rw [length_cons] at hle
    obtain ⟨m, hm⟩ := Nat.exists_eq_add_of_lt hlt
    have htake : K - out.length = m + 1 := by omega
    rw [cons_append, collect, ha, Option.toList_some, length_append, length_singleton, htake,
      take_succ_cons, map_cons, ha]
    split_ifs with hK
    · rw [show m = 0 by omega, map_append]
      rfl
    · rw [ih _ (fun b hb => hlabel b (mem_cons_of_mem _ hb)) (by simp; omega) (by simp; omega),
        map_append, append_assoc, length_append, length_singleton,
        show K - (out.length + 1) = m by omega]
      rfl

/-- Clearing a flag changes no id and no distance. -/
theorem map_set_flag {α : Type*} {pool : List (Cand F)} {k : ℕ} (f : Cand F → α)
    (hf : f { c with flag := false } = f c) (hc : pool[k]? = some c) :
    (pool.set k { c with flag := false }).map f = pool.map f := by
  obtain ⟨hk, rfl⟩ := List.getElem?_eq_some_iff.mp hc
  have hself := @set_getElem_self _ (pool.map f) k (by simpa using hk)
  rw [map_set, hf]
  simpa using hself

theorem foldl_offer_fst (ys : List ℕ) (x : (List (Cand F) × ℕ) × Option (Cand F)) :
    (ys.foldl I.offer x).1 = ys.foldl (I.params.offer I.lSize) x.1 :=
  (foldl_hom Prod.fst fun _ _ => rfl).symm

theorem step_of_flag (hc : s.pool[s.k]? = some c) (hflag : c.flag = true) :
    I.step s = ⟨(I.expand s c).1.1, (discover (I.finalGraph c.id) s.inserted).2, (I.expand s c).2,
      I.cursor s c⟩ := by
  rw [step, hc]
  exact if_pos hflag

variable [LinearOrder F]

/-- The loop has inserted reached nodes only. Where its pool is not full, it has all of them; the
lists of the nodes in front of `k` were read. -/
structure Reaching (I : Query F) (s : Best F) : Prop where
  pooled : Pooled I.params s.inserted s.pool
  nearest : Nearest I.dist I.lSize s.inserted (s.pool.map fun c => c.id)
  distinct : s.inserted.Nodup
  reached : ∀ y ∈ s.inserted, I.Reached y
  start : I.ep ∈ s.inserted
  read : ∀ c ∈ s.pool, c.flag = false → ∀ y ∈ I.finalGraph c.id, y ∈ s.inserted
  before : ∀ c ∈ s.pool.take s.k, c.flag = false
  le : s.k ≤ s.pool.length

theorem reaching_start (hl : 1 ≤ I.lSize) : Reaching I I.start where
  pooled := pooled_fresh _ _
  nearest := nearest_singleton hl I.ep
  distinct := nodup_singleton _
  reached y hy := by
    rw [mem_singleton.mp hy]
    exact .refl
  start := mem_singleton_self _
  read c hc hflag := by
    rw [mem_singleton.mp hc] at hflag
    cases hflag
  before _ hc := absurd hc not_mem_nil
  le := Nat.zero_le _

/-- How many rounds are left: a round inserts a node or moves `k` on. -/
def left (I : Query F) (s : Best F) : ℕ :=
  (I.maxPoints + I.numFrozenPts - s.inserted.length) * (I.lSize + 1) + (I.lSize - s.k)

theorem Reaching.length_le (h : Reaching I s) :
    s.inserted.length ≤ I.maxPoints + I.numFrozenPts := by
  have hsub : s.inserted ⊆ range (I.maxPoints + I.numFrozenPts) := fun y hy =>
    mem_range.mpr (h.reached y hy).lt
  simpa using (h.distinct.subperm hsub).length_le

theorem Reaching.expand (hI : I.params.Ordered) (h : Reaching I s) (hc : s.pool[s.k]? = some c)
    (hflag : c.flag = true) : Reaching I (I.step s) := by
  obtain ⟨hnodup, hnew⟩ := discover_new (I.finalGraph c.id) s.inserted
  have hp := h.pooled.of_neighbors (map_set_flag _ rfl hc)
  have hseen := discover_snd (I.finalGraph c.id) s.inserted
  have hfold : (I.expand s c).1 = _ := foldl_offer_fst _ _
  have hpooled := foldl_offer_pooled (l := I.lSize) (x := (_, s.pool.length)) hI hp hnodup hnew
  have hpushed := foldl_offer_pushed (l := I.lSize) (x := (_, s.pool.length)) hI hp hnodup hnew
  have hnear := foldl_offer_nearest (l := I.lSize) (x := (_, s.pool.length)) hI hp hnodup hnew
    (by rw [map_set_flag _ rfl hc]; exact h.nearest)
  rw [← hseen, ← hfold] at hpooled hnear
  rw [← hfold] at hpushed
  obtain ⟨hk, -⟩ := List.getElem?_eq_some_iff.mp hc
  have hcursor : I.cursor s c ≤ (I.expand s c).1.2 ∧ I.cursor s c ≤ s.k + 1 := by
    unfold cursor
    split_ifs <;> omega
  rw [step_of_flag hc hflag]
  refine ⟨hpooled, hnear, ?_, fun y hy => ?_, mem_discover_snd.mpr (.inr h.start),
    fun d hd hd' y hy => ?_, fun d hd => ?_, ?_⟩
  · show (discover (I.finalGraph c.id) s.inserted).2.Nodup
    rw [hseen]
    exact nodup_append.mpr ⟨nodup_reverse.mpr hnodup, h.distinct, fun y hy z hz heq =>
      hnew y (mem_reverse.mp hy) (heq ▸ hz)⟩
  · rcases mem_discover_snd.mp hy with hy | hy
    · exact (h.reached c.id (h.pooled.subset (mem_map_of_mem (mem_of_getElem? hc)))).tail hy
    · exact h.reached y hy
  · rcases hpushed.mem d hd with hd | ⟨heq, -⟩
    · rcases mem_or_eq_of_mem_set hd with hd | rfl
      · exact mem_discover_snd.mpr (.inr (h.read d hd hd' y hy))
      · exact mem_discover_snd.mpr (.inl hy)
    · rw [heq] at hd'
      cases hd'
  · -- what is in front of the first new place did not change
    have hcut := congrArg (take (I.cursor s c)) hpushed.take
    rw [take_take, take_take, Nat.min_eq_left hcursor.1] at hcut
    have hd := take_subset_take_left _ hcursor.2 (hcut ▸ hd)
    rw [take_add_one, take_set_of_le (Nat.le_refl _), getElem?_set_self hk] at hd
    rcases mem_append.mp hd with hd | hd
    · exact h.before d hd
    · rw [mem_singleton.mp hd]
  · have hlen := hpushed.length
    rw [length_set] at hlen
    exact hcursor.2.trans (hk.trans_le hlen)

theorem Reaching.left_expand (h : Reaching I s) (hc : s.pool[s.k]? = some c) (hflag : c.flag = true)
    (h' : Reaching I (I.step s)) : I.left (I.step s) < I.left s := by
  obtain ⟨hk, -⟩ := List.getElem?_eq_some_iff.mp hc
  have hpool := h.nearest.length_le
  have hle := h'.length_le
  rw [length_map] at hpool
  rw [step_of_flag hc hflag] at hle ⊢
  simp only [left, discover_snd, length_append, length_reverse] at hle ⊢
  rcases eq_or_ne (discover (I.finalGraph c.id) s.inserted).1 [] with hys | hys
  · have hnext : I.cursor s c = s.k + 1 := by
      rw [cursor, Query.expand, hys]
      exact if_neg (Nat.not_le.mpr hk)
    rw [hys, hnext, length_nil, Nat.zero_add]
    omega
  · have hpos := length_pos_iff.mpr hys
    have hmul := Nat.mul_le_mul_right (I.lSize + 1) (show I.maxPoints + I.numFrozenPts -
      ((discover (I.finalGraph c.id) s.inserted).1.length + s.inserted.length) + 1 ≤
      I.maxPoints + I.numFrozenPts - s.inserted.length by omega)
    rw [Nat.add_one_mul] at hmul
    omega

theorem Reaching.step (hI : I.params.Ordered) (h : Reaching I s) (hk : s.k < s.pool.length) :
    Reaching I (I.step s) ∧ I.left (I.step s) < I.left s := by
  have hc := getElem?_eq_getElem hk
  cases hflag : s.pool[s.k].flag with
  | true => exact ⟨h.expand hI hc hflag, h.left_expand hc hflag (h.expand hI hc hflag)⟩
  | false =>
    have hstep : I.step s = { s with k := s.k + 1 } := by
      rw [Query.step, hc]
      exact if_neg (by simp [hflag])
    have hlen := h.nearest.length_le
    rw [length_map] at hlen
    rw [hstep]
    refine ⟨⟨h.pooled, h.nearest, h.distinct, h.reached, h.start, h.read, fun d hd => ?_, hk⟩, ?_⟩
    · rw [take_add_one, hc] at hd
      rcases mem_append.mp hd with hd | hd
      · exact h.before d hd
      · rwa [mem_singleton.mp hd]
    · exact Nat.add_lt_add_left (Nat.sub_lt_sub_left (hk.trans_le hlen) (Nat.lt_succ_self _)) _

/-- The loop ends. -/
theorem Reaching.iterate (hI : I.params.Ordered) (h : Reaching I s) :
    ∃ t, Reaching I t ∧ t.pool.length ≤ t.k ∧
      ∀ fuel, I.left s < fuel → I.iterateToFixedPoint fuel s = some t := by
  induction hn : I.left s using Nat.strong_induction_on generalizing s with
  | _ n ih =>
    subst hn
    by_cases hk : s.k < s.pool.length
    · obtain ⟨hstep, hlt⟩ := h.step hI hk
      obtain ⟨t, ht, hend, hrun⟩ := ih _ hlt hstep rfl
      refine ⟨t, ht, hend, fun fuel hfuel => ?_⟩
      obtain ⟨fuel, rfl⟩ := Nat.exists_eq_add_of_lt hfuel
      rw [iterateToFixedPoint, if_pos hk]
      exact hrun _ (by omega)
    · refine ⟨s, h, Nat.le_of_not_lt hk, fun fuel hfuel => ?_⟩
      obtain ⟨fuel, rfl⟩ := Nat.exists_eq_add_of_lt hfuel
      rw [iterateToFixedPoint, if_neg hk]

theorem Reaching.of_iterate (hI : I.params.Ordered) {fuel : ℕ} {t : Best F} (h : Reaching I s)
    (hrun : I.iterateToFixedPoint fuel s = some t) : Reaching I t ∧ t.pool.length ≤ t.k := by
  induction fuel generalizing s with
  | zero => cases hrun
  | succ fuel ih =>
    rw [iterateToFixedPoint] at hrun
    split_ifs at hrun with hk
    · exact ih (h.step hI hk).1 hrun
    · cases hrun
      exact ⟨h, Nat.le_of_not_lt hk⟩

/-- Where the loop ends with a pool that is not full, the pool has all reached nodes. -/
theorem Reaching.mem_pool (h : Reaching I s) (hend : s.pool.length ≤ s.k)
    (hlt : s.pool.length < I.lSize) {n : ℕ} (hn : I.Reached n) : n ∈ s.pool.map fun c => c.id := by
  have hall : ∀ y ∈ s.inserted, y ∈ s.pool.map fun c => c.id := by
    intro y hy
    by_contra hnot
    have hfull := (h.nearest.far y hy hnot).1
    rw [length_map] at hfull
    omega
  induction hn with
  | refl => exact hall _ h.start
  | tail _ hedge ih =>
    obtain ⟨c, hc, rfl⟩ := mem_map.mp ih
    have hread := h.before c (by rwa [take_of_length_le hend])
    exact hall _ (h.read c hc hread _ hedge)

theorem Reaching.full_iff (h : Reaching I s) (hend : s.pool.length ≤ s.k) :
    s.pool.length = I.lSize ↔ I.lSize ≤ {n | I.Reached n}.ncard := by
  have hlen := h.nearest.length_le
  rw [length_map] at hlen
  constructor
  · intro hfull
    rw [← hfull, ← length_map (f := fun c : Cand F => c.id)]
    exact length_le_ncard h.nearest.nodup fun n hn => h.reached n (h.nearest.subset hn)
  intro hcard
  by_contra hne
  have hsub : {n | I.Reached n} ⊆ ((s.pool.map fun c => c.id).toFinset : Set ℕ) := fun n hn =>
    mem_toFinset.mpr (h.mem_pool hend (by omega) hn)
  have hle := Set.ncard_le_ncard hsub
  rw [Set.ncard_coe_finset, toFinset_card_of_nodup h.nearest.nodup, length_map] at hle
  omega

theorem Reaching.listed (h : Reaching I s) : I.Listed (s.pool.map fun c => c.id) :=
  ⟨h.nearest.nodup, fun n hn => h.reached n (h.nearest.subset hn), h.nearest.sorted⟩

/-- The places of a full pool are reached nodes, with their distances. -/
theorem Reaching.bestLNodes (h : Reaching I s) (hfull : s.pool.length = I.lSize) :
    ∃ last : Merge.Neighbor F,
      I.bestLNodes s = (s.pool.map fun c => c.id).map (fun n => ⟨n, I.dist n⟩) ++ [last] := by
  refine ⟨(s.spill.map fun c => c.toNeighbor).getD ⟨0, I.huge⟩, ?_⟩
  rw [Query.bestLNodes, hfull, Nat.sub_self, replicate_zero, nil_append, map_map]
  congr 1
  refine map_congr_left fun c hc => ?_
  rw [Function.comp_apply, ← show c.distance = I.dist c.id from h.pooled.scored c hc]

theorem Listed.right (h : I.Listed ns) (hlabel : ∀ n ∈ ns, (label ⟨n, I.dist n⟩).isSome)
    (K : ℕ) : I.Right label (((ns.map fun n => ⟨n, I.dist n⟩).take K).map label) := by
  refine ⟨ns.take K, 0, ⟨h.1.sublist (take_sublist _ _), fun n hn => h.2.1 n (mem_of_mem_take hn),
    h.2.2.sublist (take_sublist _ _)⟩, fun n hn => hlabel n (mem_of_mem_take hn), ?_⟩
  rw [← map_take, map_map, replicate_zero, append_nil]
  rfl

/-- `search` gives out the first `K` nodes of a full pool. -/
theorem Listed.collect (h : I.Listed ns) (hlabel : ∀ n ∈ ns, (label ⟨n, I.dist n⟩).isSome)
    {K : ℕ} (hK : 1 ≤ K) (hle : K ≤ ns.length) (last : Merge.Neighbor F) :
    I.Right label
      ((collect label K (ns.map (fun n => ⟨n, I.dist n⟩) ++ [last]) []).map some) := by
  rw [collect_some _ _ _ (fun nn hnn => ?_) hK (by simpa using hle)]
  · exact h.right hlabel K
  · obtain ⟨n, hn, rfl⟩ := mem_map.mp hnn
    exact hlabel n hn

/-- Results that all are entry ids come from a full pool of nodes with tags. -/
theorem Reaching.of_right (h : Reaching I s) (hend : s.pool.length ≤ s.k)
    (hright : I.Right I.tagged (I.searchWithTagsFast s)) (hentries : I.RightEntries s) :
    s.pool.length = I.lSize ∧ ∀ c ∈ s.pool, (I.locationToTag c.id).isSome := by
  have hsome : ∀ o ∈ I.searchWithTagsFast s, o.isSome := by
    intro o ho
    have heq := hentries.2
    rw [memTags, map_map, map_inj_left] at heq
    have := heq o ho
    cases o with
    | none => cases this
    | some a => rfl
  -- no place is left untouched, so that as many nodes are reached as there are places
  have hfull : s.pool.length = I.lSize := by
    obtain ⟨ns, rest, hlisted, -, hout⟩ := hright
    have hrest : rest = 0 := by
      by_contra hne
      have hnone := hsome none (by rw [hout]; simp [hne])
      cases hnone
    have hlen := congrArg length hout
    have hle := length_le_ncard hlisted.1 hlisted.2.1
    simp [searchWithTagsFast, Query.bestLNodes, hrest] at hlen
    exact (h.full_iff hend).mpr (by omega)
  refine ⟨hfull, fun c hc => ?_⟩
  obtain ⟨last, hbest⟩ := h.bestLNodes hfull
  have hmem : I.tagged ⟨c.id, I.dist c.id⟩ ∈ I.searchWithTagsFast s := by
    rw [searchWithTagsFast, hbest, take_left' (by simpa using hfull)]
    exact mem_map_of_mem (mem_map_of_mem (mem_map_of_mem hc))
  simpa [tagged] using hsome _ hmem

/-- All results are right, and the entry ids are all results, if and only if the pool that the loop
ends with is full and all its nodes have tags. The pool is full if and only if as many nodes are
reached. -/
theorem search_results_right_iff (I : Query F) (hI : I.params.Ordered) (hl : 1 ≤ I.lSize)
    (htags : I.TagsPoints) :
    (∃ enough, ∀ fuel, enough < fuel → (I.iterateToFixedPoint fuel I.start).isSome) ∧
    ∀ fuel s, I.iterateToFixedPoint fuel I.start = some s →
      (s.pool.length = I.lSize ↔ I.lSize ≤ {n | I.Reached n}.ncard) ∧
      (((∀ K, 1 ≤ K → K ≤ I.lSize → I.Right I.tagged ((I.searchTags K s).map some) ∧
          I.Right I.numbered ((I.searchIndices K s).map some)) ∧
        I.Right I.tagged (I.searchWithTagsFast s) ∧ I.RightEntries s) ↔
      s.pool.length = I.lSize ∧ ∀ c ∈ s.pool, (I.locationToTag c.id).isSome) := by
  obtain ⟨t, -, -, hrun⟩ := (reaching_start hl).iterate hI
  refine ⟨⟨_, fun fuel hfuel => by rw [hrun fuel hfuel]; rfl⟩, fun fuel s hs => ?_⟩
  obtain ⟨h, hend⟩ := (reaching_start hl).of_iterate hI hs
  refine ⟨h.full_iff hend, fun hright => h.of_right hend hright.2.1 hright.2.2,
    fun ⟨hfull, hpool⟩ => ?_⟩
  obtain ⟨last, hbest⟩ := h.bestLNodes hfull
  have hlisted := h.listed
  have hlen : (s.pool.map fun c => c.id).length = I.lSize := (length_map _).trans hfull
  have htagged : ∀ n ∈ s.pool.map fun c => c.id, (I.locationToTag n).isSome := by
    simpa using hpool
  generalize (s.pool.map fun c => c.id) = ns at *
  have htag : ∀ n ∈ ns, (I.tagged ⟨n, I.dist n⟩).isSome := fun n hn => by
    simpa [tagged] using htagged n hn
  have hnum : ∀ n ∈ ns, (I.numbered ⟨n, I.dist n⟩).isSome := fun n hn => by
    simp [numbered, htags.lt n (htagged n hn)]
  have hfast : I.searchWithTagsFast s = (ns.map fun n => ⟨n, I.dist n⟩).map I.tagged := by
    rw [searchWithTagsFast, hbest, take_left' (by simpa using hlen)]
  have hmem : (I.memTags s).map some = ns.map I.locationToTag := by
    rw [memTags, hfast, map_map, map_map, map_map]
    refine map_congr_left fun n hn => ?_
    obtain ⟨tag, htag⟩ := Option.isSome_iff_exists.mp (htagged n hn)
    simp [tagged, htag]
  refine ⟨fun K hK hle => ⟨?_, ?_⟩, ?_, ?_, ?_⟩
  · rw [searchTags, hbest]
    exact hlisted.collect htag hK (hle.trans_eq hlen.symm) last
  · rw [searchIndices, hbest]
    exact hlisted.collect hnum hK (hle.trans_eq hlen.symm) last
  · rw [hfast, ← take_of_length_le (i := ns.length) (l := ns.map _) (by simp)]
    exact hlisted.right htag _
  · refine Nodup.of_map some ?_
    rw [hmem]
    refine hlisted.1.map_on fun m hm n _ heq => ?_
    obtain ⟨tag, htag⟩ := Option.isSome_iff_exists.mp (htagged m hm)
    exact htags.inj m n tag htag (heq ▸ htag)
  · rw [hmem, hfast, map_map, map_map]
    refine map_congr_left fun n hn => ?_
    simp [tagged, Function.comp_def]

section Frozen

/-- Two points and the frozen point, which is the start and farther than both. -/
def dynamic : Query ℕ where
  toOccludeParams := natParams
  lSize := 2
  dist n := if n = 2 then 5 else n
  maxPoints := 2
  numFrozenPts := 1
  ep := 2
  finalGraph n := if n = 2 then [0, 1] else [2]
  locationToTag n := if n < 2 then some (n + 10) else none
  ep_lt := by decide
  finalGraph_lt n m hm := by
    split_ifs at hm <;> simp at hm <;> omega

theorem dynamic_tagsPoints : dynamic.TagsPoints where
  lt n hn := by
    have hle : n ≤ 1 := by simpa [dynamic] using hn
    exact Nat.lt_succ_of_le hle
  inj m n tag hm hn := by
    simp only [dynamic, Option.ite_none_right_eq_some, Option.some.injEq] at hm hn
    omega

/-- The start has no tag, but it is pushed out of the pool. -/
theorem search_results_right_dynamic :
    ∃ s, dynamic.iterateToFixedPoint 10 dynamic.start = some s ∧
      dynamic.searchTags 2 s = [(10, 0), (11, 1)] ∧
      dynamic.Right dynamic.tagged ((dynamic.searchTags 2 s).map some) ∧
      dynamic.RightEntries s := by
  obtain ⟨s, hs, hpool, hout⟩ : ∃ s, dynamic.iterateToFixedPoint 10 dynamic.start = some s ∧
      (s.pool.length = dynamic.lSize ∧ ∀ c ∈ s.pool, (dynamic.locationToTag c.id).isSome) ∧
      dynamic.searchTags 2 s = [(10, 0), (11, 1)] := by
    decide +kernel
  have hiff := ((search_results_right_iff dynamic (ordered_of_natParams rfl) (by decide)
    dynamic_tagsPoints).2 10 s hs).2
  obtain ⟨hsearch, -, hentries⟩ := hiff.mpr hpool
  exact ⟨s, hs, hout, (hsearch 2 (by decide) (by decide)).1, hentries⟩

/-- A point with the tag 7, and the frozen point. -/
def frozen : Query ℕ where
  toOccludeParams := natParams
  lSize := 2
  dist n := n + 3
  maxPoints := 1
  numFrozenPts := 1
  ep := 1
  finalGraph n := if n = 1 then [0] else [1]
  locationToTag n := if n = 0 then some 7 else none
  ep_lt := by decide
  finalGraph_lt n m hm := by
    split_ifs at hm <;> simp_all

/-- The only point is found and given out twice; para and pipe search get a tag that no point has. -/
theorem search_results_frozen :
    ∃ s, frozen.iterateToFixedPoint 10 frozen.start = some s ∧
      frozen.searchTags 2 s = [(7, 3), (7, 2 ^ 128)] ∧
      frozen.searchIndices 2 s = [(0, 3), (0, 2 ^ 128)] ∧
      frozen.searchWithTagsFast s = [some (7, 3), none] ∧ frozen.memTags s = [7, 0] := by
  decide +kernel

/-- The loop ends at a greedy fixed point: a neighbour of a node in the pool is in the pool, or the
pool is full of nodes that are not farther. A pool that is not full has all reached nodes. -/
theorem search_fixed_point (I : Query F) (hI : I.params.Ordered) (hl : 1 ≤ I.lSize) :
    ∃ s, (∃ enough, ∀ fuel, enough < fuel → I.iterateToFixedPoint fuel I.start = some s) ∧
      s.pool.length ≤ I.lSize ∧ I.Listed (s.pool.map fun c => c.id) ∧
      (∀ c ∈ s.pool, ∀ y ∈ I.finalGraph c.id, y ∈ s.pool.map (fun c => c.id) ∨
        s.pool.length = I.lSize ∧ ∀ d ∈ s.pool, I.dist d.id ≤ I.dist y) ∧
      (s.pool.length < I.lSize → ∀ n, I.Reached n ↔ n ∈ s.pool.map fun c => c.id) := by
  obtain ⟨s, h, hend, hrun⟩ := (reaching_start hl).iterate hI
  have hreached : ∀ n ∈ s.pool.map (fun c => c.id), I.Reached n := fun n hn =>
    h.reached n (h.nearest.subset hn)
  have hlen := h.nearest.length_le
  rw [length_map] at hlen
  refine ⟨s, ⟨_, hrun⟩, hlen, ⟨h.nearest.nodup, hreached, h.nearest.sorted⟩, fun c hc y hy => ?_,
    fun hlt n => ⟨h.mem_pool hend hlt, hreached n⟩⟩
  by_cases hmem : y ∈ s.pool.map fun c => c.id
  · exact .inl hmem
  · have hread := h.before c (by rwa [take_of_length_le hend])
    obtain ⟨hfull, hfar⟩ := h.nearest.far y (h.read c hc hread y hy) hmem
    rw [length_map] at hfull
    exact .inr ⟨hfull, fun d hd => hfar d.id (mem_map_of_mem hd)⟩

theorem search_fixed_point_frozen :
    ∃ s, (∃ enough, ∀ fuel, enough < fuel → frozen.iterateToFixedPoint fuel frozen.start = some s) ∧
      frozen.Listed (s.pool.map fun c => c.id) := by
  obtain ⟨s, hrun, -, hlisted, -⟩ :=
    search_fixed_point frozen (ordered_of_natParams rfl) (by decide)
  exact ⟨s, hrun, hlisted⟩

end Frozen

end Query

end Ccann.Index
