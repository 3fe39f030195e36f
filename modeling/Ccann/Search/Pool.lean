import Ccann.Search.Loops
import Ccann.Pools.Nearest

/-! The pool of a search when distances are compared as in a linear order. The bisection of
`InsertIntoPool` ends at two places next to each other, of which the first is not farther and the
second not nearer than the new candidate, so the pool stays sorted. An id is offered to the pool
only once. It is left out if the pool is full of candidates that are not farther, and otherwise the
last candidate of a full pool makes room for it. -/

namespace Ccann.Search

open Pools List

variable {F : Type*} [LinearOrder F]

/-- The comparisons are those of the order; no distance is a NaN. -/
structure Params.Ordered (P : Params F) : Prop where
  lt : ∀ a b, P.ops.lt a b = true ↔ a < b
  le : ∀ a b, P.le a b = true ↔ a ≤ b
  eq : ∀ a b, P.ops.eq a b = true ↔ a = b

section Order

variable {P : Params F}

theorem before_eq_false (hP : P.Ordered) (a b : Merge.Neighbor F) :
    P.before b a = false ↔ toLex (a.distance, a.id) ≤ toLex (b.distance, b.id) := by
  rw [← Bool.not_eq_true, Merge.OccludeParams.before, Bool.or_eq_true, Bool.and_eq_true, hP.lt,
    hP.eq, decide_eq_true_iff, ← not_lt, Prod.Lex.toLex_lt_toLex]

/-- Sorting by `operator<` sorts by distance. -/
theorem pairwise_sort {α : Type*} (hP : P.Ordered) (f : α → Merge.Neighbor F) (l : List α) :
    (l.insertionSort fun a b => P.before (f b) (f a) = false).Pairwise fun a b =>
      (f a).distance ≤ (f b).distance := by
  have htotal : Std.Total fun a b : α => P.before (f b) (f a) = false := by
    constructor
    intro a b
    rw [before_eq_false hP, before_eq_false hP]
    exact le_total _ _
  have htrans : IsTrans α fun a b : α => P.before (f b) (f a) = false := by
    constructor
    intro a b c
    rw [before_eq_false hP, before_eq_false hP, before_eq_false hP]
    exact le_trans
  refine (pairwise_insertionSort _ l).imp fun hab => ?_
  rw [before_eq_false hP, Prod.Lex.toLex_le_toLex] at hab
  rcases hab with hab | hab
  · exact le_of_lt hab
  · exact le_of_eq hab.1

end Order

/-- In the order of the distances. -/
def Sorted (pool : List (Cand F)) : Prop :=
  pool.Pairwise fun a b => a.distance ≤ b.distance

theorem Sorted.of_distances {pool pool' : List (Cand F)} (h : Sorted pool)
    (heq : pool'.map (fun c => c.distance) = pool.map fun c => c.distance) : Sorted pool' := by
  have hmap : (pool'.map fun c => c.distance).Pairwise (· ≤ ·) := by
    rw [heq]
    exact pairwise_map.mpr h
  exact pairwise_map.mp hmap

section Bisect

variable {lt : F → F → Bool} {addr : List (Cand F)} {nn : Cand F}

section

variable (hlt : ∀ a b, lt a b = true ↔ a < b) {c : Cand F}

include hlt

theorem above_eq_false {i : ℕ} (hi : addr[i]? = some c) :
    above lt addr nn i = false ↔ c.distance ≤ nn.distance := by
  rw [above, hi, Option.any_some, ← not_lt, ← hlt, Bool.not_eq_true]

theorem below_eq_false {i : ℕ} (hi : addr[i]? = some c) :
    below lt addr nn i = false ↔ nn.distance ≤ c.distance := by
  rw [below, hi, Option.any_some, ← not_lt, ← hlt, Bool.not_eq_true]

omit [LinearOrder F] hlt in
theorem sameId_eq_false (h : nn.id ∉ addr.map fun c => c.id) (i : ℕ) :
    sameId addr nn i = false := by
  rw [sameId]
  cases hi : addr[i]? with
  | none => rfl
  | some c =>
    have hne : c.id ≠ nn.id := fun heq =>
      h (heq ▸ mem_map_of_mem (mem_of_getElem? hi))
    simp [hne]

structure Bisected (addr : List (Cand F)) (nn : Cand F) (r : ℕ × ℕ) : Prop where
  lt : r.2 < addr.length
  le : r.1 ≤ r.2
  left : ∀ c, addr[r.1]? = some c → c.distance ≤ nn.distance
  right : ∀ c, addr[r.2]? = some c → nn.distance ≤ c.distance

theorem Bisected.bisect {n : ℕ} {r : ℕ × ℕ} (h : Bisected addr nn r) (hn : r.2 - r.1 ≤ n) :
    Bisected addr nn (bisect lt addr nn n r.1 r.2) ∧
      (Search.bisect lt addr nn n r.1 r.2).2 ≤ (Search.bisect lt addr nn n r.1 r.2).1 + 1 := by
  induction n generalizing r with
  | zero => exact ⟨h, by simp only [Search.bisect]; omega⟩
  | succ n ih =>
    have hlen := h.lt
    rw [Search.bisect]
    split_ifs with hgap habove
    · refine ih (r := (r.1, (r.1 + r.2) / 2)) ⟨?_, ?_, h.left, fun c hc => ?_⟩ ?_
      · show (r.1 + r.2) / 2 < addr.length
        omega
      · show r.1 ≤ (r.1 + r.2) / 2
        omega
      · rw [above, hc, Option.any_some, hlt] at habove
        exact le_of_lt habove
      · show (r.1 + r.2) / 2 - r.1 ≤ n
        omega
    · refine ih (r := ((r.1 + r.2) / 2, r.2)) ⟨hlen, ?_, fun c hc => ?_, h.right⟩ ?_
      · show (r.1 + r.2) / 2 ≤ r.2
        omega
      · exact (above_eq_false hlt hc).mp (Bool.not_eq_true _ ▸ habove)
      · show r.2 - (r.1 + r.2) / 2 ≤ n
        omega
    · refine ⟨h, ?_⟩
      show r.2 ≤ r.1 + 1
      omega

end

theorem Sorted.getElem_le (hs : Sorted addr) {i j : ℕ} {a b : Cand F} (hij : i ≤ j)
    (hi : addr[i]? = some a) (hj : addr[j]? = some b) : a.distance ≤ b.distance := by
  obtain ⟨hil, rfl⟩ := List.getElem?_eq_some_iff.mp hi
  obtain ⟨hjl, rfl⟩ := List.getElem?_eq_some_iff.mp hj
  rcases hij.lt_or_eq with hlt | rfl
  · exact pairwise_iff_getElem.mp hs i j hil hjl hlt
  · exact le_refl _

/-- A sorted pool around the second place. -/
theorem Bisected.around {r : ℕ × ℕ} (h : Bisected addr nn r) (hs : Sorted addr)
    (hnext : r.2 ≤ r.1 + 1) :
    (∀ c ∈ addr.take r.2, c.distance ≤ nn.distance) ∧
      ∀ c ∈ addr.drop r.2, nn.distance ≤ c.distance := by
  have hlt := h.lt
  have hle := h.le
  constructor
  · intro c hc
    obtain ⟨i, hi⟩ := mem_iff_getElem?.mp hc
    obtain ⟨hil, -⟩ := List.getElem?_eq_some_iff.mp hi
    rw [length_take] at hil
    rw [getElem?_take_of_lt (by omega)] at hi
    have hleft := getElem?_eq_getElem (show r.1 < addr.length by omega)
    exact le_trans (hs.getElem_le (by omega) hi hleft) (h.left _ hleft)
  · intro c hc
    obtain ⟨i, hi⟩ := mem_iff_getElem?.mp hc
    rw [getElem?_drop] at hi
    have hright := getElem?_eq_getElem hlt
    exact le_trans (h.right _ hright) (hs.getElem_le (Nat.le_add_right _ _) hright hi)

omit [LinearOrder F] in
variable (lt) in
theorem checkEqual_isSome (h : nn.id ∉ addr.map fun c => c.id) (left : ℕ) :
    ∃ i, checkEqual lt addr nn left = some i := by
  induction left with
  | zero => exact ⟨0, rfl⟩
  | succ left ih =>
    rw [checkEqual, sameId_eq_false h]
    split
    · exact ⟨_, rfl⟩
    · exact ih

theorem insertIdx_eq {α : Type*} (l : List α) (a : α) {i : ℕ} (hi : i ≤ l.length) :
    l.insertIdx i a = l.take i ++ a :: l.drop i := by
  induction l generalizing i with
  | nil =>
    rw [Nat.le_zero.mp hi]
    rfl
  | cons b l ih =>
    cases i with
    | zero => rfl
    | succ i =>
      rw [insertIdx_succ_cons, ih (Nat.le_of_succ_le_succ hi)]
      rfl

section

variable (hlt : ∀ a b, lt a b = true ↔ a < b) {c : Cand F}

include hlt

/-- The bisection starts from both ends of the pool. -/
theorem bisected_start (hlen : 0 < addr.length) (hfirst : above lt addr nn 0 = false)
    (hlast : below lt addr nn (addr.length - 1) = false) :
    Bisected addr nn (bisect lt addr nn addr.length 0 (addr.length - 1)) ∧
      (bisect lt addr nn addr.length 0 (addr.length - 1)).2 ≤
        (bisect lt addr nn addr.length 0 (addr.length - 1)).1 + 1 := by
  have hstart : Bisected addr nn (0, addr.length - 1) :=
    ⟨Nat.sub_one_lt_of_lt hlen, Nat.zero_le _, fun c hc => (above_eq_false hlt hc).mp hfirst,
      fun c hc => (below_eq_false hlt hc).mp hlast⟩
  exact hstart.bisect hlt (Nat.sub_le_of_le_add (by omega))

variable (nn) in
/-- A new id goes to a place that keeps the order. -/
theorem insertIntoPool_spec (hs : Sorted addr) (hne : addr ≠ [])
    (hid : nn.id ∉ addr.map fun c => c.id) :
    ∃ pre post, addr = pre ++ post ∧ (∀ c ∈ pre, c.distance ≤ nn.distance) ∧
      (∀ c ∈ post, nn.distance ≤ c.distance) ∧
      insertIntoPool lt addr nn = (pre ++ nn :: post, pre.length) := by
  have hlen := length_pos_iff.mpr hne
  have hfirst := getElem?_eq_getElem hlen
  have hlast := getElem?_eq_getElem (show addr.length - 1 < addr.length by omega)
  unfold insertIntoPool
  split_ifs with habove hbelow
  · refine ⟨[], addr, rfl, fun c hc => absurd hc not_mem_nil, fun c hc => ?_, rfl⟩
    obtain ⟨i, hi⟩ := mem_iff_getElem?.mp hc
    rw [above, hfirst, Option.any_some, hlt] at habove
    exact le_trans (le_of_lt habove) (hs.getElem_le (Nat.zero_le i) hfirst hi)
  · refine ⟨addr, [], (append_nil _).symm, fun c hc => ?_,
      fun c hc => absurd hc not_mem_nil, rfl⟩
    obtain ⟨i, hi⟩ := mem_iff_getElem?.mp hc
    obtain ⟨hil, -⟩ := List.getElem?_eq_some_iff.mp hi
    rw [below, hlast, Option.any_some, hlt] at hbelow
    exact le_trans (hs.getElem_le (by omega) hi hlast) (le_of_lt hbelow)
  · obtain ⟨hend, hnext⟩ := bisected_start hlt hlen (Bool.not_eq_true _ ▸ habove)
      (Bool.not_eq_true _ ▸ hbelow)
    obtain ⟨hpre, hpost⟩ := hend.around hs hnext
    obtain ⟨i, hi⟩ := checkEqual_isSome lt hid
      (bisect lt addr nn addr.length 0 (addr.length - 1)).1
    refine ⟨_, _, (take_append_drop _ addr).symm, hpre, hpost, ?_⟩
    simp only [hi, sameId_eq_false hid, Bool.false_eq_true, or_self, if_false]
    rw [insertIdx_eq _ _ (le_of_lt hend.lt), length_take, Nat.min_eq_left (le_of_lt hend.lt)]

omit [LinearOrder F] hlt in
variable (lt addr nn) in
theorem bisect_snd (n left right : ℕ) : (bisect lt addr nn n left right).2 = right ∨
    above lt addr nn (bisect lt addr nn n left right).2 = true := by
  induction n generalizing left right with
  | zero => exact .inl rfl
  | succ n ih =>
    rw [bisect]
    split_ifs with hgap habove
    · refine .inr ((ih left ((left + right) / 2)).elim (fun heq => ?_) id)
      rwa [heq]
    · exact ih _ right
    · exact .inl rfl

/-- The walk to the left does not miss an id that stands at the distance of `nn`. -/
theorem checkEqual_sameId (hs : Sorted addr) {j left : ℕ} (hj : addr[j]? = some c)
    (hid : c.id = nn.id) (hdist : c.distance = nn.distance) (hle : j ≤ left) {i : ℕ}
    (hi : checkEqual lt addr nn left = some i) : sameId addr nn i = true := by
  induction left with
  | zero =>
    obtain rfl := Nat.le_zero.mp hle
    cases hi
    simp [sameId, hj, hid]
  | succ left ih =>
    rw [checkEqual] at hi
    split_ifs at hi with hbelow hsame
    · obtain ⟨d, hd, hlt'⟩ := (Option.any_eq_true _ _).mp hbelow
      exact absurd ((hlt _ _).mp hlt') (not_lt.mpr (hdist ▸ hs.getElem_le hle hj hd))
    · rcases hle.lt_or_eq with hle | rfl
      · exact ih (Nat.le_of_lt_succ hle) hi
      · exact absurd (by simp [sameId, hj, hid]) hsame

theorem insertIntoPool_of_mem (hs : Sorted addr) (hc : c ∈ addr) (hid : c.id = nn.id)
    (hdist : c.distance = nn.distance) : insertIntoPool lt addr nn = (addr, addr.length + 1) := by
  obtain ⟨j, hj⟩ := mem_iff_getElem?.mp hc
  obtain ⟨hjl, -⟩ := List.getElem?_eq_some_iff.mp hj
  have hfirst : above lt addr nn 0 = false := by
    have h0 := getElem?_eq_getElem (show 0 < addr.length by omega)
    exact (above_eq_false hlt h0).mpr (hdist ▸ hs.getElem_le (Nat.zero_le j) h0 hj)
  have hlast : below lt addr nn (addr.length - 1) = false := by
    have hl := getElem?_eq_getElem (show addr.length - 1 < addr.length by omega)
    exact (below_eq_false hlt hl).mpr (hdist ▸ hs.getElem_le (by omega) hj hl)
  have hnext := (bisected_start hlt (Nat.zero_lt_of_lt hjl) hfirst hlast).2
  have hright := bisect_snd lt addr nn addr.length 0 (addr.length - 1)
  rw [insertIntoPool, hfirst, hlast]
  generalize bisect lt addr nn addr.length 0 (addr.length - 1) = r at hnext hright
  -- nothing behind the second place is at the distance of `nn`
  have hjr : j ≤ r.2 := by
    by_contra hlt'
    rcases hright with heq | habove
    · omega
    · obtain ⟨d, hd, hlt''⟩ := (Option.any_eq_true _ _).mp habove
      exact absurd ((hlt _ _).mp hlt'') (not_lt.mpr (hdist ▸ hs.getElem_le (by omega) hd hj))
  have hfound : ∀ i, checkEqual lt addr nn r.1 = some i →
      sameId addr nn i = true ∨ sameId addr nn r.2 = true := by
    intro i hi
    rcases hjr.lt_or_eq with hjr | rfl
    · exact .inl (checkEqual_sameId hlt hs hj hid hdist (by omega) hi)
    · exact .inr (by simp [sameId, hj, hid])
  simp only [Bool.false_eq_true, if_false]
  split
  · rfl
  · next left hleft => rw [if_pos (hfound left hleft)]

end

/-- Either the id is there and nothing changes, or `nn` is inserted in order, whatever stands at
the same distance. -/
theorem insertIntoPool_present_or_inserted (addr : List (Cand F)) (nn : Cand F) (hne : addr ≠ [])
    (hs : Sorted addr) (hsame : ∀ c ∈ addr, c.id = nn.id → c.distance = nn.distance) :
    (nn.id ∈ addr.map (fun c => c.id) →
      insertIntoPool (fun a b => decide (a < b)) addr nn = (addr, addr.length + 1)) ∧
    (nn.id ∉ addr.map (fun c => c.id) →
      ∃ r ≤ addr.length, insertIntoPool (fun a b => decide (a < b)) addr nn =
          (addr.take r ++ nn :: addr.drop r, r) ∧ Sorted (addr.take r ++ nn :: addr.drop r)) := by
  have hlt : ∀ a b : F, decide (a < b) = true ↔ a < b := fun a b => decide_eq_true_iff
  constructor
  · intro hmem
    obtain ⟨c, hc, hid⟩ := mem_map.mp hmem
    exact insertIntoPool_of_mem hlt hs hc hid (hsame c hc hid)
  · intro hid
    obtain ⟨pre, post, rfl, hpre, hpost, heq⟩ := insertIntoPool_spec nn hlt hs hne hid
    refine ⟨pre.length, by simp, by rw [heq, take_left, drop_left], ?_⟩
    rw [take_left, drop_left]
    obtain ⟨hl, hr, hlr⟩ := pairwise_append.mp hs
    refine pairwise_append.mpr ⟨hl, pairwise_cons.mpr ⟨hpost, hr⟩, ?_⟩
    intro a ha b hb
    rcases mem_cons.mp hb with rfl | hb
    · exact hpre a ha
    · exact hlr a ha b hb

theorem insertIntoPool_ties :
    let pool : List (Cand ℕ) := [{ id := 1, distance := 5 }, { id := 2, distance := 5 }]
    insertIntoPool (fun a b => decide (a < b)) pool { id := 2, distance := 5 } = (pool, 3) :=
  (insertIntoPool_present_or_inserted [{ id := 1, distance := 5 }, { id := 2, distance := 5 }]
    { id := 2, distance := 5 } (by simp) (by simp [Sorted]) (by simp)).1 (by simp)

end Bisect

section Offer

variable {P : Params F} {pool : List (Cand F)} {nk l y : ℕ} {seen : List ℕ} {part : List (Cand F)}

def Params.fresh (P : Params F) (y : ℕ) : Cand F :=
  { id := y, distance := P.pqDist₀ y }

def grown (l n : ℕ) : ℕ :=
  if n < l then n + 1 else n

/-- What happens to an id that is offered to a pool: a full pool is not farther and stays, or the id
gets a place, which in a full pool is before the last candidate. -/
inductive Offered (P : Params F) (l : ℕ) (pool : List (Cand F)) (nk y : ℕ) :
    List (Cand F) × ℕ → Prop
  | skip (hfull : pool.length = l) (hfar : ∀ c ∈ pool, c.distance ≤ P.pqDist₀ y) :
      Offered P l pool nk y (pool, nk)
  | place {pre post : List (Cand F)} (hpool : pool = pre ++ post)
      (hpre : ∀ c ∈ pre, c.distance ≤ P.pqDist₀ y) (hpost : ∀ c ∈ post, P.pqDist₀ y ≤ c.distance)
      (hroom : pool.length = l → post ≠ []) :
      Offered P l pool nk y
        ((pre ++ P.fresh y :: post).take (grown l pool.length), min nk pre.length)

theorem offered (hP : P.Ordered) (hs : Sorted pool) (hne : pool ≠ [])
    (hy : y ∉ pool.map fun c => c.id) : Offered P l pool nk y (P.offer l (pool, nk) y) := by
  obtain ⟨pre, post, hpool, hpre, hpost, heq⟩ :=
    insertIntoPool_spec (P.fresh y) hP.lt hs hne hy
  have hlast := getLast?_eq_some_getLast hne
  have hoffer : P.offer l (pool, nk) y =
      if pool.length = l ∧ pool.getLast?.any fun c => P.le c.distance (P.pqDist₀ y) then (pool, nk)
      else ((insertIntoPool P.ops.lt pool (P.fresh y)).1.take (grown l pool.length),
        min nk (insertIntoPool P.ops.lt pool (P.fresh y)).2) := rfl
  rw [hoffer, heq]
  split_ifs with hskip
  · obtain ⟨hfull, hfar⟩ := hskip
    refine .skip hfull fun c hc => ?_
    obtain ⟨i, hi⟩ := mem_iff_getElem?.mp hc
    obtain ⟨hil, -⟩ := List.getElem?_eq_some_iff.mp hi
    rw [hlast, Option.any_some, hP.le] at hfar
    rw [getLast?_eq_getElem?] at hlast
    exact le_trans (hs.getElem_le (by omega) hi hlast) hfar
  · have hroom : pool.length = l → post ≠ [] := by
      rintro hfull rfl
      refine hskip ⟨hfull, ?_⟩
      rw [append_nil] at hpool
      rw [hlast, Option.any_some, hP.le]
      exact hpre _ (hpool ▸ getLast_mem hne)
    exact .place hpool hpre hpost hroom

structure Pooled (P : Params F) (seen : List ℕ) (pool : List (Cand F)) : Prop where
  ne_nil : pool ≠ []
  sorted : Sorted pool
  nodup : (pool.map fun c => c.id).Nodup
  subset : pool.map (fun c => c.id) ⊆ seen
  scored : ∀ c ∈ pool, c.distance = P.pqDist₀ c.id

theorem pooled_fresh (P : Params F) (m : ℕ) : Pooled P [m] [P.fresh m] := by
  refine ⟨cons_ne_nil _ _, pairwise_singleton _ _, nodup_singleton _, List.Subset.refl _, ?_⟩
  intro c hc
  rw [mem_singleton.mp hc]
  rfl

/-- A pool whose flags changed. -/
theorem Pooled.of_neighbors {pool' : List (Cand F)} (h : Pooled P seen pool)
    (heq : pool'.map Cand.toNeighbor = pool.map Cand.toNeighbor) : Pooled P seen pool' := by
  have hids : pool'.map (fun c => c.id) = pool.map fun c => c.id := by
    have := congrArg (map Merge.Neighbor.id) heq
    rwa [map_map, map_map] at this
  have hdists : pool'.map (fun c => c.distance) = pool.map fun c => c.distance := by
    have := congrArg (map Merge.Neighbor.distance) heq
    rwa [map_map, map_map] at this
  refine ⟨?_, h.sorted.of_distances hdists, hids ▸ h.nodup, hids ▸ h.subset, ?_⟩
  · rintro rfl
    exact h.ne_nil (map_eq_nil_iff.mp heq.symm)
  · intro c hc
    obtain ⟨d, hd, heq⟩ := mem_map.mp (heq ▸ mem_map_of_mem hc)
    rw [← heq]
    exact h.scored d hd

theorem Pooled.sorted_ids (hp : Pooled P seen pool) :
    (pool.map fun c => c.id).Pairwise fun a b => P.pqDist₀ a ≤ P.pqDist₀ b := by
  apply pairwise_map.mpr
  refine hp.sorted.imp_of_mem fun ha hb hab => ?_
  rwa [← hp.scored _ ha, ← hp.scored _ hb]

theorem Pooled.ids_le (hp : Pooled P seen pool) (hpart : part ⊆ pool)
    (hle : ∀ c ∈ part, c.distance ≤ P.pqDist₀ y) :
    ∀ z ∈ part.map fun c => c.id, P.pqDist₀ z ≤ P.pqDist₀ y := by
  intro z hz
  obtain ⟨c, hc, rfl⟩ := mem_map.mp hz
  rw [← hp.scored c (hpart hc)]
  exact hle c hc

theorem Pooled.le_ids (hp : Pooled P seen pool) (hpart : part ⊆ pool)
    (hle : ∀ c ∈ part, P.pqDist₀ y ≤ c.distance) :
    ∀ z ∈ part.map fun c => c.id, P.pqDist₀ y ≤ P.pqDist₀ z := by
  intro z hz
  obtain ⟨c, hc, rfl⟩ := mem_map.mp hz
  rw [← hp.scored c (hpart hc)]
  exact hle c hc

/-- The pool and `nk` once ids that are not in `seen` were offered: what is in front of `nk` did not
change, and there are no candidates but the old ones and fresh ones. -/
structure Pushed (P : Params F) (seen : List ℕ) (x x' : List (Cand F) × ℕ) : Prop where
  mem : ∀ c ∈ x'.1, c ∈ x.1 ∨ c = P.fresh c.id ∧ c.id ∉ seen
  le : x'.2 ≤ x.2
  take : x'.1.take x'.2 = x.1.take x'.2
  length : x.1.length ≤ x'.1.length

variable {seen : List ℕ} {x : List (Cand F) × ℕ}

theorem length_le_grown (l n : ℕ) : n ≤ grown l n := by
  unfold grown
  split <;> omega

section

variable (h : Offered P l pool nk y x)

include h

theorem Offered.pooled (hp : Pooled P seen pool) (hy : y ∉ seen) : Pooled P (y :: seen) x.1 := by
  cases h with
  | skip =>
    exact ⟨hp.ne_nil, hp.sorted, hp.nodup, subset_cons_of_subset _ hp.subset, hp.scored⟩
  | @place pre post hpool hpre hpost hroom =>
    subst hpool
    have hpos := length_pos_iff.mpr hp.ne_nil
    have hgrown := length_le_grown l (pre ++ post).length
    have hids : ((pre ++ P.fresh y :: post).map fun c => c.id) =
        pre.map (fun c => c.id) ++ y :: post.map fun c => c.id := by
      rw [map_append, map_cons]
      rfl
    refine ⟨?_, ?_, ?_, ?_, ?_⟩
    · apply ne_nil_of_length_pos
      rw [length_take, length_place]
      omega
    · have hplace : Sorted (pre ++ P.fresh y :: post) := pairwise_place hp.sorted hpre hpost
      exact hplace.sublist (take_sublist _ _)
    · have hnodup := hp.nodup
      have hsub := hp.subset
      rw [map_append] at hnodup hsub
      refine ((nodup_place hnodup fun hm => hy (hsub hm)).sublist ?_)
      rw [← hids]
      exact (take_sublist _ _).map _
    · intro z hz
      obtain ⟨c, hc, rfl⟩ := mem_map.mp hz
      rcases mem_place.mp (mem_of_mem_take hc) with rfl | hc
      · exact mem_cons_self
      · exact mem_cons_of_mem _ (hp.subset (mem_map_of_mem hc))
    · intro c hc
      rcases mem_place.mp (mem_of_mem_take hc) with rfl | hc
      · rfl
      · exact hp.scored c hc

theorem Offered.pushed (hy : y ∉ seen) : Pushed P seen (pool, nk) x := by
  cases h with
  | skip => exact ⟨fun c hc => .inl hc, Nat.le_refl _, rfl, Nat.le_refl _⟩
  | @place pre post hpool hpre hpost hroom =>
    subst hpool
    have hgrown := length_le_grown l (pre ++ post).length
    have hlen : pre.length ≤ (pre ++ post).length := by simp
    refine ⟨fun c hc => ?_, Nat.min_le_left _ _, ?_, ?_⟩
    · rcases mem_place.mp (mem_of_mem_take hc) with rfl | hc
      · exact .inr ⟨rfl, hy⟩
      · exact .inl hc
    · show ((pre ++ P.fresh y :: post).take _).take (min nk pre.length) = _
      rw [take_take, Nat.min_eq_left (by omega), take_append_of_le_length (by omega),
        take_append_of_le_length (by omega)]
    · show (pre ++ post).length ≤ ((pre ++ P.fresh y :: post).take _).length
      rw [length_take, length_place]
      omega

/-- A pool of fixed length keeps the nearest. -/
theorem Offered.nearest (hp : Pooled P seen pool) (hy : y ∉ seen)
    (hn : Nearest P.pqDist₀ l seen (pool.map fun c => c.id)) :
    Nearest P.pqDist₀ l (y :: seen) (x.1.map fun c => c.id) := by
  have hlen := hn.length_le
  rw [length_map] at hlen
  cases h with
  | skip hfull hfar =>
    exact hn.skip (by rw [length_map, hfull]) (hp.ids_le (List.Subset.refl _) hfar)
  | @place pre post hpool hpre hpost hroom =>
    subst hpool
    have hle := hp.ids_le (subset_append_left _ _) hpre
    have hge := hp.le_ids (subset_append_right _ _) hpost
    have htake : (pre ++ P.fresh y :: post).take (grown l (pre ++ post).length) =
        (pre ++ P.fresh y :: post).take l := by
      unfold grown
      split
      · rw [← length_place pre post (P.fresh y), take_length,
          take_of_length_le (by rw [length_place]; omega)]
      · rw [show (pre ++ post).length = l by omega]
    rw [htake, map_take, map_append, map_cons]
    rw [map_append] at hn
    exact hn.place hy hle hge

/-- A pool that changed has the new id. -/
theorem Offered.kept : x.1 = pool ∨ P.fresh y ∈ x.1 := by
  cases h with
  | skip => exact .inl rfl
  | @place pre post hpool hpre hpost hroom =>
    subst hpool
    by_cases hlt : pre.length < grown l (pre ++ post).length
    · right
      apply mem_of_getElem? (i := pre.length)
      rw [getElem?_take_of_lt hlt, getElem?_append_right (Nat.le_refl _), Nat.sub_self]
      rfl
    · left
      have hgrown := length_le_grown l (pre ++ post).length
      have hlen : (pre ++ post).length = pre.length + post.length := length_append
      have hpost : post = [] := length_eq_zero_iff.mp (by omega)
      subst hpost
      rw [append_nil] at hlt hgrown ⊢
      exact take_append_of_le_length (by omega) |>.trans (take_of_length_le hgrown)

theorem Offered.length_le (hlen : pool.length ≤ l) : x.1.length ≤ l := by
  cases h with
  | skip => exact hlen
  | place =>
    refine (length_take_le _ _).trans ?_
    unfold grown
    split <;> omega

/-- A candidate that is dropped has made room for a new one. -/
theorem Offered.countP_le {keep : Cand F → Bool} (hkeep : keep (P.fresh y) = true) :
    pool.countP keep ≤ x.1.countP keep := by
  cases h with
  | skip => exact Nat.le_refl _
  | @place pre post hpool hpre hpost hroom =>
    subst hpool
    have hgrown := length_le_grown l (pre ++ post).length
    have hall : (pre ++ P.fresh y :: post).countP keep = (pre ++ post).countP keep + 1 := by
      rw [countP_append, countP_append, countP_cons, hkeep, if_pos rfl]
      omega
    have hlen := length_place pre post (P.fresh y)
    have hdrop := countP_le_length (p := keep)
      (l := (pre ++ P.fresh y :: post).drop (grown l (pre ++ post).length))
    rw [← take_append_drop (grown l (pre ++ post).length) (pre ++ P.fresh y :: post),
      countP_append] at hall
    rw [length_drop] at hdrop
    show (pre ++ post).countP keep ≤ ((pre ++ P.fresh y :: post).take _).countP keep
    omega

end

/-- The induction over a list of new ids that are offered in turn. The motive speaks of the ids that
are left, the ones that were discovered, and the pool. -/
theorem foldl_offer_rule (hP : P.Ordered) {M : List ℕ → List ℕ → List (Cand F) × ℕ → Prop}
    (hstep : ∀ y ys seen pool nk x, Pooled P seen pool → y ∉ seen → Offered P l pool nk y x →
      M (y :: ys) seen (pool, nk) → M ys (y :: seen) x) {ys : List ℕ} (hp : Pooled P seen x.1)
    (hnodup : ys.Nodup) (hnew : ∀ y ∈ ys, y ∉ seen) (hM : M ys seen x) :
    Pooled P (ys.reverse ++ seen) (ys.foldl (P.offer l) x).1 ∧
      M [] (ys.reverse ++ seen) (ys.foldl (P.offer l) x) := by
  induction ys generalizing seen x with
  | nil => exact ⟨hp, hM⟩
  | cons y ys ih =>
    obtain ⟨hy, hnodup⟩ := nodup_cons.mp hnodup
    have hnot : y ∉ seen := hnew y mem_cons_self
    have hoff : Offered P l x.1 x.2 y (P.offer l x y) :=
      offered hP hp.sorted hp.ne_nil fun hm => hnot (hp.subset hm)
    rw [reverse_cons, append_assoc, foldl_cons]
    apply ih (hoff.pooled hp hnot) hnodup
    · intro z hz hmem
      rcases mem_cons.mp hmem with rfl | hmem
      · exact hy hz
      · exact hnew z (mem_cons_of_mem _ hz) hmem
    · exact hstep y ys seen x.1 x.2 _ hp hnot hoff hM

section Push

variable {ys : List ℕ}

omit [LinearOrder F] in
theorem Pushed.refl (x : List (Cand F) × ℕ) : Pushed P seen x x :=
  ⟨fun _ hc => .inl hc, Nat.le_refl _, rfl, Nat.le_refl _⟩

omit [LinearOrder F] in
theorem Pushed.trans {x' x'' : List (Cand F) × ℕ} (h : Pushed P seen x x')
    (h' : Pushed P seen x' x'') : Pushed P seen x x'' := by
  refine ⟨fun c hc => ?_, h'.le.trans h.le, ?_, h.length.trans h'.length⟩
  · rcases h'.mem c hc with hc | hc
    · exact h.mem c hc
    · exact .inr hc
  · have hcut := congrArg (List.take x''.2) h.take
    rw [take_take, take_take, Nat.min_eq_left h'.le] at hcut
    rw [h'.take, hcut]

variable (hP : P.Ordered) (hp : Pooled P seen x.1) (hnodup : ys.Nodup) (hnew : ∀ y ∈ ys, y ∉ seen)

include hP hp hnodup hnew

theorem foldl_offer_pushed : Pushed P seen x (ys.foldl (P.offer l) x) := by
  have hrule := foldl_offer_rule (l := l) hP
    (M := fun _ seen' x' => seen ⊆ seen' ∧ Pushed P seen x x') ?_ hp hnodup hnew
    ⟨List.Subset.refl _, Pushed.refl x⟩
  · exact hrule.2.2
  · rintro y _ seen' pool nk x' hp' hy hoff ⟨hsub, hpush⟩
    exact ⟨subset_cons_of_subset _ hsub,
      hpush.trans (hoff.pushed fun hm => hy (hsub hm))⟩

/-- A pool that changed has one of the new ids. -/
theorem foldl_offer_fresh :
    (ys.foldl (P.offer l) x).1 = x.1 ∨ ∃ y, P.fresh y ∈ (ys.foldl (P.offer l) x).1 := by
  refine (foldl_offer_rule hP (M := fun _ _ x' => x'.1 = x.1 ∨ ∃ y, P.fresh y ∈ x'.1) ?_ hp hnodup
    hnew (.inl rfl)).2
  intro y _ seen' pool nk x' hp' hy hoff hM
  rcases hoff.kept with heq | hmem
  · rw [heq]
    exact hM
  · exact .inr ⟨y, hmem⟩

theorem foldl_offer_pooled : Pooled P (ys.reverse ++ seen) (ys.foldl (P.offer l) x).1 :=
  (foldl_offer_rule hP (M := fun _ _ _ => True) (fun _ _ _ _ _ _ _ _ _ _ => trivial) hp hnodup hnew
    trivial).1

theorem foldl_offer_nearest (hn : Nearest P.pqDist₀ l seen (x.1.map fun c => c.id)) :
    Nearest P.pqDist₀ l (ys.reverse ++ seen)
      ((ys.foldl (P.offer l) x).1.map fun c => c.id) := by
  refine (foldl_offer_rule hP
    (M := fun _ seen x => Nearest P.pqDist₀ l seen (x.1.map fun c => c.id)) ?_ hp hnodup hnew hn).2
  intro y _ seen pool nk x' hp' hy hoff hn
  exact hoff.nearest hp' hy hn

end Push

end Offer

section Naturals

/-- Distances that are natural numbers. -/
def natOps : Insert.FloatOps ℕ where
  zero := 0
  lt a b := decide (a < b)
  eq a b := decide (a = b)
  div a b := a / b
  decay _ := 0
  reaches a := decide (0 < a)
  iters _ := 1
  reaches_iters _ := rfl

def natParams : Merge.OccludeParams ℕ where
  ops := natOps
  range := 2
  alpha := 1
  pqDist a b := if a = b then 0 else 1
  maxc := 4
  one := 1
  huge := 2 ^ 128
  le a b := decide (a ≤ b)
  max := max
  grow a := a + 1
  rounds := 1
  le_rounds := rfl
  lt_irrefl a := decide_eq_false (lt_irrefl a)

theorem ordered_of_natParams {P : Params ℕ} (h : P.toOccludeParams = natParams) : P.Ordered := by
  constructor
  · intro a b
    rw [h]
    exact decide_eq_true_iff
  · intro a b
    rw [h]
    exact decide_eq_true_iff
  · intro a b
    rw [h]
    exact decide_eq_true_iff

end Naturals

end Ccann.Search
