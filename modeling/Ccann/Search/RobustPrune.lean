import Ccann.Merge.Occlude
import Ccann.Search.Links

/-! What `prune_neighbors` keeps of a pool. The occlusion loop is shared with the merge, with
distances between coordinates in place of those between PQ codes; its result is read off the
meaning of its factors. Then the medoid is taken out if it comes late, and the list is filled
up from the pool. The fill does not know of the medoid: it comes back unless the list is full
before its turn. -/

namespace Ccann.Search

open List

variable {F : Type*}

def Params.byCoords (P : Params F) (coordOf : ℕ → List ℕ) : Merge.OccludeParams F :=
  { P.toOccludeParams with pqDist := fun a b => P.compare (coordOf b) (coordOf a) }

section Robust

variable [Field F] [LinearOrder F] {P : Params F} {coordOf : ℕ → List ℕ}

theorem byCoords_exact (hP : P.toOccludeParams.Exact) (coordOf : ℕ → List ℕ) :
    (P.byCoords coordOf).Exact where
  zero := hP.zero
  lt := hP.lt
  eq := hP.eq
  div := hP.div
  div_zero := hP.div_zero
  zero_div_zero := hP.zero_div_zero
  one := hP.one
  le := hP.le
  max := hP.max
  grow := hP.grow

variable [IsStrictOrderedRing F]

/-- A quotient exceeds a factor exactly if the distance exceeds the product; a quotient by zero is
infinite, and zero by zero counts for nothing. -/
theorem lt_div_iff_mul_lt {P : Merge.OccludeParams F} (hP : P.Exact) {a u v : F} (ha : 0 ≤ a)
    (hle : a ≤ P.alpha) (hu : 0 ≤ u) (hv : 0 ≤ v) : a < P.ops.div u v ↔ a * v < u := by
  rcases hv.eq_or_lt with rfl | hv
  · rw [mul_zero]
    rcases hu.eq_or_lt with rfl | hu
    · rw [hP.zero_div_zero]
      exact iff_of_false ha.not_gt (lt_irrefl 0)
    · exact iff_of_true (hle.trans_lt (hP.div_zero u hu)) hu
  · rw [hP.div u v hv.ne', lt_div_iff₀ hv]

theorem lt_ratio_iff (hP : P.toOccludeParams.Exact) (hcompare : ∀ u v, 0 ≤ P.compare u v) {a : F}
    (ha : 0 ≤ a) (hle : a ≤ P.alpha) {p q : Merge.Neighbor F} (hq : 0 ≤ q.distance) :
    a < Merge.ratio (P.byCoords coordOf) p q ↔
      a * P.compare (coordOf q.id) (coordOf p.id) < q.distance :=
  lt_div_iff_mul_lt (byCoords_exact hP coordOf) ha hle hq (hcompare _ _)

end Robust

section Fill

variable {P : Params F} {xs l : List ℕ} {m : ℕ}

/-- Filling up only adds. -/
theorem subset_fillUp : l ⊆ Merge.fillUp P.toOccludeParams xs l := by
  induction xs generalizing l with
  | nil => exact List.Subset.refl l
  | cons x xs ih =>
    unfold Merge.fillUp
    split_ifs
    · exact List.Subset.refl l
    · exact ih
    · exact List.Subset.trans (subset_append_left l [x]) ih

/-- Filling up comes to `range` ids if there are so many. -/
theorem le_length_fillUp (hnd : xs.Nodup) (hlen : P.range ≤ (l.toFinset ∪ xs.toFinset).card) :
    P.range ≤ (Merge.fillUp P.toOccludeParams xs l).length := by
  induction xs generalizing l with
  | nil =>
    rw [toFinset_nil, Finset.union_empty] at hlen
    exact hlen.trans (toFinset_card_le l)
  | cons x xs ih =>
    unfold Merge.fillUp
    split_ifs with hfull hmem
    · exact hfull
    · refine ih hnd.of_cons (hlen.trans (Finset.card_le_card ?_))
      rw [toFinset_cons, Finset.union_insert, Finset.insert_eq_of_mem]
      exact Finset.mem_union_left _ (mem_toFinset.mpr hmem)
    · refine ih hnd.of_cons (hlen.trans (Finset.card_le_card ?_))
      rw [toFinset_cons, toFinset_append, Finset.union_insert]
      intro y hy
      simp only [Finset.mem_insert, Finset.mem_union, mem_toFinset, mem_singleton] at hy ⊢
      tauto

/-- An id that is not in the list is added exactly if the ids before it do not fill the list. -/
theorem mem_fillUp_iff (hm : m ∉ l) :
    m ∈ Merge.fillUp P.toOccludeParams xs l ↔ m ∈ xs ∧
      l.length + ((xs.takeWhile (· ≠ m)).toFinset \ l.toFinset).card < P.range := by
  induction xs generalizing l with
  | nil => simp [Merge.fillUp, hm]
  | cons x xs ih =>
    unfold Merge.fillUp
    by_cases hfull : P.range ≤ l.length
    · rw [if_pos hfull]
      exact iff_of_false hm fun h => by omega
    · rw [if_neg hfull]
      by_cases hxm : x = m
      · subst hxm
        rw [if_neg hm, takeWhile_cons_of_neg (by simp)]
        refine iff_of_true (subset_fillUp (by simp)) ⟨mem_cons_self, ?_⟩
        simp only [toFinset_nil, Finset.empty_sdiff, Finset.card_empty]
        omega
      · have hmx : m ∈ x :: xs ↔ m ∈ xs := by
          rw [mem_cons, or_iff_right fun h => hxm h.symm]
        rw [takeWhile_cons_of_pos (by simpa using hxm), toFinset_cons, hmx]
        by_cases hmem : x ∈ l
        · rw [if_pos hmem, ih hm, Finset.insert_sdiff_of_mem _ (mem_toFinset.mpr hmem)]
        · have hnot : m ∉ l ++ [x] := by
            rw [mem_append, mem_singleton, not_or]
            exact ⟨hm, fun h => hxm h.symm⟩
          have hx : x ∉ (xs.takeWhile (· ≠ m)).toFinset \ (l ++ [x]).toFinset := by simp
          have hset : insert x (xs.takeWhile (· ≠ m)).toFinset \ l.toFinset =
              insert x ((xs.takeWhile (· ≠ m)).toFinset \ (l ++ [x]).toFinset) := by
            ext y
            simp only [Finset.mem_sdiff, Finset.mem_insert, mem_toFinset, mem_append,
              mem_singleton]
            by_cases hyx : y = x
            · simp [hyx, hmem]
            · simp [hyx]
          rw [if_neg hmem, ih hnot, hset, Finset.card_insert_of_notMem hx, length_append,
            length_singleton]
          constructor
          · rintro ⟨hin, hlt⟩
            exact ⟨hin, by omega⟩
          · rintro ⟨hin, hlt⟩
            exact ⟨hin, by omega⟩

end Fill

section Medoid

variable {P : Params F} {result : List (Merge.Neighbor F)}

theorem map_id_eq_map_zipIdx :
    result.map Merge.Neighbor.id = result.zipIdx.map fun p => p.1.id := by
  nth_rewrite 1 [← zipIdx_map_fst 0 result]
  rw [map_map]
  rfl

theorem dropMedoid_sublist : (P.dropMedoid result).Sublist (result.map Merge.Neighbor.id) := by
  rw [map_id_eq_map_zipIdx]
  exact filter_sublist.map _

/-- The medoid stays exactly if it occurs early. -/
theorem medoid_mem_dropMedoid_iff : P.medoid ∈ P.dropMedoid result ↔
    ∃ p ∈ result.zipIdx, p.1.id = P.medoid ∧ p.2 ≤ result.length * 3 / 4 := by
  rw [Params.dropMedoid, mem_map]
  constructor
  · rintro ⟨p, hmem, hid⟩
    obtain ⟨hzip, hkeep⟩ := mem_filter.mp hmem
    refine ⟨p, hzip, hid, ?_⟩
    rw [Bool.not_eq_true', Bool.and_eq_false_iff, decide_eq_false_iff_not,
      decide_eq_false_iff_not] at hkeep
    rcases hkeep with hlate | hother
    · exact Nat.le_of_not_lt hlate
    · exact absurd hid hother
  · rintro ⟨p, hzip, hid, hle⟩
    refine ⟨p, mem_filter.mpr ⟨hzip, ?_⟩, hid⟩
    rw [Bool.not_eq_true', Bool.and_eq_false_iff]
    exact .inl (decide_eq_false (Nat.not_lt.mpr hle))

/-- If it only occurs late, it is all that goes. -/
theorem dropMedoid_eq_filter
    (hlate : ∀ p ∈ result.zipIdx, p.1.id = P.medoid → result.length * 3 / 4 < p.2) :
    P.dropMedoid result = (result.map Merge.Neighbor.id).filter (· ≠ P.medoid) := by
  have hfilter : (result.zipIdx.filter fun p =>
      !(decide (result.length * 3 / 4 < p.2) && decide (p.1.id = P.medoid))) =
      result.zipIdx.filter fun p => decide (p.1.id ≠ P.medoid) := by
    apply filter_congr
    intro p hmem
    by_cases hid : p.1.id = P.medoid
    · simp [hid, hlate p hmem hid]
    · simp [hid]
  rw [Params.dropMedoid, hfilter, map_id_eq_map_zipIdx, filter_map]
  rfl

section Filled

variable {coordOf : ℕ → List ℕ} {pool : List (Merge.Neighbor F)}

theorem sortNeighbors_perm : (P.sortNeighbors pool).Perm pool :=
  perm_insertionSort _ pool

/-- What the occlusion loop leaves, without the medoid: ids of the pool, and not too many. -/
theorem dropMedoid_occludeList (coordOf : ℕ → List ℕ) (pool : List (Merge.Neighbor F)) :
    P.dropMedoid (P.occludeList coordOf (P.sortNeighbors pool)) ⊆
        (P.sortNeighbors pool).map Merge.Neighbor.id ∧
      (P.dropMedoid (P.occludeList coordOf (P.sortNeighbors pool))).length ≤ P.range := by
  have hch := occludeList_chosen (P := P) coordOf (P.sortNeighbors pool)
  exact ⟨List.Subset.trans dropMedoid_sublist.subset (map_subset _ hch.subset),
    (length_dropMedoid_le _).trans hch.le⟩

theorem pruneNeighbors_nodup (hids : (pool.map Merge.Neighbor.id).Nodup) :
    (P.pruneNeighbors coordOf pool).Nodup := by
  have hch := occludeList_chosen (P := P) coordOf (P.sortNeighbors pool)
  have hsorted : ((P.sortNeighbors pool).map Merge.Neighbor.id).Nodup :=
    (sortNeighbors_perm.map _).nodup_iff.mpr hids
  have hkept : (P.dropMedoid (P.occludeList coordOf (P.sortNeighbors pool))).Nodup := by
    refine dropMedoid_sublist.nodup (List.Nodup.map_on (fun a ha b hb hab => ?_) hch.nodup)
    exact inj_on_of_nodup_map hsorted (hch.subset ha) (hch.subset hb) hab
  obtain ⟨hsub, hle⟩ := dropMedoid_occludeList (P := P) coordOf pool
  unfold Params.pruneNeighbors
  split_ifs
  · exact (Merge.fillUp_spec (List.Subset.refl _) hsub hle).2.2 hkept
  · exact hkept

theorem length_pruneNeighbors (hids : (pool.map Merge.Neighbor.id).Nodup)
    (halpha : P.ops.lt P.one P.alpha = true) (hlen : P.range ≤ pool.length) :
    (P.pruneNeighbors coordOf pool).length = P.range := by
  have hsorted : ((P.sortNeighbors pool).map Merge.Neighbor.id).Nodup :=
    (sortNeighbors_perm.map _).nodup_iff.mpr hids
  obtain ⟨hsub, hle⟩ := dropMedoid_occludeList (P := P) coordOf pool
  rw [Params.pruneNeighbors, if_pos halpha]
  apply Nat.le_antisymm
  · exact (Merge.fillUp_spec (List.Subset.refl _) hsub hle).2.1
  · refine le_length_fillUp hsorted ((hlen.trans ?_).trans
      (Finset.card_le_card Finset.subset_union_right))
    rw [toFinset_card_of_nodup hsorted, length_map]
    exact sortNeighbors_perm.length_eq.ge

end Filled

end Medoid

/-- In exact arithmetic `occlude_list` returns at most `range` members of the pool, in its order. None
of them is occluded by one that was chosen earlier and stands before it; if they are fewer than
`range`, all others are occluded at the last factor tried. The list that `prune_neighbors` fills up has
distinct ids of the pool, and `range` of them if the pool has so many and `alpha` exceeds one. -/
theorem robust_prune_spec [Field F] [LinearOrder F] [IsStrictOrderedRing F] (P : Params F)
    (hP : P.toOccludeParams.Exact) (halpha : 1 ≤ P.alpha) (hcompare : ∀ u v, 0 ≤ P.compare u v)
    (coordOf : ℕ → List ℕ) (pool : List (Merge.Neighbor F))
    (hsorted : pool.Pairwise fun a b => P.before a b = true)
    (hids : (pool.map Merge.Neighbor.id).Nodup) (hdist : ∀ p ∈ pool, 0 ≤ p.distance) :
    (P.occludeList coordOf pool).Sublist pool ∧
    (P.occludeList coordOf pool).length ≤ P.range ∧
    (P.occludeList coordOf pool).Perm
      ((Merge.choices (P.byCoords coordOf) pool).filterMap (pool[·]?)) ∧
    ((Merge.choices (P.byCoords coordOf) pool).Pairwise fun i j => i < j → ∀ p q,
      pool[i]? = some p → pool[j]? = some q →
        q.distance ≤ P.alpha * P.compare (coordOf q.id) (coordOf p.id)) ∧
    ((P.occludeList coordOf pool).length < P.range →
      ∃ k, (6 / 5) ^ k ≤ P.alpha ∧ P.alpha < (6 / 5) ^ (k + 1) ∧
        ∀ j < P.maxc, ∀ q, pool[j]? = some q → q ∉ P.occludeList coordOf pool →
          ∃ i < j, ∃ p ∈ P.occludeList coordOf pool, pool[i]? = some p ∧
            (6 / 5) ^ k * P.compare (coordOf q.id) (coordOf p.id) < q.distance) ∧
    (P.pruneNeighbors coordOf pool).Nodup ∧
    P.pruneNeighbors coordOf pool ⊆ pool.map Merge.Neighbor.id ∧
    (1 < P.alpha → P.range ≤ pool.length →
      (P.pruneNeighbors coordOf pool).length = P.range) := by
  have hQ := byCoords_exact hP coordOf
  have hkept := Merge.occludeListPq_kept hQ (List.Nodup.of_map _ hids)
  have hch := occludeList_chosen (P := P) coordOf pool
  obtain ⟨-, -, -, horder, hshort⟩ := Merge.choices_spec hQ halpha pool
  refine ⟨hkept.sublist hQ hch.nodup hch.subset hsorted, hch.le, hkept.perm, ?_, ?_, ?_, ?_, ?_⟩
  · refine horder.imp fun hle hij p q hp hq => ?_
    have hratio := (hle hij p q hp hq).not_gt
    rw [show (P.byCoords coordOf).alpha = P.alpha from rfl, lt_ratio_iff hP hcompare
      (zero_le_one.trans halpha) le_rfl (hdist q (mem_of_getElem? hq))] at hratio
    exact le_of_not_gt hratio
  · intro hlt
    obtain ⟨k, hk, hk', hcov⟩ := hshort (hkept.length ▸ hlt)
    refine ⟨k, hk, hk', fun j hj q hq hnot => ?_⟩
    have hnd := List.Nodup.of_map _ hids
    obtain ⟨i, hi, hij, p, hp, hratio⟩ := hcov j hj q hq fun h =>
      hnot ((hkept.mem_iff hnd hq).mpr h)
    refine ⟨i, hij, p, (hkept.mem_iff hnd hp).mpr hi, hp, ?_⟩
    exact (lt_ratio_iff hP hcompare (by positivity) hk (hdist q (mem_of_getElem? hq))).mp hratio
  · exact pruneNeighbors_nodup hids
  · exact pruneNeighbors_subset coordOf pool
  · intro hone
    exact length_pruneNeighbors hids ((hP.lt _ _).mpr (hP.one ▸ hone))

section Scattered

/-- Points at a distance of 10 from each other, but for 1 and 6, which are close. -/
def scatterParams (range : ℕ) : Params ℚ where
  toPruneParams := Insert.lineParams range Nat.cast
  maxc := 750
  one := 1
  huge := 2 ^ 128
  le a b := decide (a ≤ b)
  max := max
  grow a := a * (6 / 5)
  rounds := 2
  le_rounds := by
    show decide ((1 : ℚ) * (6 / 5) * (6 / 5) ≤ 6 / 5) = false
    decide +kernel
  lt_irrefl a := decide_eq_false (lt_irrefl a)
  mode := .beam
  lSearch := 10
  beamWidth := 4
  query := [0]
  compare u v := if u = v then 0 else if u ∈ [[1], [6]] ∧ v ∈ [[1], [6]] then 1 / 10 else 10
  pqDist₀ i := i
  excludeNodes := []
  dynSearchL := true
  id2tag i := i
  entries := []
  medoid := 5

variable {range : ℕ}

theorem scatterParams_exact : (scatterParams range).toOccludeParams.Exact where
  toExact := Insert.lineParams_exact
  one := rfl
  le _ _ := decide_eq_true_iff
  max _ _ := rfl
  grow _ := rfl

theorem scatterParams_compare (u v : List ℕ) : 0 ≤ (scatterParams range).compare u v := by
  show 0 ≤ if u = v then (0 : ℚ) else if u ∈ [[1], [6]] ∧ v ∈ [[1], [6]] then 1 / 10 else 10
  split_ifs <;> norm_num

def scattered : List (Merge.Neighbor ℚ) :=
  [⟨1, 1⟩, ⟨6, 3 / 2⟩, ⟨2, 2⟩, ⟨3, 3⟩, ⟨4, 4⟩, ⟨5, 5⟩]

theorem robust_prune_scattered :
    ((scatterParams 4).occludeList (fun i => [i]) scattered).Sublist scattered ∧
      ((scatterParams 4).pruneNeighbors (fun i => [i]) scattered).length = 4 := by
  obtain ⟨hsub, -, -, -, -, -, -, hlen⟩ := robust_prune_spec (scatterParams 4)
    scatterParams_exact (by decide +kernel) scatterParams_compare (fun i => [i]) scattered
    (by decide +kernel) (by decide +kernel) (by decide +kernel)
  exact ⟨hsub, hlen (by decide +kernel) (by decide +kernel)⟩

end Scattered

/-- The ids of the sorted pool before the medoid that `occlude_list` did not choose. -/
def Params.passedOver (P : Params F) (coordOf : ℕ → List ℕ) (pool : List (Merge.Neighbor F)) :
    Finset ℕ :=
  (((P.sortNeighbors pool).map Merge.Neighbor.id).takeWhile (· ≠ P.medoid)).toFinset \
    ((P.occludeList coordOf (P.sortNeighbors pool)).map Merge.Neighbor.id).toFinset

/-- A medoid in the result of `occlude_list` is kept out exactly if it only occurs late there and, with
`alpha` above one, the nearer ids that were passed over fill the list. -/
theorem far_medoid_iff (P : Params F) (coordOf : ℕ → List ℕ) (pool : List (Merge.Neighbor F))
    (hmem : P.medoid ∈ (P.occludeList coordOf (P.sortNeighbors pool)).map Merge.Neighbor.id) :
    P.medoid ∉ P.pruneNeighbors coordOf pool ↔
      (∀ p ∈ (P.occludeList coordOf (P.sortNeighbors pool)).zipIdx, p.1.id = P.medoid →
        (P.occludeList coordOf (P.sortNeighbors pool)).length * 3 / 4 < p.2) ∧
      (P.ops.lt P.one P.alpha = false ∨
        P.range ≤ (((P.occludeList coordOf (P.sortNeighbors pool)).map Merge.Neighbor.id).filter
          (· ≠ P.medoid)).length + (P.passedOver coordOf pool).card) := by
  have hch := occludeList_chosen (P := P) coordOf (P.sortNeighbors pool)
  have hpool : P.medoid ∈ (P.sortNeighbors pool).map Merge.Neighbor.id :=
    map_subset _ hch.subset hmem
  by_cases hlate : ∀ p ∈ (P.occludeList coordOf (P.sortNeighbors pool)).zipIdx,
      p.1.id = P.medoid → (P.occludeList coordOf (P.sortNeighbors pool)).length * 3 / 4 < p.2
  · have hdrop := dropMedoid_eq_filter hlate
    have hnot : P.medoid ∉ P.dropMedoid (P.occludeList coordOf (P.sortNeighbors pool)) := by
      rw [hdrop]
      exact fun h => of_decide_eq_true (mem_filter.mp h).2 rfl
    rw [and_iff_right hlate, Params.pruneNeighbors]
    by_cases halpha : P.ops.lt P.one P.alpha = true
    · have hset : (((P.sortNeighbors pool).map Merge.Neighbor.id).takeWhile
          (· ≠ P.medoid)).toFinset \
          (P.dropMedoid (P.occludeList coordOf (P.sortNeighbors pool))).toFinset =
          P.passedOver coordOf pool := by
        ext y
        rw [Params.passedOver, Finset.mem_sdiff, Finset.mem_sdiff, hdrop, mem_toFinset,
          mem_toFinset, mem_toFinset, mem_filter]
        refine and_congr_right fun hy => ?_
        have hne := mem_takeWhile_imp hy
        rw [and_iff_left hne]
      rw [if_pos halpha, mem_fillUp_iff hnot, and_iff_right hpool, hset, hdrop, halpha]
      simp only [Bool.true_eq_false, false_or, Nat.not_lt]
    · rw [if_neg halpha]
      exact iff_of_true hnot (.inl (Bool.eq_false_iff.mpr halpha))
  · refine iff_of_false (fun hnot => ?_) fun h => hlate h.1
    have hearly : P.medoid ∈ P.dropMedoid (P.occludeList coordOf (P.sortNeighbors pool)) := by
      by_contra hno
      refine hlate fun p hp hid => Nat.lt_of_not_le fun hle => hno ?_
      exact medoid_mem_dropMedoid_iff.mpr ⟨p, hp, hid, hle⟩
    apply hnot
    unfold Params.pruneNeighbors
    split_ifs
    · exact subset_fillUp hearly
    · exact hearly

section Scattered

/-- Five ids fit; the close pair gives one that fills the list before the medoid's turn. -/
theorem far_medoid_kept_out :
    5 ∉ (scatterParams 5).pruneNeighbors (fun i => [i]) scattered := by
  exact (far_medoid_iff (scatterParams 5) (fun i => [i]) scattered (by decide +kernel)).mpr
    ⟨by decide +kernel, .inr (by decide +kernel)⟩

/-- With room for six the medoid is dropped and then put back. -/
theorem far_medoid_put_back :
    ((scatterParams 6).occludeList (fun i => [i])
        ((scatterParams 6).sortNeighbors scattered)).length * 3 / 4 < 4 ∧
      (((scatterParams 6).occludeList (fun i => [i])
        ((scatterParams 6).sortNeighbors scattered))[4]?).map Merge.Neighbor.id =
        some (scatterParams 6).medoid ∧
      (scatterParams 6).medoid ∈ (scatterParams 6).pruneNeighbors (fun i => [i]) scattered := by
  decide +kernel

end Scattered

end Ccann.Search
