import Mathlib

/-! Delta pruning of an over-full neighbour list. The candidates are sorted by their
distance to the node; a fast scan compares each with the target by the triangle it spans
and a slow one by pairs, and exactly one candidate is dropped. The code is over any float
arithmetic: which candidate goes depends on the comparisons, but not that one goes. -/

namespace Ccann.Insert

open List

/-- The float operations of the pruning code. `decay` is the division of `cur_alpha` by
1.2 and `reaches` its test against `1 - 1e-5`; the test fails after `iters` divisions. -/
structure FloatOps (F : Type*) where
  zero : F
  lt : F → F → Bool
  eq : F → F → Bool
  div : F → F → F
  decay : F → F
  reaches : F → Bool
  iters : F → ℕ
  reaches_iters : ∀ x, reaches (decay^[iters x] x) = false

structure TriangleNeighbor (F : Type*) where
  id : ℕ
  tgtDis : F
  distance : F

/-- What pruning reads: `range`, `alpha`, and the PQ distance between two ids. -/
structure PruneParams (F : Type*) where
  ops : FloatOps F
  range : ℕ
  alpha : F
  pqDist : ℕ → ℕ → F

variable {F : Type*} (P : PruneParams F)

def PruneParams.less (a b : TriangleNeighbor F) : Bool :=
  P.ops.lt a.distance b.distance || (P.ops.eq a.distance b.distance && decide (a.id < b.id))

/-- One pass of the fast path, over the candidates from the farthest on. Index `range`
stands for the target. -/
def fastScan (tgtNbrDis curAlpha : F) : List (TriangleNeighbor F × ℕ) → Option ℕ
  | [] => none
  | (p, i) :: rest =>
    if P.ops.eq p.distance P.ops.zero then fastScan tgtNbrDis curAlpha rest
    else if P.ops.lt tgtNbrDis p.distance then
      if P.ops.lt curAlpha (P.ops.div p.distance p.tgtDis) then some i
      else fastScan tgtNbrDis curAlpha rest
    else if P.ops.lt curAlpha (P.ops.div tgtNbrDis p.tgtDis) then some P.range
    else fastScan tgtNbrDis curAlpha rest

def fastLoop (pool : List (TriangleNeighbor F)) (tgtNbrDis : F) : ℕ → F → Option ℕ
  | 0, _ => none
  | n + 1, curAlpha =>
    if P.ops.reaches curAlpha then
      match fastScan P tgtNbrDis curAlpha pool.zipIdx.reverse with
      | some i => some i
      | none => fastLoop pool tgtNbrDis n (P.ops.decay curAlpha)
    else none

def fastDeltaPrune (pool : List (TriangleNeighbor F)) (tgtNbrDis : F) : Option ℕ :=
  fastLoop P pool tgtNbrDis (P.ops.iters P.alpha) P.alpha

/-- The pairs of the slow path: the first candidate that an earlier one other than the
target occludes. -/
def slowScan (tgtIdx : ℕ) : List (TriangleNeighbor F × ℕ) → Option ℕ
  | [] => none
  | (p, start) :: rest =>
    if start = tgtIdx then slowScan tgtIdx rest
    else
      match rest.find? fun q =>
        P.ops.lt P.alpha (P.ops.div q.1.distance (P.pqDist p.id q.1.id)) with
      | some q => some q.2
      | none => slowScan tgtIdx rest

def finish (pool : List (TriangleNeighbor F)) (toEvict : ℕ) : List ℕ :=
  (pool.eraseIdx toEvict).map TriangleNeighbor.id

/-- `slow_delta_prune_neighbors_pq`; it crashes on a pool of another size. -/
def slowDeltaPrune (pool : List (TriangleNeighbor F)) (tgtIdx : ℕ) : Option (List ℕ) :=
  if pool.length ≠ P.range + 1 then none
  else some (finish pool ((slowScan P tgtIdx pool.zipIdx).getD (pool.length - 1)))

def deltaPrune (pool : List (TriangleNeighbor F)) (tgtIdx : ℕ) : Option (List ℕ) :=
  pool[tgtIdx]?.bind fun tgt =>
    match fastDeltaPrune P pool tgt.distance with
    | some i => some (finish pool (if i = P.range then tgtIdx else i))
    | none => slowDeltaPrune P pool tgtIdx

def maxPqCount : ℕ := 32768

/-- `tri_pool`: the ids with their distances to the target and to `x`, sorted. -/
def triPool (x target : ℕ) (nhood : List ℕ) : List (TriangleNeighbor F) :=
  (nhood.map fun id => ⟨id, P.pqDist target id, P.pqDist x id⟩).insertionSort
    fun a b => P.less b a = false

/-- The pruning of the list of node `x` to which `target` was appended. Computing the
distances crashes on too long a list; later calls are for shorter ones. -/
def pruneNhood (x target : ℕ) (nhood : List ℕ) : Option (List ℕ) :=
  if maxPqCount ≤ nhood.length then none
  else
    ((triPool P x target nhood).findIdx? fun p => p.id == target).bind fun tgtIdx =>
      deltaPrune P (triPool P x target nhood) tgtIdx

variable {P} {pool : List (TriangleNeighbor F)} {n i tgtIdx x target : ℕ}
  {ps : List (TriangleNeighbor F × ℕ)} {nhood : List ℕ} {d a : F}

theorem fastScan_mem {i : ℕ} (h : fastScan P d a ps = some i) : i = P.range ∨ ∃ p, (p, i) ∈ ps := by
  induction ps with
  | nil => cases h
  | cons p ps ih =>
    obtain ⟨p, j⟩ := p
    have hrest : ∀ {k}, fastScan P d a ps = some k → i = k → i = P.range ∨
        ∃ q, (q, i) ∈ (p, j) :: ps := by
      rintro k hk rfl
      exact (ih hk).imp_right fun ⟨q, hq⟩ => ⟨q, mem_cons_of_mem _ hq⟩
    unfold fastScan at h
    split_ifs at h
    · exact hrest h rfl
    · cases h
      exact .inr ⟨p, mem_cons_self⟩
    · exact hrest h rfl
    · cases h
      exact .inl rfl
    · exact hrest h rfl

theorem fastLoop_mem (h : fastLoop P pool d n a = some i) : i = P.range ∨ i < pool.length := by
  induction n generalizing a with
  | zero => cases h
  | succ n ih =>
    unfold fastLoop at h
    split_ifs at h
    split at h
    next j hscan =>
      cases h
      refine (fastScan_mem hscan).imp_right fun ⟨p, hp⟩ => ?_
      exact (mem_zipIdx' (mem_reverse.mp hp)).1
    next => exact ih h

theorem slowScan_mem (h : slowScan P tgtIdx ps = some i) : ∃ p, (p, i) ∈ ps := by
  induction ps with
  | nil => cases h
  | cons p ps ih =>
    obtain ⟨p, j⟩ := p
    have hrest : slowScan P tgtIdx ps = some i → ∃ q, (q, i) ∈ (p, j) :: ps := fun hk =>
      (ih hk).imp fun q hq => mem_cons_of_mem _ hq
    unfold slowScan at h
    split_ifs at h
    · exact hrest h
    · split at h
      next q hq =>
        cases h
        exact ⟨q.1, mem_cons_of_mem _ (mem_of_find?_eq_some hq)⟩
      next => exact hrest h

/-- The slow path drops exactly one candidate. -/
theorem slowDeltaPrune_spec (tgtIdx : ℕ) (hlen : pool.length = P.range + 1) :
    ∃ i < pool.length, slowDeltaPrune P pool tgtIdx = some (finish pool i) := by
  refine ⟨_, ?_, by rw [slowDeltaPrune, if_neg (not_not.mpr hlen)]⟩
  cases hslow : slowScan P tgtIdx pool.zipIdx with
  | none => exact Nat.sub_lt (by omega) Nat.one_pos
  | some i =>
    obtain ⟨p, hp⟩ := slowScan_mem hslow
    exact (mem_zipIdx' hp).1

/-- Pruning drops exactly one candidate. -/
theorem deltaPrune_spec (hlen : pool.length = P.range + 1) (htgt : tgtIdx < pool.length) :
    ∃ i < pool.length, deltaPrune P pool tgtIdx = some (finish pool i) := by
  unfold deltaPrune
  rw [getElem?_eq_getElem htgt, Option.bind_some]
  split
  next i hfast =>
    rcases fastLoop_mem hfast with rfl | hi
    · exact ⟨tgtIdx, htgt, by rw [if_pos rfl]⟩
    · split_ifs
      · exact ⟨tgtIdx, htgt, rfl⟩
      · exact ⟨i, hi, rfl⟩
  next => exact slowDeltaPrune_spec tgtIdx hlen

theorem finish_perm (hi : i < pool.length) :
    (pool[i].id :: finish pool i).Perm (pool.map TriangleNeighbor.id) :=
  (getElem_cons_eraseIdx_perm hi).map TriangleNeighbor.id

theorem triPool_ids_perm (x target : ℕ) (nhood : List ℕ) :
    ((triPool P x target nhood).map TriangleNeighbor.id).Perm nhood := by
  refine ((perm_insertionSort _ _).map TriangleNeighbor.id).trans ?_
  rw [map_map]
  exact List.Perm.of_eq (map_id nhood)

theorem length_triPool (x target : ℕ) (nhood : List ℕ) :
    (triPool P x target nhood).length = nhood.length := by
  rw [← (triPool_ids_perm (P := P) x target nhood).length_eq, length_map]

/-- What remains of the sorted candidates is the list without one entry. -/
theorem finish_triPool (hi : i < (triPool P x target nhood).length) :
    ∃ e, (e :: finish (triPool P x target nhood) i).Perm nhood :=
  ⟨_, (finish_perm hi).trans (triPool_ids_perm x target nhood)⟩

/-- The target is found among its candidates. -/
theorem exists_findIdx_triPool (x : ℕ) (htarget : target ∈ nhood) :
    ∃ i < (triPool P x target nhood).length,
      ((triPool P x target nhood).findIdx? fun p => p.id == target) = some i := by
  obtain ⟨p, hp, hpid⟩ := mem_map.mp ((triPool_ids_perm (P := P) x target nhood).mem_iff.mpr
    htarget)
  have hfind : ((triPool P x target nhood).findIdx? fun p => p.id == target).isSome := by
    rw [findIdx?_isSome, any_eq_true]
    exact ⟨p, hp, by simpa using hpid⟩
  obtain ⟨i, hi⟩ := Option.isSome_iff_exists.mp hfind
  exact ⟨i, (findIdx?_eq_some_iff_findIdx_eq.mp hi).1, hi⟩

/-- The pruned list has `range` entries and arises from the full one by removing one. -/
theorem pruneNhood_spec (hlen : nhood.length = P.range + 1) (hmax : nhood.length < maxPqCount)
    (htarget : target ∈ nhood) :
    ∃ pruned, pruneNhood P x target nhood = some pruned ∧ pruned.length = P.range ∧
      ∃ e, (e :: pruned).Perm nhood := by
  have hplen := (length_triPool (P := P) x target nhood).trans hlen
  obtain ⟨tgtIdx, hlt, htgt⟩ := exists_findIdx_triPool (P := P) x htarget
  obtain ⟨i, hi, hprune⟩ := deltaPrune_spec hplen hlt
  obtain ⟨e, hperm⟩ := finish_triPool hi
  refine ⟨finish _ i, ?_, ?_, e, hperm⟩
  · rw [pruneNhood, if_neg (Nat.not_le.mpr hmax), htgt, Option.bind_some, hprune]
  · have := hperm.length_eq
    rw [length_cons, hlen] at this
    omega

end Ccann.Insert
