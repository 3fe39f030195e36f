import Ccann.Merge.Correct

/-! When a merge gets through. The loop that replaces a deleted entry point reads the first kept
neighbour, and there may be none; and a node with many deleted neighbours may have more
candidates than `compute_pq_dists` has room for. The merge fails in these two cases only. -/

namespace Ccann.Merge

open Nodes Layout Traversals Option

variable {F : Type*} {n : ℕ} {P : Params F} {J : Job} {x : Index n} {id2loc : ℕ → Option ℕ}

/-- The loop that leaves deleted nodes; `none` is a read of an empty list or too little fuel. -/
def medoidLoop (J : Job) (x : Index n) (p : Populated) : ℕ → ℕ → Option ℕ
  | 0, _ => none
  | k + 1, medoid =>
    if J.isDeleted x medoid then
      ((p.nhoods medoid).bind List.head?).bind (medoidLoop J x p k)
    else some medoid

/-- What a neighbour stands for in the list of a live node: itself, or its kept neighbours. -/
def standIns (J : Job) (x : Index n) (id2loc : ℕ → Option ℕ) (y : ℕ) : List ℕ :=
  if J.isDeleted x y then
    ((id2loc y).map fun loc => keptNbrs J x (x.record loc).nhood).getD []
  else [y]

/-- The nodes that a live node in slot `loc` has to choose its new neighbours from. -/
def spliced (J : Job) (x : Index n) (id2loc : ℕ → Option ℕ) (id loc : ℕ) : List ℕ :=
  (((x.record loc).nhood.map (standIns J x id2loc)).flatten.dedup).filter (· ≠ id)

section

variable (hq : Quiescent P x id2loc) (hJ : J.Fair P.nnodesPerSector x.curLoc)

include hq hJ

theorem nbrsVia_eq {y : ℕ} (hy : (id2loc y).isSome) :
    nbrsVia J x (populate P J x) y = some (standIns J x id2loc y) := by
  obtain ⟨loc, hloc⟩ := isSome_iff_exists.mp hy
  unfold nbrsVia standIns
  split_ifs with hdel
  · rw [nhoods_eq hq hJ hloc hdel, hloc]
    rfl
  · rfl

theorem candidates_eq {id loc : ℕ} (hloc : id2loc id = some loc) :
    candidates J x (populate P J x) id (x.record loc).nhood =
      some (spliced J x id2loc id loc) := by
  have hvia : (x.record loc).nhood.mapM (nbrsVia J x (populate P J x)) =
      some ((x.record loc).nhood.map (standIns J x id2loc)) := by
    rw [mapM_eq_some_iff, List.forall₂_map_right_iff, List.forall₂_same]
    intro y hy
    exact nbrsVia_eq hq hJ (hq.closed id loc hloc y hy)
  rw [candidates, hvia]
  rfl

theorem withinLimit_iff :
    WithinLimit P J x id2loc ↔ ∀ id loc, id2loc id = some loc → J.isDeleted x id = false →
      (spliced J x id2loc id loc).length < Ccann.Insert.maxPqCount := by
  refine forall₄_congr fun id loc hloc _ => ?_
  rw [candidates_eq hq hJ hloc]
  simp

/-- A kept neighbour is live, so the loop leaves a deleted node at the second test. -/
theorem medoidLoop_eq (k : ℕ) :
    (medoidLoop J x (populate P J x) (k + 2) x.medoid).bind (populate P J x).idMap =
      newMedoid J x (populate P J x) := by
  obtain ⟨loc, hloc⟩ := isSome_iff_exists.mp hq.medoid
  unfold newMedoid
  rw [medoidLoop]
  split_ifs with hdel
  · rw [nhoods_eq hq hJ hloc hdel, bind_some]
    cases hkept : keptNbrs J x (x.record loc).nhood with
    | nil => rfl
    | cons y ys =>
      have hy : y ∈ keptNbrs J x (x.record loc).nhood := hkept ▸ List.mem_cons_self
      have hlive : J.isDeleted x y = false := by
        simpa using (List.mem_filter.mp (List.mem_of_mem_take hy)).2
      simp [medoidLoop, hlive]
  · rfl

end

/-- On an index with no insert under way, for any distances and schedules: the loop ends at a
live node with a new id, and the merge comes to its end with that id as the entry point, exactly
if a deleted entry point has a kept neighbour and no live node has too many nodes to choose its
neighbours from. -/
theorem merge_deletes_completes_iff (hq : Quiescent P x id2loc)
    (hJ : J.Fair P.nnodesPerSector x.curLoc) (hrange : P.range < Ccann.Insert.maxPqCount) :
    (∃ m, mergeDeletes P J x = some m ∧ ∃ id, Live J x id2loc id ∧
        m.idMap id = some m.medoid ∧
        ∀ k, medoidLoop J x (populate P J x) (k + 2) x.medoid = some id) ↔
      (J.isDeleted x x.medoid = true → ∀ loc, id2loc x.medoid = some loc →
        keptNbrs J x (x.record loc).nhood ≠ []) ∧
      ∀ id loc, id2loc id = some loc → J.isDeleted x id = false →
        (spliced J x id2loc id loc).length < Ccann.Insert.maxPqCount := by
  rw [← withinLimit_iff hq hJ]
  constructor
  · rintro ⟨m, hm, -⟩
    exact (limits_of_mergeDeletes hq hJ hrange hm).symm
  · rintro ⟨hmed, hlim⟩
    obtain ⟨m, hm, h⟩ := mergeDeletes_spec hq hJ hlim hmed
    obtain ⟨id, hlive, hid⟩ := h.medoid
    refine ⟨m, hm, id, hlive, hid, fun k => ?_⟩
    obtain ⟨o, -, hm⟩ := bind_eq_some_iff.mp hm
    obtain ⟨newId, hnew, rfl⟩ := map_eq_some_iff.mp hm
    rw [← medoidLoop_eq hq hJ k] at hnew
    obtain ⟨id', hloop, hid'⟩ := bind_eq_some_iff.mp hnew
    rw [hloop, idMap_injective hq hJ hid' hid]

def dropEntry : Job :=
  { dropOne with deleted := [10] }

/-- Without the node of tag 10, which is the entry point, another one is found. -/
theorem merge_deletes_completes_dropEntry :
    dropEntry.isDeleted ring ring.medoid = true ∧
      ∃ m, mergeDeletes ringParams dropEntry ring = some m ∧
        ∃ id, Live dropEntry ring ringLoc id ∧ m.idMap id = some m.medoid := by
  have hfair : dropEntry.Fair ringParams.nnodesPerSector ring.curLoc :=
    ⟨fun _ _ => .refl _, fun _ _ => .refl _⟩
  have hkept : keptNbrs dropEntry ring (ring.record 0).nhood ≠ [] := by decide +kernel
  have hsmall : ∀ i < 4, (spliced dropEntry ring ringLoc i i).length < 2 := by decide +kernel
  refine ⟨by decide, ?_⟩
  have hcompletes := merge_deletes_completes_iff ring_quiescent hfair (by decide)
  obtain ⟨m, hm, id, hlive, hid, -⟩ := hcompletes.mpr ⟨by
    intro _ loc hloc
    obtain ⟨rfl, -⟩ := ringLoc_eq_some.mp hloc
    exact hkept, by
    intro id loc hloc _
    obtain ⟨rfl, hid⟩ := ringLoc_eq_some.mp hloc
    exact (hsmall id hid).trans (by decide)⟩
  exact ⟨m, hm, id, hlive, hid⟩

/-- Delete the entry point and its only neighbour. -/
def dropTwo : Job :=
  { dropOne with deleted := [10, 11] }

/-- Node 2 stays, but the merge reads the first of no kept neighbours. -/
theorem merge_deletes_reads_empty_list :
    Quiescent ringParams ring ringLoc ∧
      dropTwo.Fair ringParams.nnodesPerSector ring.curLoc ∧
      Live dropTwo ring ringLoc 2 ∧
      (populate ringParams dropTwo ring).nhoods ring.medoid = some [] ∧
      mergeDeletes ringParams dropTwo ring = none := by
  exact ⟨ring_quiescent, ⟨fun _ _ => .refl _, fun _ _ => .refl _⟩, ⟨rfl, by decide⟩,
    by decide +kernel, by decide +kernel⟩

end Ccann.Merge
