import Ccann.Merge.Correct

/-! A merge that has nothing to delete. It still renumbers: the new id of a node is its place in
the order in which the first pass visits the nodes, and its list keeps the old neighbours, each
once and without the node itself, under their new ids. -/

namespace Ccann.Merge

open Nodes Layout Traversals List Option

variable {F : Type*} {n : ℕ} {P : Params F} {J : Job} {x : Index n} {id2loc : ℕ → Option ℕ}

def Undeleted (J : Job) (x : Index n) (id2loc : ℕ → Option ℕ) : Prop :=
  ∀ id, (id2loc id).isSome → J.isDeleted x id = false

def rank (P : Params F) (J : Job) (x : Index n) (id : ℕ) : ℕ :=
  (order P J x).idxOf id

/-- The record of the node in slot `loc` under the new ids. -/
def renumbered (P : Params F) (J : Job) (x : Index n) (id loc : ℕ) : Record :=
  ⟨(x.record loc).coords,
    (J.setOrder loc ((x.record loc).nhood.dedup.filter (· ≠ id))).map (rank P J x)⟩

variable (hq : Quiescent P x id2loc) {id loc : ℕ}

include hq

theorem idMap_rank (hJ : J.Fair P.nnodesPerSector x.curLoc) (hid : Live J x id2loc id) :
    (populate P J x).idMap id = some (rank P J x id) := by
  rw [idMap_iff hq hJ, rank]
  exact getElem?_idxOf ((mem_order hq hJ).mpr hid)

omit hq in
theorem candidates_undeleted (hund : Undeleted J x id2loc) (p : Populated) (id : ℕ)
    {nbrs : List ℕ} (hnbrs : ∀ y ∈ nbrs, (id2loc y).isSome) :
    candidates J x p id nbrs = some (nbrs.dedup.filter (· ≠ id)) := by
  have hvia : nbrs.mapM (nbrsVia J x p) = some (nbrs.map fun y => [y]) := by
    rw [mapM_eq_some_iff, forall₂_map_right_iff, forall₂_same]
    intro y hy
    simp [nbrsVia, hund y (hnbrs y hy)]
  rw [candidates, hvia, map_some]
  congr 3
  exact flatMap_singleton' nbrs

theorem length_candidates_le (hloc : id2loc id = some loc) :
    ((x.record loc).nhood.dedup.filter (· ≠ id)).length ≤ P.range :=
  ((length_filter_le ..).trans (dedup_sublist _).length_le).trans
    (hq.degree id loc hloc)

theorem withinLimit_of_undeleted (hund : Undeleted J x id2loc)
    (hrange : P.range < Ccann.Insert.maxPqCount) : WithinLimit P J x id2loc := by
  intro id loc hloc _ cs hcs
  rw [candidates_undeleted hund _ id (hq.closed id loc hloc)] at hcs
  rw [← some.inj hcs]
  exact (length_candidates_le hq hloc).trans_lt hrange

theorem medoidKept_of_undeleted (hund : Undeleted J x id2loc) : MedoidKept J x id2loc := by
  intro hdel
  rw [hund _ hq.medoid] at hdel
  cases hdel

variable (hJ : J.Fair P.nnodesPerSector x.curLoc)

include hJ

theorem rebuild_undeleted (hund : Undeleted J x id2loc) (hloc : id2loc id = some loc) :
    rebuild P J x (populate P J x) loc id = some ⟨id, rank P J x id, renumbered P J x id loc⟩ := by
  have hlive : ∀ {y}, (id2loc y).isSome → Live J x id2loc y := fun hy => ⟨hy, hund _ hy⟩
  have hperm := J.setOrder_perm loc ((x.record loc).nhood.dedup.filter (· ≠ id))
  have hshort : prunedNhood P id
      (J.setOrder loc ((x.record loc).nhood.dedup.filter (· ≠ id))) =
      some (J.setOrder loc ((x.record loc).nhood.dedup.filter (· ≠ id))) := by
    rw [prunedNhood, if_pos]
    rw [hperm.length_eq]
    exact length_candidates_le hq hloc
  have hmap : (J.setOrder loc ((x.record loc).nhood.dedup.filter (· ≠ id))).mapM
      (populate P J x).idMap = some (renumbered P J x id loc).nhood := by
    rw [mapM_eq_some_iff, renumbered, forall₂_map_right_iff, forall₂_same]
    intro y hy
    have hmem := mem_dedup.mp (mem_filter.mp (hperm.mem_iff.mp hy)).1
    exact idMap_rank hq hJ (hlive (hq.closed id loc hloc y hmem))
  rw [rebuild, candidates_undeleted hund _ id (hq.closed id loc hloc), bind_some, hshort,
    bind_some, hmap, bind_some,
    idMap_rank hq hJ (hlive (by rw [hloc]; rfl)), map_some]
  rfl

/-- What is written for a node. -/
theorem newRecord_undeleted (hund : Undeleted J x id2loc) (hloc : id2loc id = some loc) :
    newRecord P J x id2loc (rank P J x id) = renumbered P J x id loc := by
  have hsome : (id2loc id).isSome := by rw [hloc]; rfl
  exact newRecord_eq ((idMap_iff hq hJ).mp (idMap_rank hq hJ ⟨hsome, hund id hsome⟩)) hloc
    (rebuild_undeleted hq hJ hund hloc)

/-- As many nodes get a new id as there are ids, just if none is deleted. -/
theorem length_order_iff {curId : ℕ} (htotal : ∀ i, (id2loc i).isSome ↔ i < curId) :
    (order P J x).length = curId ↔ Undeleted J x id2loc := by
  have hnd := order_nodup hq hJ
  have hsub : order P J x ⊆ range curId := fun i hi =>
    mem_range.mpr ((htotal i).mp ((mem_order hq hJ).mp hi).1)
  constructor
  · intro hlen id hid
    have hperm := (hnd.subperm hsub).perm_of_length_le (by rw [length_range, hlen])
    have hmem := hperm.mem_iff.mpr (mem_range.mpr ((htotal id).mp hid))
    exact ((mem_order hq hJ).mp hmem).2
  · intro hund
    have hperm : (order P J x).Perm (range curId) := by
      rw [perm_ext_iff_of_nodup hnd nodup_range]
      intro i
      rw [mem_order hq hJ, mem_range, ← htotal, Live]
      exact ⟨fun h => h.1, fun h => ⟨h, hund i h⟩⟩
    rw [hperm.length_eq, length_range]

end Ccann.Merge
