import Ccann.Dynamic.Pairs
import Ccann.Merge.Undeleted

/-! The index in memory right after a `final_merge`. The merge has rebuilt id map, page layout,
tags, PQ codes and the number of points for the file it has written, but the open file, the
next id, the frontier, the queue of empty pages and the checkpoint are those from before. They
fit together only if nothing was deleted and the open file already has every record in the slot
of its new id; opening the output mends all of them but the checkpoint. -/

namespace Ccann.Dynamic

open Nodes Layout Concurrent Option Merge

variable {F : Type*} {n : ℕ} {C : Params F} {s t : State n} {J : Merge.Job}

/-- The parts of the index `t` after a merge of `s` fit together: each id below the next one has
its record in the open file, and tag, PQ code and record are those of one node; the page layout
is the inverse of the id map; queued pages and the slots behind the frontier are unused; the
next id is the number of points and the next one to commit. -/
structure Coherent (g : Geometry) (s t : State n) : Prop where
  decodes : ∀ i < t.curId, ∃ l, t.id2loc i = some l ∧ t.file l = t.current l
  node : ∀ i l, t.id2loc i = some l → ∃ id r, s.record id = some r ∧
    t.id2tag i = s.id2tag id ∧ t.data i = s.data id ∧ (t.current l).coords = r.coords
  inverse : ∀ i l, t.id2loc i = some l ↔ t.alloc.loc2id g l = .node i
  free : ∀ l, g.locSectorNo l ∈ t.alloc.emptyPages ∨ t.alloc.curLoc ≤ l →
    t.alloc.loc2id g l = .invalid
  numbered : t.curId = t.numPoints
  committed : t.curId = t.ckptId

/-- An index that a merge finds in the state in which it would leave it: nothing to delete, no
commit outstanding, only pages behind the ids queued, and each record in the slot of its new id. -/
structure Settled (C : Params F) (J : Merge.Job) (s : State n) : Prop where
  undeleted : ∀ i < s.curId, s.id2tag i ∉ s.deletionSets s.activeDeleteSet
  committed : s.ckptId = s.curId
  queued : ∀ l, C.geo.locSectorNo l ∈ s.alloc.emptyPages → s.curId ≤ l
  inPlace : ∀ id loc, s.id2loc id = some loc →
    s.file (rank C.toMerge (frozen J s) (s.index C.geo) id) =
      renumbered C.toMerge (frozen J s) (s.index C.geo) id loc

theorem undeleted_iff (h : Sound C s) :
    Merge.Undeleted (frozen J s) (s.index C.geo) s.id2loc ↔
      ∀ i < s.curId, s.id2tag i ∉ s.deletionSets s.activeDeleteSet := by
  constructor
  · intro hund i hi
    exact of_decide_eq_false (hund i ((h.consistent.total i).mpr hi))
  · intro hall i hi
    exact decide_eq_false (hall i ((h.consistent.total i).mp hi))

section Rebuilt

variable {m : Merge.Merged n} {J : Merge.Job} {i l : ℕ}

theorem id2loc_rebuild : (s.rebuild C.geo m).id2loc i = some l ↔ i = l ∧ i < m.npoints := by
  simp only [State.rebuild]
  split_ifs with hi <;> simp [hi]

theorem loc2id_rebuild (l : ℕ) : (s.rebuild C.geo m).alloc.loc2id C.geo l =
    if l < m.npoints then .node l else .invalid :=
  loc2id_relabel C.geo m.npoints s.alloc l

theorem inverse_rebuild (i l : ℕ) : (s.rebuild C.geo m).id2loc i = some l ↔
    (s.rebuild C.geo m).alloc.loc2id C.geo l = .node i := by
  rw [id2loc_rebuild, loc2id_rebuild]
  split_ifs <;> grind

theorem current_rebuild {r : Record} (hout : m.window.out i = some r) :
    (s.rebuild C.geo m).current i = r := by
  simp [State.current, State.rebuild, hout]

theorem relabel_curLoc (g : Geometry) (npoints : ℕ) (a : AllocState) :
    (relabel g npoints a).curLoc = a.curLoc ∧
      (relabel g npoints a).emptyPages = a.emptyPages := by
  induction npoints with
  | zero => exact ⟨rfl, rfl⟩
  | succ k ih =>
    rw [relabel_succ, AllocState.setLoc2id_curLoc, AllocState.setLoc2id_emptyPages]
    exact ih

/-- Tag, code and merged record of a new id are those of one old node. -/
theorem node_rebuild (h : Merge.Merges C.toMerge (frozen J s) (s.index C.geo) s.id2loc m)
    (hi : ((saveDelSet s).rebuild C.geo m).id2loc i = some l) :
    ∃ id r, s.record id = some r ∧
      ((saveDelSet s).rebuild C.geo m).id2tag i = s.id2tag id ∧
      ((saveDelSet s).rebuild C.geo m).data i = s.data id ∧
      (((saveDelSet s).rebuild C.geo m).outFile l).coords = r.coords := by
  obtain ⟨rfl, hlt⟩ := id2loc_rebuild.mp hi
  obtain ⟨id, hlive, hid⟩ := h.onto i hlt
  obtain ⟨loc, hloc⟩ := isSome_iff_exists.mp hlive.1
  obtain ⟨r, hout, hcoords, -⟩ := h.record id i loc hid hloc
  refine ⟨id, s.file loc, by rw [State.record, hloc, map_some], ?_, ?_, ?_⟩
  · simp [State.id2tag, State.rebuild, hlt, h.tags id i hid]
    rfl
  · simp [State.rebuild, h.data id i hid]
    rfl
  · simp only [State.rebuild, hout, getD_some, hcoords]
    rfl

end Rebuilt

section

variable (h : Sound C s) (hJ : J.Fair C.nnodesPerSector s.alloc.curLoc)

include h hJ

/-- A merge that leaves the index coherent has found it settled. -/
theorem settled_of_coherent (ht : finalMerge C J s = some t) (hc : Coherent C.geo s t) :
    Settled C J s := by
  rw [finalMerge_eq] at ht
  obtain ⟨m, hm, rfl⟩ := map_eq_some_iff.mp ht
  have hfair : (frozen J s).Fair C.toMerge.nnodesPerSector (s.index C.geo).curLoc :=
    ⟨hJ.populate, hJ.merge⟩
  have hpop := mergeDeletes_populated hm
  have hnum : s.curId = m.npoints := hc.numbered
  have hpoints : m.npoints = (order C.toMerge (frozen J s) (s.index C.geo)).length := by
    rw [hpop.1, (populate_visited h.quiescent hfair).npoints]
    rfl
  have hund : Merge.Undeleted (frozen J s) (s.index C.geo) s.id2loc :=
    (length_order_iff h.quiescent hfair h.consistent.total).mp (hpoints.symm.trans hnum.symm)
  have hlim := withinLimit_of_undeleted h.quiescent hund
    (Nat.lt_of_succ_lt C.range_lt_maxPqCount)
  obtain ⟨-, hout⟩ := mergeDeletes_rewrites h.quiescent hfair hlim hm
  refine ⟨(undeleted_iff h).mp hund, ?_, fun l hl => ?_, fun id loc hloc => ?_⟩
  · exact hc.committed.symm
  · by_contra hlt
    have hfree := hc.free l (.inl (by
      show _ ∈ (relabel _ _ _).emptyPages
      rw [(relabel_curLoc _ _ _).2]
      exact hl))
    rw [loc2id_rebuild, if_pos (by omega)] at hfree
    cases hfree
  · have hsome : (s.id2loc id).isSome := by rw [hloc]; rfl
    have hrank := idMap_lt h.quiescent hfair
      (idMap_rank h.quiescent hfair ⟨hsome, hund id hsome⟩)
    rw [← hpop.1] at hrank
    obtain ⟨l, hl, hfile⟩ := hc.decodes _ (hrank.trans_eq hnum.symm)
    obtain ⟨rfl, -⟩ := id2loc_rebuild.mp hl
    rw [current_rebuild (hout _ hrank)] at hfile
    rw [← newRecord_undeleted h.quiescent hfair hund hloc]
    exact hfile

/-- A settled index stays coherent through a merge. -/
theorem Settled.coherent (hs : Settled C J s) :
    ∃ t, finalMerge C J s = some t ∧ Coherent C.geo s t := by
  have hund := (undeleted_iff (J := J) h).mpr hs.undeleted
  have hfair : (frozen J s).Fair C.toMerge.nnodesPerSector (s.index C.geo).curLoc :=
    ⟨hJ.populate, hJ.merge⟩
  have hlim := withinLimit_of_undeleted h.quiescent hund
    (Nat.lt_of_succ_lt C.range_lt_maxPqCount)
  obtain ⟨m, hm, hspec⟩ := mergeDeletes_spec h.quiescent hfair hlim
    (medoidKept_of_undeleted h.quiescent hund)
  obtain ⟨hpoints, hout⟩ := mergeDeletes_rewrites h.quiescent hfair hlim hm
  have hnum : m.npoints = s.curId :=
    hpoints.trans ((length_order_iff h.quiescent hfair h.consistent.total).mpr hund)
  refine ⟨(saveDelSet s).rebuild C.geo m, by rw [finalMerge_eq, hm, map_some], ?_,
    fun i l hi => node_rebuild hspec hi, inverse_rebuild, fun l hl => ?_, hnum.symm,
    hs.committed.symm⟩
  · intro i hi
    replace hi : i < s.curId := hi
    refine ⟨i, id2loc_rebuild.mpr ⟨rfl, by omega⟩, ?_⟩
    -- the new id `i` belongs to some node, whose record is already there
    obtain ⟨id, hlive, hid⟩ := hspec.onto i (by omega)
    obtain ⟨loc, hloc⟩ := isSome_iff_exists.mp hlive.1
    have hrank : i = rank C.toMerge (frozen J s) (s.index C.geo) id := by
      rw [(mergeDeletes_populated hm).2, idMap_rank h.quiescent hfair hlive] at hid
      exact (some.inj hid).symm
    have hfile := hs.inPlace id loc hloc
    rw [← newRecord_undeleted h.quiescent hfair hund hloc, ← hrank] at hfile
    rw [current_rebuild (hout i (by omega))]
    exact hfile
  · obtain ⟨hcur, hempty⟩ := relabel_curLoc C.geo m.npoints s.alloc
    rw [loc2id_rebuild, if_neg]
    rcases hl with hl | hl
    · have hl : C.geo.locSectorNo l ∈ s.alloc.emptyPages := hempty ▸ hl
      have := hs.queued l hl
      omega
    · have hl : s.alloc.curLoc ≤ l := hcur ▸ hl
      have := h.consistent.curId_le_curLoc
      omega

end

/-- What a `final_merge` leaves of a sound index is coherent just if the index was settled; in
particular it never is when the merge has deleted a node. -/
theorem coherent_after_final_merge_iff (s : State n) (J : Merge.Job) (hs : Sound C s)
    (hJ : J.Fair C.nnodesPerSector s.alloc.curLoc) :
    (∃ t, finalMerge C J s = some t ∧ Coherent C.geo s t) ↔ Settled C J s := by
  constructor
  · rintro ⟨t, ht, hc⟩
    exact settled_of_coherent hs hJ ht hc
  · exact fun h => h.coherent hs hJ

section Star

theorem star_settled : Settled starParams (inOrder 4) star := by
  refine ⟨fun i _ => by simp [star], rfl, fun l hl => absurd hl (by simp [star, loadEqual]),
    fun id loc hloc => ?_⟩
  obtain ⟨rfl, hid⟩ := star_id2loc.mp hloc
  have hsmall : ∀ i < 3, star.file (rank starParams.toMerge (frozen (inOrder 4) star)
      (star.index starParams.geo) i) = renumbered starParams.toMerge
        (frozen (inOrder 4) star) (star.index starParams.geo) i i := by
    decide +kernel
  exact hsmall id hid

theorem coherent_after_final_merge_star :
    ∃ t, finalMerge starParams (inOrder 4) star = some t ∧ Coherent starParams.geo star t :=
  (coherent_after_final_merge_iff star (inOrder 4) star_sound (inOrder_fair 4)).mpr star_settled

/-- Once the node with tag 11 is merged away, id 1 has tag 12, but in the open file its slot
still has the record of the deleted node; and the next insert gets id 3 in an index of two. -/
theorem open_file_keeps_deleted_node :
    ∃ t, finalMerge starParams (inOrder 4) (lazyDelete 11 star) = some t ∧
      t.id2tag 1 = 12 ∧ t.record 1 = some ⟨[1], [0]⟩ ∧ t.current 1 = ⟨[2], [0]⟩ ∧
      t.curId = 3 ∧ t.numPoints = 2 ∧ ¬ Coherent starParams.geo (lazyDelete 11 star) t := by
  have hcheck : (finalMerge starParams (inOrder 4) (lazyDelete 11 star)).any
      (fun t => decide (t.id2tag 1 = 12 ∧ t.record 1 = some ⟨[1], [0]⟩ ∧
        t.current 1 = ⟨[2], [0]⟩ ∧ t.curId = 3 ∧ t.numPoints = 2)) = true := by
    decide +kernel
  obtain ⟨t, ht, hall⟩ := (any_eq_true _ _).mp hcheck
  obtain ⟨htag, hrec, hcur, hid, hnum⟩ := of_decide_eq_true hall
  refine ⟨t, ht, htag, hrec, hcur, hid, hnum, fun hc => ?_⟩
  have := hc.numbered
  omega

end Star

end Ccann.Dynamic
