import Ccann.Dynamic.AfterMerge
import Ccann.Dynamic.Threads

/-! The tags in the index while calls go on, with no file opened after a merge. The parts of such
an index need not fit together, but less is enough for its tags: an id is in no slot but that of
the id map, the pages of these slots are mapped, and a slot is reserved only for a phase that is
under way. Then an insert phase adds no tag but its own, and a merge leaves tags of points it has
kept, and no others. -/

namespace Ccann.Dynamic

open Nodes Layout Traversals List Function Option

variable {F : Type*} {n : ℕ} {C : Params F} {x y : State n} {task : ℕ → Option (Task n)}

def Stored (x : State n) (tag : ℕ) : Prop :=
  ∃ i, (x.id2loc i).isSome ∧ x.id2tag i = tag

/-- Where the ids are, whether or not the open file is the one the maps describe. -/
structure Placed (g : Geometry) (x : State n) (task : ℕ → Option (Task n)) : Prop where
  slot : ∀ l i, x.alloc.loc2id g l = .node i → x.id2loc i = some l
  mapped : ∀ i l, x.id2loc i = some l → (x.alloc.pageLayout (g.locSectorNo l)).isSome
  below : ∀ i, (x.id2loc i).isSome → i < x.curId
  reserved : ∀ l, x.alloc.loc2id g l = .allocated →
    ∃ i τ locs, task i = some τ ∧ τ.stage = .reserved locs ∧ l ∈ locs
  started : ∀ i τ, task i = some τ → i < x.curId
  fresh : ∀ i τ, task i = some τ → τ.stage ≠ .finished → x.id2loc i = none
  nodup : ∀ i τ, task i = some τ → τ.point.newNhood.Nodup
  held : ∀ i τ locs, task i = some τ → τ.stage = .reserved locs →
    locs.length = τ.point.newNhood.length + 1

theorem placed_of_sound (h : Sound C x) (htask : ∀ i, task i = none) : Placed C.geo x task where
  slot l i := (h.consistent.id2loc_iff i l).mpr
  mapped _ l hl := (h.consistent.wf.mapped_loc l).mpr (h.consistent.lt_curLoc hl)
  below i := (h.consistent.total i).mp
  reserved l hl := absurd hl (h.unreserved l)
  started i τ hi := by simp [htask] at hi
  fresh i τ hi := by simp [htask] at hi
  nodup i τ hi := by simp [htask] at hi
  held i τ locs hi := by simp [htask] at hi

section Steps

variable (h : Placed C.geo x task)

include h

theorem Placed.lazyDelete (tag : ℕ) : Placed C.geo (lazyDelete tag x) task := by
  unfold Dynamic.lazyDelete
  split_ifs
  · exact h
  · exact ⟨h.slot, h.mapped, h.below, h.reserved, h.started, h.fresh, h.nodup, h.held⟩

theorem Placed.saveDelSet : Placed C.geo (saveDelSet x) task :=
  ⟨h.slot, h.mapped, h.below, h.reserved, h.started, h.fresh, h.nodup, h.held⟩

theorem Placed.call {p : Point n} (async : Bool) (hnd : p.newNhood.Nodup) :
    Placed C.geo { x with curId := x.curId + 1 }
      (update task x.curId (some ⟨p, async, .searched⟩)) := by
  have hnew : task x.curId = none := eq_none_iff_forall_ne_some.mpr fun τ hτ =>
    Nat.lt_irrefl _ (h.started x.curId τ hτ)
  refine ⟨h.slot, h.mapped, fun i hi => Nat.lt_succ_of_lt (h.below i hi),
    fun l hl => Held.put (h.reserved l hl) (by simp [hnew]),
    forall_update_task (Nat.lt_succ_self _) fun i τ _ hi => Nat.lt_succ_of_lt (h.started i τ hi),
    forall_update_task (fun _ => ?_) fun i τ _ => h.fresh i τ,
    forall_update_task hnd fun i τ _ => h.nodup i τ, fun i τ locs hi => ?_⟩
  · rw [← not_isSome_iff_eq_none]
    exact fun hsome => Nat.lt_irrefl _ (h.below _ hsome)
  · exact forall_update_task (P := fun _ τ => τ.stage = .reserved locs → _) (by simp)
      (fun i τ _ hi => h.held i τ locs hi) i τ hi

theorem Placed.reserve {id : ℕ} {τ : Task n} {q : List ℕ × State n} (hτ : task id = some τ)
    (hstage : τ.stage = .searched) (hq : reserveSlots C τ.point x = some q) :
    Placed C.geo q.2 (update task id (some { τ with stage := .reserved q.1 })) := by
  obtain ⟨a, ha, rfl⟩ := map_eq_some_iff.mp hq
  obtain ⟨hlen, hmark, hmap⟩ := allocLoc_marks ha (Nat.succ_pos _)
  have hun : τ.stage ≠ .finished := by
    rw [hstage]
    simp
  refine ⟨fun l i hl => ?_, fun i l hl => hmap _ (h.mapped i l hl), h.below, fun l hl => ?_,
    forall_update_task (h.started id τ hτ) fun i σ _ => h.started i σ,
    forall_update_task (fun _ => h.fresh id τ hτ hun) fun i σ _ => h.fresh i σ,
    forall_update_task (h.nodup id τ hτ) fun i σ _ => h.nodup i σ, fun i σ locs hi hs => ?_⟩
  · have hl : a.st.loc2id C.geo l = .node i := hl
    rcases hmark l with hkeep | ⟨hall, -⟩
    · exact h.slot l i (hkeep ▸ hl)
    · rw [hall] at hl
      cases hl
  · have hl : a.st.loc2id C.geo l = .allocated := hl
    rcases hmark l with hkeep | ⟨-, hret⟩
    · exact Held.put_of_stage (h.reserved l (hkeep ▸ hl)) hτ (by simp [hstage])
    · exact ⟨id, _, a.ret, update_self .., rfl, hret⟩
  · rcases update_task_iff.mp hi with ⟨-, rfl⟩ | ⟨-, hi⟩
    · obtain rfl := Stage.reserved.inj hs
      exact hlen
    · exact h.held i σ locs hi hs

end Steps

section Publish

variable {id : ℕ} {p : Point n} {locs : List ℕ} {τ : Task n}

/-- What a publication does to maps and tags: the neighbours and the target move to the slots
`locs`, the neighbours from the slots `olds`. -/
theorem publish_moves (h : publish C id p locs x = some y) (hnd : p.newNhood.Nodup)
    (hfresh : x.id2loc id = none) (hlen : locs.length = p.newNhood.length + 1) :
    id ∉ p.newNhood ∧
      y.alloc = x.alloc.eraseAndSetLoc C.geo (p.newNhood.filterMap x.id2loc) locs
        (p.newNhood ++ [id]) ∧
      (∀ l i, (l, i) ∈ locs.zip (p.newNhood ++ [id]) → y.id2loc i = some l) ∧
      (∀ i, i ∉ p.newNhood → i ≠ id → y.id2loc i = x.id2loc i) ∧
      (∀ i, (y.id2loc i).isSome ↔ i = id ∨ (x.id2loc i).isSome) ∧
      y.tags = update x.tags id (some p.tag) ∧ y.curId = x.curId ∧
      y.deletionSets = x.deletionSets ∧ y.activeDeleteSet = x.activeDeleteSet := by
  unfold publish at h
  split_ifs at h with hguard
  obtain ⟨loc, hloc, h⟩ := bind_eq_some_iff.mp h
  obtain ⟨f, -, h⟩ := bind_eq_some_iff.mp h
  obtain ⟨⟨m, olds⟩, hm, rfl⟩ := map_eq_some_iff.mp h
  have hid : id ∉ p.newNhood := fun hmem => by
    have := hguard.1 id hmem
    rw [hfresh] at this
    cases this
  obtain ⟨m', hm', -, hset, hkeep⟩ := switchNbrs_target hlen hnd hguard.1 hfresh
  have holds : (p.newNhood ++ [id]).filterMap x.id2loc = p.newNhood.filterMap x.id2loc := by
    simp [filterMap_append, hfresh]
  rw [hloc, holds] at hm'
  obtain ⟨rfl, rfl⟩ := Prod.mk.inj (some.inj (hm'.symm.trans hm))
  refine ⟨hid, rfl, fun l i hli => hset (i, l) (mem_zip_swap.mp hli), fun i hi hne => ?_,
    fun i => ?_, rfl, rfl, rfl, rfl⟩
  · exact hkeep i fun hmem =>
      (mem_append.mp hmem).elim hi fun h => hne (mem_singleton.mp h)
  · show (m' i).isSome ↔ _
    rw [switchNbrs_isSome hm']
    by_cases hi : i = id
    · simp [hi]
    · rw [update_of_ne hi]
      simp [hi]

theorem Placed.publish (h : Placed C.geo x task) (hτ : task id = some τ)
    (hstage : τ.stage = .reserved locs) (hy : Dynamic.publish C id τ.point locs x = some y) :
    Placed C.geo y (update task id (some { τ with stage := .finished })) := by
  have hun : τ.stage ≠ .finished := by
    rw [hstage]
    simp
  have hlen := h.held id τ locs hτ hstage
  obtain ⟨hid, halloc, hmoved, hkept, hsome, -, hcur, -, -⟩ :=
    publish_moves hy (h.nodup id τ hτ) (h.fresh id τ hτ hun) hlen
  have hfst : (locs.zip (τ.point.newNhood ++ [id])).map Prod.fst = locs :=
    map_fst_zip (by rw [hlen, length_append, length_singleton])
  have hold : ∀ l ∈ τ.point.newNhood.filterMap x.id2loc,
      (x.alloc.pageLayout (C.geo.locSectorNo l)).isSome := fun l hl => by
    obtain ⟨i, -, hi⟩ := mem_filterMap.mp hl
    exact h.mapped i l hi
  have hids : ∀ i ∈ τ.point.newNhood ++ [id],
      ∃ l, (l, i) ∈ locs.zip (τ.point.newNhood ++ [id]) := by
    intro i hi
    have hle : (τ.point.newNhood ++ [id]).length ≤ locs.length := by
      rw [hlen, length_append, length_singleton]
    obtain ⟨l, hl⟩ := exists_mem_zip hle hi
    exact ⟨l, mem_zip_swap.mp hl⟩
  refine ⟨fun l i hl => ?_, fun i l hl => ?_, fun i hi => ?_, fun l hl => ?_,
    hcur ▸ forall_update_task (h.started id τ hτ) fun i σ _ => h.started i σ,
    forall_update_task (by simp) fun i σ hne hi hs => ?_,
    forall_update_task (h.nodup id τ hτ) fun i σ _ => h.nodup i σ, fun i σ locs' hi hs => ?_⟩
  · rw [halloc] at hl
    rcases AllocState.loc2id_eraseAndSetLoc _ _ hold hl (by simp) with
      ⟨j, hj, hij⟩ | ⟨hnold, -, hbefore⟩
    · obtain rfl := Occupant.node.inj hij
      exact hmoved l i hj
    · -- a slot that keeps its id is not the old slot of an id that moves
      have hloc := h.slot l i hbefore
      have hnot : i ∉ τ.point.newNhood := fun hmem =>
        hnold (mem_filterMap.mpr ⟨i, hmem, hloc⟩)
      have hne : i ≠ id := by
        rintro rfl
        rw [h.fresh i τ hτ hun] at hloc
        cases hloc
      rw [hkept i hnot hne, hloc]
  · rw [halloc]
    by_cases hi : i ∈ τ.point.newNhood ++ [id]
    · obtain ⟨l', hl'⟩ := hids i hi
      obtain rfl : l' = l := some.inj ((hmoved l' i hl').symm.trans hl)
      exact AllocState.isSome_eraseAndSetLoc_of_mem hold (mem_map_of_mem hl')
    · rw [mem_append, mem_singleton, not_or] at hi
      rw [hkept i hi.1 hi.2] at hl
      exact AllocState.isSome_eraseAndSetLoc _ _ hold (h.mapped i l hl)
  · rw [hcur]
    rcases (hsome i).mp hi with rfl | hi
    · exact h.started i τ hτ
    · exact h.below i hi
  · rw [halloc] at hl
    rcases AllocState.loc2id_eraseAndSetLoc _ _ hold hl (by simp) with
      ⟨j, -, hij⟩ | ⟨-, hnew, hbefore⟩
    · cases hij
    · rw [hfst] at hnew
      exact Held.put_of_stage (h.reserved l hbefore) hτ (by simpa [hstage] using hnew)
  · have hnone := h.fresh i σ hi hs
    rw [← not_isSome_iff_eq_none, hsome, hnone]
    simp [hne]
  · rcases update_task_iff.mp hi with ⟨-, rfl⟩ | ⟨-, hi⟩
    · cases hs
    · exact h.held i σ locs' hi hs

/-- A publication adds no tag but that of its point, and other ids keep theirs. -/
theorem Placed.id2tag_publish (h : Placed C.geo x task) (hτ : task id = some τ)
    (hstage : τ.stage = .reserved locs) (hy : Dynamic.publish C id τ.point locs x = some y) :
    (∀ i, (y.id2loc i).isSome ↔ i = id ∨ (x.id2loc i).isSome) ∧
      ∀ i, y.id2tag i = if i = id then τ.point.tag else x.id2tag i := by
  have hun : τ.stage ≠ .finished := by
    rw [hstage]
    simp
  obtain ⟨-, -, -, -, hsome, htags, -⟩ :=
    publish_moves hy (h.nodup id τ hτ) (h.fresh id τ hτ hun) (h.held id τ locs hτ hstage)
  refine ⟨hsome, fun i => ?_⟩
  rw [State.id2tag, htags]
  split_ifs with hi
  · rw [hi, update_self, getD_some]
  · rw [update_of_ne hi]
    rfl

end Publish

section Merge

variable {J : Merge.Job} {m : Merge.Merged n}

theorem Placed.liveAt (h : Placed C.geo x task)
    (hall : ∀ i τ, task i = some τ → τ.stage = .finished) {l i : ℕ}
    (hl : Merge.liveAt J (x.index C.geo) l = some i) :
    x.id2loc i = some l ∧ x.id2tag i ∉ J.deleted := by
  obtain ⟨hslot, hdel⟩ := filter_eq_some_iff.mp hl
  have hocc : x.alloc.loc2id C.geo l = .node i := by
    cases hocc : x.alloc.loc2id C.geo l with
    | invalid => simp [Merge.slotId, State.index, hocc] at hslot
    | allocated =>
      obtain ⟨j, τ, locs, hj, hs, -⟩ := h.reserved l hocc
      rw [hall j τ hj] at hs
      cases hs
    | node j => simpa [Merge.slotId, State.index, hocc] using hslot
  refine ⟨h.slot l i hocc, ?_⟩
  rw [Bool.not_eq_true'] at hdel
  exact of_decide_eq_false hdel

theorem Placed.oneSlot (h : Placed C.geo x task)
    (hall : ∀ i τ, task i = some τ → τ.stage = .finished) :
    Merge.OneSlot J (x.index C.geo) := fun _ _ _ hl hl' =>
  some.inj ((h.liveAt hall hl).1.symm.trans (h.liveAt hall hl').1)

variable (h : Placed C.geo x task) (hall : ∀ i τ, task i = some τ → τ.stage = .finished)
  (hJ : J.Fair C.nnodesPerSector x.alloc.curLoc)
  (hm : Merge.mergeDeletes C.toMerge J (x.index C.geo) = some m)

include h hall hJ hm

/-- After a merge of an index with no phase under way the ids are in place. -/
theorem Placed.rebuild : Placed C.geo (x.rebuild C.geo m) task := by
  have hle : m.npoints ≤ x.curId :=
    Merge.npoints_le_of_mergeDeletes hJ (h.oneSlot hall) hm fun loc id hlive => by
      refine h.below id ?_
      rw [(h.liveAt hall hlive).1]
      rfl
  refine ⟨fun l i hl => (inverse_rebuild i l).mpr hl, fun i l hl => ?_, fun i hi => ?_,
    fun l hl => ?_, h.started, fun i τ hi hs => absurd (hall i τ hi) hs, h.nodup, h.held⟩
  · rw [← ne_none_iff_isSome]
    intro hnone
    have hocc := (inverse_rebuild (C := C) (s := x) (m := m) i l).mp hl
    rw [AllocState.loc2id_of_unmapped hnone] at hocc
    cases hocc
  · obtain ⟨l, hl⟩ := isSome_iff_exists.mp hi
    exact (id2loc_rebuild.mp hl).2.trans_le hle
  · rw [loc2id_rebuild] at hl
    split_ifs at hl

/-- The tags after a merge are tags from before it that were not deleted. -/
theorem Placed.stored_rebuild {tag : ℕ} (htag : Stored (x.rebuild C.geo m) tag) :
    Stored x tag ∧ tag ∉ J.deleted := by
  obtain ⟨i, hi, rfl⟩ := htag
  obtain ⟨l, hl⟩ := isSome_iff_exists.mp hi
  have hlt := (id2loc_rebuild.mp hl).2
  obtain ⟨loc, id, hlive, htags⟩ := Merge.tags_of_mergeDeletes hJ (h.oneSlot hall) hm hlt
  obtain ⟨hloc, hdel⟩ := h.liveAt hall hlive
  have heq : (x.rebuild C.geo m).id2tag i = x.id2tag id := by
    simp [State.id2tag, State.rebuild, hlt, htags]
    rfl
  rw [heq]
  exact ⟨⟨id, by rw [hloc]; rfl, rfl⟩, hdel⟩

end Merge

end Ccann.Dynamic
