import Ccann.Dynamic.Slots
import Ccann.Merge.Correct

/-! The index across inserts and merges. `Sound` is what a call relies on: the maps are inverse
to each other over the ids in use, no slot is reserved, and every list has at most `range`
entries, all of them ids in use. An insert keeps it. A merge rebuilds the maps for its output,
so it is the index with that output opened that is sound again; what its ids stand for is said
by the renumbering of the merge. -/

namespace Ccann.Dynamic

open Nodes Layout Option

variable {F : Type*} {n : ℕ} {C : Params F} {s t : State n} {i : ℕ} {p : Point n} {r : Record}

section Relabel

variable (g : Geometry) (npoints : ℕ) (a : AllocState)

theorem relabel_succ :
    relabel g (npoints + 1) a = (relabel g npoints a).setLoc2id g npoints (.node npoints) := by
  rw [relabel, List.range_succ, List.foldl_append]
  rfl

theorem loc2id_relabel (l : ℕ) :
    (relabel g npoints a).loc2id g l = if l < npoints then .node l else .invalid := by
  induction npoints with
  | zero => simp [relabel, AllocState.loc2id]
  | succ m ih =>
    rw [relabel_succ, AllocState.loc2id_setLoc2id, ih]
    by_cases hl : l = m
    · simp [hl]
    · rw [if_neg hl]
      have : l < m ↔ l < m + 1 := by omega
      simp only [this]

theorem isSome_relabel (p : ℕ) :
    ((relabel g npoints a).pageLayout p).isSome ↔ ∃ i < npoints, g.locSectorNo i = p := by
  induction npoints with
  | zero => simp [relabel]
  | succ m ih =>
    rw [relabel_succ, AllocState.isSome_setLoc2id, ih]
    constructor
    · rintro (rfl | ⟨i, hi, rfl⟩)
      · exact ⟨m, Nat.lt_succ_self m, rfl⟩
      · exact ⟨i, by omega, rfl⟩
    · rintro ⟨i, hi, rfl⟩
      by_cases him : i = m
      · exact .inl (by rw [him])
      · exact .inr ⟨i, by omega, rfl⟩

/-- With the frontier behind the last page in use and no page queued, the layout is that of a
newly opened index. -/
theorem relabel_wellFormed :
    ({ relabel g npoints a with curLoc := roundUp g npoints, emptyPages := [] } :
      AllocState).WellFormed g := by
  refine ⟨dvd_roundUp g npoints, fun p => ?_, List.nodup_nil, by simp⟩
  rw [isSome_relabel]
  constructor
  · rintro ⟨i, hi, rfl⟩
    have hone := g.one_le_locSectorNo i
    refine ⟨hone, (le_roundUp_div_iff g hone).mpr ?_⟩
    rw [Geometry.locSectorNo, Nat.add_sub_cancel_left]
    exact (Nat.div_mul_le_self ..).trans_lt hi
  · rintro ⟨hone, hle⟩
    refine ⟨(p - 1) * g.nnodesPerSector, (le_roundUp_div_iff g hone).mp hle, ?_⟩
    rw [Geometry.locSectorNo, Nat.mul_div_cancel _ g.pos]
    omega

end Relabel

structure Sound (C : Params F) (s : State n) : Prop where
  consistent : Consistent C.geo s.toIndex
  unreserved : ∀ l, s.alloc.loc2id C.geo l ≠ .allocated
  degree : ∀ i r, s.record i = some r → r.nhood.length ≤ C.range
  closed : ∀ i r, s.record i = some r → ∀ y ∈ r.nhood, y < s.curId
  medoid : s.medoid < s.curId

theorem Inserted.record_cases (h : Inserted C p s t) (hr : t.record i = some r)
    (hold : ∀ x ∈ p.newNhood, ∃ r, s.record x = some r) :
    (i = s.curId ∧ r = ⟨p.coords, p.newNhood⟩) ∨
      ∃ r₀, s.record i = some r₀ ∧ i ≠ s.curId ∧ r.coords = r₀.coords ∧
        (r.nhood = r₀.nhood ∨ C.extend i s.curId r₀.nhood = some r.nhood) :=
  record_cases_of_insert h.target h.nbr h.other hr hold

theorem Sound.exists_record (h : Sound C s) (hi : i < s.curId) : ∃ r, s.record i = some r := by
  obtain ⟨l, hl⟩ := isSome_iff_exists.mp ((h.consistent.total i).mpr hi)
  exact ⟨s.file l, by rw [State.record, hl, map_some]⟩

theorem Sound.lt_curId (h : Sound C s) (hr : s.record i = some r) : i < s.curId := by
  obtain ⟨l, hl, -⟩ := map_eq_some_iff.mp hr
  exact (h.consistent.total i).mp (by rw [hl]; rfl)

/-- An insert succeeds and keeps the index sound. -/
theorem Sound.insert (h : Sound C s) (hp : p.Valid C s) :
    ∃ t, insertInPlace C p s = some t ∧ Inserted C p s t ∧ Sound C t := by
  obtain ⟨t, ht, hins⟩ := insertInPlace_spec h.consistent h.degree hp
  obtain ⟨ix, hix, hcons, hcur, hres⟩ :=
    insertMapping_spec p.hints h.consistent hp.nodup hp.old
  obtain rfl : t.toIndex = ix := some.inj (hins.maps.symm.trans hix)
  have hold : ∀ x ∈ p.newNhood, ∃ r, s.record x = some r := fun x hx =>
    h.exists_record (hp.old x hx)
  have hcurId : t.curId = s.curId + 1 := hcur
  refine ⟨t, ht, hins, hcons, fun l hl => h.unreserved l (hres l hl), fun i r hr => ?_,
    fun i r hr y hy => ?_, ?_⟩
  · rcases hins.record_cases hr hold with ⟨-, rfl⟩ | ⟨r₀, hr₀, -, -, hsame | hext⟩
    · exact hp.le
    · rw [hsame]
      exact h.degree i r₀ hr₀
    · obtain ⟨new, hnew, -, hle, -⟩ := C.extend_spec i s.curId (h.degree i r₀ hr₀)
      rwa [some.inj (hext.symm.trans hnew)]
  · rw [hcurId]
    rcases hins.record_cases hr hold with ⟨-, rfl⟩ | ⟨r₀, hr₀, -, -, hsame | hext⟩
    · exact Nat.lt_succ_of_lt (hp.old y hy)
    · exact Nat.lt_succ_of_lt (h.closed i r₀ hr₀ y (hsame ▸ hy))
    · obtain ⟨new, hnew, hsub, -⟩ := C.extend_spec i s.curId (h.degree i r₀ hr₀)
      rw [some.inj (hext.symm.trans hnew)] at hy
      rcases List.mem_append.mp (hsub hy) with hy | hy
      · exact Nat.lt_succ_of_lt (h.closed i r₀ hr₀ y hy)
      · rw [List.mem_singleton.mp hy]
        exact Nat.lt_succ_self _
  · rw [hcurId, hins.medoid]
    exact Nat.lt_succ_of_lt h.medoid

section Merge

/-- The job of a `final_merge`: it deletes the tags in the set that was active. -/
def frozen (J : Merge.Job) (s : State n) : Merge.Job :=
  { J with deleted := s.deletionSets s.activeDeleteSet }

theorem finalMerge_eq (J : Merge.Job) (s : State n) : finalMerge C J s =
    (Merge.mergeDeletes C.toMerge (frozen J s) (s.index C.geo)).map fun m =>
      (saveDelSet s).rebuild C.geo m := by
  rw [finalMerge, saveDelSet_frozen, mergeDeletes, saveDelSet_index, frozen]

/-- What a merge needs to get through: each loop runs its iterations once, no candidate set is
too large, and there is a node for the new entry point. -/
structure Mergeable (C : Params F) (J : Merge.Job) (s : State n) : Prop where
  fair : J.Fair C.nnodesPerSector s.alloc.curLoc
  limit : Merge.WithinLimit C.toMerge (frozen J s) (s.index C.geo) s.id2loc
  medoid : Merge.MedoidKept (frozen J s) (s.index C.geo) s.id2loc

theorem Sound.quiescent (h : Sound C s) :
    Merge.Quiescent C.toMerge (s.index C.geo) s.id2loc where
  inverse := h.consistent.id2loc_iff
  unreserved := h.unreserved
  below _ _ hl := h.consistent.lt_curLoc hl
  degree i l hl := h.degree i _ (by rw [State.record, hl, map_some]; rfl)
  closed i l hl y hy := (h.consistent.total y).mpr
    (h.closed i _ (by rw [State.record, hl, map_some]; rfl) y hy)
  medoid := (h.consistent.total _).mpr h.medoid

variable {J : Merge.Job}

/-- A merge of a sound index succeeds. -/
theorem Sound.finalMerge (h : Sound C s) (hm : Mergeable C J s) :
    ∃ m, Merge.Merges C.toMerge (frozen J s) (s.index C.geo) s.id2loc m ∧
      finalMerge C J s = some ((saveDelSet s).rebuild C.geo m) := by
  have hfair : (frozen J s).Fair C.toMerge.nnodesPerSector (s.index C.geo).curLoc :=
    ⟨hm.fair.populate, hm.fair.merge⟩
  obtain ⟨m, hmerge, hspec⟩ := Merge.mergeDeletes_spec h.quiescent hfair hm.limit hm.medoid
  exact ⟨m, hspec, by rw [finalMerge_eq, hmerge, map_some]⟩

/-- A merge that has returned has met its limits. -/
theorem Sound.limits_of_finalMerge (h : Sound C s) (hJ : J.Fair C.nnodesPerSector s.alloc.curLoc)
    (ht : Dynamic.finalMerge C J s = some t) :
    Merge.WithinLimit C.toMerge (frozen J s) (s.index C.geo) s.id2loc ∧
      Merge.MedoidKept (frozen J s) (s.index C.geo) s.id2loc := by
  rw [finalMerge_eq] at ht
  obtain ⟨m, hm, -⟩ := map_eq_some_iff.mp ht
  exact Merge.limits_of_mergeDeletes h.quiescent ⟨hJ.populate, hJ.merge⟩
    (Nat.lt_of_succ_lt C.range_lt_maxPqCount) hm

variable {J : Merge.Job} {x : Merge.Index n} {id2loc : ℕ → Option ℕ} {m : Merge.Merged n}

/-- The record in the output of an id of the merged index is that of a live node. -/
theorem record_merged (h : Merge.Merges C.toMerge J x id2loc m) {i : ℕ} {r : Record}
    (hr : (reload C.geo (t.rebuild C.geo m)).record i = some r) :
    i < m.npoints ∧ ∃ id loc, Merge.Live J x id2loc id ∧ id2loc id = some loc ∧
      m.idMap id = some i ∧ r.coords = (x.record loc).coords ∧ r.nhood.length ≤ C.range ∧
      r.nhood.Nodup ∧ i ∉ r.nhood ∧ ∀ y ∈ r.nhood, y < m.npoints := by
  obtain ⟨l, hl, rfl⟩ := map_eq_some_iff.mp hr
  obtain ⟨hi, rfl⟩ : i < m.npoints ∧ i = l := by
    simpa [reload, State.rebuild] using hl
  obtain ⟨id, hlive, hid⟩ := h.onto i hi
  obtain ⟨loc, hloc⟩ := isSome_iff_exists.mp hlive.1
  obtain ⟨r, hout, hcoords, hle, hnd, hself, hnbr⟩ := h.record id i loc hid hloc
  have hfile : (reload C.geo (t.rebuild C.geo m)).file i = r := by
    simp [reload, State.rebuild, hout]
  rw [hfile]
  refine ⟨hi, id, loc, hlive, hloc, hid, hcoords, hle, hnd, hself, fun y hy => ?_⟩
  obtain ⟨z, hz, hzy⟩ := hnbr y hy
  obtain ⟨j, hj, hzj⟩ := (h.live z).mp hz
  rwa [some.inj (hzy.symm.trans hzj)]

/-- The output of a merge, once it is opened, is a sound index. -/
theorem sound_merged (h : Merge.Merges C.toMerge J x id2loc m) :
    Sound C (reload C.geo (t.rebuild C.geo m)) := by
  have hloc2id : ∀ l, (reload C.geo (t.rebuild C.geo m)).alloc.loc2id C.geo l =
      if l < m.npoints then .node l else .invalid := loc2id_relabel C.geo m.npoints t.alloc
  refine ⟨⟨relabel_wellFormed C.geo m.npoints t.alloc, fun i l => ?_, fun i => ?_⟩, fun l => ?_,
    fun i r hr => ?_, fun i r hr y hy => ?_, ?_⟩
  · rw [hloc2id]
    simp only [reload, State.rebuild]
    split_ifs <;> grind
  · simp only [reload, State.rebuild]
    split_ifs with hi <;> simp [hi]
  · rw [hloc2id]
    split_ifs <;> simp
  · obtain ⟨-, id, loc, -, -, -, -, hle, -⟩ := record_merged h hr
    exact hle
  · obtain ⟨-, id, loc, -, -, -, -, -, -, -, hnbr⟩ := record_merged h hr
    exact hnbr y hy
  · obtain ⟨id, hlive, hid⟩ := h.medoid
    obtain ⟨j, hj, hidj⟩ := (h.live id).mp hlive
    show m.medoid < m.npoints
    rwa [some.inj (hid.symm.trans hidj)]

end Merge

section Star

/-- Lists of at most two ids, two nodes to a sector. -/
def starParams : Params ℚ where
  toInsert := Insert.twoNodeParams
  maxc := 4
  one := 1
  huge := 2 ^ 128
  le a b := decide (a ≤ b)
  max := max
  grow a := a * (6 / 5)
  rounds := 2
  le_rounds := by norm_num [Insert.twoNodeParams]
  lt_irrefl := by simp [Insert.twoNodeParams, Insert.exactOps]
  nnodesPerSector := 2
  pos := Nat.two_pos
  pruning := .delta
  sectors := rfl

theorem seven_isCode : [7].length = 1 ∧ ∀ b ∈ [7], b < 256 := by decide

/-- Ids 0, 1 and 2 with tags 10, 11 and 12. Ids 1 and 2 point to 0, and 0 points to 1. -/
def star : State 1 where
  toIndex := loadEqual pairGeometry 3
  file l := ⟨[l], if l = 0 then [1] else [0]⟩
  outFile _ := ⟨[], []⟩
  tags i := if i < 3 then some (10 + i) else none
  data _ := ⟨[7], seven_isCode⟩
  medoid := 0
  numPoints := 3
  ckptId := 3
  commitQueue := []
  deletionSets _ := []
  activeDeleteSet := false
  stale := false

def point (tag : ℕ) (newNhood : List ℕ) : Point 1 where
  coords := [tag]
  tag := tag
  code := ⟨[7], seven_isCode⟩
  newNhood := newNhood
  hints := []

def inOrder (curLoc : ℕ) : Merge.Job where
  deleted := []
  nSampledNbrs := 2
  populateOrder := Merge.batchLocs 2 curLoc Merge.sectorsPerPopulate
  mergeOrder := Merge.batchLocs 2 curLoc Merge.sectorsPerMerge
  setOrder _ l := l
  setOrder_perm _ l := .refl l

theorem inOrder_fair (curLoc : ℕ) : (inOrder curLoc).Fair starParams.nnodesPerSector curLoc :=
  ⟨fun _ _ => .refl _, fun _ _ => .refl _⟩

theorem star_id2loc {i l : ℕ} : star.id2loc i = some l ↔ i = l ∧ i < 3 := by
  simp only [star, loadEqual]
  split_ifs <;> simp [*]

theorem star_sound : Sound starParams star := by
  have hcons : Consistent starParams.geo star.toIndex := loadEqual_consistent 3
  have hrec : ∀ i r, star.record i = some r → r = star.file i := by
    intro i r hr
    obtain ⟨l, hl, rfl⟩ := map_eq_some_iff.mp hr
    rw [(star_id2loc.mp hl).1]
  refine ⟨hcons, fun l hl => ?_, fun i r hr => ?_, fun i r hr y hy => ?_, by decide⟩
  · simp only [star, loadEqual, AllocState.loc2id] at hl
    split_ifs at hl
    grind
  · rw [hrec i r hr]
    simp only [star]
    split_ifs <;> decide
  · rw [hrec i r hr] at hy
    simp only [star] at hy
    show y < 3
    split_ifs at hy <;> simp at hy <;> omega

end Star

end Ccann.Dynamic
