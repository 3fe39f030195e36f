import Ccann.Concurrent.Runs
import Ccann.Dynamic.Rebuild

/-! What an index with deletions stands for: a set of pairs of a tag and a vector, to which an
insert adds a pair and from which a deletion removes all pairs with its tag. The index keeps
deleted pairs until the next merge and remembers only their tags. So the set is what the index
holds without the pairs whose tag is in the active deletion set, provided that no tag is
inserted again while it is in there, and that no insert or merge reads a file for which the maps
were not built. -/

namespace Ccann.Dynamic

open Nodes Layout Concurrent Option

variable {F : Type*} {n : ℕ} {C : Params F} {s t : State n} {A : Set (ℕ × List ℕ)}

section Abstract

def State.current (s : State n) : ℕ → Record :=
  if s.stale then s.outFile else s.file

def pairs (s : State n) : Set (ℕ × List ℕ) :=
  { q | ∃ id loc, s.id2loc id = some loc ∧ q = (s.id2tag id, (s.current loc).coords) }

/-- What a call means for the set of pairs. -/
def Call.apply (c : Call n) (A : Set (ℕ × List ℕ)) : Set (ℕ × List ℕ) :=
  match c with
  | .insert p => A ∪ {(p.tag, p.coords)}
  | .lazyDelete tag => { q ∈ A | q.1 ≠ tag }
  | .finalMerge _ => A
  | .reload => A

def applyAll (cs : List (Call n)) (A : Set (ℕ × List ℕ)) : Set (ℕ × List ℕ) :=
  cs.foldl (fun A c => c.apply A) A

end Abstract

section Conditions

/-- What the search phase of an insert and the scheduling of a merge provide. -/
def Call.Admissible (C : Params F) (s : State n) : Call n → Prop
  | .insert p => p.Valid C s
  | .finalMerge J => J.Fair C.nnodesPerSector s.alloc.curLoc
  | .lazyDelete _ => True
  | .reload => True

/-- Inserts and merges are for an index whose open file is the one its maps describe, and that
is opened after a merge; a tag is not inserted while it waits to be merged away; and the merge
gets through. -/
def Call.Safe (C : Params F) (s : State n) : Call n → Prop
  | .insert p => s.stale = false ∧ p.tag ∉ s.deletionSets s.activeDeleteSet
  | .finalMerge J => s.stale = false ∧
      Merge.WithinLimit C.toMerge (frozen J s) (s.index C.geo) s.id2loc ∧
      Merge.MedoidKept (frozen J s) (s.index C.geo) s.id2loc
  | .lazyDelete _ => True
  | .reload => s.stale = true

end Conditions

def opened (g : Geometry) (s : State n) : State n :=
  if s.stale then reload g s else s

/-- The index stands for the set `A`. -/
structure Tracks (C : Params F) (A : Set (ℕ × List ℕ)) (s : State n) : Prop where
  sound : Sound C (opened C.geo s)
  mem_iff : ∀ q, q ∈ A ↔ q ∈ pairs s ∧ q.1 ∉ s.deletionSets s.activeDeleteSet

theorem Tracks.sound_of_fresh (h : Tracks C A s) (hs : s.stale = false) : Sound C s := by
  have := h.sound
  rwa [opened, hs] at this

theorem mem_pairs_of_fresh (hs : s.stale = false) {q : ℕ × List ℕ} :
    q ∈ pairs s ↔ ∃ id r, s.record id = some r ∧ q = (s.id2tag id, r.coords) := by
  have hcur : s.current = s.file := by
    rw [State.current, hs]
    rfl
  constructor
  · rintro ⟨id, loc, hloc, rfl⟩
    exact ⟨id, s.file loc, by rw [State.record, hloc, map_some], by rw [hcur]⟩
  · rintro ⟨id, r, hr, rfl⟩
    obtain ⟨loc, hloc, rfl⟩ := map_eq_some_iff.mp hr
    exact ⟨id, loc, hloc, by rw [hcur]⟩

section Insert

variable {p : Point n}

theorem Inserted.id2tag (h : Inserted C p s t) (i : ℕ) :
    t.id2tag i = if i = s.curId then p.tag else s.id2tag i := by
  rw [State.id2tag, h.tags]
  split_ifs with hi
  · rw [hi, Function.update_self, getD_some]
  · rw [Function.update_of_ne hi]
    rfl

/-- An insert adds its pair and keeps all others. -/
theorem Inserted.pairs (h : Inserted C p s t) (hs : Sound C s) (hp : p.Valid C s)
    (hfresh : s.stale = false) : pairs t = pairs s ∪ {(p.tag, p.coords)} := by
  have hold : ∀ x ∈ p.newNhood, ∃ r, s.record x = some r := fun x hx =>
    hs.exists_record (hp.old x hx)
  ext q
  rw [mem_pairs_of_fresh (h.stale.trans hfresh), Set.mem_union, Set.mem_singleton_iff,
    mem_pairs_of_fresh hfresh]
  constructor
  · rintro ⟨i, r, hr, rfl⟩
    rw [h.id2tag]
    rcases h.record_cases hr hold with ⟨rfl, rfl⟩ | ⟨r₀, hr₀, hi, hcoords, -⟩
    · exact .inr (by rw [if_pos rfl])
    · exact .inl ⟨i, r₀, hr₀, by rw [if_neg hi, hcoords]⟩
  · rintro (⟨i, r, hr, rfl⟩ | rfl)
    · have hi : i ≠ s.curId := Nat.ne_of_lt (hs.lt_curId hr)
      by_cases hin : i ∈ p.newNhood
      · obtain ⟨new, -, hrec⟩ := h.nbr i hin r hr
        exact ⟨i, _, hrec, by rw [h.id2tag, if_neg hi]⟩
      · exact ⟨i, r, by rw [h.other i hi hin, hr], by rw [h.id2tag, if_neg hi]⟩
    · exact ⟨s.curId, _, h.target, by rw [h.id2tag, if_pos rfl]⟩

theorem Tracks.insert (h : Tracks C A s) (hp : p.Valid C s) (hfresh : s.stale = false)
    (htag : p.tag ∉ s.deletionSets s.activeDeleteSet) :
    ∃ t, insertInPlace C p s = some t ∧ Tracks C ((Call.insert p).apply A) t := by
  have hsound := h.sound_of_fresh hfresh
  obtain ⟨t, ht, hins, hsound'⟩ := hsound.insert hp
  refine ⟨t, ht, ?_, fun q => ?_⟩
  · rw [opened, hins.stale, hfresh]
    exact hsound'
  · rw [hins.pairs hsound hp hfresh, hins.deletionSets, hins.activeDeleteSet, Call.apply,
      Set.mem_union, Set.mem_union, Set.mem_singleton_iff, h.mem_iff]
    constructor
    · rintro (⟨hq, hdel⟩ | rfl)
      · exact ⟨.inl hq, hdel⟩
      · exact ⟨.inr rfl, htag⟩
    · rintro ⟨hq | rfl, hdel⟩
      · exact .inl ⟨hq, hdel⟩
      · exact .inr rfl

end Insert

section Delete

theorem opened_lazyDelete (g : Geometry) (tag : ℕ) (s : State n) :
    opened g (lazyDelete tag s) = lazyDelete tag (opened g s) := by
  cases hs : s.stale <;> by_cases htag : tag ∈ s.deletionSets s.activeDeleteSet <;>
    simp [opened, lazyDelete, reload, hs, htag]

theorem Sound.lazyDelete (h : Sound C s) (tag : ℕ) : Sound C (lazyDelete tag s) := by
  unfold Dynamic.lazyDelete
  split_ifs
  · exact h
  · exact ⟨h.consistent, h.unreserved, h.degree, h.closed, h.medoid⟩

theorem pairs_lazyDelete (tag : ℕ) (s : State n) : pairs (lazyDelete tag s) = pairs s := by
  unfold lazyDelete
  split_ifs <;> rfl

theorem Tracks.lazyDelete (h : Tracks C A s) (tag : ℕ) :
    Tracks C ((Call.lazyDelete tag : Call n).apply A) (lazyDelete tag s) := by
  refine ⟨?_, fun q => ?_⟩
  · rw [opened_lazyDelete]
    exact h.sound.lazyDelete tag
  · rw [pairs_lazyDelete, mem_lazyDelete, not_or, Call.apply, Set.mem_ofPred_eq, h.mem_iff]
    tauto

end Delete

section Merge

variable {J : Merge.Job} {m : Merge.Merged n}

/-- The output of a merge holds the pairs of the live nodes. -/
theorem mem_pairs_rebuild {x : Merge.Index n} {id2loc : ℕ → Option ℕ}
    (h : Merge.Merges C.toMerge J x id2loc m) {q : ℕ × List ℕ} :
    q ∈ pairs (s.rebuild C.geo m) ↔ ∃ id loc, Merge.Live J x id2loc id ∧ id2loc id = some loc ∧
      q = (x.id2tag id, (x.record loc).coords) := by
  have htag : ∀ {id i}, m.idMap id = some i → i < m.npoints →
      (s.rebuild C.geo m).id2tag i = x.id2tag id := by
    intro id i hid hi
    simp [State.id2tag, State.rebuild, hi, h.tags id i hid]
  have hcoords : ∀ {id i loc}, m.idMap id = some i → id2loc id = some loc →
      ((s.rebuild C.geo m).current i).coords = (x.record loc).coords := by
    intro id i loc hid hloc
    obtain ⟨r, hout, hr, -⟩ := h.record id i loc hid hloc
    simp [State.current, State.rebuild, hout, hr]
  constructor
  · rintro ⟨i, l, hl, rfl⟩
    obtain ⟨hi, rfl⟩ : i < m.npoints ∧ i = l := by simpa [State.rebuild] using hl
    obtain ⟨id, hlive, hid⟩ := h.onto i hi
    obtain ⟨loc, hloc⟩ := isSome_iff_exists.mp hlive.1
    exact ⟨id, loc, hlive, hloc, by rw [htag hid hi, hcoords hid hloc]⟩
  · rintro ⟨id, loc, hlive, hloc, rfl⟩
    obtain ⟨i, hi, hid⟩ := (h.live id).mp hlive
    exact ⟨i, i, by simp [State.rebuild, hi], by rw [htag hid hi, hcoords hid hloc]⟩

/-- A merge leaves the set that the index stands for, and the index then holds just that. -/
theorem Tracks.finalMerge (h : Tracks C A s) (hm : Mergeable C J s) (hfresh : s.stale = false) :
    ∃ t, finalMerge C J s = some t ∧ Tracks C A t ∧ pairs t = A := by
  obtain ⟨m, hspec, hmerge⟩ := (h.sound_of_fresh hfresh).finalMerge hm
  have hpairs : pairs ((saveDelSet s).rebuild C.geo m) = A := by
    ext q
    rw [mem_pairs_rebuild hspec, h.mem_iff, mem_pairs_of_fresh hfresh]
    constructor
    · rintro ⟨id, loc, hlive, hloc, rfl⟩
      refine ⟨⟨id, s.file loc, by rw [State.record, hloc, map_some], rfl⟩, ?_⟩
      exact of_decide_eq_false hlive.2
    · rintro ⟨⟨id, r, hr, rfl⟩, hdel⟩
      obtain ⟨loc, hloc, rfl⟩ := map_eq_some_iff.mp hr
      exact ⟨id, loc, ⟨by rw [hloc]; rfl, decide_eq_false hdel⟩, hloc, rfl⟩
  refine ⟨_, hmerge, ⟨sound_merged hspec, fun q => ?_⟩, hpairs⟩
  rw [hpairs]
  have hnone : ((saveDelSet s).rebuild C.geo m).deletionSets
      ((saveDelSet s).rebuild C.geo m).activeDeleteSet = [] := saveDelSet_active s
  simp [hnone]

theorem Tracks.reload (h : Tracks C A s) (hs : s.stale = true) : Tracks C A (reload C.geo s) := by
  have hsound := h.sound
  rw [opened, hs, if_pos rfl] at hsound
  refine ⟨hsound, fun q => (h.mem_iff q).trans ?_⟩
  have hpairs : pairs (Dynamic.reload C.geo s) = pairs s := by
    simp only [pairs, State.current, hs, Dynamic.reload]
    rfl
  rw [hpairs]
  exact Iff.rfl

end Merge

/-- The step of a run. -/
theorem Tracks.step {c : Call n} (h : Tracks C A s) (hadm : c.Admissible C s)
    (hsafe : c.Safe C s) : ∃ t, step C s c = some t ∧ Tracks C (c.apply A) t := by
  cases c with
  | insert p => exact h.insert hadm hsafe.1 hsafe.2
  | lazyDelete tag => exact ⟨_, rfl, h.lazyDelete tag⟩
  | finalMerge J =>
    obtain ⟨t, ht, htracks, -⟩ := h.finalMerge ⟨hadm, hsafe.2.1, hsafe.2.2⟩ hsafe.1
    exact ⟨t, ht, htracks⟩
  | reload => exact ⟨_, rfl, h.reload hsafe⟩

theorem Tracks.run {cs : List (Call n)} (h : Tracks C A s)
    (hmeets : Meets (Dynamic.step C) (fun s c => c.Admissible C s ∧ c.Safe C s) s cs) :
    ∃ t, run (Dynamic.step C) s cs = some t ∧ Tracks C (applyAll cs A) t := by
  induction cs generalizing s A with
  | nil => exact ⟨s, rfl, h⟩
  | cons c cs ih =>
    obtain ⟨⟨hadm, hsafe⟩, hrest⟩ := hmeets
    obtain ⟨u, hu, htracks⟩ := h.step hadm hsafe
    obtain ⟨t, ht, htracks'⟩ := ih htracks (hrest u hu)
    exact ⟨t, run_cons_eq_some.mpr ⟨u, hu, ht⟩, htracks'⟩

theorem tracks_pairs (h : Sound C s) (hfresh : s.stale = false)
    (hempty : s.deletionSets s.activeDeleteSet = []) : Tracks C (pairs s) s := by
  refine ⟨?_, fun q => by simp [hempty]⟩
  rw [opened, hfresh]
  exact h

section Star

theorem star_withinLimit : Merge.WithinLimit starParams.toMerge
    (frozen (inOrder 4) (lazyDelete 11 star)) ((lazyDelete 11 star).index starParams.geo)
    (lazyDelete 11 star).id2loc := by
  intro id loc hloc _ cs hcs
  obtain ⟨rfl, hid⟩ := star_id2loc.mp hloc
  have hsmall : ∀ i < 3, (Merge.candidates (frozen (inOrder 4) (lazyDelete 11 star))
      ((lazyDelete 11 star).index starParams.geo)
      (Merge.populate starParams.toMerge (frozen (inOrder 4) (lazyDelete 11 star))
        ((lazyDelete 11 star).index starParams.geo)) i
      (((lazyDelete 11 star).index starParams.geo).record i).nhood).all
      (fun cs => decide (cs.length < 2)) = true := by
    decide +kernel
  have := hsmall id hid
  rw [hcs, all_some, decide_eq_true_eq] at this
  exact this.trans (by decide)

theorem lt_numPoints_of_finalMerge {J : Merge.Job} (h : finalMerge C J s = some t) {i l : ℕ}
    (hi : t.id2loc i = some l) : i < t.numPoints := by
  rw [finalMerge_eq] at h
  obtain ⟨m, -, rfl⟩ := map_eq_some_iff.mp h
  simp only [State.rebuild] at hi ⊢
  split_ifs at hi with hlt
  exact hlt

/-- A point at 9 with the tag of id 1. -/
def nine : Point 1 where
  coords := [9]
  tag := 11
  code := ⟨[7], seven_isCode⟩
  newNhood := [0]
  hints := []

end Star

end Ccann.Dynamic
