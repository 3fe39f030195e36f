import Ccann.Dynamic.Pairs

/-! The shape of the lists. An insert appends the target, which no list has yet, and either way
of pruning only removes; a merge drops repeated entries and the node itself. So if every merge
is followed by opening its output, the lists keep at most `range` distinct entries and none of
them is the node itself, and pruning always gets a list of the one length it accepts. -/

namespace Ccann.Dynamic

open Nodes Layout Concurrent Option

variable {F : Type*} {n : ℕ} {C : Params F} {s t : State n}

/-- No list has an entry twice, or the node itself. -/
structure Tidy (s : State n) : Prop where
  nodup : ∀ i r, s.record i = some r → r.nhood.Nodup
  irrefl : ∀ i r, s.record i = some r → i ∉ r.nhood

section Steps

variable {p : Point n}

theorem Tidy.insert (h : Tidy s) (hs : Sound C s) (hp : p.Valid C s) (hins : Inserted C p s t) :
    Tidy t := by
  have hold : ∀ x ∈ p.newNhood, ∃ r, s.record x = some r := fun x hx =>
    hs.exists_record (hp.old x hx)
  have happ : ∀ i r, s.record i = some r → (r.nhood ++ [s.curId]).Nodup := by
    intro i r hr
    refine List.nodup_append.mpr ⟨h.nodup i r hr, List.nodup_singleton _, fun y hy z hz => ?_⟩
    rw [List.mem_singleton.mp hz]
    exact Nat.ne_of_lt (hs.closed i r hr y hy)
  refine ⟨fun i r hr => ?_, fun i r hr hself => ?_⟩
  · rcases hins.record_cases hr hold with ⟨-, rfl⟩ | ⟨r₀, hr₀, -, -, hsame | hext⟩
    · exact hp.nodup
    · rw [hsame]
      exact h.nodup i r₀ hr₀
    · obtain ⟨new, hnew, -, -, hnd⟩ := C.extend_spec i s.curId (hs.degree i r₀ hr₀)
      rw [some.inj (hext.symm.trans hnew)]
      exact hnd (happ i r₀ hr₀)
  · rcases hins.record_cases hr hold with ⟨rfl, rfl⟩ | ⟨r₀, hr₀, hne, -, hsame | hext⟩
    · exact Nat.lt_irrefl _ (hp.old _ hself)
    · rw [hsame] at hself
      exact h.irrefl i r₀ hr₀ hself
    · obtain ⟨new, hnew, hsub, -⟩ := C.extend_spec i s.curId (hs.degree i r₀ hr₀)
      rw [some.inj (hext.symm.trans hnew)] at hself
      rcases List.mem_append.mp (hsub hself) with hmem | hmem
      · exact h.irrefl i r₀ hr₀ hmem
      · exact hne (List.mem_singleton.mp hmem)

theorem Tidy.lazyDelete (h : Tidy s) (tag : ℕ) : Tidy (lazyDelete tag s) := by
  unfold Dynamic.lazyDelete
  split_ifs
  · exact h
  · exact ⟨h.nodup, h.irrefl⟩

theorem tidy_merged {J : Merge.Job} {x : Merge.Index n} {id2loc : ℕ → Option ℕ}
    {m : Merge.Merged n} (h : Merge.Merges C.toMerge J x id2loc m) :
    Tidy (reload C.geo (t.rebuild C.geo m)) := by
  refine ⟨fun i r hr => ?_, fun i r hr => ?_⟩
  · obtain ⟨-, id, loc, -, -, -, -, -, hnd, -⟩ := record_merged h hr
    exact hnd
  · obtain ⟨-, id, loc, -, -, -, -, -, -, hself, -⟩ := record_merged h hr
    exact hself

theorem length_of_insertInPlace (h : insertInPlace C p s = some t) :
    p.newNhood.length < Insert.maxNEdges := by
  unfold insertInPlace at h
  split_ifs at h with hguard
  exact hguard.2

end Steps

section Conditions

/-- What a call is given: a list of at most `range` different ids in use, or a schedule that
runs each iteration of a loop once. -/
def Call.Sequential (C : Params F) (s : State n) : Call n → Prop
  | .insert p => p.newNhood.Nodup ∧ (∀ x ∈ p.newNhood, x < s.curId) ∧
      p.newNhood.length ≤ C.range
  | .finalMerge J => J.Fair C.nnodesPerSector s.alloc.curLoc
  | .lazyDelete _ => True
  | .reload => True

instance (C : Params F) (s : State n) : (c : Call n) → Decidable (c.Sequential C s)
  | .insert _ | .finalMerge _ | .lazyDelete _ | .reload => by unfold Call.Sequential; infer_instance

/-- Inserts and merges find the file opened that the maps describe, and `reload` opens the
output of a merge. -/
def Call.UpToDate (s : State n) : Call n → Prop
  | .insert _ => s.stale = false
  | .finalMerge _ => s.stale = false
  | .lazyDelete _ => True
  | .reload => s.stale = true

instance (s : State n) : (c : Call n) → Decidable (c.UpToDate s)
  | .insert _ | .finalMerge _ | .lazyDelete _ | .reload => by unfold Call.UpToDate; infer_instance

end Conditions

/-- The invariant, about the file that the maps describe. -/
structure InShape (C : Params F) (s : State n) : Prop where
  sound : Sound C (opened C.geo s)
  tidy : Tidy (opened C.geo s)

theorem opened_of_fresh (g : Geometry) (hs : s.stale = false) : opened g s = s := by
  rw [opened, hs]
  rfl

theorem opened_of_stale (g : Geometry) (hs : s.stale = true) : opened g s = reload g s := by
  rw [opened, hs]
  rfl

theorem InShape.step {c : Call n} (h : InShape C s) (hc : c.Sequential C s) (hup : c.UpToDate s)
    (ht : step C s c = some t) : InShape C t := by
  cases c with
  | insert p =>
    have hs := opened_of_fresh C.geo hup ▸ h.sound
    have htidy := opened_of_fresh C.geo hup ▸ h.tidy
    have hp : p.Valid C s := ⟨hc.1, hc.2.1, hc.2.2, length_of_insertInPlace ht⟩
    obtain ⟨u, hu, hins, hsound⟩ := hs.insert hp
    obtain rfl : u = t := some.inj (hu.symm.trans ht)
    have hfresh := opened_of_fresh C.geo (hins.stale.trans hup)
    exact ⟨hfresh.symm ▸ hsound, hfresh.symm ▸ htidy.insert hs hp hins⟩
  | lazyDelete tag =>
    cases ht
    refine ⟨?_, ?_⟩
    · rw [opened_lazyDelete]
      exact h.sound.lazyDelete tag
    · rw [opened_lazyDelete]
      exact h.tidy.lazyDelete tag
  | finalMerge J =>
    have hs := opened_of_fresh C.geo hup ▸ h.sound
    obtain ⟨hlim, hmed⟩ := hs.limits_of_finalMerge hc ht
    obtain ⟨m, hspec, hmerge⟩ := hs.finalMerge ⟨hc, hlim, hmed⟩
    obtain rfl := some.inj (hmerge.symm.trans ht)
    exact ⟨sound_merged hspec, tidy_merged hspec⟩
  | reload =>
    cases ht
    have hopen : opened C.geo (reload C.geo s) = opened C.geo s := by
      rw [opened_of_stale C.geo hup, opened_of_fresh C.geo rfl]
    exact ⟨hopen.symm ▸ h.sound, hopen.symm ▸ h.tidy⟩

section Star

theorem star_tidy : Tidy star := by
  have hrec : ∀ i r, star.record i = some r → r = star.file i ∧ i < 3 := by
    intro i r hr
    obtain ⟨l, hl, rfl⟩ := map_eq_some_iff.mp hr
    obtain ⟨rfl, hi⟩ := star_id2loc.mp hl
    exact ⟨rfl, hi⟩
  have hsmall : ∀ i < 3, (star.file i).nhood.Nodup ∧ i ∉ (star.file i).nhood := by decide
  refine ⟨fun i r hr => ?_, fun i r hr => ?_⟩
  · obtain ⟨rfl, hi⟩ := hrec i r hr
    exact (hsmall i hi).1
  · obtain ⟨rfl, hi⟩ := hrec i r hr
    exact (hsmall i hi).2

/-- Two inserts, a deletion and a merge whose output is opened. -/
def rounds : List (Call 1) :=
  [.insert (point 13 [0, 1]), .insert (point 14 [1]), .lazyDelete 11, .finalMerge (inOrder 8),
    .reload, .insert (point 15 [0])]

end Star

section Memory

/-- An insert on words in persistent memory, with the next id as its target. -/
def pmInsert (C : Params F) (x : Insert.State × ℕ) (p : Point n) : Option (Insert.State × ℕ) :=
  (Insert.insertPhasePm C.toInsert p.coords x.2 p.newNhood p.hints x.1).map fun m => (m, x.2 + 1)

/-- With delta pruning, any number of inserts on words does what the inserts on records do: none of
them fails, and afterwards every id reads as its record. -/
theorem pm_inserts_refine (hdelta : C.pruning = .delta) (m : Insert.State) (s : State n)
    (h : Represents C m s) (hs : Sound C s) (ps : List (Point n))
    (hps : Meets (fun s p => insertInPlace C p s)
      (fun s p => p.Valid C s ∧ p.coords.length = C.dim) s ps) :
    ∃ m' t, run (pmInsert C) (m, s.curId) ps = some (m', t.curId) ∧
      run (fun s p => insertInPlace C p s) s ps = some t ∧ Represents C m' t ∧ Sound C t := by
  induction ps generalizing m s with
  | nil => exact ⟨m, s, rfl, rfl, h, hs⟩
  | cons p ps ih =>
    obtain ⟨⟨hp, hdim⟩, hrest⟩ := hps
    obtain ⟨m', u, hm', hu, hrep⟩ := h.insert hdelta hs.consistent hs.degree hp hdim
    obtain ⟨u', hu', hins, hsound⟩ := hs.insert hp
    obtain rfl := some.inj (hu'.symm.trans hu)
    obtain ⟨ix, hix, -, hcur, -⟩ := insertMapping_spec p.hints hs.consistent hp.nodup hp.old
    obtain rfl := some.inj (hins.maps.symm.trans hix)
    obtain ⟨m₂, t, hm₂, ht, hlast⟩ := ih m' u' hrep hsound (hrest u' hu)
    refine ⟨m₂, t, run_cons_eq_some.mpr ⟨(m', u'.curId), ?_, hm₂⟩,
      run_cons_eq_some.mpr ⟨u', hu, ht⟩, hlast⟩
    rw [pmInsert, hm', hcur]
    rfl

/-- The records of `star` as words. -/
def starMemory : Insert.State where
  alloc := star.alloc
  id2loc := star.id2loc
  mem b j :=
    match b with
    | .pm 1 => [0, 1, 1, 0, 1, 1, 0].getD j 0
    | .pm 2 => [2, 1, 0].getD j 0
    | _ => 0

theorem starMemory_represents : Represents starParams starMemory star := by
  refine ⟨rfl, rfl, fun i => ?_⟩
  by_cases hi : i < 3
  · interval_cases i <;> decide +kernel
  · have hnone : star.id2loc i = none := if_neg hi
    simp [State.record, Insert.State.record, starMemory, hnone]

/-- The second point lists the first one, whose record is then replaced. -/
theorem pm_inserts_refine_two :
    ∃ m', ∃ t : State 1, run (pmInsert starParams) (starMemory, 3) [point 13 [0, 1], point 14 [3]] =
      some (m', t.curId) ∧ Represents starParams m' t := by
  obtain ⟨m', t, hm', -, hrep, -⟩ := pm_inserts_refine rfl starMemory star starMemory_represents
    star_sound [point 13 [0, 1], point 14 [3]] (by decide +kernel)
  exact ⟨m', t, hm', hrep⟩

end Memory

end Ccann.Dynamic
