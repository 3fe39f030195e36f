import Ccann.Insert.Effect
import Ccann.Recovery.Restore
import Ccann.Soft.CrashImages

/-! Recovery after a crash of Soft Insert. A crash image of a run gives the table and the
graph that the load reads; an id is durably published if it was there when the index was
opened or if its entry is one stored by an insert or the commit thread. The table reflects
the published ids of every image, so the load restores every recoverable image. -/

namespace Ccann.Recovery

open Nodes Layout Concurrent Persist List
open Soft (Opened Traced Sourced Addr Val Act traced_sourced_of_run step_npts step_disk
  twoPointConfig twoPointIndex twoPointIndex_opened)

section Published

variable {cfg : Soft.Config} {s₀ s : Soft.State} {image : Addr → Val}

def DurablyPublished (s : Soft.State) (image : Addr → Val) (x : ℕ) : Prop :=
  x < s.npts ∨ (image (.id2loc x)).writer.isSome

instance (s : Soft.State) (image : Addr → Val) (x : ℕ) : Decidable (DurablyPublished s image x) :=
  inferInstanceAs (Decidable (_ ∨ _))

/-- The files a load finds after a crash: a table of `size` entries and a PQ file `pq`. -/
def Image.ofCrash (s : Soft.State) (image : Addr → Val) (pq : Pq.File) (size : ℕ) : Image where
  potentialIds := size
  id2loc x := (image (.id2loc x)).word
  cells
    | .node l w => (image (.node l w)).word
    | .pq i => pq i
  nr := (image .superblock).word
  diskNnodes := s.npts
  hasPq := true

/-- Every store of the run carries the insert it was made for. -/
theorem stored_writer (hT : Traced cfg s) (hS : Sourced s) {t : Soft.Agent} {x : ℕ} {v : Val}
    (h : .store t (.id2loc x) v ∈ s.log) : v.writer.isSome := by
  cases t with
  | insert z =>
    have hmem : .store (.insert z) (.id2loc x) v ∈
        (Soft.history s z).filterMap (Soft.Instr.event z) := by
      rw [← hT.events z]
      exact mem_filter.mpr ⟨h, by simp [Event.thread]⟩
    obtain ⟨i, -, he⟩ := mem_filterMap.mp hmem
    cases i <;> cases he
    rfl
  | commit =>
    obtain ⟨y, hy, -⟩ := hS.stored x v h
    rw [hy]
    rfl

/-- The table of every crash image reflects the published ids. -/
theorem reflects_of_run (h₀ : Opened cfg s₀) {as : List Act}
    (hrun : run (Soft.step cfg) s₀ as = some s) (himage : CrashImage s.disk s.log image)
    (pq : Pq.File) {size : ℕ} (hfile : ∀ x, DurablyPublished s image x → x < size) :
    Reflects (DurablyPublished s image) (Image.ofCrash s image pq size) := by
  obtain ⟨hT, hS⟩ := traced_sourced_of_run h₀ hrun
  obtain ⟨hnpts, hdisk⟩ : s.npts = s₀.npts ∧ s.disk = s₀.disk :=
    run_invariant (I := fun s => s.npts = s₀.npts ∧ s.disk = s₀.disk)
      (fun _ _ _ h hs => ⟨(step_npts hs).trans h.1, (step_disk hs).trans h.2⟩) ⟨rfl, rfl⟩ hrun
  refine ⟨.inl (hnpts ▸ h₀.nonempty), hfile, fun x hx => ?_⟩
  obtain ⟨hge, hwriter⟩ := not_or.mp hx
  rcases (himage (.id2loc x)).init_or_stored with hinit | ⟨t, ht⟩
  · have hnew : s₀.curId ≤ x := by
      rw [← h₀.npts, ← hnpts]
      exact Nat.le_of_not_lt hge
    show (image (.id2loc x)).word = 0
    rw [hinit, hdisk, h₀.unpublished x hnew]
  · exact absurd (stored_writer hT hS ht) hwriter

end Published

section Examples

def recoveryParams (g : Geometry) : Params ℚ where
  ops := Insert.exactOps
  range := 2
  alpha := 6 / 5
  pqDist x y := if x = y then 0 else 1
  geo := g
  dim := 1
  issOpt := false
  deflate n _ := replicate n 0
  deflate_length _ _ := length_replicate

def twoRows : Pq.File := fun i => if i = 0 then 2 else 0

/-- A PQ file of two rows of one byte. -/
def codedRows : Pq.File := fun i => if i = 0 then 2 else if i = 4 then 1 else 0

/-- Two nodes to a page; the page of the original points is never reused. -/
def keepPages : Geometry where
  nnodesPerSector := 2
  noPolluteOriginal := true
  initNumPts := 2
  pos := pairGeometry.pos
  le_max := pairGeometry.le_max

def pairConfig : Soft.Config :=
  { twoPointConfig true with geo := keepPages }

def pairIndex : Soft.State :=
  { twoPointIndex with alloc := (loadEqual keepPages 2).alloc }

theorem pairIndex_opened : Opened pairConfig pairIndex :=
  have h := twoPointIndex_opened true
  ⟨h.log, h.queue, h.tasks, h.ops, h.commit, h.readers, h.keyHolder, h.idx, h.npts, h.nonempty,
    loadEqual_consistent 2, h.record, h.entry, h.unpublished⟩

/-- The image after the insert of id 2, before the commit thread has run. -/
def insertedImage (s : Soft.State) : Image :=
  Image.ofCrash s (view s.disk s.log) twoRows 3

/-- The image has entries of three ids, and no store made an entry of another. -/
def holdsThreeIds (s : Soft.State) : Bool :=
  decide (s.npts = 2 ∧ (view s.disk s.log (.id2loc 2)).writer = some 2 ∧
    (range 3).map (insertedImage s).id2loc = [0, 1, 3]) &&
  s.log.all fun
    | .store _ (.id2loc x) _ => decide (x < 3)
    | _ => true

theorem published_of_holdsThreeIds {s : Soft.State} (hdisk : s.disk = pairIndex.disk)
    (h : holdsThreeIds s = true) (x : ℕ) :
    DurablyPublished s (view s.disk s.log) x ↔ x < 3 := by
  obtain ⟨hfacts, hlog⟩ := Bool.and_eq_true_iff.mp h
  obtain ⟨hnpts, hwriter, -⟩ := of_decide_eq_true hfacts
  constructor
  · rintro (hx | hx)
    · omega
    · rcases (view_crashImage s.disk s.log (.id2loc x)).init_or_stored with hinit | ⟨t, ht⟩
      · rw [hinit, hdisk] at hx
        cases hx
      · exact of_decide_eq_true (all_eq_true.mp hlog _ ht)
  · intro hx
    by_cases h2 : x = 2
    · subst h2
      refine .inr ?_
      rw [hwriter]
      rfl
    · refine .inl ?_
      omega

/-- Whatever the PQ file of two rows and the codes are: the rest is whether the checks are
defined. -/
theorem recoverable_of_holdsThreeIds {s : Soft.State} (hdisk : s.disk = pairIndex.disk)
    (h : holdsThreeIds s = true) {C : Params ℚ} (hgeo : C.geo = keepPages) {pq : Pq.File}
    (hrows : Pq.numRows pq = 2)
    (hchecks : Meets (checkId C) (Checkable C)
      ((Image.ofCrash s (view s.disk s.log) pq 3).start C)
      (checkedIds C s.npts (Image.ofCrash s (view s.disk s.log) pq 3).scanned.maxId)) :
    Recoverable C (DurablyPublished s (view s.disk s.log))
      (Image.ofCrash s (view s.disk s.log) pq 3) := by
  have hpub := published_of_holdsThreeIds hdisk h
  obtain ⟨hfacts, -⟩ := Bool.and_eq_true_iff.mp h
  obtain ⟨hnpts, -, hentries⟩ := of_decide_eq_true hfacts
  simp only [range_succ, range_zero, nil_append, map_cons,
    map_nil, cons_append, cons.injEq, and_true] at hentries
  obtain ⟨h0, h1, h2⟩ := hentries
  refine ⟨⟨fun x y hx hy (hxy : (insertedImage s).id2loc x = (insertedImage s).id2loc y) => ?_,
      fun x hx => ⟨[0, 1, 2], by decide, fun y hy => ?_, ?_⟩⟩,
    ⟨rfl, hrows.trans hnpts.symm⟩, fun x y hy _ hxy => ?_,
    fun x hx (h0' : (insertedImage s).id2loc x = 0) => ?_, hchecks⟩
  · rw [hpub] at hx hy
    interval_cases x <;> interval_cases y <;> omega
  · rw [hpub]
    revert y
    decide
  · rw [hpub] at hx
    show (insertedImage s).id2loc x / _ * _ < _
    rw [hgeo]
    interval_cases x
    · rw [h0]
      decide
    · rw [h1]
      decide
    · rw [h2]
      decide
  · rw [hpub] at hy ⊢
    omega
  · rw [hpub] at hx
    interval_cases x <;> omega

/-- Insert 2 is still searching when insert 3 has made its location durable. -/
def publishedOutOfOrder : List Act :=
  .start [12] 7 5 [0] [] :: .start [13] 7 5 [1] [] :: replicate 24 (.insert 3)

end Examples

end Ccann.Recovery
