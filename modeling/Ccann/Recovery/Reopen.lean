import Ccann.Layout.Load
import Ccann.Recovery.Suffix
import Ccann.Soft.CommitQueue

/-! The counters and the PQ array after a load. `data` is read from the PQ file before the
recovery and has as many rows as the file's header says; `cur_id` is one more than the largest
published id, and `ckpt_id` is the number of published ids. The commit thread waits for the
ids from `ckpt_id` on, while later inserts start at `cur_id`: its checkpoint catches up with
the inserts exactly if the two agree, that is, if no published id is missing. -/

namespace Ccann.Recovery

open Nodes Layout Concurrent Persist List Option
open Soft (Addr Val Act Traced Tasked Queued history)

section Commit

variable {cfg : Soft.Config} {s s₀ : Soft.State}

/-- The commit thread has stopped taking tasks and has consumed its heap for the last time,
and it has taken the task of every insert since `start`. -/
structure AllProcessed (start : ℕ) (s : Soft.State) : Prop where
  phase : s.commit.phase = .processed true
  taken : ∀ y, start ≤ y → y < s.curId → y ∈ s.commit.taken

/-- In every later run in which all tasks are processed the checkpoint has reached `cur_id`,
and the heap is empty. -/
def CatchesUp (cfg : Soft.Config) (s₀ : Soft.State) : Prop :=
  ∀ as s, run (Soft.step cfg) s₀ as = some s → AllProcessed s₀.curId s →
    s.ckptId = s.curId ∧ s.commit.heap = []

structure Untouched (s : Soft.State) : Prop where
  log : s.log = []
  tasks : s.tasks = []
  ops : ∀ y, s.ops y = none
  commit : s.commit = {}
  npts : s.npts = s.curId

theorem Untouched.traced (h : Untouched s) : Traced cfg s where
  le := Nat.le_of_eq h.npts
  fresh y _ := h.ops y
  inserted y op hop := by simp [h.ops y] at hop
  code y op r hop _ := by simp [h.ops y] at hop
  events y := by simp [h.log, Soft.history_of_none (h.ops y)]

theorem Untouched.tasked (h : Untouched s) : Tasked s where
  nodup := by simp [h.tasks, h.commit, Soft.taskIds]
  mem_iff z := by simp [h.tasks, h.commit, Soft.taskIds, Soft.history_of_none (h.ops z)]
  code z code hz := by simp [h.tasks] at hz

theorem Untouched.queued (h : Untouched s) : Queued s.ckptId s where
  contiguous := by
    simp only [Soft.State.base, h.commit, Soft.Phase.current]
    exact ⟨Nat.le_refl _, List.Pairwise.nil, by simp, by simp, by simp⟩
  exact ha := by simp [h.commit, Soft.Phase.Advanced] at ha
  checkpoint c hc := by simp [h.commit, Soft.Phase.checkpoint] at hc

/-- An insert that has done anything is one of those started since the load. -/
theorem bounds_of_commitTask (h : Traced cfg s) {z : ℕ} (hz : .commitTask ∈ history s z) :
    s.npts ≤ z ∧ z < s.curId := by
  cases hop : s.ops z with
  | none =>
    rw [Soft.history_of_none hop] at hz
    cases hz
  | some op =>
    refine ⟨h.inserted z op hop, ?_⟩
    by_contra hge
    rw [h.fresh z (Nat.le_of_not_lt hge)] at hop
    cases hop

/-- What the commit thread knows in every later state, if the two counters agree. -/
theorem queued_of_run {as : List Act} (h₀ : Untouched s₀) (hiss : cfg.iss = true)
    (heq : s₀.ckptId = s₀.curId) (hrun : run (Soft.step cfg) s₀ as = some s) :
    Traced cfg s ∧ Tasked s ∧ Queued s₀.curId s ∧ s.npts = s₀.curId := by
  refine run_invariant
    (I := fun s => Traced cfg s ∧ Tasked s ∧ Queued s₀.curId s ∧ s.npts = s₀.curId)
    (fun u a v hu hs => ?_) ⟨h₀.traced, h₀.tasked, heq ▸ h₀.queued, h₀.npts⟩ hrun
  obtain ⟨hT, hK, hQ, hn⟩ := hu
  refine ⟨hT.step hs, hK.step hT hs, hQ.step hK (fun z hz => ?_) hiss hs,
    (Soft.step_npts hs).trans hn⟩
  rw [← hn]
  exact (bounds_of_commitTask hT hz).1

/-- The checkpoint catches up exactly if it starts at `cur_id`. -/
theorem catchesUp_iff (h₀ : Untouched s₀) (hiss : cfg.iss = true) :
    CatchesUp cfg s₀ ↔ s₀.ckptId = s₀.curId := by
  constructor
  · intro h
    -- already without inserts: the thread is told to stop and consumes an empty heap
    have hrun : run (Soft.step cfg) s₀ [.terminate, .commit false, .commit false] =
        some ({ s₀ with tasks := [] }.setPhase (.processed true)) := by
      simp [run, Soft.step, Soft.commitStep, h₀.commit, h₀.tasks, Soft.State.setPhase,
        Soft.advance]
    exact (h _ _ hrun ⟨rfl, fun y hy hlt => absurd hlt (Nat.not_lt.mpr hy)⟩).1
  · intro heq as s hrun hall
    obtain ⟨hT, hK, hQ, hn⟩ := queued_of_run h₀ hiss heq hrun
    have hC := hQ.contiguous
    have hnot := hQ.exact (by rw [hall.phase]; trivial)
    simp only [Soft.State.base, hall.phase, Soft.Phase.current] at hC hnot
    have hlt : ∀ z ∈ s.commit.taken, z < s.curId := fun z hz =>
      (bounds_of_commitTask hT ((hK.mem_iff z).mp (mem_append_right _ hz))).2
    have hge : s.curId ≤ s.ckptId := by
      by_contra h
      exact hnot (hall.taken _ hC.le (Nat.lt_of_not_le h))
    have hle : s.ckptId ≤ s.curId := by
      by_contra h
      have hstart : s₀.curId ≤ s.curId := hn ▸ hT.le
      have := hlt s.curId ((hC.mem_taken _).mpr (.inl ⟨hstart, Nat.lt_of_not_le h⟩))
      omega
    refine ⟨Nat.le_antisymm hle hge, eq_nil_iff_forall_not_mem.mpr fun i hi => ?_⟩
    have h1 := hC.ge i hi
    have h2 := hlt i ((hC.mem_taken i).mpr (.inr (.inl hi)))
    omega

end Commit

section Counters

variable {F : Type*} {C : Params F} {img : Image} {r : Loaded}

/-- The index when its threads start: `ckpt_id` is set to `num_points`. -/
def Loaded.reopen (r : Loaded) (disk : Addr → Val) : Soft.State where
  disk := disk
  npts := r.curId
  alloc := r.alloc
  id2loc := r.id2loc
  curId := r.curId
  ckptId := r.numPoints

theorem reopen_untouched (r : Loaded) (disk : Addr → Val) : Untouched (r.reopen disk) :=
  ⟨rfl, rfl, fun _ => rfl, rfl, rfl⟩

/-- The array `data` has the code of the stored vector of every id below `cur_id`. -/
def DataHolds (C : Params F) (img : Image) (r : Loaded) : Prop :=
  ∀ x < r.curId, ∃ loc, r.id2loc x = some loc ∧
    Pq.loadBin img.pq x = some (C.deflate (Pq.rowBytes img.pq) (r.node C loc).coords)

def Gapless (img : Image) : Prop :=
  img.Published 0 ∧ ∀ x y, img.Published y → x ≤ y → img.Published x

/-- The PQ file has a row for every published id, with the code of its vector. -/
def Coded (C : Params F) (img : Image) : Prop :=
  ∀ x, img.Published x →
    Pq.loadBin img.pq x = some (C.deflate (Pq.rowBytes img.pq) (img.record C x).coords)

/-- The load without recovery: the layout comes from the partition file or is the identity. -/
def loadPlain (C : Params F) (img : Image) (file : Option PartitionFile) : Option Loaded :=
  if img.hasPq ∧ Pq.numRows img.pq = img.diskNnodes then
    (loadPageLayout C.geo (Pq.numRows img.pq) file).map fun idx =>
      { alloc := idx.alloc
        id2loc := idx.id2loc
        disk := img.cells
        rows := Pq.numRows img.pq
        nChunks := Pq.rowBytes img.pq
        curId := idx.curId
        numPoints := Pq.numRows img.pq }
  else none

/-- There are as many published ids as ids up to the largest exactly if none is missing. -/
theorem numPoints_eq_iff :
    img.scanned.numPoints = img.scanned.maxId + 1 ↔ Gapless img := by
  have hnd : ((range img.potentialIds).filter (Valid img.id2loc ·)).Nodup :=
    nodup_range.filter _
  have hsub : (range img.potentialIds).filter (Valid img.id2loc ·) ⊆
      range (img.scanned.maxId + 1) := by
    intro x hx
    have := (mem_published.mp hx).le_maxId
    exact mem_range.mpr (by omega)
  have hperm := subperm_of_subset hnd hsub
  rw [Image.scanned, scan_numPoints]
  constructor
  · intro hlen
    have hall : ∀ x, x ≤ img.scanned.maxId → img.Published x := by
      intro x hx
      refine mem_published.mp ((hperm.perm_of_length_le ?_).mem_iff.mpr ?_)
      · rw [length_range]
        exact Nat.le_of_eq hlen.symm
      · exact mem_range.mpr (by omega)
    exact ⟨hall 0 (Nat.zero_le _), fun x y hy hxy => hall x (hxy.trans hy.le_maxId)⟩
  · intro h
    have hmax : img.Published img.scanned.maxId := by
      rcases published_maxId img with hm | ⟨-, hnone⟩
      · exact hm
      · exact absurd h.1 (hnone 0)
    have hle := hperm.length_le
    rw [length_range] at hle
    apply Nat.le_antisymm hle
    have hsup : range (img.scanned.maxId + 1) ⊆
        (range img.potentialIds).filter (Valid img.id2loc ·) := by
      intro x hx
      have hx := mem_range.mp hx
      exact mem_published.mpr (h.2 x _ hmax (by omega))
    have hge := (subperm_of_subset nodup_range hsup).length_le
    rwa [length_range] at hge

theorem load_counters (h : load C img = some r) :
    r.curId = img.scanned.maxId + 1 ∧ r.numPoints = img.scanned.numPoints := by
  rw [load] at h
  split_ifs at h
  obtain ⟨s, -, rfl⟩ := map_eq_some_iff.mp h
  exact ⟨rfl, rfl⟩

/-- Every published id needs a row of the array. -/
theorem DataHolds.published_lt (h : load C img = some r) (hdata : DataHolds C img r) {x : ℕ}
    (hx : img.Published x) : x < Pq.numRows img.pq := by
  have hle := hx.le_maxId
  obtain ⟨loc, -, hrow⟩ := hdata x (by rw [(load_counters h).1]; omega)
  unfold Pq.loadBin at hrow
  split_ifs at hrow with hlt
  exact hlt

/-- A sound recovery keeps the vectors, so the array is right if and only if the file was. -/
theorem dataHolds_iff (hs : Sound C (img.origin C) img.id2loc r.toState)
    (hload : load C img = some r) (hgap : Gapless img) : DataHolds C img r ↔ Coded C img := by
  have hcur := (load_counters hload).1
  have hcoords : ∀ x l, r.id2loc x = some l → (r.node C l).coords = (img.record C x).coords :=
    fun x l hx => (hs.nodes x l hx).coords
  constructor
  · intro hdata x hx
    have hle := hx.le_maxId
    obtain ⟨loc, hloc, hrow⟩ := hdata x (by omega)
    rw [hrow, hcoords x loc hloc]
  · intro hcoded x hx
    have hmax := (published_maxId img).resolve_right fun h => h.2 0 hgap.1
    have hx : img.Published x := hgap.2 x _ hmax (by omega)
    obtain ⟨loc, hloc⟩ := isSome_iff_exists.mp ((hs.domain x).mpr hx)
    exact ⟨loc, hloc, by rw [hcoded x hx, hcoords x loc hloc]⟩

/-- The files of the index of two points before any insert. -/
def codedImage : Image :=
  Image.ofCrash pairIndex (view pairIndex.disk pairIndex.log) codedRows 2

theorem codedImage_published (x : ℕ) : codedImage.Published x ↔ x < 2 := by
  constructor
  · exact fun h => h.1
  · intro hx
    interval_cases x <;> decide

theorem codedImage_laidOut (C : Params ℚ) (hgeo : C.geo = keepPages) :
    LaidOut C codedImage.Published codedImage where
  distinct x y hx hy h := by
    rw [codedImage_published] at hx hy
    interval_cases x <;> interval_cases y <;> revert h <;> decide
  compact x hx := by
    rw [codedImage_published] at hx
    rw [hgeo]
    refine ⟨[0, 1], by decide, by decide, ?_⟩
    interval_cases x <;> decide

theorem codedImage_coded (C : Params ℚ) (hdeflate : ∀ v, C.deflate 1 v = [0]) : Gapless codedImage ∧ Coded C codedImage := by
  refine ⟨⟨by decide, fun x y hy hxy => ?_⟩, fun x hx => ?_⟩
  · rw [codedImage_published] at hy ⊢
    omega
  · rw [codedImage_published] at hx
    show Pq.loadBin codedRows x = some (C.deflate 1 _)
    rw [hdeflate]
    interval_cases x <;> decide

end Counters

end Ccann.Recovery
