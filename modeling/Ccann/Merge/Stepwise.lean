import Ccann.Concurrent.Runs
import Ccann.Merge.Passes

/-! `merge_deletes` one step at a time, for what may happen between two of its steps. A step
reads the sectors of a batch into the buffer, or is one iteration of one of the two loops, or
writes back what a batch of the second pass has left in the window. Each iteration looks up
occupants, tags and codes in the index as it is then, and takes records from the buffer. On an
index that stands still the steps give what `mergeDeletes` gives. -/

namespace Ccann.Merge

open Nodes Layout Concurrent Option

variable {F : Type*} {n : ℕ}

inductive Instr where
  | read
  | visit (loc : ℕ)
  | rebuild (loc : ℕ)
  | flush
  deriving DecidableEq

/-- The steps of both passes in the order of a schedule. -/
def program (nn curLoc : ℕ) (J : Job) : List Instr :=
  ((sectorStarts nn curLoc sectorsPerPopulate).flatMap fun st =>
      .read :: (J.populateOrder st).map .visit) ++
    (sectorStarts nn curLoc sectorsPerMerge).flatMap fun st =>
      .read :: ((J.mergeOrder st).map .rebuild ++ [.flush])

/-- A merge under way: its buffer, the result of the first pass, the nodes of the batch it is in,
and the output. -/
structure Merging (n : ℕ) where
  job : Job
  rbuf : ℕ → Record
  populated : Populated := {}
  nodes : List Rebuilt := []
  out : Output n := {}

open Merging

variable (P : Params F) (x : Index n)

/-- The index as an iteration sees it. -/
def Merging.view (m : Merging n) : Index n :=
  { x with record := m.rbuf }

def Merging.exec (m : Merging n) : Instr → Option (Merging n)
  | .read => some { m with rbuf := x.record }
  | .visit loc => some { m with populated := populateSlot m.job (m.view x) m.populated loc }
  | .rebuild loc =>
    (mergeSlot P m.job (m.view x) m.populated loc).map fun rs =>
      { m with nodes := m.nodes ++ rs, out := rs.foldl (copyMeta x) m.out }
  | .flush =>
    some { m with
      nodes := []
      out := { m.out with
        window := Buffers.batch (halfWindow P) P.nnodesPerSector m.out.window
          (m.nodes.map fun r => (r.newId, r.record)) } }

def Merging.finish (m : Merging n) : Option (Merged n) :=
  (newMedoid m.job x m.populated).map fun medoid =>
    { toOutput := { m.out with
        window := Buffers.drain (halfWindow P) P.nnodesPerSector m.out.window.used m.out.window }
      npoints := m.populated.npoints
      medoid
      idMap := m.populated.idMap }

/-- What the remaining steps give if the index stands still. -/
def Merging.complete (m : Merging n) (rest : List Instr) : Option (Merged n) :=
  (run (exec P x) m rest).bind (finish P x)

variable {P x} {m m' : Merging n} {i : Instr}

theorem complete_cons {rest : List Instr} (h : m.exec P x i = some m') :
    m.complete P x (i :: rest) = m'.complete P x rest := by
  rw [complete, run, h, bind_some]
  rfl

theorem job_of_exec (h : m.exec P x i = some m') : m.job = m'.job := by
  cases i with
  | read | visit loc | flush =>
    cases h
    rfl
  | rebuild loc =>
    obtain ⟨rs, -, rfl⟩ := map_eq_some_iff.mp h
    rfl

section Still

/-! The buffer has the records of the index all the time. -/

section

variable (h : m.rbuf = x.record)

include h

theorem view_eq : m.view x = x := by
  rw [view, h]

theorem run_visits (locs : List ℕ) :
    run (exec P x) m (locs.map .visit) =
      some { m with populated := locs.foldl (populateSlot m.job x) m.populated } := by
  induction locs generalizing m with
  | nil => rfl
  | cons loc locs ih =>
    rw [List.map_cons, run, exec, bind_some, view_eq h]
    exact ih h

theorem run_populate (sts : List ℕ) :
    run (exec P x) m
        (sts.flatMap fun st => .read :: (m.job.populateOrder st).map .visit) =
      some { m with populated := sts.foldl (populateBatch m.job x) m.populated } := by
  induction sts generalizing m with
  | nil => rfl
  | cons st sts ih =>
    have hread : run (exec P x) m (.read :: (m.job.populateOrder st).map .visit) =
        some { m with populated := populateBatch m.job x m.populated st } := by
      rw [run, exec, bind_some, ← h]
      exact run_visits h _
    rw [List.flatMap_cons, run_append, hread, bind_some]
    exact ih h

theorem run_rebuilds (locs : List ℕ) :
    run (exec P x) m (locs.map .rebuild) =
      (locs.mapM (mergeSlot P m.job x m.populated)).map fun lss =>
        { m with nodes := m.nodes ++ lss.flatten, out := lss.flatten.foldl (copyMeta x) m.out } := by
  induction locs generalizing m with
  | nil => simp
  | cons loc locs ih =>
    rw [List.map_cons, run, exec, view_eq h, List.mapM_cons]
    cases mergeSlot P m.job x m.populated loc with
    | none => rfl
    | some rs =>
      simp only [map_some, bind_some, bind_eq_bind, pure_def]
      refine (ih (m := ⟨m.job, m.rbuf, m.populated, m.nodes ++ rs,
        rs.foldl (copyMeta x) m.out⟩) h).trans ?_
      cases locs.mapM (mergeSlot P m.job x m.populated) with
      | none => rfl
      | some lss => simp

theorem run_rewriteBatch (hnodes : m.nodes = []) (st : ℕ) :
    run (exec P x) m (.read :: ((m.job.mergeOrder st).map .rebuild ++ [.flush])) =
      (mergeBatch P m.job x m.populated m.out st).map fun o => { m with out := o } := by
  have hread : m.exec P x .read = some m := by
    rw [exec, ← h]
  rw [run, hread, bind_some, run_append, run_rebuilds h, mergeBatch, mergeNodes]
  cases (m.job.mergeOrder st).mapM (mergeSlot P m.job x m.populated) with
  | none => rfl
  | some lss =>
    simp only [map_some, bind_some, run, exec, hnodes, List.nil_append,
      writeBatch, foldl_copyMeta_window]

theorem run_rewrite (hnodes : m.nodes = []) (sts : List ℕ) :
    run (exec P x) m
        (sts.flatMap fun st => .read :: ((m.job.mergeOrder st).map .rebuild ++ [.flush])) =
      (sts.foldlM (mergeBatch P m.job x m.populated) m.out).map fun o => { m with out := o } := by
  induction sts generalizing m with
  | nil => rfl
  | cons st sts ih =>
    rw [List.flatMap_cons, run_append, run_rewriteBatch h hnodes, List.foldlM_cons]
    cases mergeBatch P m.job x m.populated m.out st with
    | none => rfl
    | some o =>
      simp only [map_some, bind_some, bind_eq_bind]
      exact ih h hnodes

end

/-- On an index that stands still the merge does what `mergeDeletes` does. -/
theorem complete_program (J : Job) :
    (⟨J, x.record, {}, [], {}⟩ : Merging n).complete P x
      (program P.nnodesPerSector x.curLoc J) = mergeDeletes P J x := by
  rw [complete, program, run_append, run_populate rfl, bind_some,
    run_rewrite rfl rfl, mergeDeletes, rewrite, populate]
  cases (sectorStarts P.nnodesPerSector x.curLoc sectorsPerMerge).foldlM
    (mergeBatch P J x ((sectorStarts P.nnodesPerSector x.curLoc sectorsPerPopulate).foldl
      (populateBatch J x) {})) {} with
  | none => rfl
  | some o => rfl

end Still

end Ccann.Merge
