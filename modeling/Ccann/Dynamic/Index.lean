import Ccann.Insert.Phase
import Ccann.Merge.Passes

/-! The index behind `DynamicSSDIndex` between calls, at the level of slots and records, and its
calls when no two of them overlap and background work is done before the next one. An insert
takes the next id and writes records to fresh slots; a deletion only puts a tag into the active
one of two sets; `final_merge` switches the sets and runs `merge_deletes` with the other one,
which rebuilds the maps in memory for the file it has written. That file is opened by `reload`,
and `final_merge` does not call it. -/

namespace Ccann.Dynamic

open Nodes Layout List Function

inductive Pruning where
  | delta
  | plain
  deriving DecidableEq

structure Params (F : Type*) extends toInsert : Insert.Params F, toMerge : Merge.Params F where
  pruning : Pruning
  sectors : nnodesPerSector = geo.nnodesPerSector

/-- The index in memory with the open graph file and the one that the last merge has written.
`stale` records that the maps were rebuilt for the latter and it was not opened since; no
operation reads it. -/
structure State (n : ℕ) extends Index where
  file : ℕ → Record
  outFile : ℕ → Record
  tags : ℕ → Option ℕ
  data : ℕ → Pq.Code n
  medoid : ℕ
  numPoints : ℕ
  ckptId : ℕ
  commitQueue : List ℕ
  deletionSets : Bool → List ℕ
  activeDeleteSet : Bool
  stale : Bool

/-- What the search phase of an insert finds for a point. -/
structure Point (n : ℕ) where
  coords : List ℕ
  tag : ℕ
  code : Pq.Code n
  newNhood : List ℕ
  hints : List ℕ

variable {F : Type*} {n : ℕ} (C : Params F)

def State.id2tag (s : State n) (id : ℕ) : ℕ :=
  (s.tags id).getD id

section Insert

/-- The candidates of an insert without delta pruning; the pool is not cut at `maxc`. -/
def nbrPool (P : Merge.OccludeParams F) (x : ℕ) (nhood : List ℕ) : List (Merge.Neighbor F) :=
  (nhood.map fun y => (⟨y, P.pqDist x y⟩ : Merge.Neighbor F)).insertionSort
    fun a b => P.before b a = false

def extendPlain (P : Merge.OccludeParams F) (x target : ℕ) (old : List ℕ) : Option (List ℕ) :=
  if P.range < (old ++ [target]).length then
    if Insert.maxPqCount ≤ (old ++ [target]).length then none
    else some (Merge.pruneNeighborsPq P (nbrPool P x (old ++ [target])))
  else some (old ++ [target])

def Params.extend (x target : ℕ) (old : List ℕ) : Option (List ℕ) :=
  match C.pruning with
  | .delta => Insert.extendNhood C.toInsert x target old
  | .plain => extendPlain C.toOccludeParams x target old

/-- The new versions of the neighbours; all old ones are read before the first is written. -/
def writeNbrs (id2loc : ℕ → Option ℕ) (old : ℕ → Record) (target : ℕ) :
    List (ℕ × ℕ) → (ℕ → Record) → Option (ℕ → Record)
  | [], f => some f
  | (x, loc) :: ps, f =>
    (id2loc x).bind fun l =>
      (C.extend x target (old l).nhood).bind fun nhood =>
        writeNbrs id2loc old target ps (update f loc ⟨(old l).coords, nhood⟩)

/-- `process_commit_queue`: the smallest ids are taken as long as they continue the
checkpoint. -/
def processCommitQueue : ℕ → List ℕ → ℕ → List ℕ × ℕ
  | 0, q, ckptId => (q, ckptId)
  | k + 1, q, ckptId =>
    match q.min? with
    | none => (q, ckptId)
    | some i => if ckptId = i then processCommitQueue k (q.erase i) (i + 1) else (q, ckptId)

/-- A whole insert, with the commit of its id; the number of points is not counted here. -/
def insertInPlace (p : Point n) (s : State n) : Option (State n) :=
  if (∀ x ∈ p.newNhood, (s.id2loc x).isSome) ∧ p.newNhood.length < Insert.maxNEdges then
    (allocLoc C.geo (p.newNhood.length + 1) p.hints s.alloc).bind fun a =>
      a.ret[p.newNhood.length]?.bind fun loc =>
        (writeNbrs C s.id2loc s.file s.curId (p.newNhood.zip a.ret)
          (update s.file loc ⟨p.coords, p.newNhood⟩)).bind fun f =>
          (switchNbrs (p.newNhood.zip a.ret) (update s.id2loc s.curId (some loc)) []).map
            fun r =>
              { s with
                alloc := a.st.eraseAndSetLoc C.geo r.2 a.ret (p.newNhood ++ [s.curId])
                id2loc := r.1
                curId := s.curId + 1
                file := f
                tags := update s.tags s.curId (some p.tag)
                data := update s.data s.curId p.code
                commitQueue := (processCommitQueue (s.commitQueue.length + 1)
                  (s.curId :: s.commitQueue) s.ckptId).1
                ckptId := (processCommitQueue (s.commitQueue.length + 1)
                  (s.curId :: s.commitQueue) s.ckptId).2 }
  else none

/-- The first half of an insert phase: slots for the new versions are reserved. -/
def reserveSlots (p : Point n) (s : State n) : Option (List ℕ × State n) :=
  (allocLoc C.geo (p.newNhood.length + 1) p.hints s.alloc).map fun a =>
    (a.ret, { s with alloc := a.st })

/-- The second half, for the target `id`: the records are written to the slots `locs` and the
maps are switched to them. -/
def publish (id : ℕ) (p : Point n) (locs : List ℕ) (s : State n) : Option (State n) :=
  if (∀ x ∈ p.newNhood, (s.id2loc x).isSome) ∧ p.newNhood.length < Insert.maxNEdges then
    locs[p.newNhood.length]?.bind fun loc =>
      (writeNbrs C s.id2loc s.file id (p.newNhood.zip locs)
        (update s.file loc ⟨p.coords, p.newNhood⟩)).bind fun f =>
        (switchNbrs (p.newNhood.zip locs) (update s.id2loc id (some loc)) []).map
          fun r =>
            { s with
              alloc := s.alloc.eraseAndSetLoc C.geo r.2 locs (p.newNhood ++ [id])
              id2loc := r.1
              file := f
              tags := update s.tags id (some p.tag)
              data := update s.data id p.code
              commitQueue := (processCommitQueue (s.commitQueue.length + 1)
                (id :: s.commitQueue) s.ckptId).1
              ckptId := (processCommitQueue (s.commitQueue.length + 1)
                (id :: s.commitQueue) s.ckptId).2 }
  else none

/-- A whole insert is the two halves, with the next id as target. -/
theorem insertInPlace_eq (p : Point n) (s : State n) :
    insertInPlace C p s = (reserveSlots C p s).bind fun q =>
      (publish C s.curId p q.1 q.2).map fun t => { t with curId := s.curId + 1 } := by
  unfold insertInPlace reserveSlots publish
  split_ifs with h
  · cases allocLoc C.geo (p.newNhood.length + 1) p.hints s.alloc with
    | none => rfl
    | some a =>
      simp only [Option.map_some, Option.bind_some, if_pos h]
      cases a.ret[p.newNhood.length]? with
      | none => rfl
      | some loc =>
        simp only [Option.bind_some]
        cases writeNbrs C s.id2loc s.file s.curId (p.newNhood.zip a.ret)
          (update s.file loc ⟨p.coords, p.newNhood⟩) with
        | none => rfl
        | some f =>
          simp only [Option.bind_some, Option.map_map]
          rfl
  · cases allocLoc C.geo (p.newNhood.length + 1) p.hints s.alloc with
    | none => rfl
    | some a => simp [h]

end Insert

section Delete

def lazyDelete (tag : ℕ) (s : State n) : State n :=
  if tag ∈ s.deletionSets s.activeDeleteSet then s
  else
    { s with
      deletionSets := update s.deletionSets s.activeDeleteSet
        (tag :: s.deletionSets s.activeDeleteSet) }

/-- The other set is emptied and becomes the active one. -/
def saveDelSet (s : State n) : State n :=
  { s with
    deletionSets := update s.deletionSets (!s.activeDeleteSet) []
    activeDeleteSet := !s.activeDeleteSet }

def State.index (g : Geometry) (s : State n) : Merge.Index n where
  loc2id := s.alloc.loc2id g
  curLoc := s.alloc.curLoc
  record := s.file
  id2tag := s.id2tag
  data := s.data
  medoid := s.medoid

/-- The page layout after the merge; queue and frontier stay. -/
def relabel (g : Geometry) (npoints : ℕ) (a : AllocState) : AllocState :=
  (range npoints).foldl (fun a i => a.setLoc2id g i (.node i))
    { a with pageLayout := fun _ => none }

def State.rebuild (g : Geometry) (m : Merge.Merged n) (s : State n) : State n :=
  { s with
    numPoints := m.npoints
    medoid := m.medoid
    data := fun i => (m.data i).getD (s.data i)
    tags := fun i => if i < m.npoints then m.tags i else none
    id2loc := fun i => if i < m.npoints then some i else none
    alloc := relabel g m.npoints s.alloc
    outFile := fun i => (m.window.out i).getD (s.outFile i)
    stale := true }

/-- `merge_deletes` with its effect on the index in memory. -/
def mergeDeletes (J : Merge.Job) (s : State n) : Option (State n) :=
  (Merge.mergeDeletes C.toMerge J (s.index C.geo)).map fun m => s.rebuild C.geo m

/-- The merge of the deletions collected so far; `J` says how its loops are scheduled. -/
def finalMerge (J : Merge.Job) (s : State n) : Option (State n) :=
  mergeDeletes C { J with deleted := (saveDelSet s).deletionSets (!(saveDelSet s).activeDeleteSet) }
    (saveDelSet s)

/-- Open the merged file and reset the frontiers. -/
def reload (g : Geometry) (s : State n) : State n :=
  { s with
    file := s.outFile
    curId := s.numPoints
    alloc := { s.alloc with curLoc := roundUp g s.numPoints, emptyPages := [] }
    stale := false }

end Delete

/-- The calls; `reload` stands for opening the merged index, which no other call does. -/
inductive Call (n : ℕ) where
  | insert (p : Point n)
  | lazyDelete (tag : ℕ)
  | finalMerge (J : Merge.Job)
  | reload

def step (s : State n) : Call n → Option (State n)
  | .insert p => insertInPlace C p s
  | .lazyDelete tag => some (lazyDelete tag s)
  | .finalMerge J => finalMerge C J s
  | .reload => some (reload C.geo s)

@[simp] theorem saveDelSet_frozen (s : State n) :
    (saveDelSet s).deletionSets (!(saveDelSet s).activeDeleteSet) =
      s.deletionSets s.activeDeleteSet := by
  simp [saveDelSet]

@[simp] theorem saveDelSet_active (s : State n) :
    (saveDelSet s).deletionSets (saveDelSet s).activeDeleteSet = [] := by
  simp [saveDelSet]

@[simp] theorem saveDelSet_index (g : Geometry) (s : State n) :
    (saveDelSet s).index g = s.index g := rfl

theorem mem_lazyDelete {tag t : ℕ} {s : State n} :
    t ∈ (lazyDelete tag s).deletionSets (lazyDelete tag s).activeDeleteSet ↔
      t = tag ∨ t ∈ s.deletionSets s.activeDeleteSet := by
  unfold lazyDelete
  split_ifs with h
  · constructor
    · exact .inr
    · rintro (rfl | ht)
      · exact h
      · exact ht
  · simp

end Ccann.Dynamic
