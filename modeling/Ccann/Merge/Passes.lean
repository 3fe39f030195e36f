import Ccann.Buffers.SlidingWindow
import Ccann.Layout.Load
import Ccann.Merge.Prune
import Ccann.Nodes.Record
import Ccann.Pq.Table

/-! `merge_deletes`. The first pass gives every live node a new id and collects, for every
deleted one, its live neighbours; the second rebuilds the live nodes, with deleted neighbours
replaced by theirs, and stores them in a sliding window in front of the new file. Both loops
over the slots of a batch are parallel: a schedule is an order of the slots for each batch.
The iterations of one batch share nothing but the counters and keys of their own, so that
their order is all that a schedule can change. -/

namespace Ccann.Merge

open Nodes Layout List Function

def sectorsPerPopulate : ℕ := 128

def sectorsPerMerge : ℕ := 65536

structure Params (F : Type*) extends OccludeParams F where
  nnodesPerSector : ℕ
  pos : 0 < nnodesPerSector

/-- What the merge reads of the index: the occupants of the slots, the records in them, the
tags and PQ codes of the ids. -/
structure Index (n : ℕ) where
  loc2id : ℕ → Occupant
  curLoc : ℕ
  record : ℕ → Record
  id2tag : ℕ → ℕ
  data : ℕ → Pq.Code n
  medoid : ℕ

/-- A call: its arguments, the order in which the iterations of each parallel loop run, by the
first sector of the batch, and the order in which the `unordered_set` of a node is listed. -/
structure Job where
  deleted : List ℕ
  nSampledNbrs : ℕ
  populateOrder : ℕ → List ℕ
  mergeOrder : ℕ → List ℕ
  setOrder : ℕ → List ℕ → List ℕ
  setOrder_perm : ∀ loc l, (setOrder loc l).Perm l

/-- The word in the page layout; an unused slot has none that counts as an id. -/
def slotId : Occupant → Option ℕ
  | .invalid => none
  | .allocated => some kAllocatedID
  | .node id => some id

section Batches

variable (nn curLoc : ℕ)

def nSectors : ℕ :=
  (curLoc + nn - 1) / nn

def sectorStarts (step : ℕ) : List ℕ :=
  (range ((nSectors nn curLoc + step - 1) / step)).map (· * step)

def batchLocs (step st : ℕ) : List ℕ :=
  range' (st * nn)
    (min curLoc (min (st + step) (nSectors nn curLoc) * nn) - st * nn)

end Batches

/-- Each parallel loop runs each of its iterations once. -/
structure Job.Fair (J : Job) (nn curLoc : ℕ) : Prop where
  populate : ∀ st ∈ sectorStarts nn curLoc sectorsPerPopulate,
    (J.populateOrder st).Perm (batchLocs nn curLoc sectorsPerPopulate st)
  merge : ∀ st ∈ sectorStarts nn curLoc sectorsPerMerge,
    (J.mergeOrder st).Perm (batchLocs nn curLoc sectorsPerMerge st)

instance (J : Job) (nn curLoc : ℕ) : Decidable (J.Fair nn curLoc) :=
  decidable_of_iff _ ⟨fun h => ⟨h.1, h.2⟩, fun h => And.intro h.populate h.merge⟩

variable {F : Type*} {n : ℕ} (P : Params F) (J : Job) (x : Index n)

/-- The tag of the id is in the set of deleted tags. -/
def Job.isDeleted (id : ℕ) : Bool :=
  decide (x.id2tag id ∈ J.deleted)

section Populate

/-- `new_npoints`, `id_map` and `deleted_nhoods`. -/
structure Populated where
  npoints : ℕ := 0
  idMap : ℕ → Option ℕ := fun _ => none
  nhoods : ℕ → Option (List ℕ) := fun _ => none

/-- `insert` of a hash map: a key that is there keeps its value. -/
def insertNew {β : Type*} (m : ℕ → Option β) (k : ℕ) (v : β) : ℕ → Option β :=
  if (m k).isSome then m else update m k (some v)

/-- The neighbours of a deleted node that are kept, the first `n_sampled_nbrs`. -/
def keptNbrs (nbrs : List ℕ) : List ℕ :=
  (nbrs.filter fun y => !J.isDeleted x y).take J.nSampledNbrs

def populateSlot (s : Populated) (loc : ℕ) : Populated :=
  match slotId (x.loc2id loc) with
  | none => s
  | some id =>
    if J.isDeleted x id then
      { s with nhoods := insertNew s.nhoods id (keptNbrs J x (x.record loc).nhood) }
    else { s with npoints := s.npoints + 1, idMap := insertNew s.idMap id s.npoints }

def populateBatch (s : Populated) (st : ℕ) : Populated :=
  (J.populateOrder st).foldl (populateSlot J x) s

def populate : Populated :=
  (sectorStarts P.nnodesPerSector x.curLoc sectorsPerPopulate).foldl (populateBatch J x) {}

end Populate

section Rebuild

variable (p : Populated)

/-- What a neighbour contributes to `nhood_set`; a lookup of an unknown id throws. -/
def nbrsVia (y : ℕ) : Option (List ℕ) :=
  if J.isDeleted x y then p.nhoods y else some [y]

def candidates (id : ℕ) (nbrs : List ℕ) : Option (List ℕ) :=
  (nbrs.mapM (nbrsVia J x p)).map fun ls => ls.flatten.dedup.filter (· ≠ id)

/-- The pool of the prune: sorted by the distance to the node, cut at `maxc`. -/
def prunePool (id : ℕ) (nhood : List ℕ) : List (Neighbor F) :=
  ((nhood.map fun y => (⟨y, P.pqDist id y⟩ : Neighbor F)).insertionSort
    fun a b => P.before b a = false).take P.maxc

/-- The list before renumbering; `compute_pq_dists` crashes on too many candidates. -/
def prunedNhood (id : ℕ) (nhood : List ℕ) : Option (List ℕ) :=
  if nhood.length ≤ P.range then some nhood
  else if Ccann.Insert.maxPqCount ≤ nhood.length then none
  else some (pruneNeighborsPq P.toOccludeParams (prunePool P id nhood))

structure Rebuilt where
  id : ℕ
  newId : ℕ
  record : Record

/-- The new record of a live node in slot `loc`; `none` is a crash. -/
def rebuild (loc id : ℕ) : Option Rebuilt :=
  (candidates J x p id (x.record loc).nhood).bind fun cs =>
    (prunedNhood P id (J.setOrder loc cs)).bind fun nhood =>
      (nhood.mapM p.idMap).bind fun nbrs =>
        (p.idMap id).map fun newId => ⟨id, newId, ⟨(x.record loc).coords, nbrs⟩⟩

/-- An iteration of the second pass; slots without a live node are skipped. -/
def mergeSlot (loc : ℕ) : Option (List Rebuilt) :=
  match slotId (x.loc2id loc) with
  | none => some []
  | some id => if J.isDeleted x id then some [] else (rebuild P J x p loc id).map fun r => [r]

def mergeNodes (st : ℕ) : Option (List Rebuilt) :=
  ((J.mergeOrder st).mapM (mergeSlot P J x p)).map flatten

structure Output (n : ℕ) where
  window : Buffers.Window Record := {}
  data : ℕ → Option (Pq.Code n) := fun _ => none
  tags : ℕ → Option ℕ := fun _ => none

/-- Cells of one of the two write buffers. -/
def halfWindow : ℕ :=
  sectorsPerMerge * P.nnodesPerSector

def copyMeta (o : Output n) (r : Rebuilt) : Output n :=
  { o with
    data := update o.data r.newId (some (x.data r.id))
    tags := update o.tags r.newId (some (x.id2tag r.id)) }

/-- The effect of the iterations of a batch, and the write of a full buffer after them. -/
def writeBatch (o : Output n) (rs : List Rebuilt) : Output n :=
  { rs.foldl (copyMeta x) o with
    window := Buffers.batch (halfWindow P) P.nnodesPerSector o.window
      (rs.map fun r => (r.newId, r.record)) }

def mergeBatch (o : Output n) (st : ℕ) : Option (Output n) :=
  (mergeNodes P J x p st).map (writeBatch P x o)

/-- The second pass, with the writes of what is left in the window. -/
def rewrite : Option (Output n) :=
  ((sectorStarts P.nnodesPerSector x.curLoc sectorsPerMerge).foldlM (mergeBatch P J x p) {}).map
    fun o =>
      { o with
        window := Buffers.drain (halfWindow P) P.nnodesPerSector o.window.used o.window }

/-- The new entry point. The kept neighbours of a deleted node are live, so the loop that
leaves deleted nodes ends at the second test. -/
def newMedoid : Option ℕ :=
  (if J.isDeleted x x.medoid then (p.nhoods x.medoid).bind head? else some x.medoid).bind
    p.idMap

variable {x} in
theorem foldl_copyMeta_window (o : Output n) (rs : List Rebuilt) :
    (rs.foldl (copyMeta x) o).window = o.window := by
  induction rs generalizing o with
  | nil => rfl
  | cons r rs ih => rw [foldl_cons, ih, copyMeta]

variable {x} in
/-- Code and tag of a new id are those of a node that was given it, or were there before. -/
theorem foldl_copyMeta_cases (o : Output n) (rs : List Rebuilt) (i : ℕ) :
    (∃ r ∈ rs, r.newId = i ∧ (rs.foldl (copyMeta x) o).data i = some (x.data r.id) ∧
      (rs.foldl (copyMeta x) o).tags i = some (x.id2tag r.id)) ∨
    (i ∉ rs.map Rebuilt.newId ∧ (rs.foldl (copyMeta x) o).data i = o.data i ∧
      (rs.foldl (copyMeta x) o).tags i = o.tags i) := by
  induction rs generalizing o with
  | nil => exact .inr ⟨by simp, rfl, rfl⟩
  | cons r rs ih =>
    rcases ih (copyMeta x o r) with ⟨r', hr', hset⟩ | ⟨hnot, hd, ht⟩
    · exact .inl ⟨r', mem_cons_of_mem r hr', hset⟩
    · by_cases hi : i = r.newId
      · subst hi
        exact .inl ⟨r, mem_cons_self, rfl, hd.trans (update_self ..),
          ht.trans (update_self ..)⟩
      · exact .inr ⟨by simp [hi, hnot], hd.trans (update_of_ne hi ..),
          ht.trans (update_of_ne hi ..)⟩

end Rebuild

structure Merged (n : ℕ) extends Output n where
  npoints : ℕ
  medoid : ℕ
  idMap : ℕ → Option ℕ

/-- `merge_deletes` up to the files it writes. -/
def mergeDeletes : Option (Merged n) :=
  (rewrite P J x (populate P J x)).bind fun o =>
    (newMedoid J x (populate P J x)).map fun medoid =>
      { toOutput := o
        npoints := (populate P J x).npoints
        medoid
        idMap := (populate P J x).idMap }

variable {P J x} in
theorem mergeDeletes_populated {m : Merged n} (h : mergeDeletes P J x = some m) :
    m.npoints = (populate P J x).npoints ∧ m.idMap = (populate P J x).idMap := by
  obtain ⟨o, -, h⟩ := Option.bind_eq_some_iff.mp h
  obtain ⟨medoid, -, rfl⟩ := Option.map_eq_some_iff.mp h
  exact ⟨rfl, rfl⟩

end Ccann.Merge
