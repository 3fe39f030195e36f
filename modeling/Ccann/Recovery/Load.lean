import Ccann.Concurrent.Runs
import Ccann.Insert.Prune
import Ccann.Layout.IdMap
import Ccann.Locks.Table
import Ccann.Nodes.Record
import Ccann.Persist.Log
import Ccann.Pq.File

/-! The load of an index in a `PM_RECOVERY` build. The `.id2loc` table is scanned into
`id2loc_` and a temporary inverse, from which the page layout and the frontier are built;
then every id from `ckpt_id` on is checked: its PQ code is rewritten, its neighbours'
records are read, the id is added where it is missing, an over-full list is pruned in
batches, and the records go to newly allocated slots. The stores, flushes and fences are
logged. The table itself is not rewritten. -/

namespace Ccann.Recovery

open Nodes Layout Concurrent Persist
open Ccann.Insert (PruneParams triPool fastDeltaPrune slowDeltaPrune TriangleNeighbor)

/-- What recovery reads of the index parameters. `deflate` is the PQ code of a vector. -/
structure Params (F : Type*) extends PruneParams F where
  geo : Geometry
  dim : ℕ
  issOpt : Bool
  deflate : ℕ → List ℕ → List ℕ
  deflate_length : ∀ n v, (deflate n v).length = n

/-- The cells recovery may write: words of graph slots and bytes of the PQ file. -/
inductive Cell where
  | node (loc w : ℕ)
  | pq (i : ℕ)
  deriving DecidableEq

/-- The files: the entries of `.id2loc`, the cells, the checkpoint and the number of nodes in
the superblock, and whether there is a PQ file. -/
structure Image where
  potentialIds : ℕ
  id2loc : ℕ → ℕ
  cells : Cell → ℕ
  nr : ℕ
  diskNnodes : ℕ
  hasPq : Bool

def Image.pq (img : Image) : Pq.File := fun i => img.cells (.pq i)

/-- The index while it is recovered. `rows` and `nChunks` are the sizes of the PQ array in
memory. `moved` lists the relocations and `evicted` the pruned edges, newest first; no step
reads them. -/
structure State where
  alloc : AllocState
  id2loc : ℕ → Option ℕ
  disk : Cell → ℕ
  rows : ℕ
  nChunks : ℕ
  log : Log Unit Cell ℕ := []
  hintPages : List ℕ := []
  moved : List (ℕ × ℕ) := []
  evicted : List (ℕ × ℕ) := []

def State.emit (s : State) (es : List (Event Unit Cell ℕ)) : State :=
  { s with log := es.reverse ++ s.log }

variable {F : Type*} (C : Params F)

def State.node (s : State) (loc : ℕ) : Record :=
  Record.decode C.dim fun w => view s.disk s.log (.node loc w)

section Prune

def Params.pruneBatchSize : ℕ :=
  C.range / 16

def batchPool (x target : ℕ) (nhood : List ℕ) (k : ℕ) : List (TriangleNeighbor F) :=
  triPool C.toPruneParams x target ((nhood.drop k).take C.pruneBatchSize)

/-- The batches from index `k` on: the list after the first eviction, or `some none` if no
batch evicts. A batch is always built from `PRUNE_BATCH_SIZE` entries, so the last one may
read past the end of the list; `none` stands for that and for a loop that does not end. -/
def batchLoop (x target : ℕ) (nhood : List ℕ) : ℕ → ℕ → Option (Option (List ℕ))
  | 0, k => if nhood.length ≤ k then some none else none
  | n + 1, k =>
    if nhood.length ≤ k then some none
    else if nhood.length < k + C.pruneBatchSize then none
    else
      match fastDeltaPrune C.toPruneParams (batchPool C x target nhood k) (C.pqDist target x) with
      -- the index into the sorted batch is used as an index into the list
      | some i => some (some (if i = C.range then nhood.dropLast else nhood.eraseIdx (k + i)))
      | none => batchLoop x target nhood n (k + C.pruneBatchSize)

def fullPrune (x target : ℕ) (nhood : List ℕ) : Option (List ℕ) :=
  let pool := triPool C.toPruneParams x target nhood
  (pool.findIdx? fun p => p.id == target).bind fun tgtIdx =>
    slowDeltaPrune C.toPruneParams pool tgtIdx

/-- The distances are read from the PQ array, which has only `rows` rows. -/
def batchPrune (rows x target : ℕ) (nhood : List ℕ) : Option (List ℕ) :=
  if ∀ y ∈ x :: target :: nhood, y < rows then
    (batchLoop C x target nhood nhood.length 0).bind fun
      | some pruned => some pruned
      | none => fullPrune C x target nhood
  else none

def addIfNotExist (id : ℕ) (old : List ℕ) : List ℕ :=
  if id ∈ old then old else old ++ [id]

def fixNhood (rows x id : ℕ) (old : List ℕ) : Option (List ℕ) :=
  if C.range < (addIfNotExist id old).length then batchPrune C rows x id (addIfNotExist id old)
  else some (addIfNotExist id old)

end Prune

section Repair

def storeWord (loc : ℕ) (c : ℕ × ℕ) : Event Unit Cell ℕ :=
  .store () (.node loc c.1) c.2

def flushWords (loc n : ℕ) : List (Event Unit Cell ℕ) :=
  (List.range n).map fun w => .flush () (.node loc w)

/-- The rewrite of a record. The length passed to `flush_dax` leaves out the count, so the
last word is not flushed. -/
def nodeEvents (loc : ℕ) (r : Record) : List (Event Unit Cell ℕ) :=
  r.cells.map (storeWord loc) ++ flushWords loc (r.coords.length + r.nhood.length) ++ [.fence ()]

/-- The rewrite of a PQ code, left out in an `ANN_LARGE` build. -/
def pqEvents (nChunks id : ℕ) (code : List ℕ) : List (Event Unit Cell ℕ) :=
  if C.geo.annLarge then []
  else
    code.zipIdx.map (fun b => .store () (.pq (id * nChunks + b.2)) b.1) ++
      (List.range code.length).map (fun i => .flush () (.pq (id * nChunks + i))) ++ [.fence ()]

def State.rewrite (s : State) (id x loc : ℕ) (node : Record) (nhood : List ℕ) : State :=
  { s.emit (nodeEvents loc ⟨node.coords, nhood⟩) with
    evicted := ((addIfNotExist id node.nhood).filter (· ∉ nhood)).map (x, ·) ++ s.evicted }

/-- Read the record of neighbour `x`, add `id`, and write it to its new slot. -/
def fixNbr (id x loc : ℕ) (s : State) : Option State :=
  (s.id2loc x).bind fun l =>
    (fixNhood C s.rows x id (s.node C l).nhood).map (s.rewrite id x loc (s.node C l))

def fixNbrs (id : ℕ) : List (ℕ × ℕ) → State → Option State
  | [], s => some s
  | (x, loc) :: ps, s => (fixNbr C id x loc s).bind fun s => fixNbrs id ps s

/-- The state in which the neighbours are repaired: the PQ code of `id` has been rewritten. -/
def State.rewritePq (s : State) (id : ℕ) (node : Record) : State :=
  s.emit (pqEvents C s.nChunks id (C.deflate s.nChunks node.coords))

def State.switch (s : State) (nbrs : List ℕ) (a : Layout.Scan × List ℕ) : Option State :=
  (switchNbrs (nbrs.zip a.1.ret) s.id2loc []).map fun r =>
    { s with
      alloc := a.1.st.eraseAndSetLoc C.geo r.2 a.1.ret nbrs
      id2loc := r.1
      hintPages := Locks.sortedUnique (a.2 ++ r.2.map C.geo.locSectorNo)
      moved := nbrs.zip a.1.ret ++ s.moved }

/-- The check of one id with record `node`. `none` is a crash of the allocator, an undefined
prune, or more slots than `erase_and_set_loc` has ids for. -/
def checkNode (s : State) (id : ℕ) (node : Record) : Option State :=
  (allocLocCompact C.geo node.nhood.length s.hintPages s.alloc).bind fun a =>
    if a.1.ret.length = node.nhood.length then
      (fixNbrs C id (node.nhood.zip a.1.ret) (s.rewritePq C id node)).bind fun t =>
        t.switch C node.nhood a
    else none

/-- The check of one id; `none` is also the crash of `id2loc` on an unknown id. -/
def checkId (s : State) (id : ℕ) : Option State :=
  (s.id2loc id).bind fun loc => checkNode C s id (s.node C loc)

end Repair

section Scan

structure Scan where
  id2loc : ℕ → Option ℕ := fun _ => none
  loc2id : ℕ → Option ℕ := fun _ => none
  numPoints : ℕ := 0
  maxId : ℕ := 0
  maxLoc : ℕ := 0

/-- Entry 0 of an id other than 0 is taken for that of an id that was never published. -/
def Valid (table : ℕ → ℕ) (id : ℕ) : Prop :=
  id = 0 ∨ table id ≠ 0

instance (table : ℕ → ℕ) (id : ℕ) : Decidable (Valid table id) :=
  inferInstanceAs (Decidable (_ ∨ _))

def scanEntry (table : ℕ → ℕ) (id : ℕ) (s : Scan) : Scan :=
  if Valid table id then
    { id2loc := Function.update s.id2loc id (some (table id))
      loc2id := Function.update s.loc2id (table id) (some id)
      numPoints := s.numPoints + 1
      maxId := id
      maxLoc := max s.maxLoc (table id) }
  else { s with maxLoc := max s.maxLoc (table id) }

def scan (table : ℕ → ℕ) : ℕ → Scan
  | 0 => {}
  | n + 1 => scanEntry table n (scan table n)

/-- The pages laid out: as many as the points would fill without holes. -/
def numSectors (numPoints : ℕ) : ℕ :=
  (numPoints + C.geo.nnodesPerSector - 1) / C.geo.nnodesPerSector

def layoutPage (loc2id : ℕ → Option ℕ) (i : ℕ) : PageArr := fun j =>
  if j < C.geo.nnodesPerSector then
    ((loc2id (i * C.geo.nnodesPerSector + j)).map Occupant.node).getD .invalid
  else .invalid

/-- Page layout and frontier after the scan; nothing is queued. -/
def restoredAlloc (s : Scan) : AllocState where
  pageLayout p :=
    if 1 ≤ p ∧ p ≤ numSectors C s.numPoints then some (layoutPage C s.loc2id (p - 1)) else none
  emptyPages := []
  curLoc := roundUp C.geo (s.maxLoc + 1)

end Scan

/-- The first id to check, from the row count of the PQ file; the local `ckpt_id` has 32
bits. It has been set to the checkpoint `nr` before, which is overwritten. -/
def ckptId (rows : ℕ) : ℕ :=
  if C.issOpt then (rows + (2 ^ 32 - 1000)) % 2 ^ 32 else 0

def checkedIds (rows maxId : ℕ) : List ℕ :=
  List.range' (ckptId C rows) (maxId + 1 - ckptId C rows)

/-- The recovered index with `cur_id` and `num_points`. -/
structure Loaded extends State where
  curId : ℕ
  numPoints : ℕ

def Image.scanned (img : Image) : Scan :=
  scan img.id2loc img.potentialIds

def Image.start (img : Image) : State where
  alloc := restoredAlloc C img.scanned
  id2loc := img.scanned.id2loc
  disk := img.cells
  rows := Pq.numRows img.pq
  nChunks := Pq.rowBytes img.pq

/-- The `PM_RECOVERY` part of `load`; `none` is the failure on a PQ file that does not fit
the graph file, a crash or undefined behaviour. -/
def load (img : Image) : Option Loaded :=
  if img.hasPq ∧ Pq.numRows img.pq = img.diskNnodes then
    (run (checkId C) (img.start C) (checkedIds C (Pq.numRows img.pq) img.scanned.maxId)).map
      fun s => { toState := s, curId := img.scanned.maxId + 1, numPoints := img.scanned.numPoints }
  else none

end Ccann.Recovery
