import Ccann.Concurrent.Runs
import Ccann.Nodes.Record
import Ccann.Layout.IdMap
import Ccann.Locks.Table
import Ccann.Persist.Log

/-! Soft Insert as a machine of interleaved steps. Inserts (`insert_phase_pm`), the commit
thread and searches share the DRAM maps, the queue of pending neighbour locations, the
commit tasks and the persistent-memory log. An insert allocates, reads its neighbours'
old records and then executes a straight-line program of stores, flushes, fences and map
updates; the commit thread and the searches have their own step functions. Page and
vector locks are left out, which only allows more interleavings. Stored words carry the
insert they were written for, so that versions can be told apart; no step reads that
tag. -/

namespace Ccann.Soft

open Nodes Layout Locks Persist List Function

/-- Build flags and index parameters. `reprune` is the prune of an over-full list. -/
structure Config where
  geo : Geometry
  dim : ℕ
  range : ℕ
  nodeWords : ℕ
  enableTags : Bool
  fineGrained : Bool
  iss : Bool
  reprune : ℕ → ℕ → List ℕ → List ℕ
  reprune_le : ∀ x target l, (reprune x target l).length ≤ range
  fits : dim + 1 + range ≤ nodeWords

/-- Persistent cells: a word of a graph slot, and one entry of each table. -/
inductive Addr where
  | node (loc w : ℕ)
  | tag (id : ℕ)
  | id2loc (id : ℕ)
  | pq (id : ℕ)
  | superblock
  deriving DecidableEq

/-- A stored word and the insert it was written for; `none` is the initial file. -/
structure Val where
  word : ℕ
  writer : Option ℕ
  deriving DecidableEq

/-- The threads that write persistent memory. An insert is named by its target id. -/
inductive Agent where
  | insert (target : ℕ)
  | commit
  deriving DecidableEq

inductive Party where
  | insert (target : ℕ)
  | reader (r : ℕ)
  deriving DecidableEq

structure Write where
  id : ℕ
  loc : ℕ
  record : Record
  deriving DecidableEq

section Program

/-- The steps of an insert after its reads. `readOrig` collects an old location, `push`
queues a pending one, `eraseAndSet` is `erase_and_set_loc`. -/
inductive Instr where
  | store (a : Addr) (word : ℕ)
  | flush (a : Addr)
  | fence
  | assign (id loc : ℕ)
  | readOrig (id : ℕ)
  | push (id loc : ℕ)
  | eraseAndSet
  | wrlockIdx (id : ℕ)
  | unlockIdx (id : ℕ)
  | commitTask
  deriving DecidableEq

variable (cfg : Config) (y tag : ℕ) (nbrs : List Write) (target : Write)

def storeCells (w : Write) : List Instr :=
  w.record.cells.map fun c => .store (.node w.loc c.1) c.2

def flushCells (w : Write) : List Instr :=
  w.record.cells.map fun c => .flush (.node w.loc c.1)

/-- The tag is written with `pmem_memcpy_persist`. -/
def tagCode : List Instr :=
  if cfg.enableTags then [.store (.tag y) tag, .flush (.tag y), .fence] else []

/-- The target's record and tag, the first fence, then the neighbours' new records. -/
def fillCode : List Instr :=
  storeCells target ++ flushCells target ++ tagCode cfg y tag ++ [.fence] ++
    nbrs.flatMap storeCells

/-- The target's location, the flushes of the neighbours' records and the second fence. -/
def publishCode : List Instr :=
  [.store (.id2loc y) target.loc, .flush (.id2loc y), .assign y target.loc] ++
    nbrs.flatMap flushCells ++ [.fence]

/-- The switch of one neighbour. Without fine-grained concurrency the insert itself stores
the new location. -/
def switchNbr (w : Write) : List Instr :=
  .readOrig w.id :: .assign w.id w.loc ::
    if cfg.fineGrained then [.push w.id w.loc]
    else [.store (.id2loc w.id) w.loc, .flush (.id2loc w.id)]

def idxKeys : List ℕ :=
  if cfg.fineGrained then [] else sortedUnique (nbrs.map Write.id ++ [y])

def switchCode : List Instr :=
  (idxKeys cfg y nbrs).map .wrlockIdx ++ nbrs.flatMap (switchNbr cfg) ++ [.eraseAndSet]

def finishCode : List Instr :=
  (idxKeys cfg y nbrs).map .unlockIdx ++ [.commitTask]

def insertCode : List Instr :=
  fillCode cfg y tag nbrs target ++ publishCode y nbrs target ++ switchCode cfg y nbrs ++
    finishCode cfg y nbrs

end Program

/-- A pending location of a neighbour and the insert that pushed it. -/
structure Entry where
  id : ℕ
  loc : ℕ
  owner : ℕ
  deriving DecidableEq

inductive Task where
  | commit (target pqCode : ℕ)
  | terminate
  deriving DecidableEq

/-- An insert that executes its program: what it writes, the executed steps (newest
first), the remaining ones, and `orig_locs`. -/
structure Running where
  nbrs : List Write
  target : Write
  done : List Instr
  rest : List Instr
  orig : List ℕ

def Running.writes (r : Running) : List Write :=
  r.nbrs ++ [r.target]

inductive Stage where
  | searched
  | allocated (locs : List ℕ)
  | running (r : Running)

/-- One insert after its search phase. -/
structure Op where
  point : List ℕ
  tag : ℕ
  pqCode : ℕ
  nhood : List ℕ
  hints : List ℕ
  stage : Stage

/-- Where the commit thread is. `last` marks the call of `process_commit_queue` after the
terminate task; `processed` is the return of that function. -/
inductive Phase where
  | idle
  | pqStore (t code : ℕ)
  | pqFlush (t : ℕ)
  | pqFence (t : ℕ)
  | drain (t : ℕ) (batch : List Entry)
  | batchStore (t : ℕ) (batch : List Entry)
  | batchFlush (t : ℕ) (e : Entry) (batch : List Entry)
  | pushHeap (t : ℕ)
  | interval
  | process (last : Bool)
  | ckptStore (c : ℕ) (last : Bool)
  | ckptFence (c : ℕ) (last : Bool)
  | superStore (c : ℕ) (last : Bool)
  | superFlush (last : Bool)
  | superFence (last : Bool)
  | processed (last : Bool)
  | endTask
  | stopped

/-- The commit thread: its min-heap as a sorted list, `n_tasks`, and the ids it has taken
from `commit_tasks`. -/
structure Commit where
  phase : Phase := .idle
  heap : List ℕ := []
  nTasks : ℕ := 0
  taken : List ℕ := []

/-- The steps of a search that fetches records. -/
inductive Fetch where
  | find (id : ℕ)
  | findEnd (id : ℕ)
  | lookup (id : ℕ)
  | rdlock (id : ℕ)
  | copy (id w : ℕ)
  | unlock (id : ℕ)
  deriving DecidableEq

/-- A fetch of `do_pipe_search` or `do_para_search`, or one hop of `do_beam_search`. -/
inductive Query where
  | fetch (id : ℕ)
  | beam (frontier : List ℕ)
  deriving DecidableEq

def Query.ids : Query → List ℕ
  | .fetch id => [id]
  | .beam frontier => frontier

/-- A search: its query, remaining steps, looked-up locations and copied words. -/
structure Reader where
  query : Option Query := none
  code : List Fetch := []
  locs : ℕ → Option ℕ := fun _ => none
  buf : ℕ → ℕ → Option Val := fun _ _ => none

/-- Inside `find_fn` the key is held over the copy. Without fine-grained concurrency the
pipelined searches look the location up before they take the idx lock, the beam search
after; `order` is the order in which a copy visits the words. -/
def Query.code (cfg : Config) (order : List ℕ) : Query → List Fetch
  | .fetch id =>
    if cfg.fineGrained then .find id :: (order.map (.copy id) ++ [.findEnd id])
    else .lookup id :: .rdlock id :: (order.map (.copy id) ++ [.unlock id])
  | .beam frontier =>
    (sortedUnique frontier).map .rdlock ++ frontier.map .lookup ++
      frontier.flatMap (fun id => order.map (.copy id)) ++ (sortedUnique frontier).map .unlock

/-- The shared state. `disk` is the initial content of persistent memory and `npts` the
number of points it was opened with; neither changes. -/
structure State where
  disk : Addr → Val
  npts : ℕ
  alloc : AllocState
  id2loc : ℕ → Option ℕ
  curId : ℕ
  ckptId : ℕ
  log : Log Agent Addr Val := []
  queue : List Entry := []
  tasks : List Task := []
  ops : ℕ → Option Op := fun _ => none
  commit : Commit := {}
  readers : ℕ → Reader := fun _ => {}
  keyHolder : ℕ → Option ℕ := fun _ => none
  idx : Table ℕ Party := fun _ => none

namespace State

variable (s : State)

def mem (a : Addr) : Val :=
  view s.disk s.log a

def emit (e : Event Agent Addr Val) : State :=
  { s with log := e :: s.log }

def setOp (y : ℕ) (op : Op) : State :=
  { s with ops := update s.ops y (some op) }

def setPhase (p : Phase) : State :=
  { s with commit := { s.commit with phase := p } }

def setReader (r : ℕ) (R : Reader) : State :=
  { s with readers := update s.readers r R }

def recordAt (dim loc : ℕ) : Record :=
  Record.decode dim fun w => (s.mem (.node loc w)).word

end State

/-- The neighbour list of `x` with the target appended, pruned when over-full. -/
def newNhood (cfg : Config) (x target : ℕ) (old : List ℕ) : List ℕ :=
  if cfg.range < (old ++ [target]).length then cfg.reprune x target (old ++ [target])
  else old ++ [target]

/-- The new version of neighbour `x`: its coordinates and its updated list. -/
def nbrWrite (cfg : Config) (s : State) (y x loc : ℕ) : Write :=
  let old := s.recordAt cfg.dim ((s.id2loc x).getD 0)
  ⟨x, loc, ⟨old.coords, newNhood cfg x y old.nhood⟩⟩

/-- The result of a search phase: distinct ids of the index, at most `range`. -/
def SearchResult (cfg : Config) (s : State) (point nhood : List ℕ) : Prop :=
  point.length = cfg.dim ∧ nhood.Nodup ∧ nhood.length ≤ cfg.range ∧
    ∀ x ∈ nhood, (s.id2loc x).isSome

instance (cfg : Config) (s : State) (point nhood : List ℕ) :
    Decidable (SearchResult cfg s point nhood) :=
  inferInstanceAs (Decidable (_ ∧ _ ∧ _ ∧ _))

def startStep (cfg : Config) (s : State) (point : List ℕ) (tag pqCode : ℕ)
    (nhood hints : List ℕ) : Option State :=
  if SearchResult cfg s point nhood then
    some ({ s with curId := s.curId + 1 }.setOp s.curId
      { point, tag, pqCode, nhood, hints, stage := .searched })
  else none

def allocStep (cfg : Config) (s : State) (y : ℕ) (op : Op) : Option State :=
  (allocLoc cfg.geo (op.nhood.length + 1) op.hints s.alloc).map fun a =>
    { s with alloc := a.st }.setOp y { op with stage := .allocated a.ret }

/-- Read the old records, build the new ones and fix the program. -/
def readStep (cfg : Config) (s : State) (y : ℕ) (op : Op) (locs : List ℕ) : Option State :=
  if ∀ x ∈ op.nhood, (s.id2loc x).isSome then
    locs[op.nhood.length]?.map fun loc =>
      let nbrs := (op.nhood.zip locs).map fun x => nbrWrite cfg s y x.1 x.2
      let target : Write := ⟨y, loc, ⟨op.point, op.nhood⟩⟩
      s.setOp y { op with
        stage := .running
          { nbrs, target, done := [], rest := insertCode cfg y op.tag nbrs target, orig := [] } }
  else none

/-- The effect of one instruction on the shared state. An assign waits for a search that
holds the key inside `find_fn`. -/
def effect (cfg : Config) (s : State) (y : ℕ) (op : Op) (r : Running) : Instr → Option State
  | .store a word => some (s.emit (.store (.insert y) a ⟨word, some y⟩))
  | .flush a => some (s.emit (.flush (.insert y) a))
  | .fence => some (s.emit (.fence (.insert y)))
  | .assign id loc =>
    if s.keyHolder id = none then
      some { s with id2loc := update s.id2loc id (some loc) }
    else none
  | .readOrig id => if (s.id2loc id).isSome then some s else none
  | .push id loc => some { s with queue := s.queue ++ [⟨id, loc, y⟩] }
  | .eraseAndSet =>
    some { s with
      alloc := s.alloc.eraseAndSetLoc cfg.geo r.orig (r.writes.map Write.loc)
        (r.writes.map Write.id) }
  | .wrlockIdx id => (trywrlock s.idx (.insert y) id).map fun T => { s with idx := T }
  | .unlockIdx id => some { s with idx := unlock s.idx (.insert y) id }
  | .commitTask => some { s with tasks := s.tasks ++ [.commit y op.pqCode] }

def origAfter (s : State) (r : Running) : Instr → List ℕ
  | .readOrig id => r.orig ++ (s.id2loc id).toList
  | _ => r.orig

def execStep (cfg : Config) (s : State) (y : ℕ) (op : Op) (r : Running) : Option State :=
  match r.rest with
  | [] => none
  | i :: rest =>
    (effect cfg s y op r i).map fun s' =>
      s'.setOp y { op with
        stage := .running { r with done := i :: r.done, rest, orig := origAfter s r i } }

def insertStep (cfg : Config) (s : State) (y : ℕ) : Option State :=
  (s.ops y).bind fun op =>
    match op.stage with
    | .searched => allocStep cfg s y op
    | .allocated locs => readStep cfg s y op locs
    | .running r => execStep cfg s y op r

def commitInterval : ℕ := 1000

/-- Consume the heap while its top is the next id. -/
def advance : ℕ → List ℕ → ℕ × List ℕ
  | c, [] => (c, [])
  | c, h :: heap => if h = c then advance (c + 1) heap else (c, h :: heap)

/-- The next step of `insert_commit_thread`; `timer` says whether its statistics timer has
run out. -/
def commitStep (cfg : Config) (s : State) (timer : Bool) : Option State :=
  match s.commit.phase with
  | .idle =>
    match s.tasks with
    | [] => none
    | .terminate :: ts => some ({ s with tasks := ts }.setPhase (.process true))
    | .commit t code :: ts =>
      let s := { s with tasks := ts, commit := { s.commit with taken := t :: s.commit.taken } }
      some (s.setPhase
        (if cfg.iss && !cfg.geo.annLarge then .pqStore t code else .drain t []))
  | .pqStore t code =>
    some ((s.emit (.store .commit (.pq t) ⟨code, some t⟩)).setPhase (.pqFlush t))
  | .pqFlush t => some ((s.emit (.flush .commit (.pq t))).setPhase (.pqFence t))
  | .pqFence t => some ((s.emit (.fence .commit)).setPhase (.drain t []))
  | .drain t batch =>
    match s.queue with
    | [] => some (s.setPhase (.batchStore t batch))
    | e :: q => some ({ s with queue := q }.setPhase (.drain t (batch ++ [e])))
  | .batchStore t [] => some (s.setPhase (.pushHeap t))
  | .batchStore t (e :: batch) =>
    some ((s.emit (.store .commit (.id2loc e.id) ⟨e.loc, some e.owner⟩)).setPhase
      (.batchFlush t e batch))
  | .batchFlush t e batch =>
    some ((s.emit (.flush .commit (.id2loc e.id))).setPhase (.batchStore t batch))
  | .pushHeap t =>
    let heap := s.commit.heap.orderedInsert (· ≤ ·) t
    some ({ s with commit := { s.commit with heap } }.setPhase .interval)
  | .interval =>
    some (s.setPhase
      (if s.commit.nTasks ≠ 0 ∧ s.commit.nTasks % commitInterval = 0 then .process false
        else .endTask))
  | .process last =>
    let (c, heap) := advance s.ckptId s.commit.heap
    some ({ s with commit := { s.commit with heap } }.setPhase
      (if cfg.iss && decide (c ≠ s.ckptId) then .ckptStore c last else .processed last))
  | .ckptStore c last => some ({ s with ckptId := c }.setPhase (.ckptFence c last))
  | .ckptFence c last => some ((s.emit (.fence .commit)).setPhase (.superStore c last))
  | .superStore c last =>
    some ((s.emit (.store .commit .superblock ⟨c, none⟩)).setPhase (.superFlush last))
  | .superFlush last =>
    some ((s.emit (.flush .commit .superblock)).setPhase (.superFence last))
  | .superFence last => some ((s.emit (.fence .commit)).setPhase (.processed last))
  | .processed false => some (s.setPhase .endTask)
  | .processed true => if s.commit.heap = [] then some (s.setPhase .stopped) else none
  | .endTask =>
    let nTasks := if timer then 0 else s.commit.nTasks + 1
    some ({ s with commit := { s.commit with nTasks } }.setPhase .idle)
  | .stopped => none

def searchStep (cfg : Config) (s : State) (r : ℕ) (q : Query) (order : List ℕ) : Option State :=
  if (s.readers r).code = [] ∧ (∀ id ∈ q.ids, (s.id2loc id).isSome) ∧
      ∀ w ∈ range cfg.nodeWords, w ∈ order then
    some (s.setReader r { query := some q, code := q.code cfg order })
  else none

/-- The effect of one fetch step: the state and the search's own record. -/
def fetchEffect (s : State) (r : ℕ) (R : Reader) : Fetch → Option (State × Reader)
  | .find id =>
    if s.keyHolder id = none then
      (s.id2loc id).map fun l =>
        ({ s with keyHolder := update s.keyHolder id (some r) },
          { R with locs := update R.locs id (some l) })
    else none
  | .findEnd id => some ({ s with keyHolder := update s.keyHolder id none }, R)
  | .lookup id =>
    (s.id2loc id).map fun l => (s, { R with locs := update R.locs id (some l) })
  | .rdlock id => (tryrdlock s.idx (.reader r) id).map fun T => ({ s with idx := T }, R)
  | .copy id w =>
    (R.locs id).map fun l =>
      (s, { R with
        buf := update R.buf id
          (update (R.buf id) w (some (s.mem (.node l w)))) })
  | .unlock id => some ({ s with idx := unlock s.idx (.reader r) id }, R)

def readerStep (s : State) (r : ℕ) : Option State :=
  match (s.readers r).code with
  | [] => none
  | f :: code =>
    (fetchEffect s r (s.readers r) f).map fun p => p.1.setReader r { p.2 with code }

inductive Act where
  | start (point : List ℕ) (tag pqCode : ℕ) (nhood hints : List ℕ)
  | insert (y : ℕ)
  | commit (timer : Bool)
  | terminate
  | search (r : ℕ) (q : Query) (order : List ℕ)
  | reader (r : ℕ)

def step (cfg : Config) (s : State) : Act → Option State
  | .start point tag pqCode nhood hints => startStep cfg s point tag pqCode nhood hints
  | .insert y => insertStep cfg s y
  | .commit timer => commitStep cfg s timer
  | .terminate => some { s with tasks := s.tasks ++ [.terminate] }
  | .search r q order => searchStep cfg s r q order
  | .reader r => readerStep s r

end Ccann.Soft
