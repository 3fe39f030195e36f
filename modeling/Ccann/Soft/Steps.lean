import Ccann.Soft.Machine

/-! What each kind of step can do. One inversion lemma per step function says what was
enabled and what the successor is, and frame lemmas say which parts of the state a step
leaves alone; the invariants of the later modules are proved from these and never unfold
a step. -/

namespace Ccann.Soft

open Nodes Layout Locks Persist List Function Option

variable {cfg : Config} {s t : State} {op : Op}

/-- The instructions an insert has executed, newest first. -/
def history (s : State) (y : ℕ) : List Instr :=
  match s.ops y with
  | some ⟨_, _, _, _, _, .running r⟩ => r.done
  | _ => []

def Instr.event (y : ℕ) : Instr → Option (Event Agent Addr Val)
  | .store a word => some (.store (.insert y) a ⟨word, some y⟩)
  | .flush a => some (.flush (.insert y) a)
  | .fence => some (.fence (.insert y))
  | _ => none

/-- The location updates the commit thread still has to store. -/
def Phase.batch : Phase → List Entry
  | .drain _ batch => batch
  | .batchStore _ batch => batch
  | .batchFlush _ _ batch => batch
  | _ => []

/-- Location updates that were pushed and are not stored yet. -/
def State.pending (s : State) : List Entry :=
  s.commit.phase.batch ++ s.queue

theorem history_eq {y : ℕ} {r : Running} (hop : s.ops y = some op) (hr : op.stage = .running r) :
    history s y = r.done := by
  obtain ⟨point, tag, pqCode, nhood, hints, stage⟩ := op
  cases hr
  simp [history, hop]

theorem history_of_searched {y : ℕ} (hop : s.ops y = some op) (hr : op.stage = .searched) :
    history s y = [] := by
  obtain ⟨point, tag, pqCode, nhood, hints, stage⟩ := op
  cases hr
  simp [history, hop]

theorem history_of_allocated {y : ℕ} {locs : List ℕ} (hop : s.ops y = some op)
    (hr : op.stage = .allocated locs) : history s y = [] := by
  obtain ⟨point, tag, pqCode, nhood, hints, stage⟩ := op
  cases hr
  simp [history, hop]

theorem history_of_none {y : ℕ} (hop : s.ops y = none) : history s y = [] := by
  simp [history, hop]

theorem history_congr (h : t.ops = s.ops) (y : ℕ) : history t y = history s y := by
  simp only [history, h]

theorem history_setOp_of_ne {y z : ℕ} (h : z ≠ y) : history (s.setOp y op) z = history s z := by
  simp only [history, State.setOp, update_of_ne h]

@[simp] theorem setOp_self (y : ℕ) (op : Op) : (s.setOp y op).ops y = some op := by
  simp [State.setOp]

theorem setOp_of_ne {y z : ℕ} (h : z ≠ y) : (s.setOp y op).ops z = s.ops z := by
  simp [State.setOp, h]

section Insert

def begun (cfg : Config) (s : State) (y : ℕ) (op : Op) (locs : List ℕ) (loc : ℕ) : Running :=
  let nbrs := (op.nhood.zip locs).map fun x => nbrWrite cfg s y x.1 x.2
  let target : Write := ⟨y, loc, ⟨op.point, op.nhood⟩⟩
  { nbrs, target, done := [], rest := insertCode cfg y op.tag nbrs target, orig := [] }

def Running.next (r : Running) (s : State) (i : Instr) (rest : List Instr) : Running :=
  { r with done := i :: r.done, rest, orig := origAfter s r i }

structure EffectFrame (y : ℕ) (i : Instr) (s t : State) : Prop where
  disk : t.disk = s.disk
  npts : t.npts = s.npts
  curId : t.curId = s.curId
  ckptId : t.ckptId = s.ckptId
  ops : t.ops = s.ops
  commit : t.commit = s.commit
  readers : t.readers = s.readers
  keyHolder : t.keyHolder = s.keyHolder
  log : t.log = (i.event y).toList ++ s.log

section

variable (cfg : Config) (s : State) (y : ℕ) (op : Op) (r : Running)

/-- What each instruction needs and does. -/
inductive EffectMove : Instr → State → Prop where
  | store {a word} : EffectMove (.store a word) (s.emit (.store (.insert y) a ⟨word, some y⟩))
  | flush {a} : EffectMove (.flush a) (s.emit (.flush (.insert y) a))
  | fence : EffectMove .fence (s.emit (.fence (.insert y)))
  | assign {id loc} : s.keyHolder id = none →
      EffectMove (.assign id loc) { s with id2loc := update s.id2loc id (some loc) }
  | readOrig {id} : (s.id2loc id).isSome → EffectMove (.readOrig id) s
  | push {id loc} : EffectMove (.push id loc) { s with queue := s.queue ++ [⟨id, loc, y⟩] }
  | eraseAndSet : EffectMove .eraseAndSet { s with
      alloc := s.alloc.eraseAndSetLoc cfg.geo r.orig (r.writes.map Write.loc)
        (r.writes.map Write.id) }
  | wrlockIdx {id T} : trywrlock s.idx (.insert y) id = some T →
      EffectMove (.wrlockIdx id) { s with idx := T }
  | unlockIdx {id} : EffectMove (.unlockIdx id) { s with idx := unlock s.idx (.insert y) id }
  | commitTask : EffectMove .commitTask { s with tasks := s.tasks ++ [.commit y op.pqCode] }

end

variable {y : ℕ} {op : Op} {r : Running} {i : Instr}

variable (h : effect cfg s y op r i = some t)

include h

theorem effect_move : EffectMove cfg s y op r i t := by
  cases i with
  | assign id loc =>
    simp only [effect] at h
    split at h <;> cases h
    exact .assign ‹_›
  | readOrig id =>
    simp only [effect] at h
    split at h <;> cases h
    exact .readOrig ‹_›
  | wrlockIdx id =>
    obtain ⟨T, hT, rfl⟩ := map_eq_some_iff.mp h
    exact .wrlockIdx hT
  | _ =>
    cases h
    constructor

theorem effect_frame : EffectFrame y i s t := by
  cases effect_move h <;> constructor <;> rfl

theorem effect_id2loc :
    t.id2loc = s.id2loc ∨ ∃ id loc, i = .assign id loc ∧ s.keyHolder id = none ∧
      t.id2loc = update s.id2loc id (some loc) := by
  cases effect_move h with
  | assign hkey => exact .inr ⟨_, _, rfl, hkey, rfl⟩
  | _ => exact .inl rfl

theorem effect_queue :
    t.queue = s.queue ∨ ∃ id loc, i = .push id loc ∧ t.queue = s.queue ++ [⟨id, loc, y⟩] := by
  cases effect_move h with
  | push => exact .inr ⟨_, _, rfl, rfl⟩
  | _ => exact .inl rfl

end Insert

section Commit

structure CommitFrame (s t : State) : Prop where
  disk : t.disk = s.disk
  npts : t.npts = s.npts
  alloc : t.alloc = s.alloc
  id2loc : t.id2loc = s.id2loc
  curId : t.curId = s.curId
  ops : t.ops = s.ops
  readers : t.readers = s.readers
  keyHolder : t.keyHolder = s.keyHolder
  idx : t.idx = s.idx

/-- The event the commit thread emits in a phase. -/
def Phase.event : Phase → Option (Event Agent Addr Val)
  | .pqStore t code => some (.store .commit (.pq t) ⟨code, some t⟩)
  | .pqFlush t => some (.flush .commit (.pq t))
  | .pqFence _ => some (.fence .commit)
  | .batchStore _ (e :: _) => some (.store .commit (.id2loc e.id) ⟨e.loc, some e.owner⟩)
  | .batchFlush _ e _ => some (.flush .commit (.id2loc e.id))
  | .ckptFence _ _ => some (.fence .commit)
  | .superStore c _ => some (.store .commit .superblock ⟨c, none⟩)
  | .superFlush _ => some (.flush .commit .superblock)
  | .superFence _ => some (.fence .commit)
  | _ => none

section

variable (cfg : Config) (s : State) (timer : Bool)

inductive CommitMove : Phase → State → Prop where
  | terminate {ts} : s.tasks = .terminate :: ts →
      CommitMove .idle ({ s with tasks := ts }.setPhase (.process true))
  | take {z code ts p} : s.tasks = .commit z code :: ts →
      p = (if cfg.iss && !cfg.geo.annLarge then .pqStore z code else .drain z []) →
      CommitMove .idle
        ({ s with tasks := ts, commit := { s.commit with taken := z :: s.commit.taken } }.setPhase p)
  | pqStore {z code} : CommitMove (.pqStore z code)
      ((s.emit (.store .commit (.pq z) ⟨code, some z⟩)).setPhase (.pqFlush z))
  | pqFlush {z} : CommitMove (.pqFlush z) ((s.emit (.flush .commit (.pq z))).setPhase (.pqFence z))
  | pqFence {z} : CommitMove (.pqFence z) ((s.emit (.fence .commit)).setPhase (.drain z []))
  | drained {z batch} : s.queue = [] →
      CommitMove (.drain z batch) (s.setPhase (.batchStore z batch))
  | drain {z batch e q} : s.queue = e :: q →
      CommitMove (.drain z batch) ({ s with queue := q }.setPhase (.drain z (batch ++ [e])))
  | batchDone {z} : CommitMove (.batchStore z []) (s.setPhase (.pushHeap z))
  | batchStore {z e batch} : CommitMove (.batchStore z (e :: batch))
      ((s.emit (.store .commit (.id2loc e.id) ⟨e.loc, some e.owner⟩)).setPhase
        (.batchFlush z e batch))
  | batchFlush {z e batch} : CommitMove (.batchFlush z e batch)
      ((s.emit (.flush .commit (.id2loc e.id))).setPhase (.batchStore z batch))
  | pushHeap {z} : CommitMove (.pushHeap z)
      ({ s with commit := { s.commit with heap := s.commit.heap.orderedInsert (· ≤ ·) z } }.setPhase
        .interval)
  | due : s.commit.nTasks ≠ 0 ∧ s.commit.nTasks % commitInterval = 0 →
      CommitMove .interval (s.setPhase (.process false))
  | notDue : ¬(s.commit.nTasks ≠ 0 ∧ s.commit.nTasks % commitInterval = 0) →
      CommitMove .interval (s.setPhase .endTask)
  | process {last c heap p} : advance s.ckptId s.commit.heap = (c, heap) →
      p = (if cfg.iss && decide (c ≠ s.ckptId) then .ckptStore c last else .processed last) →
      CommitMove (.process last) ({ s with commit := { s.commit with heap } }.setPhase p)
  | ckptStore {c last} :
      CommitMove (.ckptStore c last) ({ s with ckptId := c }.setPhase (.ckptFence c last))
  | ckptFence {c last} :
      CommitMove (.ckptFence c last) ((s.emit (.fence .commit)).setPhase (.superStore c last))
  | superStore {c last} : CommitMove (.superStore c last)
      ((s.emit (.store .commit .superblock ⟨c, none⟩)).setPhase (.superFlush last))
  | superFlush {last} : CommitMove (.superFlush last)
      ((s.emit (.flush .commit .superblock)).setPhase (.superFence last))
  | superFence {last} :
      CommitMove (.superFence last) ((s.emit (.fence .commit)).setPhase (.processed last))
  | processed : CommitMove (.processed false) (s.setPhase .endTask)
  | stop : s.commit.heap = [] → CommitMove (.processed true) (s.setPhase .stopped)
  | endTask {nTasks} : nTasks = (if timer then 0 else s.commit.nTasks + 1) →
      CommitMove .endTask ({ s with commit := { s.commit with nTasks } }.setPhase .idle)

end

theorem commitStep_move {timer : Bool} {p : Phase} (h : commitStep cfg s timer = some t)
    (hp : s.commit.phase = p) : CommitMove cfg s timer p t := by
  cases p
  case batchStore z batch =>
    cases batch <;> simp only [commitStep, hp] at h <;> cases h <;> constructor
  case processed last =>
    cases last <;> simp only [commitStep, hp] at h
    · cases h
      exact .processed
    · split_ifs at h with hheap
      cases h
      exact .stop hheap
  all_goals simp only [commitStep, hp] at h
  case idle =>
    split at h <;> cases h
    · exact .terminate ‹_›
    · exact .take ‹_› rfl
  case drain =>
    split at h <;> cases h
    · exact .drained ‹_›
    · exact .drain ‹_›
  case interval =>
    split_ifs at h with hdue <;> cases h
    · exact .due hdue
    · exact .notDue hdue
  case process =>
    cases h
    exact .process rfl rfl
  case endTask =>
    cases h
    exact .endTask rfl
  all_goals cases h <;> constructor

/-- The commit thread emits the event of its phase, keeps to its part of the state, and
only ever drops pending updates. -/
theorem commitStep_frame {timer : Bool} (h : commitStep cfg s timer = some t) :
    CommitFrame s t ∧ t.log = s.commit.phase.event.toList ++ s.log ∧
      ∀ e ∈ t.pending, e ∈ s.pending := by
  obtain ⟨p, hp⟩ : ∃ p, s.commit.phase = p := ⟨_, rfl⟩
  cases commitStep_move h hp with
  | take _ hnext | process _ hnext =>
    rw [hnext]
    refine ⟨by constructor <;> rfl, by rw [hp]; rfl, ?_⟩
    split_ifs <;> simp [State.pending, State.setPhase, Phase.batch, hp]
  | _ =>
    refine ⟨by constructor <;> rfl, by rw [hp]; rfl, ?_⟩
    simp +contextual [State.pending, State.setPhase, State.emit, Phase.batch, *]

end Commit

section Search

structure SearchFrame (s t : State) : Prop where
  disk : t.disk = s.disk
  npts : t.npts = s.npts
  alloc : t.alloc = s.alloc
  id2loc : t.id2loc = s.id2loc
  curId : t.curId = s.curId
  ckptId : t.ckptId = s.ckptId
  log : t.log = s.log
  queue : t.queue = s.queue
  tasks : t.tasks = s.tasks
  ops : t.ops = s.ops
  commit : t.commit = s.commit

variable {r : ℕ} {p : State × Reader} {order : List ℕ} {R : Reader} {f : Fetch} {q : Query}

theorem readerStep_cases (h : readerStep s r = some t) :
    ∃ f code p, (s.readers r).code = f :: code ∧ fetchEffect s r (s.readers r) f = some p ∧
      t = p.1.setReader r { p.2 with code } := by
  unfold readerStep at h
  split at h
  next => cases h
  next f code hcode =>
    obtain ⟨p, hp, rfl⟩ := map_eq_some_iff.mp h
    exact ⟨f, code, p, hcode, hp, rfl⟩

section

variable (s : State) (r : ℕ) (R : Reader)

inductive FetchMove : Fetch → State × Reader → Prop where
  | find {id l} : s.keyHolder id = none → s.id2loc id = some l →
      FetchMove (.find id) ({ s with keyHolder := update s.keyHolder id (some r) },
        { R with locs := update R.locs id (some l) })
  | findEnd {id} :
      FetchMove (.findEnd id) ({ s with keyHolder := update s.keyHolder id none }, R)
  | lookup {id l} : s.id2loc id = some l →
      FetchMove (.lookup id) (s, { R with locs := update R.locs id (some l) })
  | rdlock {id T} : tryrdlock s.idx (.reader r) id = some T →
      FetchMove (.rdlock id) ({ s with idx := T }, R)
  | copy {id w l} : R.locs id = some l → FetchMove (.copy id w) (s, { R with
      buf := update R.buf id
        (update (R.buf id) w (some (s.mem (.node l w)))) })
  | unlock {id} : FetchMove (.unlock id) ({ s with idx := unlock s.idx (.reader r) id }, R)

end

theorem fetchEffect_move (h : fetchEffect s r R f = some p) : FetchMove s r R f p := by
  cases f with
  | find id =>
    simp only [fetchEffect] at h
    split at h
    · obtain ⟨l, hl, rfl⟩ := map_eq_some_iff.mp h
      exact .find ‹_› hl
    · cases h
  | lookup id | rdlock id | copy id w =>
    obtain ⟨l, hl, rfl⟩ := map_eq_some_iff.mp h
    constructor
    exact hl
  | findEnd id | unlock id =>
    cases h
    constructor

theorem fetchEffect_frame (h : fetchEffect s r R f = some p) :
    SearchFrame s p.1 ∧ p.1.readers = s.readers := by
  cases fetchEffect_move h <;> exact ⟨by constructor <;> rfl, rfl⟩

theorem readerStep_frame (h : readerStep s r = some t) : SearchFrame s t := by
  obtain ⟨f, code, p, -, hp, rfl⟩ := readerStep_cases h
  obtain ⟨hf, -⟩ := fetchEffect_frame hp
  exact ⟨hf.disk, hf.npts, hf.alloc, hf.id2loc, hf.curId, hf.ckptId, hf.log, hf.queue,
    hf.tasks, hf.ops, hf.commit⟩

theorem searchStep_cases (h : searchStep cfg s r q order = some t) :
    (s.readers r).code = [] ∧ (∀ id ∈ q.ids, (s.id2loc id).isSome) ∧
      (∀ w, w < cfg.nodeWords → w ∈ order) ∧
      t = s.setReader r { query := some q, code := q.code cfg order } := by
  unfold searchStep at h
  split_ifs at h with hc
  cases h
  exact ⟨hc.1, hc.2.1, fun w hw => hc.2.2 w (mem_range.mpr hw), rfl⟩

theorem searchStep_frame (h : searchStep cfg s r q order = some t) : SearchFrame s t := by
  obtain ⟨-, -, -, rfl⟩ := searchStep_cases h
  constructor <;> rfl

end Search

/-- What a step can do. An insert allocates, fixes its program, or executes its next
instruction. -/
inductive Move (cfg : Config) (s : State) : Act → State → Prop where
  | start {point tag pqCode nhood hints} : SearchResult cfg s point nhood →
      Move cfg s (.start point tag pqCode nhood hints)
        ({ s with curId := s.curId + 1 }.setOp s.curId ⟨point, tag, pqCode, nhood, hints, .searched⟩)
  | alloc {y op a} : s.ops y = some op → op.stage = .searched →
      allocLoc cfg.geo (op.nhood.length + 1) op.hints s.alloc = some a →
      Move cfg s (.insert y) ({ s with alloc := a.st }.setOp y { op with stage := .allocated a.ret })
  | read {y op locs loc} : s.ops y = some op → op.stage = .allocated locs →
      (∀ x ∈ op.nhood, (s.id2loc x).isSome) → locs[op.nhood.length]? = some loc →
      Move cfg s (.insert y) (s.setOp y { op with stage := .running (begun cfg s y op locs loc) })
  | exec {y op r i rest u} : s.ops y = some op → op.stage = .running r → r.rest = i :: rest →
      effect cfg s y op r i = some u →
      Move cfg s (.insert y) (u.setOp y { op with stage := .running (r.next s i rest) })
  | commit {timer t} : commitStep cfg s timer = some t → Move cfg s (.commit timer) t
  | terminate : Move cfg s .terminate { s with tasks := s.tasks ++ [.terminate] }
  | search {r q order t} : SearchFrame s t → searchStep cfg s r q order = some t →
      Move cfg s (.search r q order) t
  | reader {r t} : SearchFrame s t → readerStep s r = some t → Move cfg s (.reader r) t

theorem step_move {a : Act} (h : step cfg s a = some t) : Move cfg s a t := by
  cases a with
  | start point tag pqCode nhood hints =>
    simp only [step, startStep] at h
    split_ifs at h with hc
    cases h
    exact .start hc
  | insert y =>
    simp only [step, insertStep, bind_eq_some_iff] at h
    obtain ⟨op, hop, h⟩ := h
    split at h
    next hstage =>
      simp only [allocStep, map_eq_some_iff] at h
      obtain ⟨a, ha, rfl⟩ := h
      exact .alloc hop hstage ha
    next locs hstage =>
      simp only [readStep] at h
      split_ifs at h with hsome
      obtain ⟨loc, hloc, rfl⟩ := map_eq_some_iff.mp h
      exact .read hop hstage hsome hloc
    next r hstage =>
      simp only [execStep] at h
      split at h
      next => cases h
      next i rest hrest =>
        obtain ⟨u, hu, rfl⟩ := map_eq_some_iff.mp h
        exact .exec hop hstage hrest hu
  | commit timer => exact .commit h
  | terminate =>
    cases h
    exact .terminate
  | search r q order => exact .search (searchStep_frame h) h
  | reader r => exact .reader (readerStep_frame h) h

/-- An index that has just been opened: no thread has done anything yet, the maps are
inverse, every id has a complete record on disk, and the `.id2loc` table agrees with the
map (entry 0 of an id other than 0 stands for an unpublished id). -/
structure Opened (cfg : Config) (s : State) : Prop where
  log : s.log = []
  queue : s.queue = []
  tasks : s.tasks = []
  ops : ∀ y, s.ops y = none
  commit : s.commit = {}
  readers : ∀ r, s.readers r = {}
  keyHolder : ∀ id, s.keyHolder id = none
  idx : ∀ id, s.idx id = none
  npts : s.npts = s.curId
  nonempty : 0 < s.npts
  consistent : Consistent cfg.geo ⟨s.alloc, s.id2loc, s.curId⟩
  record : ∀ x l, s.id2loc x = some l → ∃ r : Record, r.coords.length = cfg.dim ∧
    r.nhood.length ≤ cfg.range ∧ ∀ w v, r.words[w]? = some v → s.disk (.node l w) = ⟨v, none⟩
  entry : ∀ x l, s.id2loc x = some l → s.disk (.id2loc x) = ⟨l, none⟩
  unpublished : ∀ x, s.curId ≤ x → s.disk (.id2loc x) = ⟨0, none⟩

end Ccann.Soft
