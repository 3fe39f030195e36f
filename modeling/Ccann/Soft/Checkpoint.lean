import Ccann.Soft.CommitQueue
import Ccann.Soft.Ordering

/-! The checkpoint of the commit thread is sound. A task enters the heap only after its PQ
code is durable and the queue was drained behind it, so the flushes of all updates its
insert pushed are in the log; the fence before the superblock store then makes them
durable for every id below the checkpoint. -/

namespace Ccann.Soft

open Nodes Layout Locks Persist Concurrent List

variable {cfg : Config} {s t : State}

section Facts

def Flushed (s : State) (a : Addr) (v : Val) : Prop :=
  [.flush .commit a, .store .commit a v].Sublist s.log

def PqDurable (s : State) (i : ℕ) : Prop :=
  ∃ op, s.ops i = some op ∧ SurelyDurable s.log .commit (.pq i) ⟨op.pqCode, some i⟩

/-- Every location update the insert has pushed is stored and flushed. -/
def PushesFlushed (s : State) (i : ℕ) : Prop :=
  ∀ id loc, .push id loc ∈ history s i → Flushed s (.id2loc id) ⟨loc, some i⟩

/-- Every location update the insert has pushed is surely durable. -/
def PushesDurable (s : State) (i : ℕ) : Prop :=
  ∀ id loc, .push id loc ∈ history s i →
    SurelyDurable s.log .commit (.id2loc id) ⟨loc, some i⟩

/-- From `s` to `t` nothing of a complete insert is lost. -/
structure Kept (s t : State) (i : ℕ) : Prop where
  ops : ∀ op, s.ops i = some op → ∃ op', t.ops i = some op' ∧ op'.pqCode = op.pqCode
  history : history t i = history s i
  log : s.log <:+ t.log

theorem Traced.kept (h : Traced cfg s) {a : Act} (hs : Soft.step cfg s a = some t) {i : ℕ}
    (hi : .commitTask ∈ history s i) : Kept s t i where
  ops op hop := by
    obtain ⟨op', hop', hle⟩ := h.ops_mono hs hop
    exact ⟨op', hop', hle.pqCode⟩
  history := h.history_eq_of_complete hs hi
  log := step_log_suffix hs

variable {i : ℕ}

theorem Flushed.mono {a : Addr} {v : Val} (h : Flushed s a v) (hlog : s.log <:+ t.log) :
    Flushed t a v :=
  List.Sublist.trans h hlog.sublist

theorem PqDurable.mono (h : PqDurable s i) (hk : Kept s t i) : PqDurable t i := by
  obtain ⟨op, hop, hd⟩ := h
  obtain ⟨op', hop', hcode⟩ := hk.ops op hop
  exact ⟨op', hop', hcode ▸ hd.mono hk.log.sublist⟩

theorem PushesFlushed.mono (h : PushesFlushed s i) (hk : Kept s t i) : PushesFlushed t i := by
  intro id loc hpush
  rw [hk.history] at hpush
  exact (h id loc hpush).mono hk.log

theorem PushesDurable.mono (h : PushesDurable s i) (hk : Kept s t i) : PushesDurable t i := by
  intro id loc hpush
  rw [hk.history] at hpush
  exact (h id loc hpush).mono hk.log.sublist

/-- A fence of the commit thread makes durable what it has flushed. -/
theorem PushesFlushed.fence (h : PushesFlushed s i) (hk : Kept s t i)
    (hlog : t.log = .fence .commit :: s.log) : PushesDurable t i := by
  intro id loc hpush
  rw [hk.history] at hpush
  rw [hlog]
  exact surelyDurable_cons_fence (h id loc hpush)

end Facts

section Drained

/-- The location update that is stored and not flushed yet. -/
def Phase.inFlight : Phase → Option Entry
  | .batchFlush _ e _ => some e
  | _ => none

def Entry.addr (e : Entry) : Addr :=
  .id2loc e.id

def Entry.val (e : Entry) : Val :=
  ⟨e.loc, some e.owner⟩

/-- Each pushed update is pending, in flight or flushed. -/
structure Drained (s : State) : Prop where
  inFlight : ∀ e, s.commit.phase.inFlight = some e → .store .commit e.addr e.val ∈ s.log
  pushed : ∀ e : Entry, .push e.id e.loc ∈ history s e.owner →
    e ∈ s.pending ∨ s.commit.phase.inFlight = some e ∨ Flushed s e.addr e.val

theorem Opened.drained (h : Opened cfg s) : Drained s where
  inFlight e he := by simp [h.commit, Phase.inFlight] at he
  pushed e he := by simp [history_of_none (h.ops e.owner)] at he

variable {timer : Bool}

/-- The commit thread takes pending updates in flight, and flushes the one in flight. -/
theorem commitStep_drain (h : commitStep cfg s timer = some t) :
    (∀ e ∈ s.pending, e ∈ t.pending ∨ t.commit.phase.inFlight = some e) ∧
      (∀ e, s.commit.phase.inFlight = some e → t.log = .flush .commit e.addr :: s.log) ∧
      ∀ e, t.commit.phase.inFlight = some e → .store .commit e.addr e.val ∈ t.log := by
  obtain ⟨p, hp⟩ : ∃ p, s.commit.phase = p := ⟨_, rfl⟩
  rw [State.pending, hp]
  cases commitStep_move h hp with
  | take _ hnext | process _ hnext =>
    rw [hnext]
    split_ifs <;> simp [State.pending, State.setPhase, Phase.batch, Phase.inFlight]
  | @batchStore z e batch =>
    refine ⟨fun e' he' => ?_, fun e' he' => (by cases he'), fun e' he' => ?_⟩
    · rcases mem_cons.mp he' with rfl | he'
      · exact .inr rfl
      · exact .inl he'
    · cases he'
      exact mem_cons_self
  | @batchFlush z e batch =>
    refine ⟨fun e' he' => .inl he', fun e' he' => ?_, fun e' he' => by cases he'⟩
    cases he'
    rfl
  | _ => simp [State.pending, State.setPhase, State.emit, Phase.batch, Phase.inFlight, *]

theorem Drained.commitStep (h : Drained s) (hs : commitStep cfg s timer = some t) : Drained t := by
  obtain ⟨hpend, hfly, hstore⟩ := commitStep_drain hs
  have hf := (commitStep_frame hs).1
  refine ⟨hstore, fun e he => ?_⟩
  rw [history_congr hf.ops] at he
  rcases h.pushed e he with hp | hp | hp
  · exact (hpend e hp).imp_right .inl
  · refine .inr (.inr ?_)
    rw [Flushed, hfly e hp]
    exact (singleton_sublist.mpr (h.inFlight e hp)).cons_cons _
  · exact .inr (.inr (hp.mono ⟨_, (commitStep_frame hs).2.1.symm⟩))

/-- Steps of the other threads only push. -/
theorem Drained.mono (h : Drained s) (hlog : s.log <:+ t.log) (hcommit : t.commit = s.commit)
    (hpend : ∀ e ∈ s.pending, e ∈ t.pending)
    (hpush : ∀ e : Entry, .push e.id e.loc ∈ history t e.owner →
      .push e.id e.loc ∈ history s e.owner ∨ e ∈ t.pending) : Drained t := by
  refine ⟨fun e he => ?_, fun e he => ?_⟩
  · rw [hcommit] at he
    exact hlog.subset (h.inFlight e he)
  · rcases hpush e he with he | he
    · rw [hcommit]
      rcases h.pushed e he with hp | hp | hp
      · exact .inl (hpend e hp)
      · exact .inr (.inl hp)
      · exact .inr (.inr (hp.mono hlog))
    · exact .inl he

theorem Drained.step (hT : Traced cfg s) (h : Drained s) {a : Act}
    (hs : Soft.step cfg s a = some t) : Drained t := by
  have hlog := step_log_suffix hs
  by_cases ha : ∃ timer, a = .commit timer
  · obtain ⟨timer, rfl⟩ := ha
    exact h.commitStep hs
  obtain ⟨hcommit, -⟩ := step_commit_eq hs fun timer heq => ha ⟨timer, heq⟩
  have hsame : (∀ y, history t y = history s y) → t.queue = s.queue → Drained t := by
    intro hhist hq
    refine h.mono hlog hcommit (fun e he => ?_) fun e he => .inl (by rwa [← hhist])
    rwa [State.pending, hcommit, hq]
  cases step_move hs with
  | start =>
    exact hsame (history_setOp_of_nil rfl (history_of_none (hT.fresh _ (Nat.le_refl _))) (by rintro _ ⟨⟩)) rfl
  | alloc hop hst => exact hsame (history_setOp_of_nil rfl (history_of_searched hop hst) (by rintro _ ⟨⟩)) rfl
  | read hop hst =>
    exact hsame (history_setOp_of_nil rfl (history_of_allocated hop hst) (by rintro _ ⟨⟩; rfl)) rfl
  | @exec y op r i rest u hop hst hrest heff =>
    have hf := effect_frame heff
    have hqueue : ∀ e ∈ s.queue, e ∈ u.queue := by
      intro e he
      rcases effect_queue heff with hq | ⟨id, loc, rfl, hq⟩ <;> rw [hq]
      · exact he
      · exact mem_append_left _ he
    refine h.mono hlog hcommit (fun e he => ?_) fun e he => ?_
    · rw [State.pending, hcommit]
      rw [State.pending] at he
      exact mem_append.mpr ((mem_append.mp he).imp_right (hqueue e))
    · by_cases hz : e.owner = y
      · rw [hz, history_eq (setOp_self ..) rfl] at he
        rcases mem_cons.mp he with rfl | he
        · refine .inr (mem_append_right _ ?_)
          cases heff
          exact mem_append_right _ (by rw [← hz]; exact mem_singleton_self e)
        · exact .inl (by rw [hz, history_eq hop hst]; exact he)
      · rw [history_setOp_of_ne hz, history_congr hf.ops] at he
        exact .inl he
  | commit => exact absurd ⟨_, rfl⟩ ha
  | terminate => exact hsame (fun z => rfl) rfl
  | search hf | reader hf => exact hsame (history_congr hf.ops) hf.queue

end Drained

section Checkpoints

/-- The checkpoint an event stores in the superblock. -/
def checkpointOf : Event Agent Addr Val → Option ℕ
  | .store _ .superblock v => some v.word
  | _ => none

/-- The checkpoints stored so far, newest first. -/
def State.checkpoints (s : State) : List ℕ :=
  s.log.filterMap checkpointOf

open State

/-- What is known of the task in work, and of the checkpoint in work, in each phase. -/
def PhaseFacts (c₀ : ℕ) (s : State) : Phase → Prop
  | .pqStore z code => ∃ op, s.ops z = some op ∧ op.pqCode = code
  | .pqFlush z =>
    ∃ op, s.ops z = some op ∧ .store .commit (.pq z) ⟨op.pqCode, some z⟩ ∈ s.log
  | .pqFence z => ∃ op, s.ops z = some op ∧ Flushed s (.pq z) ⟨op.pqCode, some z⟩
  | .drain z _ => PqDurable s z
  | .batchStore z batch => PqDurable s z ∧ ∀ id loc, .push id loc ∈ history s z →
    ⟨id, loc, z⟩ ∈ batch ∨ Flushed s (.id2loc id) ⟨loc, some z⟩
  | .batchFlush z e batch => PqDurable s z ∧ ∀ id loc, .push id loc ∈ history s z →
    ⟨id, loc, z⟩ ∈ batch ∨ e = ⟨id, loc, z⟩ ∨ Flushed s (.id2loc id) ⟨loc, some z⟩
  | .pushHeap z => PqDurable s z ∧ PushesFlushed s z
  | .ckptStore c _ => s.ckptId ≤ c
  | .superStore c _ => ∀ i, c₀ ≤ i → i < c → PushesDurable s i
  | _ => True

structure Recorded (c₀ : ℕ) (s : State) : Prop where
  facts : PhaseFacts c₀ s s.commit.phase
  taken : ∀ i ∈ s.commit.taken, s.commit.phase.current ≠ some i →
    PqDurable s i ∧ PushesFlushed s i
  covered : ∀ c ∈ s.checkpoints, c ≤ s.ckptId ∧
    ∀ i, c₀ ≤ i → i < c → i ∈ s.commit.taken ∧ PqDurable s i ∧ PushesDurable s i
  sorted : s.checkpoints.Pairwise (· ≥ ·)

theorem Opened.recorded (h : Opened cfg s) : Recorded s.ckptId s where
  facts := by simp [h.commit, PhaseFacts]
  taken i hi := by simp [h.commit] at hi
  covered c hc := by simp [checkpoints, h.log] at hc
  sorted := by simp [checkpoints, h.log]

theorem store_mem_insertCode {y tag : ℕ} {nbrs : List Write} {target : Write} {a : Addr}
    {word : ℕ} (h : .store a word ∈ insertCode cfg y tag nbrs target) : a ≠ .superblock := by
  rintro rfl
  rcases mem_insertCode h with h | h | h | h <;> cases h

/-- Only the commit thread stores checkpoints. -/
theorem step_checkpoints (hT : Traced cfg s) {a : Act} (hs : step cfg s a = some t)
    (ha : ∀ timer, a ≠ .commit timer) : t.checkpoints = s.checkpoints := by
  cases step_move hs with
  | @exec y op r i rest u hop hst hrest heff =>
    have hi := hT.mem_code hop hst (.inr (by rw [hrest]; simp : i ∈ r.rest))
    have hnil : (i.event y).toList.filterMap checkpointOf = [] := by
      cases i with
      | store a word =>
        have := store_mem_insertCode hi
        cases a <;> first | rfl | exact absurd rfl this
      | _ => rfl
    show u.log.filterMap checkpointOf = _
    rw [(effect_frame heff).log, filterMap_append, hnil]
    rfl
  | commit => exact absurd rfl (ha _)
  | search hf | reader hf => rw [checkpoints, hf.log, checkpoints]
  | _ => rfl

variable {c₀ : ℕ} {timer : Bool}

/-- The facts about a phase survive the steps of the other threads. -/
theorem PhaseFacts.mono {p : Phase} (h : PhaseFacts c₀ s p)
    (hkept : ∀ i, p.current = some i → Kept s t i) (hckpt : t.ckptId = s.ckptId)
    (hdone : ∀ c, p.checkpoint = some c → ∀ i, c₀ ≤ i → i < c → Kept s t i) :
    PhaseFacts c₀ t p := by
  cases p with
  | pqStore z code =>
    obtain ⟨op, hop, hcode⟩ := h
    obtain ⟨op', hop', hcode'⟩ := (hkept z rfl).ops op hop
    exact ⟨op', hop', hcode'.trans hcode⟩
  | pqFlush z =>
    obtain ⟨op, hop, hstore⟩ := h
    obtain ⟨op', hop', hcode⟩ := (hkept z rfl).ops op hop
    exact ⟨op', hop', hcode ▸ (hkept z rfl).log.subset hstore⟩
  | pqFence z =>
    obtain ⟨op, hop, hflush⟩ := h
    obtain ⟨op', hop', hcode⟩ := (hkept z rfl).ops op hop
    exact ⟨op', hop', hcode ▸ hflush.mono (hkept z rfl).log⟩
  | drain z batch => exact PqDurable.mono h (hkept z rfl)
  | batchStore z batch =>
    have hk := hkept z rfl
    refine ⟨h.1.mono hk, fun id loc hpush => ?_⟩
    rw [hk.history] at hpush
    exact (h.2 id loc hpush).imp_right fun hf => hf.mono hk.log
  | batchFlush z e batch =>
    have hk := hkept z rfl
    refine ⟨h.1.mono hk, fun id loc hpush => ?_⟩
    rw [hk.history] at hpush
    exact (h.2 id loc hpush).imp_right fun hf => hf.imp_right fun hf => hf.mono hk.log
  | pushHeap z => exact ⟨h.1.mono (hkept z rfl), h.2.mono (hkept z rfl)⟩
  | ckptStore c last =>
    show t.ckptId ≤ c
    rw [hckpt]
    exact h
  | superStore c last =>
    intro i hi hlt
    exact (h i hi hlt).mono (hdone c rfl i hi hlt)
  | _ => trivial

/-- The checkpoint is in the log right after `superStore`. -/
theorem commitStep_checkpoints (h : commitStep cfg s timer = some t)
    (hp : ∀ c last, s.commit.phase ≠ .superStore c last) : t.checkpoints = s.checkpoints := by
  have hnil : s.commit.phase.event.toList.filterMap checkpointOf = [] := by
    cases hphase : s.commit.phase with
    | superStore c last => exact absurd hphase (hp c last)
    | batchStore z batch => cases batch <;> rfl
    | _ => rfl
  rw [checkpoints, (commitStep_frame h).2.1, filterMap_append, hnil]
  rfl

/-- A step after which what was taken is taken, a task that is no longer in work is done, and at most
the current checkpoint is new. -/
theorem Recorded.move (h : Recorded c₀ s) (hkept : ∀ i ∈ s.commit.taken, Kept s t i)
    (hsub : s.commit.taken ⊆ t.commit.taken)
    (htaken : ∀ i ∈ t.commit.taken, t.commit.phase.current ≠ some i → i ∈ s.commit.taken ∧
      (s.commit.phase.current = some i → s.commit.phase = .pushHeap i))
    (hle : s.ckptId ≤ t.ckptId) (hck : t.checkpoints = s.checkpoints ∨
      t.checkpoints = t.ckptId :: s.checkpoints ∧ ∀ i, c₀ ≤ i → i < t.ckptId →
        i ∈ t.commit.taken ∧ PqDurable t i ∧ PushesDurable t i)
    (hfacts : PhaseFacts c₀ t t.commit.phase) : Recorded c₀ t := by
  have hdone : ∀ i ∈ t.commit.taken, t.commit.phase.current ≠ some i →
      PqDurable t i ∧ PushesFlushed t i := by
    intro i hi hne
    obtain ⟨hi', hheap⟩ := htaken i hi hne
    have hs : PqDurable s i ∧ PushesFlushed s i := by
      by_cases hcur : s.commit.phase.current = some i
      · have hF := h.facts
        rw [hheap hcur] at hF
        exact hF
      · exact h.taken i hi' hcur
    exact ⟨hs.1.mono (hkept i hi'), hs.2.mono (hkept i hi')⟩
  have hcovered : ∀ c ∈ s.checkpoints, c ≤ t.ckptId ∧ ∀ i, c₀ ≤ i → i < c →
      i ∈ t.commit.taken ∧ PqDurable t i ∧ PushesDurable t i := by
    intro c hc
    obtain ⟨hc', hcov⟩ := h.covered c hc
    refine ⟨hc'.trans hle, fun i hi hlt => ?_⟩
    obtain ⟨hi', hpq, hpush⟩ := hcov i hi hlt
    exact ⟨hsub hi', hpq.mono (hkept i hi'), hpush.mono (hkept i hi')⟩
  rcases hck with hck | ⟨hck, hnew⟩
  · exact ⟨hfacts, hdone, hck ▸ hcovered, hck ▸ h.sorted⟩
  · refine ⟨hfacts, hdone, ?_, ?_⟩ <;> rw [hck]
    · exact forall_mem_cons.mpr ⟨⟨Nat.le_refl _, hnew⟩, hcovered⟩
    · exact pairwise_cons.mpr ⟨fun c hc => (hcovered c hc).1, h.sorted⟩

/-- The commit thread takes one task at a time, which is done when it goes to the heap. -/
theorem commitStep_taken (hs : commitStep cfg s timer = some t) :
    s.commit.taken ⊆ t.commit.taken ∧
    (∀ i ∈ t.commit.taken, t.commit.phase.current ≠ some i → i ∈ s.commit.taken ∧
      (s.commit.phase.current = some i → s.commit.phase = .pushHeap i)) ∧
    (t.ckptId = s.ckptId ∨ ∃ last, s.commit.phase = .ckptStore t.ckptId last) := by
  obtain ⟨p, hp⟩ : ∃ p, s.commit.phase = p := ⟨_, rfl⟩
  rw [hp]
  cases commitStep_move hs hp with
  | @take z code ts p hts hnext =>
    refine ⟨subset_cons_self _ _, fun i hi hne => ⟨?_, by rintro ⟨⟩⟩, .inl rfl⟩
    have hcur : p.current = some z := by
      rw [hnext]
      split_ifs <;> rfl
    exact (mem_cons.mp hi).resolve_left fun heq => hne (heq ▸ hcur)
  | pushHeap =>
    refine ⟨Subset.refl _, fun i hi _ => ⟨hi, ?_⟩, .inl rfl⟩
    rintro ⟨⟩
    rfl
  | ckptStore => exact ⟨Subset.refl _, fun i hi _ => ⟨hi, by rintro ⟨⟩⟩, .inr ⟨_, rfl⟩⟩
  | _ =>
    -- the task in work, if there is one, stays in work
    refine ⟨Subset.refl _, fun i hi hne => ⟨hi, fun hcur => ?_⟩, .inl rfl⟩
    first
    | exact absurd hcur hne
    | cases hcur

section CommitStep

variable (h : Recorded c₀ s) (hQ : Queued c₀ s) (hkept : ∀ i ∈ s.commit.taken, Kept s t i)
  (hiss : cfg.iss = true) (hlarge : cfg.geo.annLarge = false)

include h hQ hkept hiss hlarge

theorem PhaseFacts.commitStep (hK : Tasked s) (hD : Drained s)
    (hs : commitStep cfg s timer = some t) : PhaseFacts c₀ t t.commit.phase := by
  obtain ⟨p, hp⟩ : ∃ p, s.commit.phase = p := ⟨_, rfl⟩
  have hF := h.facts
  have hC := hQ.contiguous
  have hk : ∀ z, p.current = some z → Kept s t z := fun z hz =>
    hkept z ((hC.mem_taken z).mpr (.inr (.inr (hp ▸ hz))))
  rw [hp] at hF
  cases commitStep_move hs hp with
  | take hts hnext =>
    rw [if_pos (by simp [hiss, hlarge])] at hnext
    subst hnext
    exact hK.code _ _ (by simp [hts])
  | pqStore =>
    obtain ⟨op, hop, rfl⟩ := hF
    exact ⟨op, hop, mem_cons_self⟩
  | pqFlush =>
    obtain ⟨op, hop, hstore⟩ := hF
    exact ⟨op, hop, (singleton_sublist.mpr hstore).cons_cons _⟩
  | pqFence =>
    obtain ⟨op, hop, hflush⟩ := hF
    exact ⟨op, hop, surelyDurable_cons_fence hflush⟩
  | @drained z batch hq =>
    refine ⟨PqDurable.mono hF (hk z rfl), fun id loc hpush => ?_⟩
    -- the queue is empty: what the task's insert pushed is in the batch or flushed
    rcases hD.pushed ⟨id, loc, z⟩ hpush with he | he | he
    · rw [pending, hp, hq, append_nil] at he
      exact .inl he
    · rw [hp] at he
      cases he
    · exact .inr he
  | @drain z => exact PqDurable.mono hF (hk z rfl)
  | @batchDone z =>
    exact ⟨hF.1.mono (hk z rfl), fun id loc hpush => (hF.2 id loc hpush).resolve_left not_mem_nil⟩
  | @batchStore z e batch =>
    refine ⟨hF.1.mono (hk z rfl), fun id loc hpush => ?_⟩
    rcases hF.2 id loc hpush with he | he
    · rcases mem_cons.mp he with he | he
      · exact .inr (.inl he.symm)
      · exact .inl he
    · exact .inr (.inr (he.mono (hk z rfl).log))
  | @batchFlush z e batch =>
    have hstored := hD.inFlight e (by rw [hp]; rfl)
    refine ⟨hF.1.mono (hk z rfl), fun id loc hpush => ?_⟩
    rcases hF.2 id loc hpush with he | rfl | he
    · exact .inl he
    · exact .inr ((singleton_sublist.mpr hstored).cons_cons _)
    · exact .inr (he.mono (hk z rfl).log)
  | process hadv hnext =>
    simp only [base, hp] at hC
    have hle := (advance_spec hC.sorted hC.ge).1
    rw [hadv] at hle
    split_ifs at hnext <;> subst hnext
    · exact hle
    · trivial
  | @ckptFence c last =>
    intro i hi hlt
    -- the fence covers the flushes of every id below the checkpoint
    have hmem := (hC.mem_taken i).mpr (.inl ⟨hi, by
      rw [base, hp, ← hQ.checkpoint c (by rw [hp]; rfl)]
      exact hlt⟩)
    exact (h.taken i hmem (by simp [hp, Phase.current])).2.fence (hkept i hmem) rfl
  | _ => trivial

theorem Recorded.commitStep (hK : Tasked s) (hD : Drained s)
    (hs : commitStep cfg s timer = some t) : Recorded c₀ t := by
  obtain ⟨hsub, htaken, hckpt⟩ := commitStep_taken hs
  refine h.move hkept hsub htaken ?_ ?_ (PhaseFacts.commitStep h hQ hkept hiss hlarge hK hD hs)
  · rcases hckpt with heq | ⟨last, hp⟩
    · exact Nat.le_of_eq heq.symm
    · have hF := h.facts
      rw [hp] at hF
      exact hF
  · by_cases hp : ∃ c last, s.commit.phase = .superStore c last
    · obtain ⟨c, last, hp⟩ := hp
      have hF := h.facts
      have hC := hQ.contiguous
      have hc := hQ.checkpoint c (by rw [hp]; rfl)
      simp only [base, hp] at hF hC
      cases commitStep_move hs hp
      refine .inr ⟨by rw [checkpoints]; exact congrArg (· :: _) hc, fun i hi hlt => ?_⟩
      have hmem := (hC.mem_taken i).mpr (.inl ⟨hi, hlt⟩)
      exact ⟨hmem, (h.taken i hmem (by simp [hp, Phase.current])).1.mono (hkept i hmem),
        (hF i hi (hc ▸ hlt)).mono (hkept i hmem)⟩
    · exact .inl (commitStep_checkpoints hs fun c last heq => hp ⟨c, last, heq⟩)

end CommitStep

theorem Recorded.step (h : Recorded c₀ s) (hT : Traced cfg s) (hK : Tasked s) (hQ : Queued c₀ s)
    (hD : Drained s) (hiss : cfg.iss = true) (hlarge : cfg.geo.annLarge = false) {a : Act}
    (hs : Soft.step cfg s a = some t) : Recorded c₀ t := by
  have hkept : ∀ i ∈ s.commit.taken, Kept s t i := fun i hi =>
    hT.kept hs ((hK.mem_iff i).mp (mem_append_right _ hi))
  by_cases ha : ∃ timer, a = .commit timer
  · obtain ⟨timer, rfl⟩ := ha
    exact h.commitStep hQ hkept hiss hlarge hK hD hs
  have ha' : ∀ timer, a ≠ .commit timer := fun timer heq => ha ⟨timer, heq⟩
  obtain ⟨hcommit, hckpt⟩ := step_commit_eq hs ha'
  refine h.move hkept (by rw [hcommit]; exact Subset.refl _) (fun i hi hne => ?_)
    (Nat.le_of_eq hckpt.symm) (.inl (step_checkpoints hT hs ha')) ?_
  · rw [hcommit] at hi hne
    exact ⟨hi, fun hcur => absurd hcur hne⟩
  rw [hcommit]
  refine h.facts.mono (fun i hi => hkept i ?_) hckpt fun c hc i hi hlt => hkept i ?_
  · exact (hQ.contiguous.mem_taken i).mpr (.inr (.inr hi))
  · have hbase : s.base = s.ckptId := by
      rw [base]
      split
      next hp =>
        rw [hp] at hc
        cases hc
      next => rfl
    refine (hQ.contiguous.mem_taken i).mpr (.inl ⟨hi, ?_⟩)
    rwa [hbase, ← hQ.checkpoint c hc]

end Checkpoints

section Soundness

structure Committed (cfg : Config) (c₀ : ℕ) (s : State) : Prop where
  npts : c₀ = s.npts
  traced : Traced cfg s
  tasked : Tasked s
  queued : Queued c₀ s
  drained : Drained s
  recorded : Recorded c₀ s

theorem Committed.step {c₀ : ℕ} (h : Committed cfg c₀ s) (hiss : cfg.iss = true)
    (hlarge : cfg.geo.annLarge = false) {a : Act} (hs : Soft.step cfg s a = some t) :
    Committed cfg c₀ t where
  npts := by rw [step_npts hs, h.npts]
  traced := h.traced.step hs
  tasked := h.tasked.step h.traced hs
  queued := by
    refine h.queued.step h.tasked (fun z hz => ?_) hiss hs
    obtain ⟨op, r, hop, -, -⟩ := exists_running_of_mem_history hz
    rw [h.npts]
    exact h.traced.inserted z op hop
  drained := h.drained.step h.traced hs
  recorded := h.recorded.step h.traced h.tasked h.queued h.drained hiss hlarge hs

theorem committed_of_run (hiss : cfg.iss = true) (hlarge : cfg.geo.annLarge = false)
    {s₀ : State} (h₀ : Opened cfg s₀) (hck : s₀.ckptId = s₀.curId) {as : List Act}
    (hrun : run (step cfg) s₀ as = some s) : Committed cfg s₀.ckptId s := by
  have hinit : Committed cfg s₀.ckptId s₀ :=
    ⟨by rw [hck, h₀.npts], h₀.traced, h₀.tasked, h₀.queued, h₀.drained, h₀.recorded⟩
  exact run_invariant (fun s a t h hs => h.step hiss hlarge hs) hinit hrun

/-- A complete insert all of whose deferred writes are durable: its PQ code, its own
location entry and every location update it pushed. -/
def Checkpointed (s : State) (id : ℕ) : Prop :=
  ∃ op r, s.ops id = some op ∧ op.stage = .running r ∧ r.rest = [] ∧
    SurelyDurable s.log .commit (.pq id) ⟨op.pqCode, some id⟩ ∧
    SurelyDurable s.log (.insert id) (.id2loc id) ⟨r.target.loc, some id⟩ ∧
    ∀ w ∈ r.nbrs, .push w.id w.loc ∈ r.done ∧
      SurelyDurable s.log .commit (.id2loc w.id) ⟨w.loc, some id⟩

variable {nbrs : List Write} {target : Write}

theorem push_mem_of_fineGrained (hfine : cfg.fineGrained = true) {y tag : ℕ} {w : Write}
    (hw : w ∈ nbrs) : .push w.id w.loc ∈ insertCode cfg y tag nbrs target := by
  have hswitch : .push w.id w.loc ∈ nbrs.flatMap (switchNbr cfg) :=
    mem_flatMap.mpr ⟨w, hw, by simp [switchNbr, hfine]⟩
  simp only [insertCode, switchCode, mem_append]
  exact .inl (.inr (.inl (.inr hswitch)))

theorem commitTask_notMem_publish {y tag : ℕ} :
    Instr.commitTask ∉ fillCode cfg y tag nbrs target ++ publishCode y nbrs target := by
  intro h
  rcases mem_append.mp h with h | h
  · cases mem_fillCode h
  · cases mem_publishCode h

theorem Traced.checkpointed (h : Traced cfg s) (hfine : cfg.fineGrained = true) {i : ℕ}
    (hi : .commitTask ∈ history s i) (hpq : PqDurable s i) (hpush : PushesDurable s i) :
    Checkpointed s i := by
  obtain ⟨op, r, hop, hr, hdone⟩ := exists_running_of_mem_history hi
  obtain ⟨hrest, hcode⟩ := h.complete hop hr hdone
  obtain ⟨op', hop', hpq⟩ := hpq
  rw [hop] at hop'
  cases hop'
  refine ⟨op, r, hop, hr, hrest, hpq, ?_, fun w hw => ?_⟩
  · exact (h.nbrs_durable hop hr hdone commitTask_notMem_publish).1
  · have hmem : .push w.id w.loc ∈ r.done := by
      rw [← mem_reverse, hcode]
      exact push_mem_of_fineGrained hfine hw
    exact ⟨hmem, hpush _ _ (by rwa [history_eq hop hr])⟩

/-- Checkpoints are sound and exact. In every run of inserts, searches and the commit
thread: what the superblock may hold after a crash is its initial content or a stored
checkpoint; below each stored checkpoint every id is that of a complete insert whose
deferred writes are durable; stored checkpoints never decrease; and whenever
`process_commit_queue` returns, `ckpt_id` is the least id not yet taken from
`commit_tasks`. -/
theorem checkpoint_sound_and_exact (cfg : Config) (hfine : cfg.fineGrained = true)
    (hiss : cfg.iss = true) (hlarge : cfg.geo.annLarge = false) (s₀ s : State)
    (h₀ : Opened cfg s₀) (hck : s₀.ckptId = s₀.curId) (as : List Act)
    (hrun : run (step cfg) s₀ as = some s) :
    (∀ v, MayHold s₀.disk s.log .superblock v →
      v = s₀.disk .superblock ∨ v.word ∈ s.checkpoints) ∧
    (∀ c ∈ s.checkpoints, ∀ id, s₀.ckptId ≤ id → id < c → Checkpointed s id) ∧
    s.checkpoints.Pairwise (· ≥ ·) ∧
    ∀ last, s.commit.phase = .processed last →
      IsLeast {id | s₀.ckptId ≤ id ∧ id ∉ s.commit.taken} s.ckptId := by
  have h := committed_of_run hiss hlarge h₀ hck hrun
  refine ⟨fun v hv => ?_, fun c hc id hge hlt => ?_, h.recorded.sorted, fun last hp => ?_⟩
  · rcases hv.init_or_stored with hv | ⟨t, hv⟩
    · exact .inl hv
    · exact .inr (mem_filterMap.mpr ⟨_, hv, rfl⟩)
  · obtain ⟨htaken, hpq, hpush⟩ := (h.recorded.covered c hc).2 id hge hlt
    have hcomplete := (h.tasked.mem_iff id).mp (mem_append_right _ htaken)
    exact h.traced.checkpointed hfine hcomplete hpq hpush
  · have hexact := h.queued.exact (by rw [hp]; trivial)
    have hleast := h.queued.contiguous.isLeast hexact
    simpa only [State.base, hp] using hleast

def storedThree (s : State) : Bool :=
  match s.commit.phase with
  | .processed true => decide (s.checkpoints = [3] ∧ s.ckptId = 3)
  | _ => false

/-- After the insert of id 2 the terminated commit thread has stored checkpoint 3. -/
theorem checkpoint_sound_and_exact_insertOne :
    ∃ s, run (step (twoPointConfig true)) twoPointIndex
        (insertOne ++ replicate 12 (.commit false) ++ [.terminate] ++
          replicate 7 (.commit false)) = some s ∧
      s.checkpoints = [3] ∧ Checkpointed s 2 ∧
      IsLeast {id | 2 ≤ id ∧ id ∉ s.commit.taken} 3 := by
  refine exists_some_imp (P := fun s => storedThree s = true) (by decide +kernel)
    fun s hs hcheck => ?_
  unfold storedThree at hcheck
  split at hcheck
  next hp =>
    obtain ⟨hc, hid⟩ := of_decide_eq_true hcheck
    obtain ⟨-, hsound, -, hexact⟩ := checkpoint_sound_and_exact _ rfl rfl rfl _ _
      (twoPointIndex_opened true) rfl _ hs
    refine ⟨hc, hsound 3 (by rw [hc]; simp) 2 (Nat.le_refl 2) (Nat.lt_succ_self 2), ?_⟩
    rw [← hid]
    exact hexact true hp
  next => cases hcheck

end Soundness

end Ccann.Soft
