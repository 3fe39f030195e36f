import Ccann.Soft.Checkpoint

/-! How far the durable checkpoint lags behind. The commit thread calls `process_commit_queue`
when `n_tasks` is a positive multiple of the interval, so with `n_tasks` counting tasks at most
`commitInterval + 1` of them are taken between two calls. But the same counter is set to zero
whenever the statistics timer has run out; the bound holds as long as that happens only right after
a call. Here the thread runs by itself, and tasks and location updates arrive at any time. -/

namespace Ccann.Soft

open Nodes Layout Locks Persist Concurrent List Function

variable {cfg : Config} {s t : State}

section Thread

inductive CommitAct where
  | arrive (tasks : List Task) (updates : List Entry)
  | commit (timer : Bool)

/-- `insert_commit_thread` and what the other threads hand over to it. -/
def commitThread (cfg : Config) (s : State) : CommitAct → Option State
  | .arrive tasks updates => some { s with tasks := s.tasks ++ tasks, queue := s.queue ++ updates }
  | .commit timer => commitStep cfg s timer

/-- The tasks taken since the last return of `process_commit_queue`, after a step of the thread. -/
def lagAfter (s : State) (k : ℕ) : ℕ :=
  match s.commit.phase with
  | .idle => k + 1
  | .processed _ => 0
  | _ => k

def CommitAct.lag (s : State) (k : ℕ) : CommitAct → ℕ
  | .arrive _ _ => k
  | .commit _ => lagAfter s k

/-- The same count over a run. -/
def tasksSince (cfg : Config) : State → ℕ → List CommitAct → ℕ
  | _, k, [] => k
  | s, k, a :: as => (commitThread cfg s a).elim k fun t => tasksSince cfg t (a.lag s k) as

/-- `process_commit_queue` is called in the iteration that finds this `n_tasks`. -/
def Due (n : ℕ) : Prop :=
  n ≠ 0 ∧ n % commitInterval = 0

instance (n : ℕ) : Decidable (Due n) :=
  inferInstanceAs (Decidable (_ ∧ _))

/-- The timer runs out only in iterations that have called `process_commit_queue`. -/
def InTime (s : State) : CommitAct → Prop
  | .commit true => s.commit.phase = .endTask → Due s.commit.nTasks
  | _ => True

/-- Tasks are taken in the order of their ids, from `c₀` on. -/
def InOrder (c₀ : ℕ) (s : State) : CommitAct → Prop
  | .commit _ => s.commit.phase = .idle →
    ∀ z code, s.tasks.head? = some (.commit z code) → z = c₀ + s.commit.taken.length
  | _ => True

end Thread

/-- An invariant of the thread and the count. -/
theorem tasksSince_invariant {I : State → ℕ → Prop} {C : State → CommitAct → Prop}
    (hstep : ∀ s k a t, I s k → C s a → commitThread cfg s a = some t → I t (a.lag s k)) {k : ℕ}
    {as : List CommitAct} (hs : I s k) (hC : Meets (commitThread cfg) C s as)
    (hrun : run (commitThread cfg) s as = some t) : I t (tasksSince cfg s k as) := by
  induction as generalizing s k with
  | nil =>
    cases hrun
    exact hs
  | cons a as ih =>
    obtain ⟨u, hu, hrun⟩ := run_cons_eq_some.mp hrun
    rw [tasksSince, hu]
    exact ih (hstep s k a u hs hC.1 hu) (hC.2 u hu) hrun

section Embedding

/-- The two states agree in what the commit thread reads. -/
structure SameThread (s u : State) : Prop where
  commit : u.commit = s.commit
  ckptId : u.ckptId = s.ckptId
  tasks : u.tasks = s.tasks
  queue : u.queue = s.queue

variable {u : State}

theorem SameThread.commitStep {timer : Bool} (h : SameThread s u)
    (hs : commitStep cfg s timer = some t) :
    ∃ w, Soft.commitStep cfg u timer = some w ∧ SameThread t w := by
  obtain ⟨disk, npts, alloc, id2loc, curId, ckptId, log, queue, tasks, ops, commit, readers, keys, idx⟩ := u
  obtain ⟨rfl, rfl, rfl, rfl⟩ := h
  simp only [Soft.commitStep] at hs ⊢
  cases hp : s.commit.phase with
  | idle =>
    simp only [hp] at hs ⊢
    split at hs <;> cases hs <;> exact ⟨_, rfl, rfl, rfl, rfl, rfl⟩
  | drain z batch =>
    simp only [hp] at hs ⊢
    split at hs <;> cases hs <;> exact ⟨_, rfl, rfl, rfl, rfl, rfl⟩
  | batchStore z batch =>
    cases batch <;> simp only [hp] at hs ⊢ <;> cases hs <;> exact ⟨_, rfl, rfl, rfl, rfl, rfl⟩
  | processed last =>
    cases last with
    | false =>
      simp only [hp] at hs ⊢
      cases hs
      exact ⟨_, rfl, rfl, rfl, rfl, rfl⟩
    | true =>
      simp only [hp] at hs ⊢
      split_ifs at hs ⊢
      cases hs
      exact ⟨_, rfl, rfl, rfl, rfl, rfl⟩
  | stopped =>
    simp only [hp] at hs
    cases hs
  | _ =>
    simp only [hp] at hs ⊢
    cases hs
    exact ⟨_, rfl, rfl, rfl, rfl, rfl⟩

/-- The other threads hand over tasks and updates, and leave the thread alone. -/
theorem step_arrives {a : Act} (hs : step cfg s a = some t) (ha : ∀ timer, a ≠ .commit timer) :
    ∃ tasks updates, t.tasks = s.tasks ++ tasks ∧ t.queue = s.queue ++ updates := by
  cases step_move hs with
  | @exec y op r i rest u hop hst hrest heff =>
    obtain ⟨tasks, htasks⟩ : ∃ tasks, u.tasks = s.tasks ++ tasks := by
      rcases effect_tasks heff with ⟨-, h⟩ | ⟨-, h⟩
      · exact ⟨[], h.trans (append_nil _).symm⟩
      · exact ⟨_, h⟩
    obtain ⟨updates, hqueue⟩ : ∃ updates, u.queue = s.queue ++ updates := by
      rcases effect_queue heff with h | ⟨id, loc, -, h⟩
      · exact ⟨[], h.trans (append_nil _).symm⟩
      · exact ⟨_, h⟩
    exact ⟨tasks, updates, htasks, hqueue⟩
  | commit => exact absurd rfl (ha _)
  | terminate => exact ⟨[.terminate], [], rfl, (append_nil _).symm⟩
  | search hf | reader hf =>
    exact ⟨[], [], hf.tasks.trans (append_nil _).symm, hf.queue.trans (append_nil _).symm⟩
  | _ => exact ⟨[], [], (append_nil _).symm, (append_nil _).symm⟩

/-- In every run of all threads, the commit thread does what it does by itself with some arrivals. -/
theorem exists_commitThread_run {as : List Act} (h : SameThread s u)
    (hrun : run (step cfg) s as = some t) :
    ∃ bs w, run (commitThread cfg) u bs = some w ∧ SameThread t w := by
  induction as generalizing s u with
  | nil =>
    cases hrun
    exact ⟨[], u, rfl, h⟩
  | cons a as ih =>
    obtain ⟨v, hv, hrest⟩ := run_cons_eq_some.mp hrun
    by_cases ha : ∃ timer, a = .commit timer
    · obtain ⟨timer, rfl⟩ := ha
      obtain ⟨w, hw, hsame⟩ := h.commitStep hv
      obtain ⟨bs, x, hbs, hx⟩ := ih hsame hrest
      exact ⟨.commit timer :: bs, x, run_cons_eq_some.mpr ⟨w, hw, hbs⟩, hx⟩
    · have hne : ∀ timer, a ≠ .commit timer := fun timer heq => ha ⟨timer, heq⟩
      obtain ⟨hcommit, hckpt⟩ := step_commit_eq hv hne
      obtain ⟨tasks, updates, htasks, hqueue⟩ := step_arrives hv hne
      obtain ⟨bs, x, hbs, hx⟩ := ih
        (u := { u with tasks := u.tasks ++ tasks, queue := u.queue ++ updates })
        ⟨h.commit.trans hcommit.symm, h.ckptId.trans hckpt.symm, by rw [htasks, h.tasks],
          by rw [hqueue, h.queue]⟩ hrest
      exact ⟨.arrive tasks updates :: bs, x, run_cons_eq_some.mpr ⟨_, rfl, hbs⟩, hx⟩

theorem exists_commitThread_run_insertOne :
    ∃ t, run (step (twoPointConfig true)) twoPointIndex insertOne = some t ∧
      ∃ bs w, run (commitThread (twoPointConfig true)) twoPointIndex bs = some w ∧
        SameThread t w := by
  have hrun : (run (step (twoPointConfig true)) twoPointIndex insertOne).isSome = true := by
    decide +kernel
  obtain ⟨t, ht⟩ := Option.isSome_iff_exists.mp hrun
  exact ⟨t, ht, exists_commitThread_run ⟨rfl, rfl, rfl, rfl⟩ ht⟩

end Embedding

section Count

/-- The tasks taken since the last call when `n_tasks` is `n` and the thread is idle. -/
def idleLag (n : ℕ) : ℕ :=
  if n ≤ commitInterval then n else (n - 1) % commitInterval

theorem idleLag_le (n : ℕ) : idleLag n ≤ commitInterval := by
  unfold idleLag commitInterval
  split_ifs <;> omega

variable {n k : ℕ}

theorem idleLag_succ_of_due (h : Due n) : idleLag (n + 1) = 0 := by
  unfold Due commitInterval at h
  unfold idleLag commitInterval
  split_ifs <;> omega

theorem idleLag_succ (h : ¬Due n) : idleLag (n + 1) = idleLag n + 1 := by
  unfold Due commitInterval at h
  unfold idleLag commitInterval
  split_ifs <;> omega

/-- The count in each phase, with `n` for `n_tasks`. -/
def Phase.Lags (n k : ℕ) : Phase → Prop
  | .idle => k = idleLag n
  | .process last => k = idleLag n + 1 ∧ (last = false → Due n)
  | .ckptStore _ last => k = idleLag n + 1 ∧ (last = false → Due n)
  | .ckptFence _ last => k = idleLag n + 1 ∧ (last = false → Due n)
  | .superStore _ last => k = idleLag n + 1 ∧ (last = false → Due n)
  | .superFlush last => k = idleLag n + 1 ∧ (last = false → Due n)
  | .superFence last => k = idleLag n + 1 ∧ (last = false → Due n)
  | .processed last => k = idleLag n + 1 ∧ (last = false → Due n)
  | .endTask => if Due n then k = 0 else k = idleLag n + 1
  | .stopped => k = 0
  | _ => k = idleLag n + 1

theorem Phase.Lags.le {p : Phase} (h : p.Lags n k) : k ≤ commitInterval + 1 := by
  have hle := idleLag_le n
  cases p with
  | endTask =>
    unfold Phase.Lags at h
    split_ifs at h <;> omega
  | process last => exact h.1 ▸ Nat.succ_le_succ hle
  | ckptStore c last => exact h.1 ▸ Nat.succ_le_succ hle
  | ckptFence c last => exact h.1 ▸ Nat.succ_le_succ hle
  | superStore c last => exact h.1 ▸ Nat.succ_le_succ hle
  | superFlush last => exact h.1 ▸ Nat.succ_le_succ hle
  | superFence last => exact h.1 ▸ Nat.succ_le_succ hle
  | processed last => exact h.1 ▸ Nat.succ_le_succ hle
  | idle => exact (Nat.le_of_eq h).trans (Nat.le_succ_of_le hle)
  | stopped => exact (Nat.le_of_eq h).trans (Nat.zero_le _)
  | _ => exact (Nat.le_of_eq h).trans (Nat.succ_le_succ hle)

theorem Phase.Lags.commitStep {timer : Bool} (h : s.commit.phase.Lags s.commit.nTasks k)
    (htime : InTime s (.commit timer)) (hs : commitStep cfg s timer = some t) :
    t.commit.phase.Lags t.commit.nTasks (lagAfter s k) := by
  obtain ⟨p, hp⟩ : ∃ p, s.commit.phase = p := ⟨_, rfl⟩
  rw [hp] at h
  simp only [lagAfter, hp]
  cases commitStep_move hs hp with
  | terminate => exact ⟨congrArg (· + 1) h, nofun⟩
  | take _ hnext =>
    rw [hnext]
    have hk : k + 1 = idleLag s.commit.nTasks + 1 := congrArg (· + 1) h
    split_ifs <;> exact hk
  | due hdue => exact ⟨h, fun _ => hdue⟩
  | notDue hdue => exact (if_neg hdue).mpr h
  | process _ hnext =>
    rw [hnext]
    split_ifs <;> exact h
  | processed => exact (if_pos (h.2 rfl)).mpr rfl
  | stop => rfl
  | endTask hn =>
    rw [hn]
    cases timer with
    | true => exact (if_pos (htime hp)).mp h
    | false =>
      show k = idleLag (s.commit.nTasks + 1)
      by_cases hdue : Due s.commit.nTasks
      · rw [idleLag_succ_of_due hdue]
        exact (if_pos hdue).mp h
      · rw [idleLag_succ hdue]
        exact (if_neg hdue).mp h
  | _ => exact h

end Count

section Order

/-- In order the heap is the run of ids that starts at the checkpoint. -/
theorem advance_range' (c m : ℕ) : advance c (range' c m) = (c + m, []) := by
  induction m generalizing c with
  | zero => rfl
  | succ m ih =>
    rw [range'_succ, advance, if_pos rfl, ih, Nat.add_assoc, Nat.add_comm 1]

theorem orderedInsert_range' (c m : ℕ) :
    (range' c m).orderedInsert (· ≤ ·) (c + m) = range' c (m + 1) := by
  induction m generalizing c with
  | zero => rfl
  | succ m ih =>
    rw [range'_succ, orderedInsert_cons, if_neg (by omega), range'_succ]
    have hnext := ih (c + 1)
    rw [Nat.add_assoc, Nat.add_comm 1] at hnext
    rw [hnext]

/-- What is known of the superblock in each phase. -/
def Phase.Super (s : State) : Phase → Prop
  | .ckptFence c _ => c = s.ckptId
  | .superStore c _ => c = s.ckptId
  | .superFlush _ => Latest s.log .superblock ⟨s.ckptId, none⟩
  | .superFence _ => Written s.log .commit .superblock ⟨s.ckptId, none⟩
  | _ => ∀ v, MayHold s.disk s.log .superblock v → s.ckptId ≤ v.word

/-- The thread when tasks come in the order of their ids, with `k` of them taken since the last
call. -/
structure Behind (c₀ : ℕ) (s : State) (k : ℕ) : Prop where
  heap : s.commit.heap = range' s.base s.commit.heap.length
  current : ∀ z, s.commit.phase.current = some z → z = s.base + s.commit.heap.length
  taken : c₀ + s.commit.taken.length =
    s.base + s.commit.heap.length + s.commit.phase.current.toList.length
  nodup : s.commit.taken.Nodup
  lt : ∀ i ∈ s.commit.taken, i < c₀ + s.commit.taken.length
  advanced : s.commit.phase.Advanced → s.commit.heap = []
  super : s.commit.phase.Super s
  bound : ∀ v, MayHold s.disk s.log .superblock v → c₀ + s.commit.taken.length ≤ v.word + k

theorem behind_start (hcommit : s.commit = {}) (hlog : s.log = [])
    (hsuper : (s.disk .superblock).word = s.ckptId) : Behind s.ckptId s 0 := by
  have hhold : ∀ v, MayHold s.disk s.log .superblock v → s.ckptId ≤ v.word := by
    intro v hv
    rcases hv.init_or_stored with rfl | ⟨u, hu⟩
    · exact hsuper.ge
    · rw [hlog] at hu
      cases hu
  have hbase : s.base = s.ckptId := by rw [State.base, hcommit]
  constructor
  case heap => rw [hcommit]; rfl
  case current => simp [hcommit, Phase.current]
  case taken => rw [hbase, hcommit]; rfl
  case nodup => rw [hcommit]; exact nodup_nil
  case lt => simp [hcommit]
  case advanced => simp [hcommit]
  case super => rw [hcommit]; exact hhold
  case bound => rw [hcommit]; exact hhold

variable {c₀ k z : ℕ} {timer : Bool}

/-- Steps of the thread that neither take a task nor touch the heap, the checkpoint or the
superblock. -/
theorem Behind.move {k' : ℕ} (h : Behind c₀ s k) (hheap : t.commit.heap = s.commit.heap)
    (htaken : t.commit.taken = s.commit.taken) (hbase : t.base = s.base)
    (hcurrent : t.commit.phase.current = s.commit.phase.current)
    (hadvanced : t.commit.phase.Advanced → s.commit.phase.Advanced)
    (hsuper : t.commit.phase.Super t)
    (hbound : ∀ v, MayHold t.disk t.log .superblock v → c₀ + s.commit.taken.length ≤ v.word + k') :
    Behind c₀ t k' where
  heap := by rw [hheap, hbase]; exact h.heap
  current z hz := by rw [hheap, hbase]; exact h.current z (hcurrent ▸ hz)
  taken := by rw [htaken, hheap, hbase, hcurrent]; exact h.taken
  nodup := by rw [htaken]; exact h.nodup
  lt := by rw [htaken]; exact h.lt
  advanced ha := by rw [hheap]; exact h.advanced (hadvanced ha)
  super := hsuper
  bound := by rw [htaken]; exact hbound

/-- The other steps of the thread only narrow what the superblock may hold. -/
theorem mayHold_commitStep (hs : commitStep cfg s timer = some t)
    (hp : ∀ c last, s.commit.phase ≠ .superStore c last) {v : Val}
    (hv : MayHold t.disk t.log .superblock v) : MayHold s.disk s.log .superblock v := by
  obtain ⟨hframe, hlog, -⟩ := commitStep_frame hs
  have hck := commitStep_checkpoints hs hp
  rw [hframe.disk, hlog] at hv
  rw [State.checkpoints, hlog, filterMap_append] at hck
  cases he : s.commit.phase.event with
  | none =>
    rw [he] at hv
    exact hv
  | some e =>
    rw [he] at hv hck
    rcases MayHold.of_cons hv with ⟨u, rfl⟩ | hv
    · have hlen := congrArg length hck
      simp [checkpointOf, State.checkpoints] at hlen
    · exact hv

/-- The thread takes the task of the next id. -/
theorem Behind.take (h : Behind c₀ s k) (hidle : s.commit.phase = .idle)
    (hz : z = c₀ + s.commit.taken.length) (htaken : t.commit.taken = z :: s.commit.taken)
    (hheap : t.commit.heap = s.commit.heap) (hbase : t.base = s.base)
    (hcurrent : t.commit.phase.current = some z) (hadvanced : ¬t.commit.phase.Advanced)
    (hsuper : t.commit.phase.Super t) (hdisk : t.disk = s.disk) (hlog : t.log = s.log) :
    Behind c₀ t (k + 1) := by
  have hlen := h.taken
  rw [hidle] at hlen
  have hsum : c₀ + s.commit.taken.length = s.base + s.commit.heap.length := hlen
  refine ⟨?_, fun z' hz' => ?_, ?_, ?_, fun i hi => ?_, fun ha => absurd ha hadvanced, hsuper, fun v hv => ?_⟩
  · rw [hheap, hbase]
    exact h.heap
  · rw [hcurrent] at hz'
    cases hz'
    rw [hheap, hbase, hz, hsum]
  · rw [htaken, hheap, hbase, hcurrent, length_cons]
    show _ = _ + 1
    omega
  · rw [htaken, nodup_cons]
    exact ⟨fun hmem => absurd (h.lt z hmem) (by omega), h.nodup⟩
  · rw [htaken, length_cons]
    rw [htaken] at hi
    rcases mem_cons.mp hi with rfl | hi
    · omega
    · have hlt := h.lt i hi
      omega
  · rw [hdisk, hlog] at hv
    have hle := h.bound v hv
    rw [htaken, length_cons]
    omega

theorem super_of_not_advanced {p : Phase} (h : ¬p.Advanced) :
    p.Super s ↔ ∀ v, MayHold s.disk s.log .superblock v → s.ckptId ≤ v.word := by
  cases p <;> first | exact Iff.rfl | exact absurd trivial h

theorem base_of_not_advanced (h : ¬s.commit.phase.Advanced) : s.base = s.ckptId := by
  unfold State.base
  split
  next hp =>
    rw [hp] at h
    exact absurd trivial h
  next => rfl

/-- The steps outside of `process_commit_queue` that leave the heap and the ids alone. -/
theorem Behind.still (h : Behind c₀ s k) (hs : Soft.commitStep cfg s timer = some t)
    (hnot : ¬s.commit.phase.Advanced) (hnot' : ¬t.commit.phase.Advanced)
    (hheap : t.commit.heap = s.commit.heap) (htaken : t.commit.taken = s.commit.taken)
    (hckpt : t.ckptId = s.ckptId) (hcurrent : t.commit.phase.current = s.commit.phase.current) :
    Behind c₀ t k := by
  have hne : ∀ c last, s.commit.phase ≠ .superStore c last := by
    intro c last heq
    rw [heq] at hnot
    exact hnot trivial
  have hsuper := (super_of_not_advanced hnot).mp h.super
  refine h.move hheap htaken ?_ hcurrent (fun ha => absurd ha hnot')
    ((super_of_not_advanced hnot').mpr fun v hv => ?_) fun v hv => h.bound v (mayHold_commitStep hs hne hv)
  · rw [base_of_not_advanced hnot, base_of_not_advanced hnot', hckpt]
  · rw [hckpt]
    exact hsuper v (mayHold_commitStep hs hne hv)

/-- All taken ids are below the checkpoint once the heap is consumed. -/
theorem Behind.all_below (h : Behind c₀ s k) (ha : s.commit.phase.Advanced) :
    c₀ + s.commit.taken.length = s.base := by
  have hcurrent : s.commit.phase.current = none := by
    cases hp : s.commit.phase <;> first | rfl | (rw [hp] at ha; exact ha.elim)
  have htaken := h.taken
  rw [h.advanced ha, hcurrent] at htaken
  exact htaken

theorem Behind.pushHeap (h : Behind c₀ s k) (hp : s.commit.phase = .pushHeap z) :
    Behind c₀ ({ s with commit := { s.commit with
      heap := s.commit.heap.orderedInsert (· ≤ ·) z } }.setPhase .interval) k := by
  have hz := h.current z (by rw [hp]; rfl)
  have hheap : s.commit.heap.orderedInsert (· ≤ ·) z =
      range' s.base (s.commit.heap.length + 1) := by
    rw [hz, ← orderedInsert_range', ← h.heap]
  have hbase : s.base = s.ckptId := base_of_not_advanced (by rw [hp]; exact id)
  have htaken := h.taken
  rw [hp, hbase] at htaken
  have hsuper := h.super
  rw [hp] at hsuper
  rw [hheap]
  refine ⟨?_, nofun, ?_, h.nodup, h.lt, nofun, hsuper, h.bound⟩
  · show range' s.base _ = range' s.ckptId (range' _ _).length
    rw [length_range', hbase]
  · show c₀ + s.commit.taken.length = s.ckptId + (range' _ _).length + 0
    rw [length_range']
    exact htaken

theorem Behind.commitStep (h : Behind c₀ s k) (hiss : cfg.iss = true)
    (horder : InOrder c₀ s (.commit timer)) (hs : commitStep cfg s timer = some t) :
    Behind c₀ t (lagAfter s k) := by
  obtain ⟨p, hp⟩ : ∃ p, s.commit.phase = p := ⟨_, rfl⟩
  have hbound : (∀ c last, p ≠ .superStore c last) → ∀ v,
      MayHold t.disk t.log .superblock v → c₀ + s.commit.taken.length ≤ v.word + k :=
    fun hne v hv => h.bound v (mayHold_commitStep hs (hp ▸ hne) hv)
  have hall : p.Advanced → c₀ + s.commit.taken.length = s.base := fun ha => h.all_below (hp ▸ ha)
  have hsuper := h.super
  have hbase : s.base = (s.setPhase p).base := by rw [← hp]; rfl
  simp only [lagAfter, hp] at hsuper ⊢
  cases commitStep_move hs hp with
  | terminate =>
    exact h.move rfl rfl hbase.symm (by rw [hp]; rfl) nofun hsuper
      fun v hv => Nat.le_succ_of_le (h.bound v hv)
  | take hts hnext =>
    have hz := horder hp _ _ (by rw [hts]; rfl)
    split_ifs at hnext <;> subst hnext <;>
      exact h.take hp hz rfl rfl hbase.symm rfl nofun hsuper rfl rfl
  | pushHeap => exact h.pushHeap hp
  | process hadv hnext =>
    have hbase : s.base = s.ckptId := hbase
    have hadvance : advance s.ckptId s.commit.heap = (s.ckptId + s.commit.heap.length, []) := by
      rw [h.heap, hbase, advance_range', length_range']
    have htaken := h.taken
    rw [hp, hbase] at htaken
    cases hadvance.symm.trans hadv
    simp only [hiss, Bool.true_and, decide_eq_true_iff] at hnext
    split_ifs at hnext with hmoved <;> subst hnext
    · exact ⟨rfl, nofun, htaken, h.nodup, h.lt, fun _ => rfl, hsuper, h.bound⟩
    · refine ⟨rfl, nofun, ?_, h.nodup, h.lt, fun _ => rfl, hsuper, h.bound⟩
      show c₀ + s.commit.taken.length = s.ckptId + 0 + 0
      rw [not_not] at hmoved
      rw [htaken, hmoved]
      rfl
  | ckptStore =>
    exact h.move rfl rfl hbase.symm (by rw [hp]; rfl) (fun _ => by rw [hp]; trivial) rfl h.bound
  | ckptFence =>
    exact h.move rfl rfl hbase.symm (by rw [hp]; rfl) (fun _ => by rw [hp]; trivial) hsuper
      (hbound (by simp))
  | @superStore c last =>
    have hall := (hall trivial).trans hbase
    have hc : c = s.ckptId := hsuper
    refine h.move rfl rfl hbase.symm (by rw [hp]; rfl) (fun _ => by rw [hp]; trivial) ?_ fun v hv => ?_
    · rw [hc]
      exact latest_store _ _ _ _
    · rcases MayHold.of_cons hv with ⟨u, heq⟩ | hv
      · cases heq
        show _ ≤ c + k
        rw [hc]
        exact (Nat.le_of_eq hall).trans (Nat.le_add_right _ _)
      · exact h.bound v hv
  | superFlush =>
    exact h.move rfl rfl hbase.symm (by rw [hp]; rfl) (fun _ => by rw [hp]; trivial)
      (Latest.flush hsuper _) (hbound (by simp))
  | superFence =>
    refine h.move rfl rfl hbase.symm (by rw [hp]; rfl) (fun _ => by rw [hp]; trivial)
      (fun v hv => ?_) (hbound (by simp))
    rw [(Written.fence hsuper).settled v hv]
    exact Nat.le_refl _
  | processed | stop =>
    refine h.move rfl rfl hbase.symm (by rw [hp]; rfl) nofun hsuper fun v hv => ?_
    rw [hall trivial, hbase]
    exact hsuper v hv
  | _ => exact h.still hs (by rw [hp]; exact id) id rfl rfl rfl (by rw [hp]; rfl)

/-- The taken ids that a crash leaves at or above a durable checkpoint. -/
theorem Behind.length_filter_le (h : Behind c₀ s k) {v : Val}
    (hv : MayHold s.disk s.log .superblock v) :
    (s.commit.taken.filter fun i => decide (v.word ≤ i)).length ≤ k := by
  have hsub : (s.commit.taken.filter fun i => decide (v.word ≤ i)) ⊆ range' v.word k := by
    intro i hi
    obtain ⟨hi, hle⟩ := mem_filter.mp hi
    have hlt := h.lt i hi
    have hbound := h.bound v hv
    have hle := of_decide_eq_true hle
    exact mem_range'_1.mpr ⟨hle, by omega⟩
  have hlen := (subperm_of_subset (h.nodup.filter _) hsub).length_le
  rwa [length_range'] at hlen

end Order

/-- If the timer runs out only right after a call of `process_commit_queue`, at most
`commitInterval + 1` tasks are taken between two calls; and if the tasks come in the order of their
ids, no crash leaves more than that many taken ids at or above the checkpoint in the superblock. -/
theorem checkpoint_lag_le (cfg : Config) (s₀ s : State) (hstart : s₀.commit = {}) (as : List CommitAct)
    (htime : Meets (commitThread cfg) InTime s₀ as) (hrun : run (commitThread cfg) s₀ as = some s) :
    tasksSince cfg s₀ 0 as ≤ commitInterval + 1 ∧
    (cfg.iss = true → s₀.log = [] → (s₀.disk .superblock).word = s₀.ckptId →
      Meets (commitThread cfg) (InOrder s₀.ckptId) s₀ as → ∀ image, CrashImage s.disk s.log image →
        (s.commit.taken.filter fun i => decide ((image .superblock).word ≤ i)).length ≤
          commitInterval + 1) := by
  have hlags : s.commit.phase.Lags s.commit.nTasks (tasksSince cfg s₀ 0 as) := by
    refine tasksSince_invariant (I := fun s k => s.commit.phase.Lags s.commit.nTasks k)
      (fun s k a t hs htime hstep => ?_) ?_ htime hrun
    · cases a with
      | arrive tasks updates =>
        cases hstep
        exact hs
      | commit timer => exact hs.commitStep htime hstep
    · show s₀.commit.phase.Lags s₀.commit.nTasks 0
      rw [hstart]
      rfl
  refine ⟨hlags.le, fun hiss hlog hsuper horder image himage => ?_⟩
  have hbehind : Behind s₀.ckptId s (tasksSince cfg s₀ 0 as) := by
    refine tasksSince_invariant (fun s k a t hs horder hstep => ?_) (behind_start hstart hlog hsuper)
      horder hrun
    cases a with
    | arrive tasks updates =>
      cases hstep
      exact ⟨hs.heap, hs.current, hs.taken, hs.nodup, hs.lt, hs.advanced, hs.super, hs.bound⟩
    | commit timer => exact hs.commitStep hiss horder hstep
  exact (hbehind.length_filter_le (himage .superblock)).trans hlags.le

section Timer

instance (s : State) : (a : CommitAct) → Decidable (InTime s a)
  | .arrive _ _ => isTrue trivial
  | .commit false => isTrue trivial
  | .commit true =>
    match hp : s.commit.phase with
    | .endTask => decidable_of_iff (Due s.commit.nTasks) (by simp [InTime, hp])
    | .idle | .pqStore .. | .pqFlush _ | .pqFence _ | .drain .. | .batchStore .. | .batchFlush ..
    | .pushHeap _ | .interval | .process _ | .ckptStore .. | .ckptFence .. | .superStore ..
    | .superFlush _ | .superFence _ | .processed _ | .stopped => isTrue (by simp [InTime, hp])

/-- The index of two points, with its number of points in the superblock. -/
def checkpointed : State :=
  { twoPointIndex with disk := update twoPointIndex.disk .superblock ⟨2, none⟩ }

def twoTasks : List CommitAct :=
  .arrive [.commit 2 5, .commit 3 6, .terminate] [] :: replicate 26 (.commit false)

theorem checkpoint_lag_le_two_tasks :
    ∃ s, run (commitThread (twoPointConfig true)) checkpointed twoTasks = some s ∧
      s.commit.taken = [3, 2] ∧
      tasksSince (twoPointConfig true) checkpointed 0 twoTasks ≤ commitInterval + 1 := by
  refine exists_some_imp (P := fun s => s.commit.taken = [3, 2]) (by decide +kernel)
    fun s hs htaken => ⟨htaken, ?_⟩
  exact (checkpoint_lag_le (twoPointConfig true) checkpointed s rfl twoTasks (by decide +kernel) hs).1

def betweenTasks (tasks : List Task) (log : Log Agent Addr Val) (heap taken : List ℕ) : State :=
  { checkpointed with tasks := tasks, log := log, commit := ⟨.idle, heap, 0, taken⟩ }

/-- A task that takes longer than the timer leaves `n_tasks` at zero. -/
theorem run_slow_task (z code k : ℕ) (tasks : List Task) (log : Log Agent Addr Val) (heap taken : List ℕ) :
    run (commitThread (twoPointConfig true)) (betweenTasks (.commit z code :: tasks) log heap taken)
        (replicate 9 (.commit true)) =
      some (betweenTasks tasks
        (.fence .commit :: .flush .commit (.pq z) :: .store .commit (.pq z) ⟨code, some z⟩ :: log)
        (heap.orderedInsert (· ≤ ·) z) (z :: taken)) ∧
    tasksSince (twoPointConfig true) (betweenTasks (.commit z code :: tasks) log heap taken) k
      (replicate 9 (.commit true)) = k + 1 :=
  ⟨rfl, rfl⟩

theorem tasksSince_append {k : ℕ} {as bs : List CommitAct} (hrun : run (commitThread cfg) s as = some t) :
    tasksSince cfg s k (as ++ bs) = tasksSince cfg t (tasksSince cfg s k as) bs := by
  induction as generalizing s k with
  | nil =>
    cases hrun
    rfl
  | cons a as ih =>
    obtain ⟨u, hu, hrun⟩ := run_cons_eq_some.mp hrun
    rw [cons_append, tasksSince, tasksSince, hu]
    exact ih hrun

theorem run_slow_tasks (zs : List ℕ) (k : ℕ) (log : Log Agent Addr Val) (heap taken : List ℕ)
    (hlog : ∀ e ∈ log, ¬e.StoresTo .superblock) :
    ∃ log' heap', run (commitThread (twoPointConfig true))
        (betweenTasks (zs.map fun z => .commit z 0) log heap taken)
        (replicate (9 * zs.length) (.commit true)) =
          some (betweenTasks [] log' heap' (zs.reverse ++ taken)) ∧
      tasksSince (twoPointConfig true) (betweenTasks (zs.map fun z => .commit z 0) log heap taken) k
        (replicate (9 * zs.length) (.commit true)) = k + zs.length ∧
      ∀ e ∈ log', ¬e.StoresTo .superblock := by
  induction zs generalizing k log heap taken with
  | nil => exact ⟨log, heap, rfl, rfl, hlog⟩
  | cons z zs ih =>
    obtain ⟨hfirst, hcount⟩ := run_slow_task z 0 k (zs.map fun z => .commit z 0) log heap taken
    obtain ⟨log', heap', hrest, hrestCount, hlog'⟩ := ih (k + 1)
      (.fence .commit :: .flush .commit (.pq z) :: .store .commit (.pq z) ⟨0, some z⟩ :: log)
      (heap.orderedInsert (· ≤ ·) z) (z :: taken) (by
        intro e he
        rcases mem_cons.mp he with rfl | he
        · exact not_storesTo_fence _
        rcases mem_cons.mp he with rfl | he
        · exact not_storesTo_flush _ _
        rcases mem_cons.mp he with rfl | he
        · exact not_storesTo_store nofun
        · exact hlog e he)
    have hsplit : replicate (9 * (z :: zs).length) (CommitAct.commit true) =
        replicate 9 (.commit true) ++ replicate (9 * zs.length) (.commit true) := by
      rw [replicate_append_replicate, length_cons]
      congr 1
      omega
    refine ⟨log', heap', ?_, ?_, hlog'⟩
    · rw [hsplit, run_append, map_cons, hfirst, Option.bind_some, hrest, reverse_cons,
        append_assoc]
      rfl
    · rw [hsplit, map_cons, tasksSince_append hfirst, hcount, hrestCount, length_cons]
      omega

/-- With tasks so slow that the timer runs out in each iteration, all of them are taken and no
checkpoint is stored: after a crash the superblock is as it was. -/
theorem exists_slow_run (zs : List ℕ) : ∃ as s image,
    run (commitThread (twoPointConfig true)) checkpointed as = some s ∧
    tasksSince (twoPointConfig true) checkpointed 0 as = zs.length ∧ s.commit.taken = zs.reverse ∧
    CrashImage s.disk s.log image ∧ (image .superblock).word = 2 := by
  obtain ⟨log, heap, hrun, hcount, hlog⟩ := run_slow_tasks zs 0 [] [] [] nofun
  have harrive : commitThread (twoPointConfig true) checkpointed
      (.arrive (zs.map fun z => .commit z 0) []) =
        some (betweenTasks (zs.map fun z => .commit z 0) [] [] []) := rfl
  refine ⟨.arrive (zs.map fun z => .commit z 0) [] :: replicate (9 * zs.length) (.commit true), _,
    view checkpointed.disk log, run_cons_eq_some.mpr ⟨_, harrive, hrun⟩, ?_, append_nil _,
    view_crashImage _ _, ?_⟩
  · rw [tasksSince, harrive]
    exact hcount.trans (Nat.zero_add _)
  · rw [(settled_init hlog).view_eq]
    rfl

/-- The ids from 2 on are taken in order, 1002 of them, and after a crash the checkpoint is still 2. -/
theorem checkpoint_lag_slow_tasks : ∃ as s image,
    run (commitThread (twoPointConfig true)) checkpointed as = some s ∧
    tasksSince (twoPointConfig true) checkpointed 0 as = 1002 ∧
    s.commit.taken = (range' 2 1002).reverse ∧
    CrashImage s.disk s.log image ∧ (image .superblock).word = 2 := by
  obtain ⟨as, s, image, hrun, hcount, hrest⟩ := exists_slow_run (range' 2 1002)
  rw [length_range'] at hcount
  exact ⟨as, s, image, hrun, hcount, hrest⟩

end Timer

end Ccann.Soft
