import Ccann.Soft.Code
import Ccann.Soft.Steps

/-! Two invariants of every run. `Traced`: the events an insert has emitted are those of its
executed instructions in order, so what its program has stored, flushed and fenced is
surely durable in the shared log, whatever the other threads do. `Sourced`: everything the
commit thread stores was pushed by an insert before, and only ids that are in the index are
chosen as neighbours. -/

namespace Ccann.Soft

open Nodes Layout Locks Persist Concurrent List Function

variable {cfg : Config} {s t : State}

section Traced

/-- The log agrees with what the inserts have executed, and inserts execute their code in
order. -/
structure Traced (cfg : Config) (s : State) : Prop where
  le : s.npts ≤ s.curId
  fresh : ∀ y, s.curId ≤ y → s.ops y = none
  inserted : ∀ y op, s.ops y = some op → s.npts ≤ y
  code : ∀ y op r, s.ops y = some op → op.stage = .running r →
    insertCode cfg y op.tag r.nbrs r.target = r.done.reverse ++ r.rest ∧ r.target.id = y
  events : ∀ y, s.log.filter (fun e => decide (e.thread = .insert y)) =
    (history s y).filterMap (Instr.event y)

variable {y : ℕ} {e : Event Agent Addr Val}

theorem Instr.event_thread {i : Instr} (h : i.event y = some e) : e.thread = .insert y := by
  cases i <;> cases h <;> rfl

theorem Phase.event_thread {p : Phase} (h : p.event = some e) : e.thread = .commit := by
  unfold Phase.event at h
  split at h <;> cases h <;> rfl

variable {o : Option (Event Agent Addr Val)} {u : State}

/-- The events of another thread do not show in the log of an insert. -/
theorem filter_other {u : Agent} {L : Log Agent Addr Val} (h : ∀ e, o = some e → e.thread = u)
    (hne : u ≠ .insert y) :
    (o.toList ++ L).filter (fun e => decide (e.thread = .insert y)) =
      L.filter fun e => decide (e.thread = .insert y) := by
  cases o with
  | none => rfl
  | some e =>
    have : e.thread ≠ .insert y := by
      rw [h e rfl]
      exact hne
    simp [this]

theorem Opened.traced (h : Opened cfg s) : Traced cfg s where
  le := Nat.le_of_eq h.npts
  fresh y _ := h.ops y
  inserted y op hop := by simp [h.ops y] at hop
  code y op r hop _ := by simp [h.ops y] at hop
  events y := by simp [h.log, history_of_none (h.ops y)]

/-- An insert that has not executed anything keeps doing so. -/
theorem history_setOp_of_nil {op : Op} (hu : u.ops = s.ops) (hs : history s y = [])
    (hop : ∀ r, op.stage = .running r → r.done = []) (z : ℕ) :
    history (u.setOp y op) z = history s z := by
  by_cases hz : z = y
  · subst hz
    obtain ⟨point, tag, pqCode, nhood, hints, stage⟩ := op
    rw [hs]
    cases stage with
    | running r => simpa [history] using hop r rfl
    | _ => simp [history]
  · rw [history_setOp_of_ne hz, history_congr hu]

variable (h : Traced cfg s)

include h

/-- A step of one insert, with at most one event of its own. -/
theorem Traced.setOp {op op' : Op} (hop : s.ops y = some op) (hu : u.ops = s.ops)
    (hnpts : u.npts = s.npts) (hcur : u.curId = s.curId)
    (ho : ∀ e, o = some e → e.thread = .insert y) (hlog : u.log = o.toList ++ s.log)
    (hcode : ∀ r, op'.stage = .running r →
      insertCode cfg y op'.tag r.nbrs r.target = r.done.reverse ++ r.rest ∧ r.target.id = y)
    (hhist : (history (u.setOp y op') y).filterMap (Instr.event y) =
      o.toList ++ (history s y).filterMap (Instr.event y)) : Traced cfg (u.setOp y op') where
  le := by
    rw [State.setOp, hnpts, hcur]
    exact h.le
  fresh z hz := by
    have hzs : s.curId ≤ z := by rwa [← hcur]
    have hzy : z ≠ y := by
      intro heq
      rw [← heq, h.fresh z hzs] at hop
      cases hop
    rw [setOp_of_ne hzy, hu, h.fresh z hzs]
  inserted z opz hz := by
    rw [State.setOp, hnpts]
    by_cases hzy : z = y
    · exact hzy ▸ h.inserted y op hop
    · rw [setOp_of_ne hzy, hu] at hz
      exact h.inserted z opz hz
  code z opz r hz hr := by
    by_cases hzy : z = y
    · subst hzy
      rw [setOp_self] at hz
      cases hz
      exact hcode r hr
    · rw [setOp_of_ne hzy, hu] at hz
      exact h.code z opz r hz hr
  events z := by
    rw [show (u.setOp y op').log = u.log from rfl, hlog]
    by_cases hzy : z = y
    · subst hzy
      rw [hhist, ← h.events z, filter_append]
      congr 1
      cases o with
      | none => rfl
      | some e => simp [ho e rfl]
    · rw [filter_other ho (by simpa using Ne.symm hzy), h.events z, history_setOp_of_ne hzy,
        history_congr hu]

/-- Steps of searches and of the commit thread do not touch the inserts. -/
theorem Traced.frame (hops : t.ops = s.ops) (hnpts : t.npts = s.npts) (hcur : t.curId = s.curId)
    (ho : ∀ e, o = some e → e.thread = .commit) (hlog : t.log = o.toList ++ s.log) :
    Traced cfg t where
  le := by
    rw [hnpts, hcur]
    exact h.le
  fresh y hy := by
    rw [hops]
    exact h.fresh y (by rwa [← hcur])
  inserted y op hop := by
    rw [hnpts]
    exact h.inserted y op (by rwa [← hops])
  code y op r hop hr := h.code y op r (by rwa [← hops]) hr
  events y := by
    rw [hlog, filter_other ho (by simp), h.events y, history_congr hops]

theorem Traced.step {a : Act} (hs : step cfg s a = some t) : Traced cfg t := by
  cases step_move hs with
  | start =>
    have hnone := h.fresh s.curId (Nat.le_refl _)
    refine ⟨Nat.le_succ_of_le h.le, fun z hz => ?_, fun z op hz => ?_, fun z op r hz hr => ?_,
      fun z => ?_⟩
    · have hz : s.curId + 1 ≤ z := hz
      rw [setOp_of_ne (by omega)]
      exact h.fresh z (by omega)
    · by_cases hzy : z = s.curId
      · exact hzy ▸ h.le
      · rw [setOp_of_ne hzy] at hz
        exact h.inserted z op hz
    · by_cases hzy : z = s.curId
      · subst hzy
        rw [setOp_self] at hz
        cases hz
        cases hr
      · rw [setOp_of_ne hzy] at hz
        exact h.code z op r hz hr
    · refine (h.events z).trans ?_
      by_cases hzy : z = s.curId
      · subst hzy
        rw [history_of_none hnone, history_of_searched (setOp_self ..) rfl]
      · rw [history_setOp_of_ne hzy]
        rfl
  | alloc hop hst =>
    refine h.setOp (o := none) hop rfl rfl rfl (by simp) rfl (fun r hr => by cases hr) ?_
    rw [history_of_searched hop hst, history_of_allocated (setOp_self ..) rfl]
    rfl
  | read hop hst =>
    refine h.setOp (o := none) hop rfl rfl rfl (by simp) rfl (fun r hr => ?_) ?_
    · cases hr
      exact ⟨by simp [begun], rfl⟩
    · rw [history_of_allocated hop hst, history_eq (setOp_self ..) rfl]
      rfl
  | @exec y op r i rest u hop hst hrest heff =>
    have hf := effect_frame heff
    refine h.setOp hop hf.ops hf.npts hf.curId (fun e he => Instr.event_thread he) hf.log
      (fun r' hr' => ?_) ?_
    · cases hr'
      obtain ⟨hcode, hid⟩ := h.code y op r hop hst
      refine ⟨?_, hid⟩
      rw [Running.next, hcode, hrest]
      simp
    · rw [history_eq hop hst, history_eq (setOp_self ..) rfl, Running.next,
        filterMap_cons]
      cases i.event y <;> rfl
  | commit hs =>
    obtain ⟨hf, hlog, -⟩ := commitStep_frame hs
    exact h.frame hf.ops hf.npts hf.curId (fun e he => Phase.event_thread he) hlog
  | terminate => exact h.frame (o := none) rfl rfl rfl (by simp) rfl
  | search hf | reader hf => exact h.frame (o := none) hf.ops hf.npts hf.curId (by simp) hf.log

/-- No step forgets what an insert has executed. -/
theorem Traced.history_suffix {a : Act} (hs : Soft.step cfg s a = some t) (z : ℕ) :
    history s z <:+ history t z := by
  cases step_move hs with
  | start =>
    have hnone := history_of_none (h.fresh _ (Nat.le_refl _))
    exact ⟨[], (history_setOp_of_nil rfl hnone (by rintro _ ⟨⟩) z).symm⟩
  | alloc hop hst =>
    exact ⟨[], (history_setOp_of_nil rfl (history_of_searched hop hst) (by rintro _ ⟨⟩) z).symm⟩
  | read hop hst =>
    exact ⟨[], (history_setOp_of_nil rfl (history_of_allocated hop hst) (by rintro _ ⟨⟩; rfl) z).symm⟩
  | @exec y op r i rest u hop hst hrest heff =>
    by_cases hzy : z = y
    · rw [hzy, history_eq hop hst, history_eq (setOp_self ..) rfl]
      exact suffix_cons _ _
    · rw [history_setOp_of_ne hzy, history_congr (effect_frame heff).ops]
  | commit hs => rw [history_congr (commitStep_frame hs).1.ops]
  | terminate => exact suffix_refl _
  | search hf | reader hf => rw [history_congr hf.ops]

/-- What an insert has stored, flushed and fenced is surely durable. -/
theorem Traced.surelyDurable {code : List Instr} {a : Addr} {word : ℕ}
    (hdone : code.reverse <:+ history s y) (hp : Persists code a word) :
    SurelyDurable s.log (.insert y) a ⟨word, some y⟩ := by
  have hsub : ([.fence, .flush a, .store a word] : List Instr).Sublist (history s y) := by
    refine List.Sublist.trans ?_ hdone.sublist
    simpa using hp.reverse
  have hev := hsub.filterMap (Instr.event y)
  rw [← h.events y] at hev
  exact ⟨.insert y, hev.trans filter_sublist⟩

end Traced

section Sourced

/-- The id is one of the initial file, or its own insert has put it into the map. -/
def Located (s : State) (x : ℕ) : Prop :=
  x < s.npts ∨ ∃ l, .assign x l ∈ history s x

/-- Where location updates come from: pending and stored ones were pushed, and only
located ids are mapped or chosen as neighbours. -/
structure Sourced (s : State) : Prop where
  pending : ∀ e ∈ s.pending, .push e.id e.loc ∈ history s e.owner
  stored : ∀ x v, .store .commit (.id2loc x) v ∈ s.log →
    ∃ y, v.writer = some y ∧ .push x v.word ∈ history s y
  located : ∀ x, (s.id2loc x).isSome → Located s x
  nbrs : ∀ y op r, s.ops y = some op → op.stage = .running r → ∀ w ∈ r.nbrs, Located s w.id

theorem Opened.sourced (h : Opened cfg s) : Sourced s where
  pending e he := by simp [State.pending, h.queue, h.commit, Phase.batch] at he
  stored x v hv := by simp [h.log] at hv
  located x hx := by
    refine .inl ?_
    rw [h.npts]
    exact (h.consistent.total x).mp hx
  nbrs y op r hop _ := by simp [h.ops y] at hop

/-- What a step adds has to have its source; what was there keeps it. -/
theorem Sourced.of_frame (h : Sourced s) (hhist : ∀ z, history s z <:+ history t z)
    (hnpts : t.npts = s.npts)
    (hpend : ∀ e ∈ t.pending, e ∈ s.pending ∨ .push e.id e.loc ∈ history t e.owner)
    (hlog : ∀ x v, .store .commit (.id2loc x) v ∈ t.log →
      .store .commit (.id2loc x) v ∈ s.log ∨ ∃ e ∈ s.pending, e.id = x ∧ v = ⟨e.loc, some e.owner⟩)
    (hloc : ∀ x, (t.id2loc x).isSome → Located s x ∨ Located t x)
    (hops : ∀ y op r, t.ops y = some op → op.stage = .running r →
      (∃ op', s.ops y = some op' ∧ op'.stage = .running r) ∨ ∀ w ∈ r.nbrs, Located s w.id) :
    Sourced t := by
  have hmono : ∀ x, Located s x → Located t x := by
    rintro x (hx | ⟨l, hl⟩)
    · exact .inl (by rwa [hnpts])
    · exact .inr ⟨l, (hhist x).subset hl⟩
  refine ⟨fun e he => ?_, fun x v hv => ?_, fun x hx => ?_, fun y op r hop hr w hw => ?_⟩
  · exact (hpend e he).elim (fun he => (hhist e.owner).subset (h.pending e he)) id
  · rcases hlog x v hv with hv | ⟨e, he, rfl, rfl⟩
    · obtain ⟨y, hy, hpush⟩ := h.stored x v hv
      exact ⟨y, hy, (hhist y).subset hpush⟩
    · exact ⟨e.owner, rfl, (hhist e.owner).subset (h.pending e he)⟩
  · exact (hloc x hx).elim (hmono x) id
  · rcases hops y op r hop hr with ⟨op', hop', hr'⟩ | hl
    · exact hmono _ (h.nbrs y op' r hop' hr' w hw)
    · exact hmono _ (hl w hw)

theorem Phase.event_storeLoc {p : Phase} {x : ℕ} {v : Val}
    (h : p.event = some (.store .commit (.id2loc x) v)) :
    ∃ t e batch, p = .batchStore t (e :: batch) ∧ e.id = x ∧ v = ⟨e.loc, some e.owner⟩ := by
  unfold Phase.event at h
  split at h <;> cases h
  exact ⟨_, _, _, rfl, rfl, rfl⟩

theorem step_npts {a : Act} (h : step cfg s a = some t) : t.npts = s.npts := by
  cases step_move h with
  | exec hop hst hrest heff => exact (effect_frame heff).npts
  | commit hs => exact (commitStep_frame hs).1.npts
  | search hf | reader hf => exact hf.npts
  | _ => rfl

/-- An instruction that an insert executes is part of its code. -/
theorem Traced.mem_code (h : Traced cfg s) {y : ℕ} {op : Op} {r : Running} {i : Instr}
    (hop : s.ops y = some op) (hr : op.stage = .running r) (hi : i ∈ r.done ∨ i ∈ r.rest) :
    i ∈ insertCode cfg y op.tag r.nbrs r.target := by
  rw [(h.code y op r hop hr).1, mem_append, mem_reverse]
  exact hi

theorem Sourced.step (hT : Traced cfg s) (h : Sourced s) {a : Act}
    (hs : Soft.step cfg s a = some t) : Sourced t := by
  have hhist := hT.history_suffix hs
  have hnpts := step_npts hs
  have hlocated : ∀ x, (s.id2loc x).isSome → Located s x ∨ Located t x :=
    fun x hx => .inl (h.located x hx)
  -- the neighbours of the other inserts are those they had
  have hset : ∀ {y : ℕ} {u : State} {op : Op}, u.ops = s.ops →
      (∀ r, op.stage = .running r → ∀ w ∈ r.nbrs, Located s w.id) →
      ∀ z op' r, (u.setOp y op).ops z = some op' → op'.stage = .running r →
        (∃ op'', s.ops z = some op'' ∧ op''.stage = .running r) ∨ ∀ w ∈ r.nbrs, Located s w.id := by
    intro y u op hu hop z op' r hz hr
    by_cases hzy : z = y
    · subst hzy
      rw [setOp_self] at hz
      cases hz
      exact .inr (hop r hr)
    · rw [setOp_of_ne hzy, hu] at hz
      exact .inl ⟨op', hz, hr⟩
  cases step_move hs with
  | start | alloc =>
    exact h.of_frame hhist hnpts (fun e he => .inl he) (fun x v hv => .inl hv) hlocated
      (hset rfl fun r hr => by cases hr)
  | read hop hst hsome =>
    refine h.of_frame hhist hnpts (fun e he => .inl he) (fun x v hv => .inl hv) hlocated
      (hset rfl fun r hr w hw => ?_)
    cases hr
    obtain ⟨⟨x, l⟩, hx, rfl⟩ := mem_map.mp hw
    exact h.located x (hsome x (of_mem_zip hx).1)
  | @exec y op r i rest u hop hst hrest heff =>
    have hf := effect_frame heff
    have hcode := hT.mem_code hop hst (.inr (by rw [hrest]; simp : i ∈ r.rest))
    have hlast : i ∈ history (u.setOp y { op with stage := .running (r.next s i rest) }) y := by
      rw [history_eq (setOp_self ..) rfl]
      simp [Running.next]
    refine h.of_frame hhist hnpts (fun e he => ?_) (fun x v hv => .inl ?_) (fun x hx => ?_)
      (hset hf.ops fun r' hr' => ?_)
    · simp only [State.pending, State.setOp, hf.commit, mem_append] at he ⊢
      rcases effect_queue heff with hq | ⟨id, loc, rfl, hq⟩
      · rw [hq] at he
        exact .inl he
      · rw [hq, mem_append, mem_singleton] at he
        rcases he with he | he | rfl
        · exact .inl (.inl he)
        · exact .inl (.inr he)
        · exact .inr hlast
    · rw [State.setOp, hf.log, mem_append] at hv
      rcases hv with hv | hv
      · have := Instr.event_thread (Option.mem_toList.mp hv)
        cases this
      · exact hv
    · rcases effect_id2loc heff with heq | ⟨id, loc, rfl, -, heq⟩
      · rw [State.setOp, heq] at hx
        exact hlocated x hx
      · by_cases hxid : x = id
        · subst hxid
          rcases assign_mem_insertCode hcode with ⟨rfl, -⟩ | ⟨w, hw, rfl, -⟩
          · exact .inr (.inr ⟨loc, hlast⟩)
          · exact .inl (h.nbrs y op r hop hst w hw)
        · rw [State.setOp, heq, update_of_ne hxid] at hx
          exact hlocated x hx
    · cases hr'
      exact h.nbrs y op r hop hst
  | commit hs =>
    obtain ⟨hf, hlog, hpend⟩ := commitStep_frame hs
    refine h.of_frame hhist hnpts (fun e he => .inl (hpend e he)) (fun x v hv => ?_)
      (hf.id2loc ▸ hlocated) fun z op r hz hr => .inl ⟨op, by rwa [← hf.ops], hr⟩
    rw [hlog, mem_append, Option.mem_toList] at hv
    rcases hv with hv | hv
    · obtain ⟨t', e, batch, hp, hx, rfl⟩ := Phase.event_storeLoc hv
      exact .inr ⟨e, by simp [State.pending, hp, Phase.batch], hx, rfl⟩
    · exact .inl hv
  | terminate =>
    exact h.of_frame hhist hnpts (fun e he => .inl he) (fun x v hv => .inl hv) hlocated
      fun z op r hz hr => .inl ⟨op, hz, hr⟩
  | search hf | reader hf =>
    refine h.of_frame hhist hnpts (fun e he => .inl ?_) (fun x v hv => .inl (by rwa [← hf.log]))
      (hf.id2loc ▸ hlocated) fun z op r hz hr => .inl ⟨op, by rwa [← hf.ops], hr⟩
    rwa [State.pending, ← hf.queue, ← hf.commit]

/-- The run lemma: both invariants hold after any steps from an opened index. -/
theorem traced_sourced_of_run {s₀ : State} {as : List Act} (h₀ : Opened cfg s₀)
    (hrun : run (Soft.step cfg) s₀ as = some s) : Traced cfg s ∧ Sourced s :=
  run_invariant (I := fun s => Traced cfg s ∧ Sourced s)
    (fun _ _ _ h hs => ⟨h.1.step hs, h.2.step h.1 hs⟩) ⟨h₀.traced, h₀.sourced⟩ hrun

end Sourced

section Progress

/-- What stays of an insert once it is there: its data, and what it writes. -/
structure OpLe (op op' : Op) : Prop where
  pqCode : op'.pqCode = op.pqCode
  running : ∀ r, op.stage = .running r →
    ∃ r', op'.stage = .running r' ∧ r'.nbrs = r.nbrs ∧ r'.target = r.target

theorem OpLe.refl (op : Op) : OpLe op op :=
  ⟨rfl, fun r hr => ⟨r, hr, rfl, rfl⟩⟩

variable {z y : ℕ} {a : Act} {op : Op} {r : Running}

theorem Traced.ops_mono (h : Traced cfg s) (hs : Soft.step cfg s a = some t)
    (hop : s.ops z = some op) : ∃ op', t.ops z = some op' ∧ OpLe op op' := by
  have hsame : ∀ {u : State}, u.ops = s.ops → ∃ op', u.ops z = some op' ∧ OpLe op op' :=
    fun hu => ⟨op, by rwa [hu], OpLe.refl op⟩
  -- another insert is as it was, and this one keeps its data
  have hset : ∀ {y : ℕ} {u : State} {op' : Op} {st : Stage}, s.ops y = some op' → u.ops = s.ops →
      (∀ r, op'.stage = .running r → ∃ r', st = .running r' ∧ r'.nbrs = r.nbrs ∧ r'.target = r.target) →
      ∃ op'', (u.setOp y { op' with stage := st }).ops z = some op'' ∧ OpLe op op'' := by
    intro y u op' st hop' hu hst
    by_cases hzy : z = y
    · subst hzy
      cases hop.symm.trans hop'
      exact ⟨_, setOp_self .., rfl, hst⟩
    · exact ⟨op, by rw [setOp_of_ne hzy, hu]; exact hop, OpLe.refl op⟩
  cases step_move hs with
  | start =>
    have hz : z ≠ s.curId := by
      rintro rfl
      rw [h.fresh _ (Nat.le_refl _)] at hop
      cases hop
    exact ⟨op, by rw [setOp_of_ne hz]; exact hop, OpLe.refl op⟩
  | alloc hop' hst => exact hset hop' rfl fun r hr => by cases hst.symm.trans hr
  | read hop' hst => exact hset hop' rfl fun r hr => by cases hst.symm.trans hr
  | exec hop' hst hrest heff =>
    refine hset hop' (effect_frame heff).ops fun r' hr' => ?_
    cases hst.symm.trans hr'
    exact ⟨_, rfl, rfl, rfl⟩
  | commit hs => exact hsame (commitStep_frame hs).1.ops
  | terminate => exact hsame rfl
  | search hf | reader hf => exact hsame hf.ops

theorem step_log_suffix (hs : Soft.step cfg s a = some t) : s.log <:+ t.log := by
  cases step_move hs with
  | exec hop hst hrest heff => exact ⟨_, (effect_frame heff).log.symm⟩
  | commit hs => exact ⟨_, (commitStep_frame hs).2.1.symm⟩
  | search hf | reader hf => rw [hf.log]
  | _ => exact suffix_refl _

/-- The commit task is the last instruction and occurs once. -/
theorem insertCode_eq_last (cfg : Config) (y tag : ℕ) (nbrs : List Write) (target : Write) :
    ∃ pre, insertCode cfg y tag nbrs target = pre ++ [.commitTask] ∧ .commitTask ∉ pre := by
  refine ⟨fillCode cfg y tag nbrs target ++ publishCode y nbrs target ++
    switchCode cfg y nbrs ++ (idxKeys cfg y nbrs).map .unlockIdx, ?_, ?_⟩
  · simp only [insertCode, finishCode, append_assoc]
  · simp only [mem_append, not_or]
    refine ⟨⟨⟨fun h => ?_, fun h => ?_⟩, fun h => ?_⟩, by simp⟩
    · cases mem_fillCode h
    · cases mem_publishCode h
    · simp only [switchCode, mem_append, mem_map] at h
      rcases h with (⟨_, _, hi⟩ | hi) | hi
      · cases hi
      · cases mem_switchNbrs hi
      · simp at hi

/-- An insert that has handed over its commit task has executed its whole program. -/
theorem Traced.complete (h : Traced cfg s) (hop : s.ops y = some op) (hr : op.stage = .running r)
    (hc : .commitTask ∈ r.done) :
    r.rest = [] ∧ r.done.reverse = insertCode cfg y op.tag r.nbrs r.target := by
  obtain ⟨pre, hpre, hnot⟩ := insertCode_eq_last cfg y op.tag r.nbrs r.target
  have hcode := (h.code y op r hop hr).1
  obtain ⟨d, hd⟩ := suffix_done_of_mem hpre hcode hc hnot
  have hlen := congrArg length hcode
  have hd0 : d ≠ [] := by
    rintro rfl
    rw [nil_append] at hd
    rw [← hd, mem_reverse] at hc
    exact hnot hc
  have hpos := length_pos_iff.mpr hd0
  have hrest : r.rest = [] := by
    rw [hpre, ← hd] at hlen
    simp only [length_append, length_reverse, length_singleton] at hlen
    exact eq_nil_of_length_eq_zero (by omega)
  rw [hrest, append_nil] at hcode
  exact ⟨hrest, hcode.symm⟩

/-- While an insert executes an instruction it has not handed over its task yet. -/
theorem Traced.commitTask_notMem (h : Traced cfg s) {i : Instr} {rest : List Instr}
    (hop : s.ops y = some op) (hr : op.stage = .running r) (hrest : r.rest = i :: rest) :
    .commitTask ∉ history s y := by
  intro hc
  rw [history_eq hop hr] at hc
  rw [(h.complete hop hr hc).1] at hrest
  cases hrest

/-- The history of a complete insert is final. -/
theorem Traced.history_eq_of_complete (h : Traced cfg s) (hs : Soft.step cfg s a = some t)
    (hc : .commitTask ∈ history s z) : history t z = history s z := by
  cases step_move hs with
  | start => exact history_setOp_of_nil rfl (history_of_none (h.fresh _ (Nat.le_refl _))) (by rintro _ ⟨⟩) z
  | alloc hop hst => exact history_setOp_of_nil rfl (history_of_searched hop hst) (by rintro _ ⟨⟩) z
  | read hop hst =>
    exact history_setOp_of_nil rfl (history_of_allocated hop hst) (by rintro _ ⟨⟩; rfl) z
  | exec hop hst hrest heff =>
    rw [history_setOp_of_ne, history_congr (effect_frame heff).ops]
    rintro rfl
    exact h.commitTask_notMem hop hst hrest hc
  | commit hs => exact history_congr (commitStep_frame hs).1.ops z
  | terminate => rfl
  | search hf | reader hf => exact history_congr hf.ops z

end Progress

end Ccann.Soft
