import Ccann.Persist.Survivors
import Ccann.Soft.Single

/-! Crash images of one inserting thread with fine-grained concurrency. The neighbours' old
slots are freed when the DRAM map changes, while their location entries reach persistent
memory later, through the queue. As long as no record word is stored into a slot that an
entry which may survive, or a queued update, still names, every published entry of every
crash image points to one complete record of its id. -/

namespace Ccann.Soft

open Nodes Layout Locks Persist Concurrent

variable {cfg : Config} {s t : State}

section Definitions

/-- An entry of the `.id2loc` table that stands for a location; entry 0 of an id other than
0 is that of an id that was never published. -/
def Published (x word : ℕ) : Prop :=
  x = 0 ∨ word ≠ 0

instance (x word : ℕ) : Decidable (Published x word) :=
  inferInstanceAs (Decidable (_ ∨ _))

/-- After a crash, or after the queue is drained, the entry of `x` may name the slot. -/
def Names (s : State) (x l : ℕ) : Prop :=
  (∃ v ∈ survivors s.disk s.log (.id2loc x), v.word = l ∧ Published x v.word) ∨
    ∃ e ∈ s.pending, e.id = x ∧ e.loc = l

instance (s : State) (x l : ℕ) : Decidable (Names s x l) :=
  inferInstanceAs (Decidable (_ ∨ _))

def State.nextInstr (s : State) (y : ℕ) : Option Instr :=
  match s.ops y with
  | some ⟨_, _, _, _, _, .running r⟩ => r.rest.head?
  | _ => none

def Instr.slot : Instr → Option ℕ
  | .store (.node l _) _ => some l
  | _ => none

/-- The step stores no record word into a slot that an id of the index may still name. -/
def Unnamed (s : State) : Act → Prop
  | .insert y => ∀ l ∈ (s.nextInstr y).bind Instr.slot, ∀ x < s.curId, ¬ Names s x l
  | _ => True

instance (s : State) : (a : Act) → Decidable (Unnamed s a)
  | .insert _ => by unfold Unnamed; infer_instance
  | .start .. | .commit _ | .terminate | .search .. | .reader _ => isTrue trivial

/-- The slot holds one version of `x`, in every crash image. -/
def Good (cfg : Config) (s : State) (x l : ℕ) : Prop :=
  ∃ writer rec, Version cfg s x writer rec ∧
    ∀ w v, rec.words[w]? = some v → Settled s.disk s.log (.node l w) ⟨v, writer⟩

/-- Every entry that may survive and every queued update names a good slot. -/
structure CrashSafe (cfg : Config) (s : State) : Prop where
  placed : Placed cfg s
  entries : ∀ x v, MayHold s.disk s.log (.id2loc x) v → Published x v.word →
    x < s.curId ∧ Good cfg s x v.word
  pending : ∀ e ∈ s.pending, e.id < s.curId ∧ Good cfg s e.id e.loc

end Definitions

section Steps

variable {y : ℕ} {r : Running}

theorem nextInstr_eq {op : Op} {i : Instr} {rest : List Instr} (hop : s.ops y = some op)
    (hst : op.stage = .running r) (hrest : r.rest = i :: rest) : s.nextInstr y = some i := by
  obtain ⟨point, tag, pqCode, nhood, hints, stage⟩ := op
  cases hst
  simp [State.nextInstr, hop, hrest]

theorem Opened.crashSafe (h : Opened cfg s) : CrashSafe cfg s where
  placed := h.placed
  entries x v hv hp := by
    have hv : v = s.disk (.id2loc x) := by
      rcases hv.init_or_stored with hv | ⟨t, hv⟩
      · exact hv
      · simp [h.log] at hv
    by_cases hx : x < s.curId
    · obtain ⟨l, hl⟩ := Option.isSome_iff_exists.mp ((h.consistent.total x).mpr hx)
      obtain ⟨rec, hdim, hrange, hwords⟩ := h.record x l hl
      have hentry := h.entry x l hl
      refine ⟨hx, none, rec, ⟨hdim, hrange, by rwa [h.npts], fun w u hw => ?_⟩, fun w u hw => ?_⟩
      · rw [hentry]
        exact hwords w u hw
      · rw [hv, hentry, ← hwords w u hw]
        exact settled_init (by simp [h.log])
    · rw [hv, h.unpublished x (Nat.le_of_not_lt hx)] at hp
      rcases hp with rfl | hp
      · have := h.nonempty
        rw [h.npts] at this
        exact absurd this hx
      · exact absurd rfl hp
  pending e he := by simp [State.pending, h.queue, h.commit, Phase.batch] at he

variable {o : Option (Event Agent Addr Val)} {a : Act}

/-- A good slot stays good as long as nothing is stored into it. -/
theorem Good.step (hT : Traced cfg s) (hs : Soft.step cfg s a = some t) {x l : ℕ}
    (h : Good cfg s x l) (hlog : t.log = o.toList ++ s.log)
    (ho : ∀ e, o = some e → ∀ w, ¬ e.StoresTo (.node l w)) : Good cfg t x l := by
  obtain ⟨writer, rec, hv, hset⟩ := h
  refine ⟨writer, rec, hv.step hT hs, fun w v hw => ?_⟩
  rw [step_disk hs, hlog]
  cases o with
  | none => exact hset w v hw
  | some e => exact (hset w v hw).cons (ho e rfl w)

/-- One step. A new entry or update has to name a good slot, and nothing is stored into a
slot that is named already. -/
theorem CrashSafe.frame (h : CrashSafe cfg s) (hs : step cfg s a = some t) (hP : Placed cfg t)
    (hlog : t.log = o.toList ++ s.log) (hcur : s.curId ≤ t.curId)
    (ho : ∀ e, o = some e → ∀ x < s.curId, ∀ l, Names s x l → ∀ w, ¬ e.StoresTo (.node l w))
    (hentry : ∀ u x v, o = some (.store u (.id2loc x) v) → x < t.curId ∧ Good cfg t x v.word)
    (hpend : ∀ e ∈ t.pending, e ∈ s.pending ∨ (e.id < t.curId ∧ Good cfg t e.id e.loc)) :
    CrashSafe cfg t := by
  have hold : ∀ x v, MayHold s.disk s.log (.id2loc x) v → Published x v.word →
      x < t.curId ∧ Good cfg t x v.word := by
    intro x v hv hp
    obtain ⟨hx, hg⟩ := h.entries x v hv hp
    refine ⟨Nat.lt_of_lt_of_le hx hcur, hg.step h.placed.traced hs hlog fun e he => ?_⟩
    exact ho e he x hx _ (.inl ⟨v, mem_survivors.mpr hv, rfl, hp⟩)
  refine ⟨hP, fun x v hv hp => ?_, fun e he => ?_⟩
  · rw [step_disk hs, hlog] at hv
    cases o with
    | none => exact hold x v hv hp
    | some e =>
      rcases hv.of_cons with ⟨u, rfl⟩ | hv
      · exact hentry u x v rfl
      · exact hold x v hv hp
  · rcases hpend e he with he | hnew
    · obtain ⟨hx, hg⟩ := h.pending e he
      refine ⟨Nat.lt_of_lt_of_le hx hcur, hg.step h.placed.traced hs hlog fun ev hev => ?_⟩
      exact ho ev hev e.id hx _ (.inr ⟨e, he, rfl, rfl⟩)
    · exact hnew

/-- A record that is stored, flushed and fenced and whose slot has not been touched since is
good for its id. -/
theorem good_of_fenced {op : Op} (hP : Placed cfg s) (hop : s.ops y = some op)
    (hst : op.stage = .running r) {ix : Index} {sc : Scan} (hrun : RunFacts cfg s y op r ix sc)
    {w : Write} (hw : w ∈ r.writes)
    (hfenced : ∀ c ∈ w.record.cells,
      [.fence, .flush (.node w.loc c.1), .store (.node w.loc c.1) c.2].Sublist r.done) :
    Good cfg s w.id w.loc := by
  obtain ⟨hdim, hrange⟩ := hP.shape y op r hop hst w hw
  refine ⟨some y, w.record, ⟨hdim, hrange, op, r, w, hop, hst, hw, rfl, rfl⟩, fun k v hk => ?_⟩
  have hc := (w.record.mem_cells_iff).mpr hk
  exact ((hrun.cells w hw (k, v) hc).fenced (hfenced (k, v) hc)).settled

/-- What a block of executed code has persisted is stored, flushed and fenced. -/
theorem Persists.done {code done : List Instr} {a : Addr} {word : ℕ}
    (h : Persists code a word) (hdone : code.reverse <:+ done) :
    [.fence, .flush a, .store a word].Sublist done := by
  refine List.Sublist.trans ?_ hdone.sublist
  simpa using h.reverse

theorem CrashSafe.insertStep (h : CrashSafe cfg s) (hfine : cfg.fineGrained = true)
    (hu : Unnamed s (.insert y)) (hs : insertStep cfg s y = some t) : CrashSafe cfg t := by
  have hall : step cfg s (.insert y) = some t := hs
  have hP := h.placed.insertStep hs
  cases step_move hall with
  | alloc | read =>
    exact h.frame (o := none) hall hP rfl (Nat.le_refl _) (by simp) (by simp) fun e he => .inl he
  | @exec y op r i rest u hop hst hrest heff =>
    have hf := effect_frame heff
    have hy : y + 1 = s.curId :=
      (h.placed.latest y).resolve_left (by simp [not_finished_of_insertStep hs])
    have hcur : (u.setOp y { op with stage := .running (r.next s i rest) }).curId = s.curId :=
      hf.curId
    have hmem := h.placed.traced.mem_code hop hst (.inr (by rw [hrest]; simp : i ∈ r.rest))
    -- after the step: which writes are good
    have hop' := setOp_self (s := u) y { op with stage := .running (r.next s i rest) }
    have hstage := hP.stage y _ hop' (by rw [hcur, hy])
    obtain ⟨ix, sc, hrun⟩ := hstage
    have hcode := (hP.traced.code y _ _ hop' rfl).1
    have hgood : ∀ w ∈ r.writes, (∀ c ∈ w.record.cells, [.fence, .flush (.node w.loc c.1),
        .store (.node w.loc c.1) c.2].Sublist (i :: r.done)) →
        Good cfg (u.setOp y { op with stage := .running (r.next s i rest) }) w.id w.loc :=
      fun w hw hd => good_of_fenced hP hop' rfl hrun hw hd
    refine h.frame hall hP hf.log (Nat.le_of_eq hcur.symm) (fun e he x hx l hn w => ?_)
      (fun q x v he => ?_) fun e he => ?_
    · rintro ⟨q, v, rfl⟩
      cases i <;> cases he
      have hnext := nextInstr_eq hop hst hrest
      exact hu l (by simp [hnext, Instr.slot]) x hx hn
    · cases i <;> cases he
      rcases storeLoc_mem_insertCode hmem with ⟨rfl, rfl⟩ | ⟨hf', -⟩
      · refine ⟨by rw [hcur, ← hy]; exact Nat.lt_succ_self x, ?_⟩
        have hdone := suffix_done_of_mem insertCode_eq_fill hcode List.mem_cons_self
          storeLoc_notMem_fill
        have := hgood r.target (by simp [Running.writes]) fun c hc => (persists_target hc).done hdone
        rwa [(h.placed.traced.code x op r hop hst).2] at this
      · rw [hfine] at hf'
        cases hf'
    · have hpend : e ∈ s.pending ∨ (∃ id loc, i = .push id loc ∧ e = ⟨id, loc, y⟩) := by
        simp only [State.pending, State.setOp, hf.commit, List.mem_append] at he ⊢
        rcases effect_queue heff with hq | ⟨id, loc, rfl, hq⟩
        · rw [hq] at he
          exact .inl he
        · rw [hq, List.mem_append, List.mem_singleton] at he
          rcases he with he | he | rfl
          · exact .inl (.inl he)
          · exact .inl (.inr he)
          · exact .inr ⟨id, loc, rfl, rfl⟩
      rcases hpend with hpend | ⟨id, loc, rfl, rfl⟩
      · exact .inl hpend
      · obtain ⟨w, hw, rfl, rfl⟩ := push_mem_insertCode hmem
        have hid : w.id < y := by
          refine (h.placed.input y op hop).2.2.2 w.id ?_
          rw [← hrun.ids]
          exact List.mem_map.mpr ⟨w, hw, rfl⟩
        refine .inr ⟨?_, ?_⟩
        · show w.id < u.curId
          rw [hf.curId]
          omega
        · have hdone := suffix_done_of_mem insertCode_eq_publish hcode List.mem_cons_self
            push_notMem_publish
          exact hgood w (by simp [Running.writes, hw]) fun c hc =>
            (persists_nbr hw hc).done hdone

theorem CrashSafe.step (h : CrashSafe cfg s) (hfine : cfg.fineGrained = true) (ha : Alone s a)
    (hu : Unnamed s a) (hs : Soft.step cfg s a = some t) : CrashSafe cfg t := by
  have hP := h.placed.step ha hs
  cases step_move hs with
  | start =>
    exact h.frame (o := none) hs hP rfl (Nat.le_succ _) (by simp) (by simp) fun e he => .inl he
  | alloc | read | exec => exact h.insertStep hfine hu hs
  | commit hc =>
    obtain ⟨hf, hlog, hpend⟩ := commitStep_frame hc
    refine h.frame hs hP hlog (Nat.le_of_eq hf.curId.symm)
      (fun e he x _ l _ w => Phase.event_not_node he l w) (fun q x v he => ?_)
      fun e he => .inl (hpend e he)
    -- the commit thread stores what was pending
    cases Phase.event_thread he
    obtain ⟨z, e, batch, hp, rfl, rfl⟩ := Phase.event_storeLoc he
    have hmem : e ∈ s.pending := by simp [State.pending, hp, Phase.batch]
    obtain ⟨hx, hg⟩ := h.pending e hmem
    rw [hf.curId]
    exact ⟨hx, hg.step h.placed.traced hs hlog fun e he w => Phase.event_not_node he _ w⟩
  | terminate =>
    exact h.frame (o := none) hs hP rfl (Nat.le_refl _) (by simp) (by simp) fun e he => .inl he
  | search hf | reader hf =>
    exact h.frame (o := none) hs hP hf.log (Nat.le_of_eq hf.curId.symm) (by simp) (by simp)
      fun e he => .inl (by rwa [State.pending, hf.commit, hf.queue] at he)

end Steps

section Images

/-- The published entry of `x` in the image points to one complete record written for
`x`. -/
def ImageHolds (cfg : Config) (s : State) (image : Addr → Val) (x : ℕ) : Prop :=
  Published x (image (.id2loc x)).word → ∃ writer rec, Version cfg s x writer rec ∧
    ∀ w v, rec.words[w]? = some v →
      image (.node (image (.id2loc x)).word w) = ⟨v, writer⟩

/-- In every run of one inserting thread, the commit thread and searches in which no record
word is stored into a slot that a surviving entry or a queued update names, every published
entry of every crash image points to one complete record written for its id. -/
theorem crash_images_hold (cfg : Config) (hfine : cfg.fineGrained = true) (s₀ s : State)
    (h₀ : Opened cfg s₀) (as : List Act)
    (hmeets : Meets (step cfg) (fun s a => Alone s a ∧ Unnamed s a) s₀ as)
    (hrun : run (step cfg) s₀ as = some s) (image : Addr → Val)
    (himage : CrashImage s.disk s.log image) (x : ℕ) : ImageHolds cfg s image x := by
  have hstep : ∀ s a t, CrashSafe cfg s → Alone s a ∧ Unnamed s a → step cfg s a = some t →
      CrashSafe cfg t := fun s a t h ha hs => h.step hfine ha.1 ha.2 hs
  have h := run_invariant_of_meets hstep h₀.crashSafe hmeets hrun
  intro hp
  obtain ⟨-, writer, rec, hv, hset⟩ := h.entries x _ (himage (.id2loc x)) hp
  exact ⟨writer, rec, hv, fun w v hw => hset w v hw _ (himage _)⟩

/-- The commit thread has stored and fenced the new location of id 1 before the insert of
id 3 reuses its old slot. -/
def reuseAfterCommit : List Act :=
  insertOne ++ List.replicate 12 (Act.commit false) ++ [Act.terminate] ++
    List.replicate 4 (Act.commit false) ++ Act.start [13] 7 5 [0] [] :: List.replicate 16 (.insert 3)

theorem crash_images_hold_reuseAfterCommit :
    ∃ s, run (step (twoPointConfig true)) twoPointIndex reuseAfterCommit = some s ∧
      s.mem (.id2loc 1) = ⟨2, some 2⟩ ∧ (s.mem (.node 1 0)).writer = some 3 ∧
      ImageHolds (twoPointConfig true) s (view s.disk s.log) 1 := by
  have hmeets : Meets (step (twoPointConfig true)) (fun s a => Alone s a ∧ Unnamed s a)
      twoPointIndex reuseAfterCommit := by decide +kernel
  refine exists_some_imp (P := fun s => s.mem (.id2loc 1) = ⟨2, some 2⟩ ∧
    (s.mem (.node 1 0)).writer = some 3) (by decide +kernel) fun s hs ⟨hloc, hnode⟩ => ?_
  exact ⟨hloc, hnode, crash_images_hold _ rfl _ _ (twoPointIndex_opened true) _ hmeets hs _
    (view_crashImage _ _) 1⟩

/-- The insert of id 3 reuses the old slot of id 1 while the update of its location entry is
still in the queue. -/
def reuseBeforeCommit : List Act :=
  insertOne ++ .start [13] 7 5 [0] [] :: List.replicate 16 (.insert 3)

/-- The published entry of id 1 points to a slot rewritten for id 0. -/
theorem reuseBeforeCommit_breaks_image :
    Meets (step (twoPointConfig true)) Alone twoPointIndex reuseBeforeCommit ∧
    ∃ s image, run (step (twoPointConfig true)) twoPointIndex reuseBeforeCommit = some s ∧
      CrashImage s.disk s.log image ∧ ¬ ImageHolds (twoPointConfig true) s image 1 := by
  refine ⟨by decide +kernel, ?_⟩
  have hcheck : ((run (step (twoPointConfig true)) twoPointIndex reuseBeforeCommit).any fun s =>
      match s.ops 3 with
      | some ⟨_, _, _, _, _, .running r⟩ =>
        decide (s.mem (.id2loc 1) = ⟨1, none⟩ ∧ s.mem (.node 1 0) = ⟨10, some 3⟩ ∧
          ∀ w ∈ r.writes, w.id ≠ 1)
      | _ => false) = true := by decide +kernel
  obtain ⟨s, hs, hcheck⟩ := (Option.any_eq_true _ _).mp hcheck
  split at hcheck
  next point tag pqCode nhood hints run hop =>
    obtain ⟨hloc, hnode, hids⟩ := of_decide_eq_true hcheck
    refine ⟨s, view s.disk s.log, hs, view_crashImage _ _, fun himage => ?_⟩
    have hloc : view s.disk s.log (.id2loc 1) = ⟨1, none⟩ := hloc
    have hnode : view s.disk s.log (.node 1 0) = ⟨10, some 3⟩ := hnode
    rw [ImageHolds, hloc] at himage
    obtain ⟨writer, rec, ⟨-, -, hwriter⟩, hwords⟩ := himage (.inr (by decide))
    obtain ⟨v, hv⟩ := Option.isSome_iff_exists.mp (show (rec.words[0]?).isSome by simp)
    -- the first word was written by insert 3, which writes nothing for id 1
    have hfirst := hwords 0 v hv
    rw [hnode] at hfirst
    cases hfirst
    obtain ⟨op, r, w, hop', hr, hw, hid, -⟩ := hwriter
    rw [hop] at hop'
    cases hop'
    cases hr
    exact hids w hw hid
  next => cases hcheck

end Images

end Ccann.Soft
