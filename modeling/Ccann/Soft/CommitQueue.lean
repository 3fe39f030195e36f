import Ccann.Soft.Trace

/-! The bookkeeping of the commit thread. Every complete insert hands over one task; the
ids taken from `commit_tasks` are the contiguous prefix up to the checkpoint, the heap
above it and the task in work. After `process_commit_queue` the checkpoint is therefore
the least id that has not been taken, in whatever order the tasks arrive. -/

namespace Ccann.Soft

open Nodes Layout Locks Persist Concurrent List

variable {cfg : Config} {s t : State}

section Advance

/-- Consuming a sorted heap from `c` on takes exactly the contiguous run that starts at
`c`. -/
theorem advance_spec {c : ℕ} {heap : List ℕ} (hs : heap.Pairwise (· < ·))
    (hc : ∀ i ∈ heap, c ≤ i) :
    c ≤ (advance c heap).1 ∧ (advance c heap).2.Pairwise (· < ·) ∧
      (∀ i, i ∈ heap ↔ (c ≤ i ∧ i < (advance c heap).1) ∨ i ∈ (advance c heap).2) ∧
      ∀ i ∈ (advance c heap).2, (advance c heap).1 < i := by
  induction heap generalizing c with
  | nil =>
    refine ⟨Nat.le_refl c, List.Pairwise.nil, fun i => ?_, by simp [advance]⟩
    simp only [advance, not_mem_nil, or_false, false_iff]
    omega
  | cons h heap ih =>
    obtain ⟨hlt, hs⟩ := pairwise_cons.mp hs
    have hch : c ≤ h := hc h (by simp)
    by_cases heq : h = c
    · subst heq
      obtain ⟨hle, hsort, hmem, hgap⟩ := ih (c := h + 1) hs fun i hi => hlt i hi
      simp only [advance, if_true]
      refine ⟨by omega, hsort, fun i => ?_, hgap⟩
      rw [mem_cons, hmem]
      constructor
      · rintro (rfl | ⟨h1, h2⟩ | h1)
        · exact .inl ⟨Nat.le_refl i, by omega⟩
        · exact .inl ⟨by omega, h2⟩
        · exact .inr h1
      · rintro (⟨h1, h2⟩ | h1)
        · by_cases hih : i = h
          · exact .inl hih
          · exact .inr (.inl ⟨by omega, h2⟩)
        · exact .inr (.inr h1)
    · simp only [advance, heq, if_false]
      refine ⟨Nat.le_refl c, pairwise_cons.mpr ⟨hlt, hs⟩, fun i => ?_, ?_⟩
      · constructor
        · exact .inr
        · rintro (⟨h1, h2⟩ | h1)
          · omega
          · exact h1
      · intro i hi
        rcases mem_cons.mp hi with rfl | hi
        · omega
        · have := hlt i hi
          omega

end Advance

section Tasks

def taskIds (ts : List Task) : List ℕ :=
  ts.filterMap fun
    | .commit t _ => some t
    | .terminate => none

/-- Each complete insert has handed over its task once, with its PQ code. -/
structure Tasked (s : State) : Prop where
  nodup : (taskIds s.tasks ++ s.commit.taken).Nodup
  mem_iff : ∀ z, z ∈ taskIds s.tasks ++ s.commit.taken ↔ .commitTask ∈ history s z
  code : ∀ z code, .commit z code ∈ s.tasks → ∃ op, s.ops z = some op ∧ op.pqCode = code

theorem Opened.tasked (h : Opened cfg s) : Tasked s where
  nodup := by simp [h.tasks, h.commit, taskIds]
  mem_iff z := by simp [h.tasks, h.commit, taskIds, history_of_none (h.ops z)]
  code z code hz := by simp [h.tasks] at hz

theorem effect_tasks {y : ℕ} {op : Op} {r : Running} {i : Instr}
    (h : effect cfg s y op r i = some t) :
    (i ≠ .commitTask ∧ t.tasks = s.tasks) ∨
      (i = .commitTask ∧ t.tasks = s.tasks ++ [.commit y op.pqCode]) := by
  cases effect_move h with
  | commitTask => exact .inr ⟨rfl, rfl⟩
  | _ => exact .inl ⟨nofun, rfl⟩

/-- The commit thread touches its tasks only when idle: it drops a terminate task or takes
a commit task. -/
theorem commitStep_tasks {timer : Bool} (h : commitStep cfg s timer = some t) :
    (s.commit.phase ≠ .idle ∧ t.tasks = s.tasks ∧ t.commit.taken = s.commit.taken) ∨
      (s.commit.phase = .idle ∧ ∃ ts, s.tasks = .terminate :: ts ∧ t.tasks = ts ∧
        t.commit.taken = s.commit.taken) ∨
      (s.commit.phase = .idle ∧ ∃ z code ts, s.tasks = .commit z code :: ts ∧ t.tasks = ts ∧
        t.commit.taken = z :: s.commit.taken) := by
  obtain ⟨p, hp⟩ : ∃ p, s.commit.phase = p := ⟨_, rfl⟩
  rw [hp]
  cases commitStep_move h hp with
  | terminate hts => exact .inr (.inl ⟨rfl, _, hts, rfl, rfl⟩)
  | take hts => exact .inr (.inr ⟨rfl, _, _, _, hts, rfl, rfl⟩)
  | _ => exact .inl ⟨nofun, rfl, rfl⟩

theorem Tasked.frame' (h : Tasked s)
    (hops : ∀ z code, .commit z code ∈ s.tasks → ∃ op, t.ops z = some op ∧ op.pqCode = code)
    (hhist : ∀ z, .commitTask ∈ history t z ↔ .commitTask ∈ history s z)
    (htasks : t.tasks = s.tasks ∨ t.tasks = s.tasks ++ [.terminate])
    (htaken : t.commit.taken = s.commit.taken) : Tasked t := by
  have hids : taskIds t.tasks = taskIds s.tasks := by
    rcases htasks with hts | hts <;> simp [hts, taskIds]
  refine ⟨?_, fun z => ?_, fun z code hz => hops z code ?_⟩
  · rw [hids, htaken]
    exact h.nodup
  · rw [hids, htaken, hhist]
    exact h.mem_iff z
  · rcases htasks with hts | hts <;> rw [hts] at hz
    · exact hz
    · simpa using hz

variable (hT : Traced cfg s) (h : Tasked s) {a : Act}

include hT h

theorem Tasked.ops_step (hs : Soft.step cfg s a = some t) (z code : ℕ)
    (hz : .commit z code ∈ s.tasks) : ∃ op, t.ops z = some op ∧ op.pqCode = code := by
  obtain ⟨op, hop, hcode⟩ := h.code z code hz
  obtain ⟨op', hop', hle⟩ := hT.ops_mono hs hop
  exact ⟨op', hop', by rw [hle.pqCode, hcode]⟩

theorem Tasked.frame (hs : Soft.step cfg s a = some t) (hhist : ∀ z, history t z = history s z)
    (htasks : t.tasks = s.tasks ∨ t.tasks = s.tasks ++ [.terminate])
    (htaken : t.commit.taken = s.commit.taken) : Tasked t :=
  h.frame' (h.ops_step hT hs) (fun z => by rw [hhist]) htasks htaken

theorem Tasked.step (hs : Soft.step cfg s a = some t) : Tasked t := by
  have hall := hs
  cases step_move hs with
  | start =>
    exact h.frame hT hall (history_setOp_of_nil rfl (history_of_none (hT.fresh _ (Nat.le_refl _))) (by rintro _ ⟨⟩))
      (.inl rfl) rfl
  | alloc hop hst =>
    exact h.frame hT hall (history_setOp_of_nil rfl (history_of_searched hop hst) (by rintro _ ⟨⟩)) (.inl rfl) rfl
  | read hop hst =>
    exact h.frame hT hall (history_setOp_of_nil rfl (history_of_allocated hop hst)
      (by rintro _ ⟨⟩; rfl)) (.inl rfl) rfl
  | @exec y op r i rest u hop hst hrest heff =>
    have hf := effect_frame heff
    have hnot := hT.commitTask_notMem hop hst hrest
    have hy : y ∉ taskIds s.tasks ++ s.commit.taken := fun hy => hnot ((h.mem_iff y).mp hy)
    have hother : ∀ z, z ≠ y →
        history (u.setOp y { op with stage := .running (r.next s i rest) }) z =
          history s z := by
      intro z hz
      rw [history_setOp_of_ne hz, history_congr hf.ops]
    have hself : history (u.setOp y { op with stage := .running (r.next s i rest) }) y =
        i :: history s y := by
      rw [history_eq (setOp_self ..) rfl, history_eq hop hst]
      rfl
    have hops := h.ops_step hT hall
    have htk : (u.setOp y { op with stage := .running (r.next s i rest) }).commit.taken =
        s.commit.taken := congrArg Commit.taken hf.commit
    rcases effect_tasks heff with ⟨hi, htasks⟩ | ⟨rfl, htasks⟩
    · have hts : (u.setOp y { op with stage := .running (r.next s i rest) }).tasks =
          s.tasks := htasks
      refine h.frame' hops (fun z => ?_) (.inl hts) htk
      by_cases hz : z = y
      · rw [hz, hself, mem_cons, or_iff_right (Ne.symm hi)]
      · rw [hother z hz]
    · have hts : (u.setOp y { op with stage := .running (r.next s .commitTask rest) }).tasks =
          s.tasks ++ [.commit y op.pqCode] := htasks
      have hids : taskIds (s.tasks ++ [.commit y op.pqCode]) = taskIds s.tasks ++ [y] := by
        simp [taskIds]
      have hperm : (taskIds s.tasks ++ [y] ++ s.commit.taken).Perm
          (y :: (taskIds s.tasks ++ s.commit.taken)) := by
        rw [append_assoc]
        exact perm_middle
      refine ⟨?_, fun z => ?_, fun z code hz => ?_⟩
      · rw [hts, htk, hids, hperm.nodup_iff]
        exact nodup_cons.mpr ⟨hy, h.nodup⟩
      · rw [hts, htk, hids, hperm.mem_iff, mem_cons, h.mem_iff]
        by_cases hz : z = y
        · rw [hz, hself]
          simp
        · rw [hother z hz, or_iff_right hz]
      · rw [hts, mem_append, mem_singleton] at hz
        rcases hz with hz | hz
        · exact hops z code hz
        · cases hz
          exact ⟨_, setOp_self .., rfl⟩
  | commit hs =>
    have hhist : ∀ z, history t z = history s z := history_congr (commitStep_frame hs).1.ops
    rcases commitStep_tasks hs with ⟨-, hts, htk⟩ | ⟨-, ts, hts, hts', htk⟩ |
      ⟨-, z, code, ts, hts, hts', htk⟩
    · exact h.frame hT hall hhist (.inl hts) htk
    · have hids : taskIds t.tasks = taskIds s.tasks := by simp [hts, hts', taskIds]
      refine ⟨by rw [hids, htk]; exact h.nodup, fun z => ?_, fun z code hz => ?_⟩
      · rw [hids, htk, hhist]
        exact h.mem_iff z
      · rw [(commitStep_frame hs).1.ops]
        exact h.code z code (by rw [hts]; rw [hts'] at hz; exact mem_cons_of_mem _ hz)
    · have hids : taskIds s.tasks = z :: taskIds t.tasks := by simp [hts, hts', taskIds]
      have hperm : (taskIds t.tasks ++ t.commit.taken).Perm
          (taskIds s.tasks ++ s.commit.taken) := by
        rw [hids, htk]
        exact perm_middle
      refine ⟨hperm.nodup_iff.mpr h.nodup, fun z => ?_, fun z code hz => ?_⟩
      · rw [hperm.mem_iff, hhist]
        exact h.mem_iff z
      · rw [(commitStep_frame hs).1.ops]
        exact h.code z code (by rw [hts]; rw [hts'] at hz; exact mem_cons_of_mem _ hz)
  | terminate => exact h.frame hT hall (fun z => rfl) (.inr rfl) rfl
  | search hf | reader hf =>
    exact h.frame hT hall (history_congr hf.ops) (.inl hf.tasks) (by rw [hf.commit])

end Tasks

section Contiguous

/-- The ids `taken` so far are `c₀` up to `base`, the heap above `base`, and `cur`. -/
structure Contiguous (c₀ base : ℕ) (heap : List ℕ) (cur : Option ℕ) (taken : List ℕ) :
    Prop where
  le : c₀ ≤ base
  sorted : heap.Pairwise (· < ·)
  ge : ∀ i ∈ heap, base ≤ i
  fresh : ∀ i, cur = some i → base ≤ i ∧ i ∉ heap
  mem_taken : ∀ i, i ∈ taken ↔ (c₀ ≤ i ∧ i < base) ∨ i ∈ heap ∨ cur = some i

variable {c₀ base z : ℕ} {heap taken : List ℕ}

theorem Contiguous.take (h : Contiguous c₀ base heap none taken) (hz : z ∉ taken)
    (hc : c₀ ≤ z) : Contiguous c₀ base heap (some z) (z :: taken) := by
  rw [h.mem_taken] at hz
  refine ⟨h.le, h.sorted, h.ge, fun i hi => ?_, fun i => ?_⟩
  · cases hi
    refine ⟨?_, fun hi => hz (.inr (.inl hi))⟩
    by_contra hlt
    exact hz (.inl ⟨hc, by omega⟩)
  · rw [mem_cons, h.mem_taken, Option.some.injEq, eq_comm (a := i)]
    simp only [reduceCtorEq, or_false]
    tauto

theorem Contiguous.push (h : Contiguous c₀ base heap (some z) taken) :
    Contiguous c₀ base (heap.orderedInsert (· ≤ ·) z) none taken := by
  obtain ⟨hz, hnot⟩ := h.fresh z rfl
  have hmem : ∀ i, i ∈ heap.orderedInsert (· ≤ ·) z ↔ i = z ∨ i ∈ heap := fun i =>
    mem_orderedInsert (· ≤ ·)
  refine ⟨h.le, ?_, fun i hi => ?_, fun i hi => (by cases hi), fun i => ?_⟩
  · have hle : (heap.orderedInsert (· ≤ ·) z).Pairwise (· ≤ ·) :=
      (h.sorted.imp fun h => Nat.le_of_lt h).orderedInsert z heap
    have hnd : (heap.orderedInsert (· ≤ ·) z).Nodup := by
      rw [(perm_orderedInsert (· ≤ ·) z heap).nodup_iff, nodup_cons]
      exact ⟨hnot, h.sorted.imp fun h => Nat.ne_of_lt h⟩
    exact (hle.and hnd).imp fun h => Nat.lt_of_le_of_ne h.1 h.2
  · rcases (hmem i).mp hi with rfl | hi
    · exact hz
    · exact h.ge i hi
  · rw [hmem, h.mem_taken, Option.some.injEq, eq_comm (a := z)]
    simp only [reduceCtorEq, or_false]
    tauto

theorem Contiguous.advance (h : Contiguous c₀ base heap none taken) :
    Contiguous c₀ (advance base heap).1 (advance base heap).2 none taken ∧
      (advance base heap).1 ∉ taken := by
  obtain ⟨hle, hsort, hmem, hgap⟩ := advance_spec h.sorted h.ge
  have hc := h.le
  have htaken : ∀ i, i ∈ taken ↔
      (c₀ ≤ i ∧ i < (Soft.advance base heap).1) ∨ i ∈ (Soft.advance base heap).2 := by
    intro i
    rw [h.mem_taken, hmem]
    simp only [reduceCtorEq, or_false]
    by_cases hi : i ∈ (Soft.advance base heap).2
    · simp [hi]
    · simp only [hi, or_false]
      omega
  refine ⟨⟨by omega, hsort, fun i hi => Nat.le_of_lt (hgap i hi), fun i hi => (by cases hi),
    fun i => ?_⟩, fun hm => ?_⟩
  · rw [htaken]
    simp
  · rcases (htaken _).mp hm with hm | hm
    · omega
    · exact Nat.lt_irrefl _ (hgap _ hm)

theorem Contiguous.isLeast {cur : Option ℕ} (h : Contiguous c₀ base heap cur taken)
    (hbase : base ∉ taken) : IsLeast {i | c₀ ≤ i ∧ i ∉ taken} base := by
  refine ⟨⟨h.le, hbase⟩, fun i hi => ?_⟩
  by_contra hlt
  exact hi.2 ((h.mem_taken i).mpr (.inl ⟨hi.1, by omega⟩))

end Contiguous

section Shutdown

structure CommitLoop where
  ckptId : ℕ
  queue : List ℕ := []
  deriving DecidableEq

/-- `process_commit_queue`. The build without `NO_ISS` stores the new checkpoint. -/
def processCommitQueue (iss : Bool) (l : CommitLoop) : CommitLoop where
  ckptId := if iss then (advance l.ckptId l.queue).1 else l.ckptId
  queue := (advance l.ckptId l.queue).2

/-- The loop sees a task, or (`none`) the end of a `COMMIT_INTERVAL`. -/
def commitEvent (iss : Bool) (l : CommitLoop) : Option ℕ → CommitLoop
  | some id => { l with queue := l.queue.orderedInsert (· ≤ ·) id }
  | none => processCommitQueue iss l

/-- From the first task to the terminate task; the result `none` is the final `crash()`. -/
def insertCommitThread (iss : Bool) (ckptId : ℕ) (es : List (Option ℕ)) : Option CommitLoop :=
  let l := processCommitQueue iss (es.foldl (commitEvent iss) ⟨ckptId, []⟩)
  if l.queue = [] then some l else none

variable {c m : ℕ} {iss : Bool} {l : CommitLoop} {taken : List ℕ} {es : List (Option ℕ)}

/-- Once all ids have been taken, `process_commit_queue` empties the heap. -/
theorem Contiguous.drained (h : Contiguous c l.ckptId l.queue none taken)
    (hall : ∀ i, i ∈ taken ↔ c ≤ i ∧ i < c + m) : (processCommitQueue iss l).queue = [] := by
  obtain ⟨hadv, hnot⟩ := h.advance
  rw [hall] at hnot
  refine eq_nil_iff_forall_not_mem.mpr fun i hi => hnot ⟨hadv.le, ?_⟩
  exact Nat.lt_of_le_of_lt (hadv.ge i hi) ((hall i).mp ((hadv.mem_taken i).mpr (.inr (.inl hi)))).2

theorem advance_of_not_mem {heap : List ℕ} (h : c ∉ heap) : advance c heap = (c, heap) := by
  cases heap with
  | nil => rfl
  | cons x heap => exact if_neg fun hx => h (by simp [hx])

theorem commitEvent_of_not_mem (hc : l.ckptId ∉ l.queue) : commitEvent false l none = l := by
  simp [commitEvent, processCommitQueue, advance_of_not_mem hc]

/-- Without the store, once `ckpt_id` is gone from the heap nothing leaves it. -/
theorem mem_queue_of_gone {i : ℕ} (hl : l.ckptId = c) (hc : c ∉ l.queue) (hes : some c ∉ es)
    (hi : i ∈ l.queue ∨ some i ∈ es) :
    i ∈ (processCommitQueue false (es.foldl (commitEvent false) l)).queue := by
  induction es generalizing l with
  | nil =>
    subst hl
    simpa [processCommitQueue, advance_of_not_mem hc] using hi
  | cons e es ih =>
    subst hl
    simp only [mem_cons, not_or] at hes hi
    cases e with
    | none =>
      rw [foldl_cons, commitEvent_of_not_mem hc]
      exact ih rfl hc hes.2 (by simpa using hi)
    | some z =>
      refine ih rfl ?_ hes.2 ?_
      · simp only [commitEvent, mem_orderedInsert]
        exact not_or.mpr ⟨fun h => hes.1 (by rw [h]), hc⟩
      · simp only [commitEvent, mem_orderedInsert]
        grind

theorem foldl_of_gone (hc : l.ckptId ∉ l.queue) (hes : ∀ i, some i ∉ es) :
    es.foldl (commitEvent false) l = l := by
  induction es with
  | nil => rfl
  | cons e es ih =>
    obtain rfl : e = none := Option.eq_none_iff_forall_ne_some.mpr fun i hi => hes i (by simp [hi])
    rw [foldl_cons, commitEvent_of_not_mem hc]
    exact ih fun i hi => hes i (mem_cons_of_mem _ hi)

theorem forall_split_cons {α : Type*} {e a : α} {es : List α} {P : List α → List α → Prop} :
    (∀ pre post, e :: es = pre ++ a :: post → P pre post) ↔
      (e = a → P [] es) ∧ ∀ pre post, es = pre ++ a :: post → P (e :: pre) post := by
  constructor
  · intro h
    exact ⟨fun he => h [] es (by simp [he]), fun pre post hes => h (e :: pre) post (by simp [hes])⟩
  · rintro ⟨h1, h2⟩ (_ | ⟨x, pre⟩) post hes
    · cases hes
      exact h1 rfl
    · cases hes
      exact h2 pre post rfl

/-- The heap is empty at the end exactly if, in the build that does not store the checkpoint,
no call finds `ckpt_id` in the heap while tasks are still to come. The induction is on the
events, with the ids `taken` before them. -/
theorem drains_iff (iss : Bool) (h : Contiguous c l.ckptId l.queue none taken)
    (hl : iss = false → l.ckptId = c)
    (hnd : (es.filterMap id).Nodup) (hnew : ∀ i, some i ∈ es → i ∉ taken)
    (hall : ∀ i, i ∈ taken ∨ some i ∈ es ↔ c ≤ i ∧ i < c + m) :
    (processCommitQueue iss (es.foldl (commitEvent iss) l)).queue = [] ↔
      (iss = false → ∀ pre post, es = pre ++ none :: post → c ∈ taken ∨ some c ∈ pre →
        ∀ i, some i ∉ post) := by
  induction es generalizing l taken with
  | nil => simpa using h.drained (by simpa using hall)
  | cons e es ih =>
    rw [foldl_cons, forall_split_cons]
    cases e with
    | some z =>
      rw [show (some z :: es).filterMap id = z :: es.filterMap id from rfl, nodup_cons] at hnd
      have hz : ∀ i, i = z → some i ∉ es := fun i hi hmem => hnd.1 (by simpa [← hi] using hmem)
      have hstep := (h.take (hnew z (by simp)) ((hall z).mp (by simp)).1).push
      rw [ih (l := commitEvent iss l (some z)) hstep hl hnd.2 (by grind) (by grind)]
      simp only [mem_cons, Option.some.injEq, reduceCtorEq, false_imp_iff, true_and]
      grind
    | none =>
      have hall' : ∀ i, i ∈ taken ∨ some i ∈ es ↔ c ≤ i ∧ i < c + m := by simpa using hall
      have hnew' : ∀ i, some i ∈ es → i ∉ taken := by simpa using hnew
      cases iss with
      | true =>
        rw [ih h.advance.1 (by simp) hnd hnew' hall']
        simp
      | false =>
        obtain rfl := hl rfl
        by_cases hc : l.ckptId ∈ taken
        · obtain ⟨hadv, hnot⟩ := h.advance
          have hgone : l.ckptId ∉ (commitEvent false l none).queue := fun hmem => by
            rw [Nat.le_antisymm (hadv.ge _ hmem) hadv.le] at hnot
            exact hnot hc
          by_cases hes : ∀ i, some i ∉ es
          · have hempty : (commitEvent false l none).queue = [] :=
              h.drained (m := m) (by simpa [hes] using hall')
            rw [foldl_of_gone hgone hes]
            simp [processCommitQueue, hempty, advance]
            grind
          · obtain ⟨i, hi⟩ := not_forall_not.mp hes
            have hmem := mem_queue_of_gone (l := commitEvent false l none) rfl hgone
              (fun hmem => hnew' _ hmem hc) (.inr hi)
            exact iff_of_false (ne_nil_of_mem hmem) fun hno =>
              (hno rfl).1 rfl (.inl hc) i hi
        · have hq : l.ckptId ∉ l.queue := fun hmem => hc ((h.mem_taken _).mpr (.inr (.inl hmem)))
          rw [commitEvent_of_not_mem hq, ih h (fun _ => rfl) hnd hnew' hall']
          simp [hc]

/-- The commit thread ends with an empty queue in the build that stores the checkpoint, and in the
other one if and only if no periodic call comes after the task `ckpt_id` and before another. -/
theorem insert_commit_thread_ends_iff (iss : Bool) (ckptId m : ℕ) (es : List (Option ℕ))
    (hes : (es.filterMap id).Perm (range' ckptId m)) :
    (∃ l, insertCommitThread iss ckptId es = some l ∧ l.queue = []) ↔
      (iss = false → ∀ pre post, es = pre ++ none :: post → some ckptId ∈ pre →
        ∀ i, some i ∉ post) := by
  have hmem : ∀ i, some i ∈ es ↔ ckptId ≤ i ∧ i < ckptId + m := by
    intro i
    rw [← mem_range'_1, ← hes.mem_iff]
    simp
  have hinit : Contiguous ckptId ckptId [] none [] :=
    ⟨Nat.le_refl _, .nil, by simp, by simp, by simp⟩
  have h := drains_iff (l := ⟨ckptId, []⟩) iss hinit (fun _ => rfl)
    (hes.nodup_iff.mpr nodup_range') (by simp) (by simpa using hmem)
  simp only [not_mem_nil, false_or] at h
  rw [← h]
  simp only [insertCommitThread]
  split_ifs with hq <;> simp [hq]

theorem insert_commit_thread_ends_three :
    ∃ l, insertCommitThread false 5 [some 7, none, some 6, some 5] = some l ∧ l.queue = [] :=
  (insert_commit_thread_ends_iff false 5 3 _ (by decide)).mpr (by simp [forall_split_cons])

/-- Two tasks with a call between them: the heap keeps the second one. -/
theorem insert_commit_thread_crashes :
    ([some 5, none, some 6].filterMap id).Perm (range' 5 2) ∧
      insertCommitThread false 5 [some 5, none, some 6] = none := by
  decide

end Shutdown

section Queue

def Phase.current : Phase → Option ℕ
  | .pqStore t _ => some t
  | .pqFlush t => some t
  | .pqFence t => some t
  | .drain t _ => some t
  | .batchStore t _ => some t
  | .batchFlush t _ _ => some t
  | .pushHeap t => some t
  | _ => none

/-- The next checkpoint: inside `process_commit_queue` it runs ahead of `ckpt_id`. -/
def State.base (s : State) : ℕ :=
  match s.commit.phase with
  | .ckptStore c _ => c
  | _ => s.ckptId

def Phase.Advanced : Phase → Prop
  | .ckptStore _ _ => True
  | .ckptFence _ _ => True
  | .superStore _ _ => True
  | .superFlush _ => True
  | .superFence _ => True
  | .processed _ => True
  | _ => False

def Phase.checkpoint : Phase → Option ℕ
  | .ckptFence c _ => some c
  | .superStore c _ => some c
  | _ => none

structure Queued (c₀ : ℕ) (s : State) : Prop where
  contiguous : Contiguous c₀ s.base s.commit.heap s.commit.phase.current s.commit.taken
  exact : s.commit.phase.Advanced → s.base ∉ s.commit.taken
  checkpoint : ∀ c, s.commit.phase.checkpoint = some c → c = s.ckptId

theorem Opened.queued (h : Opened cfg s) : Queued s.ckptId s where
  contiguous := by
    simp only [State.base, h.commit, Phase.current]
    exact ⟨Nat.le_refl _, List.Pairwise.nil, by simp, by simp, by simp⟩
  exact ha := by simp [h.commit, Phase.Advanced] at ha
  checkpoint c hc := by simp [h.commit, Phase.checkpoint] at hc

theorem Queued.congr {c₀ : ℕ} (h : Queued c₀ s) (hcommit : t.commit = s.commit)
    (hckpt : t.ckptId = s.ckptId) : Queued c₀ t := by
  have hbase : t.base = s.base := by simp only [State.base, hcommit, hckpt]
  refine ⟨?_, ?_, ?_⟩
  · rw [hbase, hcommit]
    exact h.contiguous
  · rw [hbase, hcommit]
    exact h.exact
  · rw [hcommit, hckpt]
    exact h.checkpoint

/-- Only the commit thread moves its own state and the checkpoint. -/
theorem step_commit_eq {a : Act} (hs : step cfg s a = some t) (ha : ∀ timer, a ≠ .commit timer) :
    t.commit = s.commit ∧ t.ckptId = s.ckptId := by
  cases step_move hs with
  | exec hop hst hrest heff => exact ⟨(effect_frame heff).commit, (effect_frame heff).ckptId⟩
  | commit => exact absurd rfl (ha _)
  | search hf | reader hf => exact ⟨hf.commit, hf.ckptId⟩
  | _ => exact ⟨rfl, rfl⟩

variable {c₀ : ℕ}

/-- A commit step that leaves heap, taken ids and next checkpoint alone. -/
theorem Queued.move (h : Queued c₀ s) (hbase : t.base = s.base)
    (hheap : t.commit.heap = s.commit.heap) (htaken : t.commit.taken = s.commit.taken)
    (hcur : t.commit.phase.current = s.commit.phase.current)
    (hadv : t.commit.phase.Advanced → s.commit.phase.Advanced)
    (hck : ∀ c, t.commit.phase.checkpoint = some c → c = t.ckptId) : Queued c₀ t := by
  refine ⟨?_, fun ha => ?_, hck⟩
  · rw [hbase, hheap, htaken, hcur]
    exact h.contiguous
  · rw [hbase, htaken]
    exact h.exact (hadv ha)

theorem Queued.commitStep (h : Queued c₀ s) (hT : Tasked s)
    (hge : ∀ z, .commitTask ∈ history s z → c₀ ≤ z) (hiss : cfg.iss = true) {timer : Bool}
    (hs : commitStep cfg s timer = some t) : Queued c₀ t := by
  obtain ⟨p, hp⟩ : ∃ p, s.commit.phase = p := ⟨_, rfl⟩
  have hC := h.contiguous
  simp only [State.base, hp] at hC
  cases commitStep_move hs hp with
  | @take z code ts p hts hnext =>
    have hz : z ∈ taskIds s.tasks := by simp [hts, taskIds]
    have hnew : z ∉ s.commit.taken := fun hz' => disjoint_of_nodup_append hT.nodup hz hz'
    have hC' := hC.take hnew (hge z ((hT.mem_iff z).mp (mem_append_left _ hz)))
    refine ⟨?_, ?_, ?_⟩ <;> simp only [State.base, State.setPhase, hnext] <;> split_ifs
    all_goals first | exact hC' | simp [Phase.Advanced, Phase.checkpoint]
  | pushHeap => exact ⟨hC.push, fun ha => ha.elim, fun c hc => by cases hc⟩
  | process hadv hnext =>
    obtain ⟨hC', hgap⟩ := hC.advance
    rw [hadv] at hC' hgap
    simp only [hiss, Bool.true_and, decide_eq_true_eq] at hnext
    split_ifs at hnext with hc <;> subst hnext
    · exact ⟨hC', fun _ => hgap, fun c hc' => by cases hc'⟩
    · rw [not_not] at hc
      rw [hc] at hC' hgap
      exact ⟨hC', fun _ => hgap, fun c hc' => by cases hc'⟩
  | _ =>
    have hck := h.checkpoint
    rw [hp] at hck
    refine h.move ?_ rfl rfl ?_ ?_ ?_ <;> simp [State.base, State.setPhase, State.emit, hp,
      Phase.current, Phase.Advanced, Phase.checkpoint] <;> exact hck _ rfl

theorem Queued.step (h : Queued c₀ s) (hT : Tasked s)
    (hge : ∀ z, .commitTask ∈ history s z → c₀ ≤ z) (hiss : cfg.iss = true) {a : Act}
    (hs : Soft.step cfg s a = some t) : Queued c₀ t := by
  by_cases ha : ∃ timer, a = .commit timer
  · obtain ⟨timer, rfl⟩ := ha
    exact h.commitStep hT hge hiss hs
  · obtain ⟨hcommit, hckpt⟩ := step_commit_eq hs fun timer heq => ha ⟨timer, heq⟩
    exact h.congr hcommit hckpt

end Queue

end Ccann.Soft
