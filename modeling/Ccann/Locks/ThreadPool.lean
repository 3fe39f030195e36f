import Ccann.Concurrent.Runs

/-! The pool of the small build. A worker takes a task from the queue under the lock and runs it
after the lock is released; `wait_all`, which `synchronize_insertions` calls, looks at the queue
only. So it returns as soon as the last task was taken, and it is a barrier exactly if no worker
runs an earlier task at that time. -/

namespace Ccann.ThreadPool

open Concurrent Function

/-- Tasks are numbered as they are submitted. `running` is the task of a worker, `waiting` the
number of tasks that were submitted before the thread called `wait_all`. -/
structure State where
  tasks : List ℕ := []
  running : ℕ → Option ℕ := fun _ => none
  finished : List ℕ := []
  submitted : ℕ := 0
  waiting : ℕ → Option ℕ := fun _ => none

inductive Act where
  | submit
  | take (w : ℕ)
  | finish (w : ℕ)
  | waitAll (t : ℕ)
  | check (t : ℕ)

def step (numThreads : ℕ) (s : State) : Act → Option State
  | .submit => some { s with tasks := s.tasks ++ [s.submitted], submitted := s.submitted + 1 }
  | .take w =>
    match s.tasks with
    | [] => none
    | x :: xs =>
      if w < numThreads ∧ s.running w = none then
        some { s with tasks := xs, running := update s.running w (some x) }
      else none
  | .finish w =>
    (s.running w).map fun x =>
      { s with finished := x :: s.finished, running := update s.running w none }
  | .waitAll t =>
    if s.waiting t = none then
      some { s with waiting := update s.waiting t (some s.submitted) }
    else none
  | .check t =>
    if s.waiting t = none then none
    else if s.tasks = [] then some { s with waiting := update s.waiting t none }
    else some s

structure Inv (s : State) : Prop where
  placed : ∀ x < s.submitted, x ∈ s.tasks ∨ (∃ w, s.running w = some x) ∨ x ∈ s.finished
  nodup : s.tasks.Nodup
  lt : ∀ x, x ∈ s.tasks ∨ (∃ w, s.running w = some x) ∨ x ∈ s.finished → x < s.submitted
  queued : ∀ x ∈ s.tasks, (∀ w, s.running w ≠ some x) ∧ x ∉ s.finished
  once : ∀ w w' x, s.running w = some x → s.running w' = some x → w = w'
  done : ∀ x ∈ s.finished, ∀ w, s.running w ≠ some x
  waits : ∀ t n, s.waiting t = some n → n ≤ s.submitted

variable {numThreads : ℕ} {s t : State} {a : Act}

theorem Inv.step (h : Inv s) (hs : step numThreads s a = some t) : Inv t := by
  obtain ⟨placed, nodup, lt, queued, once, done, waits⟩ := h
  cases a with
  | submit =>
    cases hs
    -- the new number is larger than those in the queue, of the workers and of finished tasks
    have hnew : s.submitted ∉ s.tasks := fun hmem => Nat.lt_irrefl _ (lt _ (.inl hmem))
    constructor <;> grind
  | take w =>
    simp only [ThreadPool.step] at hs
    split at hs
    · cases hs
    · rename_i x xs htasks
      split_ifs at hs with hw
      cases hs
      -- the head of the queue is not behind it in the queue, with no worker and not finished
      obtain ⟨hx, hxs⟩ := List.nodup_cons.mp (htasks ▸ nodup)
      obtain ⟨hidle, hfin⟩ := queued x (htasks ▸ List.mem_cons_self)
      refine ⟨fun y hy => ?_, hxs, ?_, ?_, ?_, ?_, waits⟩
      · by_cases hyx : y = x
        · exact .inr (.inl ⟨w, by simp [hyx]⟩)
        · rcases placed y hy with hq | ⟨v, hv⟩ | hf
          · exact .inl (by grind)
          · exact .inr (.inl ⟨v, by grind⟩)
          · exact .inr (.inr hf)
      all_goals grind
  | finish w =>
    obtain ⟨x, hx, rfl⟩ := Option.map_eq_some_iff.mp hs
    -- the task was in no queue, and no other worker has it
    have hqueue : x ∉ s.tasks := fun hmem => (queued x hmem).1 w hx
    have hothers : ∀ v, s.running v = some x → v = w := fun v hv => once v w x hv hx
    refine ⟨fun y hy => ?_, nodup, ?_, ?_, ?_, ?_, waits⟩
    · by_cases hyx : y = x
      · exact .inr (.inr (by simp [hyx]))
      · rcases placed y hy with hq | ⟨v, hv⟩ | hf
        · exact .inl hq
        · exact .inr (.inl ⟨v, by grind⟩)
        · exact .inr (.inr (List.mem_cons_of_mem x hf))
    all_goals grind
  | waitAll u =>
    simp only [ThreadPool.step] at hs
    split_ifs at hs
    cases hs
    exact ⟨placed, nodup, lt, queued, once, done, by grind⟩
  | check u =>
    simp only [ThreadPool.step] at hs
    split_ifs at hs
    all_goals cases hs
    · exact ⟨placed, nodup, lt, queued, once, done, by grind⟩
    · exact ⟨placed, nodup, lt, queued, once, done, waits⟩

theorem inv_init : Inv {} := by
  constructor <;> simp

/-- When `wait_all` returns, all tasks that were submitted before the call have finished if and
only if no worker is running one of them. -/
theorem wait_all_barrier_iff (numThreads : ℕ) (as : List Act) {s s' : State} {t n : ℕ}
    (hrun : run (step numThreads) {} as = some s) (hcall : s.waiting t = some n)
    (hcheck : step numThreads s (.check t) = some s') (hret : s'.waiting t = none) :
    (∀ x < n, x ∈ s'.finished) ↔ ∀ w x, s.running w = some x → n ≤ x := by
  have h : Inv s := run_invariant (fun _ _ _ hs => hs.step) inv_init hrun
  obtain ⟨hempty, rfl⟩ : s.tasks = [] ∧
      s' = { s with waiting := update s.waiting t none } := by
    simp only [step, hcall, reduceCtorEq, if_false] at hcheck
    split_ifs at hcheck with hempty
    all_goals cases hcheck
    · exact ⟨hempty, rfl⟩
    · rw [hcall] at hret
      cases hret
  constructor
  · intro hfin w x hw
    by_contra hlt
    exact h.done x (hfin x (by omega)) w hw
  · intro hidle x hx
    rcases h.placed x (Nat.lt_of_lt_of_le hx (h.waits t n hcall)) with hmem | ⟨w, hw⟩ | hmem
    · rw [hempty] at hmem
      cases hmem
    · exact absurd (hidle w x hw) (Nat.not_le.mpr hx)
    · exact hmem

theorem wait_all_barrier_finished :
    ∃ s s', run (step 1) {} [.submit, .waitAll 7, .take 0, .finish 0] = some s ∧
      s.waiting 7 = some 1 ∧ step 1 s (.check 7) = some s' ∧ s'.waiting 7 = none ∧
      ∀ x < 1, x ∈ s'.finished := by
  refine ⟨_, _, rfl, rfl, rfl, rfl, ?_⟩
  refine (wait_all_barrier_iff 1 [.submit, .waitAll 7, .take 0, .finish 0] (t := 7) rfl rfl rfl
    rfl).mpr ?_
  intro w x hw
  by_cases h0 : w = 0 <;> simp [h0] at hw

/-- One task, taken and not finished: `wait_all` returns. -/
theorem wait_all_returns_early :
    ∃ s s', run (step 1) {} [.submit, .waitAll 7, .take 0] = some s ∧ s.waiting 7 = some 1 ∧
      step 1 s (.check 7) = some s' ∧ s'.waiting 7 = none ∧ s'.running 0 = some 0 ∧
      0 ∉ s'.finished :=
  ⟨_, _, rfl, rfl, rfl, rfl, rfl, by simp⟩

end Ccann.ThreadPool
