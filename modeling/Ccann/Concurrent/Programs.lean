import Ccann.Concurrent.Runs

/-! Threads that acquire and release shared resources. A thread runs one program after
another; a program may ask the shared state for data and let what it acquires depend on the
answer. What a thread has acquired and not yet released is recorded next to its program, as
the thread itself would count it: the shared state may disagree, since a release is granted
to whoever asks for it. If every program acquires in the order of a rank, then no set of
threads can wait for each other. -/

namespace Ccann.Concurrent.Programs

open List Function

/-- A program over resources `κ`, acquired in modes `ι`, and questions `Q` answered by `A`. -/
inductive Prog (ι κ Q A : Type*) where
  | done
  | acquire (m : ι) (r : κ) (next : Prog ι κ Q A)
  | release (r : κ) (next : Prog ι κ Q A)
  | ask (q : Q) (next : A → Prog ι κ Q A)

/-- A shared state `σ` that hands out resources to threads `τ`. `owned` counts how often a
thread is entered as an owner of a resource. -/
structure Manager (σ τ ι κ Q A : Type*) [DecidableEq τ] [DecidableEq κ] where
  grant : σ → τ → ι → κ → Option σ
  free : σ → τ → κ → σ
  answer : σ → Q → Option (A × σ)
  owned : σ → τ → κ → ℕ
  owned_grant : ∀ {s s' t m r}, grant s t m r = some s' →
    ∀ u x, owned s' u x ≤ owned s u x + if u = t ∧ x = r then 1 else 0
  owned_free : ∀ s t r u x,
    owned (free s t r) u x ≤ owned s u x - if u = t ∧ x = r then 1 else 0
  owned_answer : ∀ {s s' q a}, answer s q = some (a, s') → ∀ u x, owned s' u x = owned s u x

/-- A thread: the rest of its program, the resources it takes itself to hold, and what its
current program has acquired and released so far. -/
structure Thread (ι κ Q A : Type*) where
  prog : Prog ι κ Q A := .done
  held : Multiset κ := 0
  acquired : List κ := []
  released : List κ := []

structure Threads (σ τ ι κ Q A : Type*) where
  shared : σ
  thread : τ → Thread ι κ Q A := fun _ => {}

inductive Act (τ ω : Type*) where
  | start (t : τ) (p : ω)
  | step (t : τ)

variable {σ τ ι κ Q A ω ρ : Type*} [DecidableEq τ] [DecidableEq κ]

/-- One atomic step of thread `t`. A request that is not granted has no successor. -/
def threadStep (M : Manager σ τ ι κ Q A) (s : Threads σ τ ι κ Q A) (t : τ) :
    Option (Threads σ τ ι κ Q A) :=
  let th := s.thread t
  match th.prog with
  | .done => none
  | .acquire m r next => (M.grant s.shared t m r).map fun sh =>
    ⟨sh, update s.thread t
      { th with prog := next, held := r ::ₘ th.held, acquired := r :: th.acquired }⟩
  | .release r next => some ⟨M.free s.shared t r, update s.thread t
      { th with prog := next, held := th.held.erase r, released := r :: th.released }⟩
  | .ask q next => (M.answer s.shared q).map fun p =>
    ⟨p.2, update s.thread t { th with prog := next p.1 }⟩

/-- An idle thread may start any program; what it still holds stays on its books. -/
def startStep (code : ω → Prog ι κ Q A) (s : Threads σ τ ι κ Q A) (t : τ) (p : ω) :
    Option (Threads σ τ ι κ Q A) :=
  match (s.thread t).prog with
  | .done => some { s with
      thread := update s.thread t { prog := code p, held := (s.thread t).held } }
  | _ => none

def step (M : Manager σ τ ι κ Q A) (code : ω → Prog ι κ Q A) (s : Threads σ τ ι κ Q A) :
    Act τ ω → Option (Threads σ τ ι κ Q A)
  | .start t p => startStep code s t p
  | .step t => threadStep M s t

variable {M : Manager σ τ ι κ Q A} {code : ω → Prog ι κ Q A} {s s' : Threads σ τ ι κ Q A}
  {t : τ}

section Steps

/-- Everything one step of a thread can do. -/
theorem threadStep_cases (h : threadStep M s t = some s') :
    (∃ m r next sh, (s.thread t).prog = .acquire m r next ∧
      M.grant s.shared t m r = some sh ∧ s' = ⟨sh, update s.thread t
        { s.thread t with prog := next, held := r ::ₘ (s.thread t).held,
                          acquired := r :: (s.thread t).acquired }⟩) ∨
    (∃ r next, (s.thread t).prog = .release r next ∧
      s' = ⟨M.free s.shared t r, update s.thread t
        { s.thread t with prog := next, held := (s.thread t).held.erase r,
                          released := r :: (s.thread t).released }⟩) ∨
    (∃ q next a sh, (s.thread t).prog = .ask q next ∧ M.answer s.shared q = some (a, sh) ∧
      s' = ⟨sh, update s.thread t { s.thread t with prog := next a }⟩) := by
  unfold threadStep at h
  cases hp : (s.thread t).prog with
  | done => simp [hp] at h
  | acquire m r next =>
    simp only [hp, Option.map_eq_some_iff] at h
    obtain ⟨sh, hg, rfl⟩ := h
    exact .inl ⟨m, r, next, sh, rfl, hg, rfl⟩
  | release r next =>
    simp only [hp, Option.some.injEq] at h
    exact .inr (.inl ⟨r, next, rfl, h.symm⟩)
  | ask q next =>
    simp only [hp, Option.map_eq_some_iff] at h
    obtain ⟨⟨a, sh⟩, ha, rfl⟩ := h
    exact .inr (.inr ⟨q, next, a, sh, rfl, ha, rfl⟩)

omit [DecidableEq κ] in
theorem startStep_cases {p : ω} (h : startStep code s t p = some s') :
    (s.thread t).prog = .done ∧ s' = { s with
      thread := update s.thread t { prog := code p, held := (s.thread t).held } } := by
  unfold startStep at h
  cases hp : (s.thread t).prog <;> simp only [hp, Option.some.injEq, reduceCtorEq] at h
  exact ⟨rfl, h.symm⟩

end Steps

section Sequences

def acquireAll (m : ι) (rs : List κ) (next : Prog ι κ Q A) : Prog ι κ Q A :=
  rs.foldr (.acquire m) next

def releaseAll (rs : List κ) (next : Prog ι κ Q A) : Prog ι κ Q A :=
  rs.foldr .release next

end Sequences

section Ranks

/-- The program acquires every resource above all those it holds at that point, whatever
the answers to its questions, and ends with nothing held. -/
def Ordered [LT ρ] (rank : κ → ρ) : Multiset κ → Prog ι κ Q A → Prop
  | held, .done => held = 0
  | held, .acquire _ r next => (∀ x ∈ held, rank x < rank r) ∧ Ordered rank (r ::ₘ held) next
  | held, .release r next => Ordered rank (held.erase r) next
  | held, .ask _ next => ∀ a, Ordered rank held (next a)

variable {rank : κ → ρ} {next : Prog ι κ Q A} {held : Multiset κ} {rs : List κ}

theorem ordered_acquireAll [LT ρ] {m : ι} (hrs : rs.Pairwise fun x y => rank x < rank y)
    (hheld : ∀ x ∈ held, ∀ r ∈ rs, rank x < rank r) (hnext : Ordered rank (held + rs) next) :
    Ordered rank held (acquireAll m rs next) := by
  induction rs generalizing held with
  | nil => simpa [acquireAll] using hnext
  | cons r rs ih =>
    rw [pairwise_cons] at hrs
    refine ⟨fun x hx => hheld x hx r mem_cons_self, ih hrs.2 ?_ ?_⟩
    · intro x hx y hy
      rcases Multiset.mem_cons.mp hx with rfl | hx
      · exact hrs.1 y hy
      · exact hheld x hx y (mem_cons_of_mem r hy)
    · rwa [Multiset.cons_add, ← Multiset.add_cons, Multiset.cons_coe]

theorem ordered_releaseAll [LT ρ] (hnext : Ordered rank (held - rs) next) :
    Ordered rank held (releaseAll rs next) := by
  induction rs generalizing held with
  | nil => simpa [releaseAll] using hnext
  | cons r rs ih =>
    refine ih ?_
    rwa [← Multiset.cons_coe, Multiset.sub_cons] at hnext

/-- The shared state enters no thread as an owner of more than it takes itself to hold. -/
def Tracked (M : Manager σ τ ι κ Q A) (s : Threads σ τ ι κ Q A) : Prop :=
  ∀ t r, M.owned s.shared t r ≤ (s.thread t).held.count r

def InOrder [LT ρ] (rank : κ → ρ) (s : Threads σ τ ι κ Q A) : Prop :=
  ∀ t, Ordered rank (s.thread t).held (s.thread t).prog

def Waits (M : Manager σ τ ι κ Q A) (s : Threads σ τ ι κ Q A) (t : τ) (r : κ) : Prop :=
  ∃ m next, (s.thread t).prog = .acquire m r next ∧ M.grant s.shared t m r = none

/-- Every thread of the set waits for a resource that another one of the set owns. -/
def Deadlocked (M : Manager σ τ ι κ Q A) (s : Threads σ τ ι κ Q A) (D : Finset τ) : Prop :=
  D.Nonempty ∧ ∀ t ∈ D, ∃ r, Waits M s t r ∧ ∃ u ∈ D, u ≠ t ∧ 0 < M.owned s.shared u r

theorem Tracked.threadStep (h : Tracked M s) (hstep : threadStep M s t = some s') :
    Tracked M s' := by
  intro u x
  have hux := h u x
  obtain ⟨m, r, next, sh, -, hg, rfl⟩ | ⟨r, next, -, rfl⟩ | ⟨q, next, a, sh, -, ha, rfl⟩ :=
    threadStep_cases hstep
  · have hle := M.owned_grant hg u x
    by_cases hu : u = t
    · subst hu
      simp only [update_self, Multiset.count_cons]
      by_cases hx : x = r
      · simp only [hx, and_self, if_true] at hle hux ⊢
        omega
      · simp only [hx, and_false, if_false] at hle ⊢
        omega
    · simp only [hu, false_and, if_false] at hle
      simp only [update_of_ne hu]
      omega
  · have hle := M.owned_free s.shared t r u x
    by_cases hu : u = t
    · subst hu
      simp only [update_self]
      by_cases hx : x = r
      · simp only [hx, and_self, if_true, Multiset.count_erase_self] at hle hux ⊢
        omega
      · simp only [hx, and_false, if_false, Multiset.count_erase_of_ne hx] at hle ⊢
        omega
    · simp only [hu, false_and, if_false] at hle
      simp only [update_of_ne hu]
      omega
  · have hle := M.owned_answer ha u x
    by_cases hu : u = t
    · subst hu
      simp only [update_self]
      omega
    · simp only [update_of_ne hu]
      omega

theorem Tracked.step {a : Act τ ω} (h : Tracked M s) (hstep : step M code s a = some s') :
    Tracked M s' := by
  cases a with
  | step t => exact h.threadStep hstep
  | start t p =>
    obtain ⟨-, rfl⟩ := startStep_cases hstep
    intro u x
    by_cases hu : u = t
    · subst hu
      simpa only [update_self] using h u x
    · simpa only [update_of_ne hu] using h u x

theorem InOrder.threadStep [LT ρ] (h : InOrder rank s) (hstep : threadStep M s t = some s') :
    InOrder rank s' := by
  intro u
  have ht := h t
  obtain ⟨m, r, next, sh, hp, hg, rfl⟩ | ⟨r, next, hp, rfl⟩ | ⟨q, next, a, sh, hp, ha, rfl⟩ :=
    threadStep_cases hstep
  all_goals
    by_cases hu : u = t
    case neg => simpa only [update_of_ne hu] using h u
    subst hu
    rw [hp] at ht
    simp only [update_self]
  · exact ht.2
  · exact ht
  · exact ht a

theorem InOrder.startStep [LT ρ] {p : ω} (h : InOrder rank s) (hcode : Ordered rank 0 (code p))
    (hstep : startStep code s t p = some s') : InOrder rank s' := by
  obtain ⟨hp, rfl⟩ := startStep_cases hstep
  intro u
  by_cases hu : u = t
  · subst hu
    have hheld : (s.thread u).held = 0 := by
      have ht := h u
      rwa [hp] at ht
    simpa only [update_self, hheld] using hcode
  · simpa only [update_of_ne hu] using h u

/-- Threads in rank order cannot wait for each other: the one whose request ranks highest
waits for a thread whose own request ranks higher still. -/
theorem not_deadlocked [LinearOrder ρ] (htracked : Tracked M s) (horder : InOrder rank s)
    (D : Finset τ) : ¬ Deadlocked M s D := by
  rintro ⟨hne, hD⟩
  obtain ⟨t₀, ht₀⟩ := hne
  have : Nonempty κ := ⟨(hD t₀ ht₀).choose⟩
  choose! r hwait howner using hD
  obtain ⟨t, ht, hmax⟩ := D.exists_max_image (fun u => rank (r u)) ⟨t₀, ht₀⟩
  obtain ⟨u, hu, -, hown⟩ := howner t ht
  have hheld : r t ∈ (s.thread u).held :=
    Multiset.count_pos.mp (lt_of_lt_of_le hown (htracked u (r t)))
  obtain ⟨m, next, hp, -⟩ := hwait u hu
  have hrank := horder u
  rw [hp] at hrank
  exact absurd (hmax u hu) (not_le.mpr (hrank.1 _ hheld))

/-- The run rule: if all started programs are in rank order, no state of the run holds a
deadlocked set. -/
theorem run_not_deadlocked [LinearOrder ρ] {acts : List (Act τ ω)} (htracked : Tracked M s)
    (horder : InOrder rank s) (hcode : ∀ t p, .start t p ∈ acts → Ordered rank 0 (code p))
    (hrun : run (step M code) s acts = some s') (D : Finset τ) : ¬ Deadlocked M s' D := by
  have hmeets : Meets (step M code)
      (fun _ a => ∀ t p, a = .start t p → Ordered rank 0 (code p)) s acts :=
    meets_of_mem fun a ha t p h => hcode t p (h ▸ ha)
  have hinv : Tracked M s' ∧ InOrder rank s' := by
    refine run_invariant_of_meets (I := fun s => Tracked M s ∧ InOrder rank s)
      ?_ ⟨htracked, horder⟩ hmeets hrun
    rintro u a v ⟨ht, ho⟩ hC hstep
    refine ⟨ht.step hstep, ?_⟩
    cases a with
    | start t p => exact ho.startStep (hC t p rfl) hstep
    | step t => exact ho.threadStep hstep
  exact not_deadlocked hinv.1 hinv.2 D

end Ranks

end Ccann.Concurrent.Programs
