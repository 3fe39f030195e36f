import Mathlib

/-! Finite runs of a partial step function. An action that is not enabled in a
state has no successor, so a run is a list of actions all of which are enabled in
turn. `Meets` restricts a run by a condition on each step, read in the state before
that step; the invariant rule below is the only induction over runs that the later
modules need. -/

namespace Ccann.Concurrent

variable {S A : Type*} {step : S → A → Option S} {as : List A} {C D : S → A → Prop} {I : S → Prop}
  {s t : S} {μ : S → ℕ}

/-- Take the actions in order; `none` once one of them is not enabled. -/
def run (step : S → A → Option S) : S → List A → Option S
  | s, [] => some s
  | s, a :: as => (step s a).bind fun t => run step t as

/-- Every step of the run is taken in a state that meets the condition `C`. -/
def Meets (step : S → A → Option S) (C : S → A → Prop) : S → List A → Prop
  | _, [] => True
  | s, a :: as => C s a ∧ ∀ t, step s a = some t → Meets step C t as

/-- Whether a run ends in a state with a decidable property can be computed. -/
instance decidableExistsSome (o : Option S) (P : S → Prop) [DecidablePred P] :
    Decidable (∃ x, o = some x ∧ P x) :=
  match o with
  | none => isFalse (by simp)
  | some a => decidable_of_iff (P a) (by simp)

/-- What follows at the end of a run from what is computed there. -/
theorem exists_some_imp {o : Option S} {P Q : S → Prop} (h : ∃ x, o = some x ∧ P x)
    (hQ : ∀ x, o = some x → P x → Q x) : ∃ x, o = some x ∧ Q x := by
  obtain ⟨x, hx, hP⟩ := h
  exact ⟨x, hx, hQ x hx hP⟩

@[simp] theorem run_nil (s : S) : run step s [] = some s := rfl

theorem run_cons_eq_some {a : A} :
    run step s (a :: as) = some t ↔ ∃ u, step s a = some u ∧ run step u as = some t := by
  simp [run, Option.bind_eq_some_iff]

theorem run_append (s : S) (as bs : List A) :
    run step s (as ++ bs) = (run step s as).bind fun t => run step t bs := by
  induction as generalizing s with
  | nil => rfl
  | cons a as ih => simp only [List.cons_append, run, Option.bind_assoc, ih]

@[simp] theorem meets_nil (C : S → A → Prop) (s : S) : Meets step C s [] := trivial

/-- Whether a given run meets a decidable condition can be computed. -/
def decideMeets (step : S → A → Option S) (C : S → A → Prop) [∀ s a, Decidable (C s a)] :
    (s : S) → (as : List A) → Decidable (Meets step C s as)
  | _, [] => isTrue trivial
  | s, a :: as =>
    match h : step s a with
    | none => decidable_of_iff (C s a) ⟨fun hc => ⟨hc, by simp [h]⟩, fun hm => hm.1⟩
    | some t =>
      have := decideMeets step C t as
      decidable_of_iff (C s a ∧ Meets step C t as)
        ⟨fun hm => ⟨hm.1, fun u hu => by cases h.symm.trans hu; exact hm.2⟩,
          fun hm => ⟨hm.1, hm.2 t h⟩⟩

instance (C : S → A → Prop) [∀ s a, Decidable (C s a)] (s : S) (as : List A) :
    Decidable (Meets step C s as) :=
  decideMeets step C s as

theorem meets_true (s : S) (as : List A) : Meets step (fun _ _ => True) s as := by
  induction as generalizing s with
  | nil => trivial
  | cons a as ih => exact ⟨trivial, fun t _ => ih t⟩

theorem meets_of_mem {C : A → Prop} (h : ∀ a ∈ as, C a) : Meets step (fun _ a => C a) s as := by
  induction as generalizing s with
  | nil => trivial
  | cons a as ih =>
    exact ⟨h a List.mem_cons_self, fun t _ => ih fun b hb => h b (List.mem_cons_of_mem a hb)⟩

theorem Meets.imp (h : ∀ s a, C s a → D s a) (hC : Meets step C s as) : Meets step D s as := by
  induction as generalizing s with
  | nil => trivial
  | cons a as ih => exact ⟨h s a hC.1, fun t ht => ih (hC.2 t ht)⟩

/-- A run that completes meets what each of its steps needs. -/
theorem meets_of_run (h : ∀ s a t, step s a = some t → C s a) (hrun : run step s as = some t) :
    Meets step C s as := by
  induction as generalizing s with
  | nil => trivial
  | cons a as ih =>
    obtain ⟨u, hu, hrun⟩ := run_cons_eq_some.mp hrun
    refine ⟨h s a u hu, fun v hv => ?_⟩
    cases hu.symm.trans hv
    exact ih hrun

theorem meets_append {bs : List A} :
    Meets step C s (as ++ bs) ↔
      Meets step C s as ∧ ∀ t, run step s as = some t → Meets step C t bs := by
  induction as generalizing s with
  | nil => simp
  | cons a as ih =>
    constructor
    · rintro ⟨ha, hrest⟩
      refine ⟨⟨ha, fun u hu => (ih.mp (hrest u hu)).1⟩, fun t ht => ?_⟩
      obtain ⟨u, hu, ht⟩ := run_cons_eq_some.mp ht
      exact (ih.mp (hrest u hu)).2 t ht
    · rintro ⟨⟨ha, hrest⟩, hbs⟩
      exact ⟨ha, fun u hu => ih.mpr ⟨hrest u hu, fun t ht =>
        hbs t (run_cons_eq_some.mpr ⟨u, hu, ht⟩)⟩⟩

/-- Two conditions that agree wherever an invariant holds restrict runs alike. -/
theorem meets_iff_of_invariant (hiff : ∀ s a, I s → (C s a ↔ D s a))
    (hstep : ∀ s a t, I s → C s a → step s a = some t → I t) (hs : I s) :
    Meets step C s as ↔ Meets step D s as := by
  induction as generalizing s with
  | nil => exact Iff.rfl
  | cons a as ih =>
    constructor
    · rintro ⟨ha, hrest⟩
      exact ⟨(hiff s a hs).mp ha, fun t ht => (ih (hstep s a t hs ha ht)).mp (hrest t ht)⟩
    · rintro ⟨ha, hrest⟩
      have ha' := (hiff s a hs).mpr ha
      exact ⟨ha', fun t ht => (ih (hstep s a t hs ha' ht)).mpr (hrest t ht)⟩

/-- The invariant rule for runs whose steps all meet a condition. -/
theorem run_invariant_of_meets (hstep : ∀ s a t, I s → C s a → step s a = some t → I t) (hs : I s)
    (hC : Meets step C s as) (hrun : run step s as = some t) : I t := by
  induction as generalizing s with
  | nil =>
    cases hrun
    exact hs
  | cons a as ih =>
    obtain ⟨u, hu, hrun⟩ := run_cons_eq_some.mp hrun
    exact ih (hstep s a u hs hC.1 hu) (hC.2 u hu) hrun

/-- The invariant rule for arbitrary runs. -/
theorem run_invariant (hstep : ∀ s a t, I s → step s a = some t → I t) (hs : I s)
    (hrun : run step s as = some t) : I t :=
  run_invariant_of_meets (fun s a t h _ => hstep s a t h) hs (meets_true s as) hrun

/-- A run never gets stuck if each of its actions is enabled wherever the invariant and the
condition hold. -/
theorem exists_run_of_meets (hstep : ∀ s a, I s → C s a → ∃ t, step s a = some t ∧ I t) (hs : I s)
    (hC : Meets step C s as) : ∃ t, run step s as = some t ∧ I t := by
  induction as generalizing s with
  | nil => exact ⟨s, rfl, hs⟩
  | cons a as ih =>
    obtain ⟨u, hu, hIu⟩ := hstep s a hs hC.1
    obtain ⟨t, ht, hIt⟩ := ih hIu (hC.2 u hu)
    exact ⟨t, run_cons_eq_some.mpr ⟨u, hu, ht⟩, hIt⟩

/-- A run is followed step by step from a related state. -/
theorem exists_run_of_simulation {R : S → S → Prop}
    (hstep : ∀ s s' a t, R s s' → step s a = some t → ∃ t', step s' a = some t' ∧ R t t') {s' : S}
    (hs : R s s') (hrun : run step s as = some t) : ∃ t', run step s' as = some t' ∧ R t t' := by
  induction as generalizing s s' with
  | nil =>
    cases hrun
    exact ⟨s', rfl, hs⟩
  | cons a as ih =>
    obtain ⟨u, hu, hrun⟩ := run_cons_eq_some.mp hrun
    obtain ⟨u', hu', hR⟩ := hstep s s' a u hs hu
    obtain ⟨t', ht', hR⟩ := ih hR hrun
    exact ⟨t', run_cons_eq_some.mpr ⟨u', hu', ht'⟩, hR⟩

/-- A quantity that every step lowers bounds the length of a run. -/
theorem length_le_of_run (hstep : ∀ s a t, I s → step s a = some t → I t ∧ μ t < μ s) (hs : I s)
    (hrun : run step s as = some t) : as.length + μ t ≤ μ s := by
  induction as generalizing s with
  | nil =>
    cases hrun
    exact Nat.le_of_eq (Nat.zero_add _)
  | cons a as ih =>
    obtain ⟨u, hu, hrun⟩ := run_cons_eq_some.mp hrun
    obtain ⟨hIu, hlt⟩ := hstep s a u hs hu
    have hle := ih hIu hrun
    rw [List.length_cons]
    omega

/-- How many steps of a run are taken where `C` holds. -/
def countSteps (step : S → A → Option S) (C : S → A → Bool) : S → List A → ℕ
  | _, [] => 0
  | s, a :: as =>
    match step s a with
    | none => 0
    | some t => (if C s a then 1 else 0) + countSteps step C t as

/-- A quantity that no step raises, and those where `C` holds lower, bounds their number. -/
theorem countSteps_le_of_run {C : S → A → Bool}
    (hstep : ∀ s a t, I s → D s a → step s a = some t → I t ∧ (if C s a then 1 else 0) + μ t ≤ μ s)
    (hs : I s) (hD : Meets step D s as) (hrun : run step s as = some t) :
    countSteps step C s as + μ t ≤ μ s := by
  induction as generalizing s with
  | nil =>
    cases hrun
    exact Nat.le_of_eq (Nat.zero_add _)
  | cons a as ih =>
    obtain ⟨u, hu, hrun⟩ := run_cons_eq_some.mp hrun
    obtain ⟨hIu, hle⟩ := hstep s a u hs hD.1 hu
    have hrest := ih hIu (hD.2 u hu) hrun
    simp only [countSteps, hu]
    omega

/-- If runs cannot be long, one of them ends where no action is enabled. -/
theorem exists_maximal_run {n : ℕ} (hbound : ∀ as t, run step s as = some t → as.length ≤ n) :
    ∃ as t, run step s as = some t ∧ ∀ a, step t a = none := by
  by_contra hno
  push Not at hno
  -- Then every run can be continued, and there are runs of any length.
  have hlong : ∀ k, ∃ as t, run step s as = some t ∧ as.length = k := by
    intro k
    induction k with
    | zero => exact ⟨[], s, rfl, rfl⟩
    | succ k ih =>
      obtain ⟨as, t, hrun, rfl⟩ := ih
      obtain ⟨a, ha⟩ := hno as t hrun
      obtain ⟨u, hu⟩ := Option.ne_none_iff_exists'.mp ha
      refine ⟨as ++ [a], u, ?_, by simp⟩
      rw [run_append, hrun, Option.bind_some]
      exact run_cons_eq_some.mpr ⟨u, hu, rfl⟩
  obtain ⟨as, t, hrun, hlen⟩ := hlong (n + 1)
  have hle := hbound as t hrun
  omega

namespace Numerals

/-! Instances for the numerals of small examples. -/

scoped instance neZero_two : NeZero 2 := ⟨two_ne_zero⟩

scoped instance neZero_three : NeZero 3 := ⟨three_ne_zero⟩

scoped instance atLeastTwo_two : Nat.AtLeastTwo 2 := ⟨le_rfl⟩

end Numerals

end Ccann.Concurrent
