import Ccann.Concurrent.Runs

/-! Reverse edges of the in-memory index. `inter_insert` adds a node to the lists of its new
neighbours. A list with no room is copied under its lock, pruned without it and assigned later, so
what other calls add meanwhile is lost. If nothing is added between the copy and the assignment, an
edge stays until a pruning that has seen it drops it. -/

namespace Ccann.InterInsert

open Concurrent List Function

/-- What a call does next for the neighbour at the head of its list: add the node, prune its copy
of the list, or assign the pruned list. -/
inductive Phase where
  | add
  | prune (copy : List ℕ)
  | assign (copy pool result : List ℕ)
  deriving DecidableEq

/-- A call for `n`, with the neighbours that are done and those that are left. -/
structure Call where
  n : ℕ
  handled : List ℕ
  todo : List ℕ
  phase : Phase := .add
  deriving DecidableEq

/-- A result of `prune_neighbors` for the node `des`. -/
structure Pruned where
  des : ℕ
  pool : List ℕ
  result : List ℕ
  deriving DecidableEq

/-- The lists, the call of each thread, the edges `(des, n)` of the calls that have returned, and
all prunings so far. -/
structure State where
  finalGraph : ℕ → List ℕ
  call : ℕ → Option Call := fun _ => none
  returned : List (ℕ × ℕ) := []
  prunings : List Pruned := []

inductive Act where
  | call (t n : ℕ) (prunedList : List ℕ)
  | step (t : ℕ)
  | ret (t : ℕ)

/-- The pool of the neighbours of `des` and `n`: each at its first place only, and not `des`
itself. -/
def dummyPool (des n : ℕ) (copy : List ℕ) : List ℕ :=
  (copy ++ [n]).eraseDups.filter (· ≠ des)

def State.next (s : State) (t : ℕ) (c : Call) (des : ℕ) (rest list : List ℕ) : State :=
  { s with
    finalGraph := update s.finalGraph des list
    call := update s.call t (some ⟨c.n, des :: c.handled, rest, .add⟩) }

/-- One step of the loop body for `des`; `slack` is `SLACK_FACTOR * range`. -/
def interInsert (slack : ℕ) (prune : ℕ → List ℕ → List ℕ) (s : State) (t : ℕ) (c : Call) (des : ℕ)
    (rest : List ℕ) : State :=
  match c.phase with
  | .add =>
    if c.n ∈ s.finalGraph des then s.next t c des rest (s.finalGraph des)
    else if (s.finalGraph des).length < slack then s.next t c des rest (s.finalGraph des ++ [c.n])
    else
      { s with
        call := update s.call t (some { c with phase := .prune (s.finalGraph des) }) }
  | .prune copy =>
    let pool := dummyPool des c.n copy
    { s with
      prunings := ⟨des, pool, prune des pool⟩ :: s.prunings
      call := update s.call t
        (some { c with phase := .assign copy pool (prune des pool) }) }
  | .assign _ _ result => s.next t c des rest result

/-- A pruned list never names its own node. -/
def step (slack : ℕ) (prune : ℕ → List ℕ → List ℕ) (s : State) : Act → Option State
  | .call t n prunedList =>
    if s.call t = none ∧ n ∉ prunedList then
      some { s with call := update s.call t (some ⟨n, [], prunedList, .add⟩) }
    else none
  | .step t =>
    match s.call t with
    | some c =>
      match c.todo with
      | des :: rest => some (interInsert slack prune s t c des rest)
      | [] => none
    | none => none
  | .ret t =>
    match s.call t with
    | some c =>
      if c.todo = [] then
        some { s with
          call := update s.call t none
          returned := c.handled.map (·, c.n) ++ s.returned }
      else none
    | none => none

/-- When a pruned copy is assigned, nothing was added to the list since it was copied. -/
def Act.fresh (s : State) : Act → Bool
  | .step t =>
    match s.call t with
    | some ⟨_, _, des :: _, .assign copy _ _⟩ => decide (s.finalGraph des ⊆ copy)
    | _ => true
  | _ => true

/-- The edge is there, or a pruning that has seen it has dropped it. -/
def Kept (s : State) (des n : ℕ) : Prop :=
  n ∈ s.finalGraph des ∨ ∃ p ∈ s.prunings, p.des = des ∧ n ∈ p.pool ∧ n ∉ p.result

/-- What is known of a call under way. -/
structure Call.Ok (s : State) (c : Call) : Prop where
  handled : ∀ des ∈ c.handled, Kept s des c.n ∧ des ≠ c.n
  todo : c.n ∉ c.todo
  assign : ∀ copy pool result, c.phase = .assign copy pool result → ∀ des ∈ c.todo.head?,
    pool = dummyPool des c.n copy ∧ ⟨des, pool, result⟩ ∈ s.prunings

structure Inv (s : State) : Prop where
  returned : ∀ e ∈ s.returned, Kept s e.1 e.2 ∧ e.1 ≠ e.2
  calls : ∀ t c, s.call t = some c → c.Ok s

section Steps

variable {slack : ℕ} {prune : ℕ → List ℕ → List ℕ} {s u : State} {t des n : ℕ} {c : Call}

theorem mem_dummyPool {copy : List ℕ} {x : ℕ} :
    x ∈ dummyPool des n copy ↔ (x ∈ copy ∨ x = n) ∧ x ≠ des := by
  simp [dummyPool]

/-- A step that keeps the edges and moves the call of one thread. -/
theorem Inv.move (h : Inv s) {c' : Option Call} (hcall : u.call = update s.call t c')
    (hkept : ∀ d x, d ≠ x → Kept s d x → Kept u d x) (hprunings : s.prunings ⊆ u.prunings)
    (hret : ∀ e ∈ u.returned, e ∈ s.returned ∨ Kept u e.1 e.2 ∧ e.1 ≠ e.2)
    (hok : ∀ c, c' = some c → c.Ok u) : Inv u := by
  refine ⟨fun e he => ?_, fun t' c hc => ?_⟩
  · rcases hret e he with he | he
    · exact ⟨hkept _ _ (h.returned e he).2 (h.returned e he).1, (h.returned e he).2⟩
    · exact he
  · rw [hcall] at hc
    by_cases ht : t' = t
    · subst ht
      exact hok c (by simpa using hc)
    · obtain ⟨hhandled, htodo, hassign⟩ := h.calls t' c (by simpa [ht] using hc)
      exact ⟨fun d hd => ⟨hkept _ _ (hhandled d hd).2 (hhandled d hd).1, (hhandled d hd).2⟩, htodo,
        fun copy pool result hp d hd => ⟨(hassign copy pool result hp d hd).1,
          hprunings (hassign copy pool result hp d hd).2⟩⟩

/-- The list that a call leaves with `des` has all ids that are not accounted for by prunings. -/
theorem Inv.next {rest list : List ℕ} (h : Inv s) (hc : s.call t = some c)
    (htodo : c.todo = des :: rest)
    (hlist : ∀ x, x ∈ s.finalGraph des ∨ x = c.n → x ≠ des → x ∈ list ∨
      ∃ p ∈ s.prunings, p.des = des ∧ x ∈ p.pool ∧ x ∉ p.result) :
    Inv (s.next t c des rest list) := by
  have hok := h.calls t c hc
  have hnot := hok.todo
  rw [htodo, mem_cons, not_or] at hnot
  have hdes : ∀ x, x ∈ s.finalGraph des ∨ x = c.n → x ≠ des →
      Kept (s.next t c des rest list) des x := fun x hx hne => by
    simpa [Kept, State.next] using hlist x hx hne
  have hkept : ∀ d x, d ≠ x → Kept s d x → Kept (s.next t c des rest list) d x := by
    rintro d x hdx (hx | hx)
    · by_cases hd : d = des
      · subst hd
        exact hdes x (.inl hx) (Ne.symm hdx)
      · exact .inl (by simpa [State.next, hd] using hx)
    · exact .inr hx
  refine h.move rfl hkept (List.Subset.refl _) (fun _ => .inl) fun c' hc' => ?_
  cases hc'
  refine ⟨fun d hd => ?_, hnot.2, by simp⟩
  rcases mem_cons.mp hd with rfl | hd
  · exact ⟨hdes c.n (.inr rfl) hnot.1, Ne.symm hnot.1⟩
  · exact ⟨hkept _ _ (hok.handled d hd).2 (hok.handled d hd).1, (hok.handled d hd).2⟩

theorem Inv.interInsert {rest : List ℕ} (h : Inv s) (hc : s.call t = some c)
    (htodo : c.todo = des :: rest)
    (hfresh : ∀ copy pool result, c.phase = .assign copy pool result → s.finalGraph des ⊆ copy) :
    Inv (interInsert slack prune s t c des rest) := by
  have hok := h.calls t c hc
  cases hp : c.phase with
  | add =>
    simp only [InterInsert.interInsert, hp]
    split_ifs with hmem hroom
    · refine h.next hc htodo fun x hx _ => .inl ?_
      rcases hx with hx | rfl
      · exact hx
      · exact hmem
    · exact h.next hc htodo fun x hx _ => .inl (by simpa using hx)
    · refine h.move rfl (fun _ _ _ => id) (List.Subset.refl _) (fun _ => .inl) fun c' hc' => ?_
      cases hc'
      exact ⟨hok.handled, hok.todo, by simp⟩
  | prune copy =>
    simp only [InterInsert.interInsert, hp]
    have hkept : ∀ d x, Kept s d x → ∀ p, Kept { s with prunings := p :: s.prunings } d x := by
      rintro d x (hx | ⟨q, hq, hdrop⟩) p
      · exact .inl hx
      · exact .inr ⟨q, mem_cons_of_mem p hq, hdrop⟩
    refine h.move rfl (fun d x _ hx => hkept d x hx _) (subset_cons_self _ _) (fun _ => .inl)
      fun c' hc' => ?_
    cases hc'
    refine ⟨fun d hd => ⟨hkept d _ (hok.handled d hd).1 _, (hok.handled d hd).2⟩, hok.todo, ?_⟩
    rintro copy' pool result heq d hd
    cases heq
    obtain rfl : des = d := by simpa [htodo] using hd
    exact ⟨rfl, mem_cons_self⟩
  | assign copy pool result =>
    simp only [InterInsert.interInsert, hp]
    obtain ⟨rfl, hrec⟩ := hok.assign copy pool result hp des (by simp [htodo])
    refine h.next hc htodo fun x hx hne => ?_
    -- an id of the pool is in the result or was dropped by this very pruning
    have hpool : x ∈ dummyPool des c.n copy :=
      mem_dummyPool.mpr ⟨hx.imp_left fun hx => hfresh _ _ _ hp hx, hne⟩
    by_cases hres : x ∈ result
    · exact .inl hres
    · exact .inr ⟨_, hrec, rfl, hpool, hres⟩

theorem Inv.step {a : Act} (h : Inv s) (hfresh : a.fresh s = true) (hs : step slack prune s a = some u) :
    Inv u := by
  cases a with
  | call t n prunedList =>
    simp only [InterInsert.step, Option.ite_none_right_eq_some, Option.some.injEq] at hs
    obtain ⟨⟨-, hn⟩, rfl⟩ := hs
    refine h.move rfl (fun _ _ _ => id) (List.Subset.refl _) (fun _ => .inl) fun c' hc' => ?_
    cases hc'
    exact ⟨by simp, hn, by simp⟩
  | step t =>
    simp only [InterInsert.step] at hs
    split at hs
    next c hc =>
      split at hs
      next des rest htodo =>
        cases hs
        refine h.interInsert hc htodo fun copy pool result hp => ?_
        obtain ⟨n, handled, todo, phase⟩ := c
        subst htodo hp
        simpa [Act.fresh, hc] using hfresh
      · cases hs
    · cases hs
  | ret t =>
    simp only [InterInsert.step] at hs
    split at hs
    next c hc =>
      simp only [Option.ite_none_right_eq_some, Option.some.injEq] at hs
      obtain ⟨-, rfl⟩ := hs
      refine h.move rfl (fun _ _ _ => id) (List.Subset.refl _) (fun e he => ?_) (by simp)
      rcases mem_append.mp he with he | he
      · obtain ⟨d, hd, rfl⟩ := mem_map.mp he
        exact .inr ((h.calls t c hc).handled d hd)
      · exact .inl he
    · cases hs

end Steps

/-- In a run in which nothing is added to a list between a copy of it and the assignment, the edges
of the calls that have returned are there, unless a pruning that has seen them has dropped them. -/
theorem reverse_edges_kept (slack : ℕ) (prune : ℕ → List ℕ → List ℕ) (g : ℕ → List ℕ)
    (as : List Act) (s : State) (hrun : run (step slack prune) { finalGraph := g } as = some s)
    (hfresh : Meets (step slack prune) (fun s a => a.fresh s = true) { finalGraph := g } as) :
    ∀ e ∈ s.returned, e.2 ∈ s.finalGraph e.1 ∨
      ∃ p ∈ s.prunings, p.des = e.1 ∧ e.2 ∈ p.pool ∧ e.2 ∉ p.result := by
  have hinit : Inv { finalGraph := g } := ⟨by simp, by simp⟩
  have h : Inv s := run_invariant_of_meets (fun _ _ _ h hf hs => h.step hf hs) hinit hfresh hrun
  exact fun e he => (h.returned e he).1

/-- Keep the id that is nearest, by its number. -/
def nearest (_ : ℕ) (pool : List ℕ) : List ℕ :=
  pool.min?.toList

/-- Two calls for the same node, of which one copies the list after the other has assigned it. -/
def twoCalls : List Act :=
  [.call 1 3 [0], .call 2 2 [0], .step 1, .step 1, .step 1, .step 2, .step 2, .step 2, .ret 2,
    .ret 1]

theorem reverse_edges_kept_two :
    ∃ s, run (step 1 nearest) { finalGraph := fun _ => [9] } twoCalls = some s ∧
      s.returned = [(0, 3), (0, 2)] ∧ ∀ e ∈ s.returned, e.2 ∈ s.finalGraph e.1 ∨
        ∃ p ∈ s.prunings, p.des = e.1 ∧ e.2 ∈ p.pool ∧ e.2 ∉ p.result :=
  ⟨_, rfl, rfl, reverse_edges_kept 1 nearest (fun _ => [9]) twoCalls _ rfl (by decide)⟩

/-- Two calls copy the same full list; the one that assigns first loses its edge. -/
theorem reverse_edge_lost :
    ∃ s, run (step 1 nearest) { finalGraph := fun _ => [9] }
        [.call 1 3 [0], .call 2 2 [0], .step 1, .step 2, .step 2, .step 2, .ret 2, .step 1,
          .step 1] = some s ∧ (0, 2) ∈ s.returned ∧ s.finalGraph 0 = [3] ∧
      ∀ p ∈ s.prunings, p.des = 0 → 2 ∈ p.pool → 2 ∈ p.result :=
  ⟨_, rfl, by decide⟩

end Ccann.InterInsert
