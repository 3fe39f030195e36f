import Ccann.Persist.Log

/-! The values that may survive a crash at an address, computed. One scan of the log from
the newest event on decides whether a store to the address is surely durable; a second one
collects the stores before which no newer store is. -/

namespace Ccann.Persist

open List

variable {τ α β : Type*} [DecidableEq τ] [DecidableEq α]

/-- Scan for a store to `a` behind a flush of `a` whose thread has fenced: `fenced` are the
threads whose fence was passed, `flushed` says whether such a flush was. -/
def scan (a : α) : List τ → Bool → Log τ α β → Bool
  | _, _, [] => false
  | fenced, flushed, .fence u :: L => scan a (u :: fenced) flushed L
  | fenced, flushed, .flush u b :: L =>
    scan a fenced (flushed || (decide (b = a) && decide (u ∈ fenced))) L
  | fenced, flushed, .store _ b _ :: L => (decide (b = a) && flushed) || scan a fenced flushed L

section Scan

variable {a : α} {u : τ} {L : Log τ α β}

omit [DecidableEq τ] [DecidableEq α]

theorem persisted_cons_fence : Persisted (.fence u :: L) a ↔
    (∃ t v, [.flush u a, .store t a v].Sublist L) ∨ Persisted L a := by
  constructor
  · rintro ⟨t, v, u', h⟩
    rcases sublist_cons_iff.mp h with h | ⟨_, heq, h⟩
    · exact .inr ⟨t, v, u', h⟩
    · cases heq
      exact .inl ⟨t, v, h⟩
  · rintro (⟨t, v, h⟩ | h)
    · exact ⟨t, v, u, h.cons_cons _⟩
    · exact h.mono (sublist_cons_self _ L)

theorem persisted_cons_other {e : Event τ α β} (he : ∀ u, e ≠ .fence u) :
    Persisted (e :: L) a ↔ Persisted L a := by
  constructor
  · rintro ⟨t, v, u, h⟩
    rcases sublist_cons_iff.mp h with h | ⟨_, heq, -⟩
    · exact ⟨t, v, u, h⟩
    · cases heq
      exact absurd rfl (he u)
  · exact fun h => h.mono (sublist_cons_self _ L)

end Scan

/-- The scan finds a store that is covered by what it has passed or by what follows. -/
theorem scan_iff (a : α) (fenced : List τ) (flushed : Bool) (L : Log τ α β) :
    scan a fenced flushed L = true ↔ (flushed = true ∧ ∃ t v, .store t a v ∈ L) ∨
      (∃ u ∈ fenced, ∃ t v, [.flush u a, .store t a v].Sublist L) ∨ Persisted L a := by
  induction L generalizing fenced flushed with
  | nil => simp [scan, Persisted, SurelyDurable]
  | cons e L ih =>
    cases e with
    | fence u =>
      rw [scan, ih, persisted_cons_fence]
      simp only [mem_cons, reduceCtorEq, false_or, cons_sublist_cons', false_and, or_false,
        exists_eq_or_imp, or_assoc]
      rw [or_left_comm (a := ∃ t v, [Event.flush u a, Event.store t a v].Sublist L)]
    | flush u b =>
      rw [scan, ih, persisted_cons_other (by simp)]
      simp only [mem_cons, reduceCtorEq, false_or, cons_sublist_cons', Event.flush.injEq,
        singleton_sublist, Bool.or_eq_true, Bool.and_eq_true, decide_eq_true_eq]
      constructor
      · rintro (⟨hf | ⟨rfl, hu⟩, t, v, h⟩ | ⟨u', hu', t, v, h⟩ | h)
        · exact .inl ⟨hf, t, v, h⟩
        · exact .inr (.inl ⟨u, hu, t, v, .inr ⟨⟨rfl, rfl⟩, h⟩⟩)
        · exact .inr (.inl ⟨u', hu', t, v, .inl h⟩)
        · exact .inr (.inr h)
      · rintro (⟨hf, t, v, h⟩ | ⟨u', hu', t, v, h | ⟨⟨rfl, rfl⟩, h⟩⟩ | h)
        · exact .inl ⟨.inl hf, t, v, h⟩
        · exact .inr (.inl ⟨u', hu', t, v, h⟩)
        · exact .inl ⟨.inr ⟨rfl, hu'⟩, t, v, h⟩
        · exact .inr (.inr h)
    | store t b v =>
      rw [scan, Bool.or_eq_true, ih, persisted_cons_other (by simp)]
      simp only [mem_cons, Event.store.injEq, cons_sublist_cons', reduceCtorEq, false_and,
        or_false, Bool.and_eq_true, decide_eq_true_eq]
      constructor
      · rintro (⟨rfl, hf⟩ | ⟨hf, t', v', h⟩ | h)
        · exact .inl ⟨hf, t, v, .inl ⟨rfl, rfl, rfl⟩⟩
        · exact .inl ⟨hf, t', v', .inr h⟩
        · exact .inr h
      · rintro (⟨hf, t', v', ⟨rfl, rfl, rfl⟩ | h⟩ | h)
        · exact .inl ⟨rfl, hf⟩
        · exact .inr (.inl ⟨hf, t', v', h⟩)
        · exact .inr (.inr h)

instance (L : Log τ α β) (a : α) : Decidable (Persisted L a) :=
  decidable_of_iff (scan a [] false L = true) (by simp [scan_iff])

/-- The stores to `a` in the log, newest first, with what came after them in `newer`. -/
def survivorsFrom (a : α) : Log τ α β → Log τ α β → List β
  | _, [] => []
  | newer, e :: L =>
    let rest := survivorsFrom a (newer ++ [e]) L
    match e with
    | .store _ b v => if b = a ∧ ¬ Persisted newer a then v :: rest else rest
    | _ => rest

def survivors (init : α → β) (L : Log τ α β) (a : α) : List β :=
  survivorsFrom a [] L ++ if Persisted L a then [] else [init a]

theorem mem_survivorsFrom {a : α} {newer L : Log τ α β} {v : β} :
    v ∈ survivorsFrom a newer L ↔
      ∃ mid t older, L = mid ++ .store t a v :: older ∧ ¬ Persisted (newer ++ mid) a := by
  induction L generalizing newer with
  | nil => simp [survivorsFrom]
  | cons e L ih =>
    have hrest : v ∈ survivorsFrom a (newer ++ [e]) L ↔ ∃ mid t older,
        e :: L = e :: mid ++ .store t a v :: older ∧ ¬ Persisted (newer ++ e :: mid) a := by
      rw [ih]
      simp
    have hhead : (∃ mid t older, e :: L = mid ++ .store t a v :: older ∧
        ¬ Persisted (newer ++ mid) a) ↔ (∃ t, e = .store t a v ∧ ¬ Persisted newer a) ∨
          v ∈ survivorsFrom a (newer ++ [e]) L := by
      rw [hrest]
      constructor
      · rintro ⟨mid, t, older, hL, hp⟩
        cases mid with
        | nil =>
          obtain ⟨rfl, -⟩ := cons.inj hL
          exact .inl ⟨t, rfl, by simpa using hp⟩
        | cons e' mid =>
          obtain ⟨rfl, -⟩ := cons.inj hL
          exact .inr ⟨mid, t, older, hL, hp⟩
      · rintro (⟨t, rfl, hp⟩ | ⟨mid, t, older, hL, hp⟩)
        · exact ⟨[], t, L, rfl, by simpa using hp⟩
        · exact ⟨e :: mid, t, older, hL, hp⟩
    rw [hhead]
    cases e with
    | store t b w =>
      simp only [survivorsFrom, Event.store.injEq]
      split_ifs with hc
      · rw [mem_cons]
        constructor
        · rintro (rfl | h)
          · exact .inl ⟨t, ⟨rfl, hc.1, rfl⟩, hc.2⟩
          · exact .inr h
        · rintro (⟨_, ⟨_, _, rfl⟩, _⟩ | h)
          · exact .inl rfl
          · exact .inr h
      · constructor
        · exact .inr
        · rintro (⟨_, ⟨_, rfl, _⟩, hp⟩ | h)
          · exact absurd ⟨rfl, hp⟩ hc
          · exact h
    | flush u b => simp [survivorsFrom]
    | fence u => simp [survivorsFrom]

theorem mem_survivors {init : α → β} {L : Log τ α β} {a : α} {v : β} :
    v ∈ survivors init L a ↔ MayHold init L a v := by
  rw [survivors, mem_append, mem_survivorsFrom, MayHold, or_comm]
  refine or_congr ?_ (by simp)
  split_ifs with hp
  · simp [hp]
  · simp [hp]

end Ccann.Persist
