import Mathlib

/-! Persistent memory seen through a log of stores, flushes and fences, newest event
first. A store is surely durable once its address is flushed after it and the flushing
thread fences after that; until then it may or may not survive a crash. A crash image
picks, address by address, one of the values that may survive. The three predicates
`Latest`, `Written` and `LatestDurable` follow one store through its flush and fence,
and `Settled` says that every crash image agrees on an address. -/

namespace Ccann.Persist

open List

inductive Event (τ α β : Type*) where
  | store (t : τ) (a : α) (v : β)
  | flush (t : τ) (a : α)
  | fence (t : τ)
  deriving DecidableEq

variable {τ α β : Type*}

abbrev Log (τ α β : Type*) := List (Event τ α β)

def Event.thread : Event τ α β → τ
  | .store t _ _ => t
  | .flush t _ => t
  | .fence t => t

def Event.StoresTo (e : Event τ α β) (a : α) : Prop :=
  ∃ t v, e = .store t a v

/-- The store of `v` at `a` by `t` was flushed by some thread that then fenced. -/
def SurelyDurable (L : Log τ α β) (t : τ) (a : α) (v : β) : Prop :=
  ∃ u, [.fence u, .flush u a, .store t a v].Sublist L

/-- Some store to the address is surely durable. -/
def Persisted (L : Log τ α β) (a : α) : Prop :=
  ∃ t v, SurelyDurable L t a v

/-- After a crash the address may hold `v`: nothing newer is surely durable. -/
def MayHold (init : α → β) (L : Log τ α β) (a : α) (v : β) : Prop :=
  (v = init a ∧ ¬ Persisted L a) ∨
    ∃ newer t older, L = newer ++ .store t a v :: older ∧ ¬ Persisted newer a

def CrashImage (init : α → β) (L : Log τ α β) (image : α → β) : Prop :=
  ∀ a, MayHold init L a (image a)

/-- All crash images hold `v` at the address. -/
def Settled (init : α → β) (L : Log τ α β) (a : α) (v : β) : Prop :=
  ∀ w, MayHold init L a w → w = v

/-- The content that running threads read: the newest store. -/
def view [DecidableEq α] (init : α → β) : Log τ α β → α → β
  | [], a => init a
  | .store _ b v :: L, a => if a = b then v else view init L a
  | .flush _ _ :: L, a => view init L a
  | .fence _ :: L, a => view init L a

variable {init : α → β} {L : Log τ α β} {t : τ} {a : α} {v : β}

section SurelyDurable

variable {L' : Log τ α β}

theorem SurelyDurable.mono (h : SurelyDurable L t a v) (hL : L.Sublist L') :
    SurelyDurable L' t a v := by
  obtain ⟨u, hu⟩ := h
  exact ⟨u, hu.trans hL⟩

theorem SurelyDurable.store_mem (h : SurelyDurable L t a v) : .store t a v ∈ L := by
  obtain ⟨u, hu⟩ := h
  exact hu.subset (by simp)

theorem Persisted.mono (h : Persisted L a) (hL : L.Sublist L') : Persisted L' a := by
  obtain ⟨t, v, h⟩ := h
  exact ⟨t, v, h.mono hL⟩

theorem not_persisted_of_no_store (h : ∀ e ∈ L, ¬ e.StoresTo a) : ¬ Persisted L a := by
  rintro ⟨t, v, hd⟩
  exact h _ hd.store_mem ⟨t, v, rfl⟩

/-- A fence makes the stores durable that its thread has flushed. -/
theorem surelyDurable_cons_fence {u : τ}
    (h : [.flush u a, .store t a v].Sublist L) : SurelyDurable (.fence u :: L) t a v :=
  ⟨u, h.cons_cons _⟩

end SurelyDurable

section MayHold

/-- A store adds its own value to those that may survive at its address. -/
theorem MayHold.of_cons {e : Event τ α β} (h : MayHold init (e :: L) a v) :
    (∃ t, e = .store t a v) ∨ MayHold init L a v := by
  rcases h with ⟨rfl, hp⟩ | ⟨newer, t, older, hL, hp⟩
  · exact .inr (.inl ⟨rfl, fun h => hp (h.mono (sublist_cons_self e L))⟩)
  · cases newer with
    | nil =>
      obtain ⟨rfl, rfl⟩ := cons.inj hL
      exact .inl ⟨t, rfl⟩
    | cons e' newer =>
      obtain ⟨rfl, rfl⟩ := cons.inj hL
      refine .inr (.inr ⟨newer, t, older, rfl, ?_⟩)
      exact fun h => hp (h.mono (sublist_cons_self _ newer))

/-- A value that may survive was stored, or is the initial one. -/
theorem MayHold.init_or_stored (h : MayHold init L a v) :
    v = init a ∨ ∃ t, .store t a v ∈ L := by
  rcases h with ⟨rfl, -⟩ | ⟨newer, t, older, rfl, -⟩
  · exact .inl rfl
  · exact .inr ⟨t, by simp⟩

theorem mayHold_init (h : ∀ e ∈ L, ¬ e.StoresTo a) : MayHold init L a (init a) :=
  .inl ⟨rfl, not_persisted_of_no_store h⟩

end MayHold

section View

variable [DecidableEq α]

@[simp] theorem view_store_self (t : τ) (v : β) :
    view init (.store t a v :: L) a = v := by
  simp [view]

theorem view_cons_of_not_storesTo {e : Event τ α β} (h : ¬ e.StoresTo a) :
    view init (e :: L) a = view init L a := by
  cases e with
  | store t b v =>
    have hab : a ≠ b := fun hab => h ⟨t, v, by rw [hab]⟩
    simp [view, hab]
  | flush t b => rfl
  | fence t => rfl

theorem view_append_of_not_storesTo {newer : Log τ α β} (h : ∀ e ∈ newer, ¬ e.StoresTo a) :
    view init (newer ++ L) a = view init L a := by
  induction newer with
  | nil => rfl
  | cons e newer ih =>
    rw [cons_append, view_cons_of_not_storesTo (h e mem_cons_self)]
    exact ih fun e' he' => h e' (mem_cons_of_mem e he')

/-- The view is the newest store to the address, or the initial value without one. -/
theorem view_eq_latest (init : α → β) (L : Log τ α β) (a : α) :
    ((∀ e ∈ L, ¬ e.StoresTo a) ∧ view init L a = init a) ∨
      ∃ newer t older, L = newer ++ .store t a (view init L a) :: older ∧
        ∀ e ∈ newer, ¬ e.StoresTo a := by
  induction L with
  | nil => exact .inl ⟨by simp, rfl⟩
  | cons e L ih =>
    by_cases he : e.StoresTo a
    · obtain ⟨t, v, rfl⟩ := he
      exact .inr ⟨[], t, L, by simp, by simp⟩
    rw [view_cons_of_not_storesTo he]
    rcases ih with ⟨hno, hv⟩ | ⟨newer, t, older, hL, hno⟩
    · exact .inl ⟨by simpa [he] using hno, hv⟩
    · refine .inr ⟨e :: newer, t, older, ?_, by simpa [he] using hno⟩
      rw [cons_append, ← hL]

/-- A crash may keep every store: the view itself is a crash image. -/
theorem view_crashImage (init : α → β) (L : Log τ α β) : CrashImage init L (view init L) := by
  intro a
  rcases view_eq_latest init L a with ⟨hno, hv⟩ | ⟨newer, t, older, hL, hno⟩
  · rw [hv]
    exact mayHold_init hno
  · refine .inr ⟨newer, t, older, hL, not_persisted_of_no_store hno⟩

end View

section Progress

variable {e : Event τ α β}

def Latest (L : Log τ α β) (a : α) (v : β) : Prop :=
  ∃ newer t older, L = newer ++ .store t a v :: older ∧ ∀ e ∈ newer, ¬ e.StoresTo a

/-- The newest store to the address is that of `v`, and `u` has flushed it. -/
def Written (L : Log τ α β) (u : τ) (a : α) (v : β) : Prop :=
  ∃ newer t older, L = newer ++ .store t a v :: older ∧ (∀ e ∈ newer, ¬ e.StoresTo a) ∧
    .flush u a ∈ newer

/-- The newest store to the address is that of `v`, and it is surely durable. -/
def LatestDurable (L : Log τ α β) (a : α) (v : β) : Prop :=
  ∃ newer t older u, L = newer ++ .store t a v :: older ∧ (∀ e ∈ newer, ¬ e.StoresTo a) ∧
    [.fence u, .flush u a].Sublist newer

theorem latest_store (L : Log τ α β) (t : τ) (a : α) (v : β) :
    Latest (.store t a v :: L) a v :=
  ⟨[], t, L, rfl, by simp⟩

theorem Latest.cons (h : Latest L a v) (he : ¬ e.StoresTo a) : Latest (e :: L) a v := by
  obtain ⟨newer, t, older, rfl, hno⟩ := h
  exact ⟨e :: newer, t, older, rfl, by simpa [he] using hno⟩

theorem Written.cons {u : τ} (h : Written L u a v) (he : ¬ e.StoresTo a) :
    Written (e :: L) u a v := by
  obtain ⟨newer, t, older, rfl, hno, hf⟩ := h
  exact ⟨e :: newer, t, older, rfl, by simpa [he] using hno, mem_cons_of_mem e hf⟩

theorem LatestDurable.cons (h : LatestDurable L a v) (he : ¬ e.StoresTo a) :
    LatestDurable (e :: L) a v := by
  obtain ⟨newer, t, older, u, rfl, hno, hf⟩ := h
  exact ⟨e :: newer, t, older, u, rfl, by simpa [he] using hno, hf.cons e⟩

theorem not_storesTo_flush (u : τ) (b : α) : ¬ (Event.flush u b : Event τ α β).StoresTo a := by
  rintro ⟨_, _, h⟩
  cases h

theorem not_storesTo_fence (u : τ) : ¬ (Event.fence u : Event τ α β).StoresTo a := by
  rintro ⟨_, _, h⟩
  cases h

theorem not_storesTo_store {b : α} {w : β} (h : b ≠ a) :
    ¬ (Event.store t b w : Event τ α β).StoresTo a := by
  rintro ⟨_, _, he⟩
  cases he
  exact h rfl

theorem Latest.flush (h : Latest L a v) (u : τ) : Written (.flush u a :: L) u a v := by
  obtain ⟨newer, t, older, rfl, hno⟩ := h
  refine ⟨.flush u a :: newer, t, older, rfl, ?_, by simp⟩
  simpa [not_storesTo_flush] using hno

theorem Written.fence {u : τ} (h : Written L u a v) : LatestDurable (.fence u :: L) a v := by
  obtain ⟨newer, t, older, rfl, hno, hf⟩ := h
  refine ⟨.fence u :: newer, t, older, u, rfl, ?_, ?_⟩
  · simpa [not_storesTo_fence] using hno
  · exact (singleton_sublist.mpr hf).cons_cons _

theorem Latest.view_eq [DecidableEq α] (h : Latest L a v) : view init L a = v := by
  obtain ⟨newer, t, older, rfl, hno⟩ := h
  induction newer with
  | nil => simp
  | cons e newer ih =>
    have he : ¬ e.StoresTo a := hno e (by simp)
    rw [cons_append, view_cons_of_not_storesTo he]
    exact ih fun e' he' => hno e' (by simp [he'])

/-- Once the newest store is durable, every crash image holds its value: an older
store would need that newer one not to be durable. -/
theorem LatestDurable.settled (h : LatestDurable L a v) : Settled init L a v := by
  obtain ⟨newer, t, older, u, rfl, hno, hf⟩ := h
  have hstored : ([.fence u, .flush u a, .store t a v] : Log τ α β).Sublist
      (newer ++ [.store t a v]) := hf.append (List.Sublist.refl _)
  intro w hw
  rcases hw with ⟨-, hp⟩ | ⟨newer', t', older', hL, hp⟩
  · refine absurd ⟨t, v, u, hstored.trans ?_⟩ hp
    simp
  · rcases append_eq_append_iff.mp hL with ⟨mid, hmid, htail⟩ | ⟨mid, hmid, htail⟩
    · cases mid with
      | nil =>
        rw [nil_append] at htail
        cases htail
        rfl
      | cons e mid =>
        obtain ⟨rfl, htail⟩ := cons.inj htail
        refine absurd ⟨t, v, u, hstored.trans ?_⟩ hp
        rw [hmid]
        simp
    · cases mid with
      | nil =>
        rw [nil_append] at htail
        cases htail
        rfl
      | cons e mid =>
        obtain ⟨rfl, htail⟩ := cons.inj htail
        exact absurd ⟨t', w, rfl⟩ (hno _ (by rw [hmid]; simp))

theorem settled_init (h : ∀ e ∈ L, ¬ e.StoresTo a) : Settled init L a (init a) := by
  intro w hw
  rcases hw with ⟨rfl, -⟩ | ⟨newer, t, older, rfl, -⟩
  · rfl
  · exact absurd ⟨t, w, rfl⟩ (h _ (by simp))

theorem Settled.cons (h : Settled init L a v) (he : ¬ e.StoresTo a) :
    Settled init (e :: L) a v := by
  intro w hw
  rcases hw.of_cons with ⟨t, rfl⟩ | hw
  · exact absurd ⟨t, w, rfl⟩ he
  · exact h w hw

theorem Settled.view_eq [DecidableEq α] (h : Settled init L a v) : view init L a = v :=
  h _ (view_crashImage init L a)

end Progress

end Ccann.Persist
