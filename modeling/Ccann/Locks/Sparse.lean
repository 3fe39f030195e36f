import Ccann.Concurrent.Runs
import Ccann.Locks.Table

/-! `SparseLockTable` with its lock objects. An entry of the map has the address of a
reader-writer lock and a count; the object is made when the key is inserted and destroyed with the
last unlock. `rdlock` and `wrlock` repeat the attempt of `tryrdlock` and `trywrlock`, so any
interleaving of calls is one of attempts and unlocks. Next to the table stand the holders of each
key, which the code does not have. -/

namespace Ccann.Locks

open Concurrent Function

structure Rwlock where
  readers : ℕ := 0
  writer : Bool := false
  deriving DecidableEq

def Rwlock.try : Mode → Rwlock → Option Rwlock
  | .rd, l => if l.writer then none else some { l with readers := l.readers + 1 }
  | .wr, l => if l.writer ∨ l.readers ≠ 0 then none else some { l with writer := true }

def Rwlock.unlock (l : Rwlock) : Rwlock :=
  if l.writer then { l with writer := false } else { l with readers := l.readers - 1 }

/-- The map and the lock objects; an object that was destroyed is `none`, and addresses are not
used again. -/
structure Sparse (κ : Type*) where
  locks : κ → Option (ℕ × ℕ) := fun _ => none
  heap : ℕ → Option Rwlock := fun _ => none
  next : ℕ := 0

variable {κ τ : Type*} [DecidableEq κ]

/-- The entry of a key, after a new one has been given its lock object. -/
def Sparse.upsert (s : Sparse κ) (k : κ) : Sparse κ × ℕ × ℕ :=
  match s.locks k with
  | some v => (s, v)
  | none => ({ s with heap := update s.heap s.next (some {}), next := s.next + 1 }, s.next, 0)

/-- `tryrdlock` and `trywrlock`; `none` is the use of an object that does not exist. -/
def Sparse.trylock (m : Mode) (s : Sparse κ) (k : κ) : Option (Bool × Sparse κ) :=
  let (s, p, n) := s.upsert k
  (s.heap p).map fun l =>
    match l.try m with
    | some l => (true, { s with
        locks := update s.locks k (some (p, n + 1))
        heap := update s.heap p (some l) })
    | none => (false, { s with locks := update s.locks k (some (p, n)) })

/-- `unlock`; `none` is the trap, or the use of an object that does not exist. -/
def Sparse.unlock (s : Sparse κ) (k : κ) : Option (Sparse κ) :=
  match s.locks k with
  | none => some s
  | some (p, n) =>
    if n = 0 then none
    else (s.heap p).map fun l =>
      { s with
        locks := update s.locks k (if n = 1 then none else some (p, n - 1))
        heap := update s.heap p (if n = 1 then none else some l.unlock) }

inductive LockAct (κ τ : Type*) where
  | trylock (m : Mode) (t : τ) (k : κ)
  | unlock (m : Mode) (t : τ) (k : κ)

def sparseStep [DecidableEq τ] (x : Sparse κ × (κ → List (τ × Mode))) :
    LockAct κ τ → Option (Sparse κ × (κ → List (τ × Mode)))
  | .trylock m t k => (x.1.trylock m k).map fun r =>
      (r.2, if r.1 then update x.2 k ((t, m) :: x.2 k) else x.2)
  | .unlock m t k => (x.1.unlock k).map fun s =>
      (s, update x.2 k ((x.2 k).erase (t, m)))

def LockAct.Owned (x : Sparse κ × (κ → List (τ × Mode))) : LockAct κ τ → Prop
  | .trylock .. => True
  | .unlock m t k => (t, m) ∈ x.2 k

/-- The lock is held by readers, or by one writer. -/
def Rwlock.Fits (l : Rwlock) (hs : List (τ × Mode)) : Prop :=
  (l = ⟨hs.length, false⟩ ∧ ∀ h ∈ hs, h.2 = .rd) ∨ (l = ⟨0, true⟩ ∧ ∃ t, hs = [(t, .wr)])

/-- The entry of a key, its holders, and the object at address `p`. -/
structure Entry (next : ℕ) (hs : List (τ × Mode)) (p n : ℕ) (l : Option Rwlock) : Prop where
  count : n = hs.length
  held : hs ≠ []
  lt : p < next
  live : ∃ l', l = some l' ∧ l'.Fits hs

structure Kept (s : Sparse κ) (H : κ → List (τ × Mode)) : Prop where
  absent : ∀ k, s.locks k = none → H k = []
  entry : ∀ k p n, s.locks k = some (p, n) → Entry s.next (H k) p n (s.heap p)
  inj : ∀ j k p n n', s.locks j = some (p, n) → s.locks k = some (p, n') → j = k

variable {s : Sparse κ} {H : κ → List (τ × Mode)} {k : κ} {m : Mode} {t : τ}

/-- One key changes, and the object of its entry. -/
theorem Kept.put (h : Kept s H) {p next : ℕ} {v : Option (ℕ × ℕ)} {l : Option Rwlock}
    {hs : List (τ × Mode)} (hown : ∀ j n, j ≠ k → s.locks j ≠ some (p, n)) (hnext : s.next ≤ next)
    (hv : (v = none ∧ hs = []) ∨ ∃ n, v = some (p, n) ∧ Entry next hs p n l) :
    Kept ⟨update s.locks k v, update s.heap p l, next⟩
      (update H k hs) := by
  refine ⟨fun j hj => ?_, fun j q n hj => ?_, fun i j q n n' hi hj => ?_⟩
  · by_cases hjk : j = k
    · subst hjk
      grind
    · simp only [update_of_ne hjk] at hj ⊢
      exact h.absent j hj
  · by_cases hjk : j = k
    · subst hjk
      grind
    · simp only [update_of_ne hjk] at hj ⊢
      have hq : q ≠ p := fun heq => hown j n hjk (heq ▸ hj)
      obtain ⟨hcount, hheld, hlt, hlive⟩ := h.entry j q n hj
      exact ⟨hcount, hheld, hlt.trans_le hnext, by rwa [update_of_ne hq]⟩
  · have := h.inj i j q n n'
    grind

omit [DecidableEq κ] in
theorem Kept.own (h : Kept s H) {p n : ℕ} (hk : s.locks k = some (p, n)) (j : κ) (n' : ℕ)
    (hj : j ≠ k) : s.locks j ≠ some (p, n') :=
  fun heq => hj (h.inj j k p n' n heq hk)

/-- An attempt always finds a live lock object; the key has a new holder if it succeeds. -/
theorem Kept.trylock (h : Kept s H) (m : Mode) (t : τ) (k : κ) :
    ∃ ok s', s.trylock m k = some (ok, s') ∧
      Kept s' (if ok then update H k ((t, m) :: H k) else H) := by
  cases hk : s.locks k with
  | none =>
    let l : Rwlock := if m = .rd then ⟨1, false⟩ else ⟨0, true⟩
    have hfits : l.Fits [(t, m)] := by
      cases m with
      | rd => exact .inl ⟨rfl, by simp⟩
      | wr => exact .inr ⟨rfl, t, rfl⟩
    refine ⟨true, ⟨update s.locks k (some (s.next, 1)),
      update s.heap s.next (some l), s.next + 1⟩, ?_, ?_⟩
    · cases m <;> simp [Sparse.trylock, Sparse.upsert, hk, Rwlock.try, l]
    · rw [if_pos rfl, h.absent k hk]
      refine h.put (fun j n _ hj => ?_) (Nat.le_succ _)
        (.inr ⟨1, rfl, rfl, by simp, Nat.lt_succ_self _, l, rfl, hfits⟩)
      exact Nat.lt_irrefl _ (h.entry j s.next n hj).lt
  | some v =>
    obtain ⟨p, n⟩ := v
    obtain ⟨hcount, hheld, hlt, l, hl, hfits⟩ := h.entry k p n hk
    have hsame : update s.locks k (some (p, n)) = s.locks := by
      rw [← hk, update_eq_self]
    have hfail : l.try m = none → ∃ ok s', s.trylock m k = some (ok, s') ∧
        Kept s' (if ok then update H k ((t, m) :: H k) else H) := fun hno =>
      ⟨false, s, by simp [Sparse.trylock, Sparse.upsert, hk, hl, hno, hsame], h⟩
    rcases hfits with ⟨rfl, hrd⟩ | ⟨rfl, u, hu⟩
    · cases m with
      | rd =>
        refine ⟨true, ⟨update s.locks k (some (p, n + 1)),
          update s.heap p (some ⟨(H k).length + 1, false⟩), s.next⟩, ?_, ?_⟩
        · simp [Sparse.trylock, Sparse.upsert, hk, hl, Rwlock.try]
        · refine h.put (h.own hk) (Nat.le_refl _)
            (.inr ⟨n + 1, rfl, by simp [hcount], by simp, hlt, _, rfl, .inl ⟨rfl, ?_⟩⟩)
          simpa using hrd
      | wr =>
        have hpos : (H k).length ≠ 0 := by simpa using hheld
        exact hfail (by simp [Rwlock.try, hpos])
    · exact hfail (by cases m <;> simp [Rwlock.try])

/-- An unlock by a holder neither traps nor meets a destroyed object. -/
theorem Kept.unlock [DecidableEq τ] (h : Kept s H) (hown : (t, m) ∈ H k) :
    ∃ s', s.unlock k = some s' ∧ Kept s' (update H k ((H k).erase (t, m))) := by
  cases hk : s.locks k with
  | none =>
    rw [h.absent k hk] at hown
    cases hown
  | some v =>
    obtain ⟨p, n⟩ := v
    obtain ⟨rfl, hheld, hlt, l, hl, hfits⟩ := h.entry k p n hk
    have hlen := List.length_erase_of_mem hown
    have hpos : (H k).length ≠ 0 := by simpa using hheld
    refine ⟨_, by simp only [Sparse.unlock, hk, hpos, if_false, hl, Option.map_some]; rfl,
      h.put (h.own hk) (Nat.le_refl _) ?_⟩
    by_cases hone : (H k).length = 1
    · exact .inl ⟨if_pos hone, List.length_eq_zero_iff.mp (by omega)⟩
    · refine .inr ⟨(H k).length - 1, if_neg hone, hlen.symm, ?_, hlt, l.unlock, if_neg hone, ?_⟩
      · rw [← List.length_pos_iff]
        omega
      · rcases hfits with ⟨rfl, hrd⟩ | ⟨-, u, hu⟩
        · exact .inl ⟨by simp [Rwlock.unlock, hlen], fun x hx => hrd x (List.mem_of_mem_erase hx)⟩
        · simp [hu] at hone

/-- No attempt and no unlock meets a destroyed lock object or the trap; a key is in the table as long
as a thread holds it, with the number of holds as its count, and a writer is alone. -/
theorem sparse_lock_table_sound [DecidableEq τ] (as : List (LockAct κ τ))
    (hown : Meets sparseStep (fun x a => a.Owned x) ({}, fun _ => []) as) :
    ∃ x, run sparseStep ({}, fun _ => []) as = some x ∧
      (∀ k, (x.1.locks k).isSome ↔ x.2 k ≠ []) ∧
      (∀ k p n, x.1.locks k = some (p, n) → n = (x.2 k).length ∧ (x.1.heap p).isSome) ∧
      ∀ k t, (t, .wr) ∈ x.2 k → x.2 k = [(t, .wr)] := by
  have hinit : Kept ({} : Sparse κ) (fun _ => ([] : List (τ × Mode))) :=
    ⟨by simp, by simp, by simp⟩
  have hstep : ∀ (x : Sparse κ × (κ → List (τ × Mode))) a, Kept x.1 x.2 → a.Owned x →
      ∃ y, sparseStep x a = some y ∧ Kept y.1 y.2 := by
    rintro x (⟨m, t, k⟩ | ⟨m, t, k⟩) hx ha
    · obtain ⟨ok, s', hs, hk⟩ := hx.trylock m t k
      exact ⟨_, by rw [sparseStep, hs, Option.map_some], hk⟩
    · obtain ⟨s', hs, hk⟩ := hx.unlock ha
      exact ⟨_, by rw [sparseStep, hs, Option.map_some], hk⟩
  obtain ⟨x, hrun, hx⟩ := exists_run_of_meets hstep hinit hown
  refine ⟨x, hrun, fun k => ?_, fun k p n hk => ?_, fun k t ht => ?_⟩
  · cases hk : x.1.locks k with
    | none => simp [hx.absent k hk]
    | some v => simp [(hx.entry k v.1 v.2 hk).held]
  · obtain ⟨hcount, -, -, l, hl, -⟩ := hx.entry k p n hk
    exact ⟨hcount, by simp [hl]⟩
  · cases hk : x.1.locks k with
    | none => simp [hx.absent k hk] at ht
    | some v =>
      obtain ⟨-, -, -, l, -, ⟨-, hrd⟩ | ⟨-, u, hu⟩⟩ := hx.entry k v.1 v.2 hk
      · cases hrd _ ht
      · rw [hu, List.mem_singleton] at ht
        rw [hu, ht]

theorem sparse_lock_table_sound_three :
    ∃ x, run sparseStep ({}, fun _ => [])
        [.trylock .rd 1 7, .trylock .rd 2 7, .trylock .wr 3 7, .unlock .rd 1 7] = some x ∧
      x.2 7 = [(2, .rd)] ∧ (x.1.locks 7).isSome := by
  have hown : Meets sparseStep (fun x a => a.Owned x) (({} : Sparse ℕ), fun _ => ([] : List (ℕ × Mode)))
      [.trylock .rd 1 7, .trylock .rd 2 7, .trylock .wr 3 7, .unlock .rd 1 7] := by
    simp [Meets, LockAct.Owned, sparseStep, Sparse.trylock, Sparse.upsert, Rwlock.try]
  obtain ⟨x, hrun, hiff, -⟩ := sparse_lock_table_sound _ hown
  have hheld : x.2 7 = [(2, .rd)] := by
    cases hrun
    rfl
  exact ⟨x, hrun, hheld, (hiff 7).mpr (by simp [hheld])⟩

end Ccann.Locks
