import Mathlib

/-! `SparseLockTable`: a map from keys to reader-writer locks in which an entry exists
only while its lock is held. The holders are recorded next to the count of the source, so
that ownership can be stated; the table itself only counts. An unlock of a key without
entry is a no-op, and an unlock by a party that holds nothing still releases the lock of
whoever does. -/

namespace Ccann.Locks

open List Function

inductive Mode where
  | rd
  | wr
  deriving DecidableEq

/-- A held lock; the source's count is the number of holders. -/
structure LockEntry (τ : Type*) where
  mode : Mode
  holders : List τ

abbrev Table (κ τ : Type*) := κ → Option (LockEntry τ)

variable {κ τ : Type*} [DecidableEq κ]

def tryrdlock (T : Table κ τ) (t : τ) (k : κ) : Option (Table κ τ) :=
  match T k with
  | none => some (update T k (some ⟨.rd, [t]⟩))
  | some ⟨.rd, hs⟩ => some (update T k (some ⟨.rd, t :: hs⟩))
  | some ⟨.wr, _⟩ => none

def trywrlock (T : Table κ τ) (t : τ) (k : κ) : Option (Table κ τ) :=
  match T k with
  | none => some (update T k (some ⟨.wr, [t]⟩))
  | some _ => none

def trylock (m : Mode) (T : Table κ τ) (t : τ) (k : κ) : Option (Table κ τ) :=
  match m with
  | .rd => tryrdlock T t k
  | .wr => trywrlock T t k

/-- The release takes the caller off the holders, or somebody else if the caller is not
one of them; the entry goes with its last holder. -/
def unlock [DecidableEq τ] (T : Table κ τ) (t : τ) (k : κ) : Table κ τ :=
  match T k with
  | none => T
  | some e =>
    let hs := if t ∈ e.holders then e.holders.erase t else e.holders.tail
    update T k (if hs = [] then none else some { e with holders := hs })

def sortKeys (ks : List ℕ) : List ℕ :=
  ks.insertionSort (· ≤ ·)

def sortedUnique (ks : List ℕ) : List ℕ :=
  sortKeys ks.dedup

section Lock

variable {T T' : Table κ τ} {t u : τ} {k j : κ} {m m' : Mode}

theorem trywrlock_eq_some_iff :
    trywrlock T t k = some T' ↔ T k = none ∧ T' = update T k (some ⟨.wr, [t]⟩) := by
  unfold trywrlock
  cases h : T k with
  | none => simp [eq_comm]
  | some e => simp

theorem tryrdlock_eq_some_iff :
    tryrdlock T t k = some T' ↔ (T k = none ∨ ∃ hs, T k = some ⟨.rd, hs⟩) ∧
      T' = update T k (some ⟨.rd, t :: ((T k).map LockEntry.holders).getD []⟩) := by
  unfold tryrdlock
  cases h : T k with
  | none => simp [eq_comm]
  | some e =>
    obtain ⟨m, hs⟩ := e
    cases m <;> simp [eq_comm]

theorem trylock_of_ne (h : trylock m T t k = some T') (hj : j ≠ k) : T' j = T j := by
  cases m with
  | rd =>
    obtain ⟨-, rfl⟩ := tryrdlock_eq_some_iff.mp h
    exact update_of_ne hj _ _
  | wr =>
    obtain ⟨-, rfl⟩ := trywrlock_eq_some_iff.mp h
    exact update_of_ne hj _ _

theorem unlock_of_ne [DecidableEq τ] (h : j ≠ k) : unlock T t k j = T j := by
  unfold unlock
  cases T k with
  | none => rfl
  | some e => simp only [update_of_ne h]

def Table.owned [DecidableEq τ] (T : Table κ τ) (t : τ) (k : κ) : ℕ :=
  match T k with
  | none => 0
  | some e => e.holders.count t

/-- One more entry at the head of a list of holders. -/
theorem count_cons_holders [DecidableEq τ] (hs : List τ) :
    (t :: hs).count u = hs.count u + if u = t then 1 else 0 := by
  by_cases h : u = t
  · subst h
    simp
  · rw [count_cons_of_ne (Ne.symm h), if_neg h, Nat.add_zero]

theorem owned_trylock [DecidableEq τ] (h : trylock m T t k = some T') (u : τ) (j : κ) :
    T'.owned u j = T.owned u j + if u = t ∧ j = k then 1 else 0 := by
  by_cases hj : j = k
  · subst hj
    cases m with
    | rd =>
      obtain ⟨hold, rfl⟩ := tryrdlock_eq_some_iff.mp h
      rcases hold with hnone | ⟨hs, hsome⟩
      · simp [Table.owned, hnone, count_cons_holders]
      · simp [Table.owned, hsome, count_cons_holders]
    | wr =>
      obtain ⟨hnone, rfl⟩ := trywrlock_eq_some_iff.mp h
      simp [Table.owned, hnone, count_cons_holders]
  · cases m with
    | rd =>
      obtain ⟨-, rfl⟩ := tryrdlock_eq_some_iff.mp h
      simp [Table.owned, hj]
    | wr =>
      obtain ⟨-, rfl⟩ := trywrlock_eq_some_iff.mp h
      simp [Table.owned, hj]

/-- A release takes the caller off once and adds nobody. -/
theorem owned_unlock_le [DecidableEq τ] (T : Table κ τ) (t : τ) (k : κ) (u : τ) (j : κ) :
    Table.owned (unlock T t k) u j ≤ T.owned u j - if u = t ∧ j = k then 1 else 0 := by
  by_cases hj : j = k
  · subst hj
    cases hT : T j with
    | none => simp [Table.owned, unlock, hT]
    | some e =>
      by_cases ht : t ∈ e.holders
      · have hcount : (e.holders.erase t).count u = e.holders.count u - if u = t then 1 else 0 := by
          by_cases hu : u = t
          · subst hu
            rw [count_erase_self, if_pos rfl]
          · rw [count_erase_of_ne hu, if_neg hu, Nat.sub_zero]
        by_cases hnil : e.holders.erase t = []
        · simp [Table.owned, unlock, hT, ht, hnil]
        · simp [Table.owned, unlock, hT, ht, hnil, hcount]
      · have hle : e.holders.tail.count u ≤ e.holders.count u :=
          (tail_sublist e.holders).count_le u
        have hzero : u = t → e.holders.count u = 0 := fun hu => hu ▸ count_eq_zero.mpr ht
        by_cases hnil : e.holders.tail = []
        · simp [Table.owned, unlock, hT, ht, hnil]
        · simp only [Table.owned, unlock, hT, ht, hnil, if_false, update_self, and_true]
          split_ifs with hu
          · have := hzero hu
            omega
          · omega
  · simp [Table.owned, unlock_of_ne hj, hj]

/-- `t` holds the lock of `k` in mode `m`. -/
def HoldsIn (T : Table κ τ) (m : Mode) (t : τ) (k : κ) : Prop :=
  ∃ hs, T k = some ⟨m, hs⟩ ∧ t ∈ hs

omit [DecidableEq κ] in
theorem HoldsIn.mode_eq (h : HoldsIn T m t k) (h' : HoldsIn T m' u k) : m = m' := by
  obtain ⟨hs, hk, -⟩ := h
  obtain ⟨hs', hk', -⟩ := h'
  rw [hk] at hk'
  cases hk'
  rfl

theorem holdsIn_of_trylock (h : trylock m T t k = some T') : HoldsIn T' m t k := by
  cases m with
  | rd =>
    obtain ⟨-, rfl⟩ := tryrdlock_eq_some_iff.mp h
    exact ⟨_, update_self .., mem_cons_self⟩
  | wr =>
    obtain ⟨-, rfl⟩ := trywrlock_eq_some_iff.mp h
    exact ⟨_, update_self .., mem_cons_self⟩

/-- Taking a lock takes nothing from anybody. -/
theorem HoldsIn.trylock (h : HoldsIn T m' u j) (hl : trylock m T t k = some T') :
    HoldsIn T' m' u j := by
  obtain ⟨hs, hj, hu⟩ := h
  cases m with
  | rd =>
    obtain ⟨hold, rfl⟩ := tryrdlock_eq_some_iff.mp hl
    by_cases hjk : j = k
    · subst hjk
      rcases hold with hnone | ⟨hs', hsome⟩
      · rw [hnone] at hj
        cases hj
      · rw [hj] at hsome
        cases hsome
        refine ⟨_, update_self .., mem_cons_of_mem _ ?_⟩
        simpa [hj] using hu
    · exact ⟨hs, by rw [update_of_ne hjk, hj], hu⟩
  | wr =>
    obtain ⟨hnone, rfl⟩ := trywrlock_eq_some_iff.mp hl
    have hjk : j ≠ k := by
      rintro rfl
      rw [hnone] at hj
      cases hj
    exact ⟨hs, by rw [update_of_ne hjk, hj], hu⟩

/-- A release by a holder takes the lock from nobody else. -/
theorem HoldsIn.unlock [DecidableEq τ] (h : HoldsIn T m u j) (hown : HoldsIn T m' t k)
    (hne : u ≠ t ∨ j ≠ k) : HoldsIn (unlock T t k) m u j := by
  by_cases hjk : j = k
  · subst hjk
    obtain ⟨hs, hj, hu⟩ := h
    obtain ⟨hs', hj', ht⟩ := hown
    rw [hj] at hj'
    cases hj'
    have hut : u ≠ t := hne.resolve_right fun h => h rfl
    have hmem : u ∈ hs.erase t := (mem_erase_of_ne hut).mpr hu
    have hnil : hs.erase t ≠ [] := ne_nil_of_mem hmem
    refine ⟨hs.erase t, ?_, hmem⟩
    simp [Locks.unlock, hj, ht, hnil]
  · obtain ⟨hs, hj, hu⟩ := h
    exact ⟨hs, by rw [unlock_of_ne hjk, hj], hu⟩

end Lock

section SortKeys

theorem sortKeys_perm (ks : List ℕ) : (sortKeys ks).Perm ks :=
  perm_insertionSort _ ks

variable {ks : List ℕ}

theorem mem_sortKeys {k : ℕ} : k ∈ sortKeys ks ↔ k ∈ ks :=
  mem_insertionSort _

theorem mem_sortedUnique {k : ℕ} : k ∈ sortedUnique ks ↔ k ∈ ks := by
  rw [sortedUnique, mem_sortKeys, mem_dedup]

theorem sortKeys_pairwise_lt (h : ks.Nodup) : (sortKeys ks).Pairwise (· < ·) := by
  have hle : (sortKeys ks).Pairwise (· ≤ ·) := pairwise_insertionSort _ ks
  have hnd : (sortKeys ks).Nodup := (sortKeys_perm ks).nodup_iff.mpr h
  refine List.Pairwise.imp₂ ?_ hle hnd
  exact fun a b hab hne => lt_of_le_of_ne hab hne

theorem sortedUnique_pairwise_lt (ks : List ℕ) : (sortedUnique ks).Pairwise (· < ·) :=
  sortKeys_pairwise_lt ks.nodup_dedup

theorem sortedUnique_nodup (ks : List ℕ) : (sortedUnique ks).Nodup :=
  (sortedUnique_pairwise_lt ks).imp fun h => Nat.ne_of_lt h

end SortKeys

end Ccann.Locks
