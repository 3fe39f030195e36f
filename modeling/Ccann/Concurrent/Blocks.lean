import Mathlib

/-! Straight-line programs made of blocks. Some instructions have a rank, and ranks do not
decrease along the program; some instructions occur at most once. Both facts are kept as
one relation between an instruction and any later one, and proved by putting blocks of one
rank before programs of higher ranks. -/

namespace Ccann.Concurrent

variable {ι : Type*} {rank : ι → Option ℕ} {single : ι → Prop}

def Precedes (rank : ι → Option ℕ) (single : ι → Prop) (i j : ι) : Prop :=
  (∀ a ∈ rank i, ∀ b ∈ rank j, a ≤ b) ∧ (single i → i ≠ j)

/-- Code in order whose ranks start at `n`. -/
def RankedFrom (rank : ι → Option ℕ) (single : ι → Prop) (n : ℕ) (code : List ι) : Prop :=
  code.Pairwise (Precedes rank single) ∧ ∀ j ∈ code, ∀ b ∈ rank j, n ≤ b

theorem rankedFrom_nil (n : ℕ) : RankedFrom rank single n [] :=
  ⟨List.Pairwise.nil, by simp⟩

/-- A block of one rank goes before code of higher ranks; inside the block only
repetitions have to be excluded. -/
theorem RankedFrom.block {n m : ℕ} {p q : List ι} (hq : RankedFrom rank single m q)
    (hnm : n < m) (hsome : ∀ i, single i → (rank i).isSome) (hrank : ∀ i ∈ p, ∀ a ∈ rank i, a = n)
    (hsingle : p.Pairwise fun i j => single i → i ≠ j) :
    RankedFrom rank single n (p ++ q) := by
  constructor
  · refine List.pairwise_append.mpr ⟨?_, hq.1, fun i hi j hj => ⟨fun a ha b hb => ?_, ?_⟩⟩
    · refine hsingle.imp_of_mem fun {i j} hi hj h => ⟨fun a ha b hb => ?_, h⟩
      exact Nat.le_of_eq ((hrank i hi a ha).trans (hrank j hj b hb).symm)
    · rw [hrank i hi a ha]
      exact Nat.le_of_lt (Nat.lt_of_lt_of_le hnm (hq.2 j hj b hb))
    · rintro hs rfl
      obtain ⟨a, ha⟩ := Option.isSome_iff_exists.mp (hsome i hs)
      have hle := hq.2 i hj a ha
      rw [hrank i hi a ha] at hle
      exact Nat.not_le_of_lt hnm hle
  · intro j hj b hb
    rcases List.mem_append.mp hj with hj | hj
    · exact Nat.le_of_eq (hrank j hj b hb).symm
    · exact Nat.le_of_lt (Nat.lt_of_lt_of_le hnm (hq.2 j hj b hb))

/-- Where a program stands: everything executed precedes the next instruction, which
precedes everything after it. -/
theorem precedes_of_split {code done rest : List ι} {i : ι}
    (h : code.Pairwise (Precedes rank single)) (hcode : code = done.reverse ++ i :: rest) :
    (∀ j ∈ done, Precedes rank single j i) ∧ ∀ j ∈ rest, Precedes rank single i j := by
  rw [hcode] at h
  obtain ⟨-, hafter, hbefore⟩ := List.pairwise_append.mp h
  exact ⟨fun j hj => hbefore j (by simpa using hj) i (by simp),
    (List.pairwise_cons.mp hafter).1⟩

end Ccann.Concurrent
