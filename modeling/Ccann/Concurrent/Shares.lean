import Mathlib

/-! A quantity that is the sum of what each of finitely many threads has a share in, such as the
number of references to an object. A step of one thread changes the sum by the change of its
share. -/

namespace Ccann.Concurrent

variable {ι T M : Type*} [Fintype ι] [AddCommMonoid M] {threads : ι → T}

def total (share : ι → T → M) (threads : ι → T) : M :=
  ∑ k, share k (threads k)

theorem total_update [DecidableEq ι] (share : ι → T → M) (threads : ι → T) (k : ι) (t : T) :
    total share (Function.update threads k t) + share k (threads k) =
      total share threads + share k t := by
  have hmem := Finset.mem_univ k
  have hrest : ∑ j ∈ Finset.univ.erase k, share j (Function.update threads k t j) =
      ∑ j ∈ Finset.univ.erase k, share j (threads j) :=
    Finset.sum_congr rfl fun j hj => by rw [Function.update_of_ne (Finset.ne_of_mem_erase hj)]
  unfold total
  rw [← Finset.add_sum_erase _ _ hmem, ← Finset.add_sum_erase _ (fun j => share j (threads j)) hmem,
    hrest, Function.update_self, add_right_comm, add_comm (share k t), add_right_comm]

theorem total_eq_zero {share : ι → T → M} (h : ∀ k, share k (threads k) = 0) :
    total share threads = 0 :=
  Finset.sum_eq_zero fun k _ => h k

theorem share_le_total (share : ι → T → ℕ) (threads : ι → T) (k : ι) :
    share k (threads k) ≤ total share threads :=
  Finset.single_le_sum (f := fun j => share j (threads j)) (fun _ _ => Nat.zero_le _)
    (Finset.mem_univ k)

theorem exists_of_total_pos {share : ι → T → ℕ} (h : 0 < total share threads) :
    ∃ k, 0 < share k (threads k) := by
  by_contra hnone
  refine Nat.ne_of_gt h (total_eq_zero fun k => ?_)
  exact Nat.eq_zero_of_not_pos fun hpos => hnone ⟨k, hpos⟩

end Ccann.Concurrent
