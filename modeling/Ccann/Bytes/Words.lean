import Mathlib

/-! Unsigned words as bytes, the lowest byte first. -/

namespace Ccann.Bytes

def toBytes : ℕ → ℕ → List ℕ
  | 0, _ => []
  | w + 1, n => n % 256 :: toBytes w (n / 256)

def ofBytes : List ℕ → ℕ
  | [] => 0
  | b :: bs => b + 256 * ofBytes bs

@[simp] theorem length_toBytes (w n : ℕ) : (toBytes w n).length = w := by
  induction w generalizing n with
  | zero => rfl
  | succ w ih => rw [toBytes, List.length_cons, ih]

theorem lt_of_mem_toBytes {w n b : ℕ} (h : b ∈ toBytes w n) : b < 256 := by
  induction w generalizing n with
  | zero => cases h
  | succ w ih =>
    rcases List.mem_cons.mp h with rfl | h
    · exact Nat.mod_lt _ (by decide)
    · exact ih h

theorem ofBytes_toBytes {w n : ℕ} (h : n < 256 ^ w) : ofBytes (toBytes w n) = n := by
  induction w generalizing n with
  | zero =>
    rw [pow_zero, Nat.lt_one_iff] at h
    rw [h]
    rfl
  | succ w ih =>
    have hlt : n / 256 < 256 ^ w := by
      rw [Nat.div_lt_iff_lt_mul (by omega), ← pow_succ]
      exact h
    rw [toBytes, ofBytes, ih hlt, Nat.mod_add_div]

end Ccann.Bytes
