import Mathlib.Data.Int.Basic

/-!
# Machine integers

The conversions that the code makes between `int`, `size_t` and `ssize_t`.
-/

namespace HttpCallback

/-- `INT_MAX`. -/
def intMax : Nat := 2147483647

/-- `SSIZE_MAX`. -/
def ssizeMax : Nat := 9223372036854775807

/-- `SIZE_MAX`. -/
def sizeMax : Nat := 18446744073709551615

/-- The conversion to `int`. -/
def toInt (n : Int) : Int := n.bmod 4294967296

/-- The conversion to `size_t`. -/
def toSize (n : Int) : Nat := (n % 18446744073709551616).toNat

/-- The conversion to `ssize_t`. -/
def toSsize (n : Int) : Int := n.bmod 18446744073709551616

theorem toInt_of_le {n : Int} (h₁ : -1 ≤ n) (h₂ : n ≤ intMax) : toInt n = n := by
  unfold intMax at h₂
  unfold toInt
  exact Int.bmod_eq_of_le (by omega) (by omega)

theorem toInt_le (n : Int) : toInt n ≤ intMax := by
  have := Int.bmod_lt (x := n) (m := 4294967296) (by decide)
  unfold toInt intMax
  omega

theorem toSize_of_le {n : Nat} (h : n ≤ intMax) : toSize n = n := by
  unfold intMax at h
  unfold toSize
  omega

theorem toSize_of_le_ssizeMax {n : Nat} (h : n ≤ ssizeMax) : toSize n = n := by
  unfold ssizeMax at h
  unfold toSize
  omega

theorem toSsize_of_le {n : Int} (h₀ : 0 ≤ n) (h : n ≤ ssizeMax) : toSsize n = n := by
  unfold ssizeMax at h
  unfold toSsize
  exact Int.bmod_eq_of_le (by omega) (by omega)

/-- A counter minus 1, in a `size_t` and then in a `ssize_t`. -/
theorem toSsize_pred_eq_iff {i b : Nat} (hi : i ≤ sizeMax) :
    toSsize ((i : Int) - 1) = b ↔ i = b + 1 ∧ i ≤ ssizeMax + 1 := by
  unfold sizeMax at hi
  unfold ssizeMax toSsize
  rw [Int.bmod_def]
  split <;> omega

theorem toSsize_pred_ne {i : Nat} (h : 1 ≤ i) (hi : i ≤ sizeMax) :
    toSsize ((i : Int) - 1) ≠ -1 := by
  unfold sizeMax at hi
  unfold toSsize
  rw [Int.bmod_def]
  split <;> omega

/-- The difference with the `size_t` that -1 becomes. -/
theorem toSsize_sub_neg_one {n : Int} (h₀ : 0 ≤ n) (h : n ≤ ssizeMax) :
    toSsize (n - toSize (-1)) = if n < ssizeMax then n + 1 else -(ssizeMax + 1) := by
  have hneg : (toSize (-1) : Int) = 18446744073709551615 := rfl
  unfold ssizeMax at h ⊢
  rw [hneg, toSsize, Int.bmod_def]
  split <;> split <;> omega

end HttpCallback
