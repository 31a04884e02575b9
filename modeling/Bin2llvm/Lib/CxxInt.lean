import Mathlib.Algebra.Order.Ring.Int
import Mathlib.Algebra.Order.Ring.Nat
import Mathlib.Tactic.SplitIfs

/-!
# Bin2llvm.Lib.CxxInt — `int` and `size_t` on a 64-bit host

C++ integers as mathematical integers: `IsInt` is the range of a 32-bit `int` (leaving it is
undefined behaviour), `toInt` and `toSize` are the conversions between `int` and the 64-bit
`size_t`, `Int.tdiv` is C++ division.
-/

namespace Bin2llvm.CxxInt

/-- The values of a 32-bit `int`. -/
def IsInt (x : ℤ) : Prop := -2 ^ 31 ≤ x ∧ x < 2 ^ 31

instance (x : ℤ) : Decidable (IsInt x) := inferInstanceAs (Decidable (_ ∧ _))

/-- Conversion of a `size_t` to `int` (modulo `2^32`). -/
def toInt (n : ℕ) : ℤ := (n : ℤ).bmod (2 ^ 32)

/-- Conversion of an `int` to `size_t` (modulo `2^64`), as in a comparison of both. -/
def toSize (x : ℤ) : ℕ := (x % 2 ^ 64).toNat

/-- `n - 1` in `size_t`. -/
def sizePred (n : ℕ) : ℕ := (n + (2 ^ 64 - 1)) % 2 ^ 64

theorem toSize_of_nonneg {x : ℤ} (h0 : 0 ≤ x) (h1 : x < 2 ^ 64) : toSize x = x.toNat := by
  unfold toSize
  omega

theorem toSize_neg_one : toSize (-1) = 2 ^ 64 - 1 := by decide

/-- The conversion never yields a larger index than the size it converts. -/
theorem toInt_le (n : ℕ) : toInt n ≤ n := by
  unfold toInt
  have h := Int.bmod_le (x := (n : ℤ)) (m := 2 ^ 32) (by omega)
  have h2 : ((n : ℤ).bmod (2 ^ 32)) % (2 ^ 32 : ℕ) = (n : ℤ) % (2 ^ 32 : ℕ) := Int.bmod_emod ..
  omega

theorem toInt_lt (n : ℕ) : toInt n < 2 ^ 31 := by
  have h := Int.bmod_lt (x := (n : ℤ)) (m := 2 ^ 32) (by omega)
  unfold toInt
  omega

theorem tdiv_two_of_nonneg {x : ℤ} (h : 0 ≤ x) : x.tdiv 2 = x / 2 := Int.tdiv_eq_ediv_of_nonneg h

/-- The midpoint of two indices lies between them. -/
theorem midpoint_bounds {a b : ℤ} (h : a ≤ b) : a ≤ (a + b).tdiv 2 ∧ (a + b).tdiv 2 ≤ b := by
  rw [Int.tdiv_eq_ediv]
  split_ifs with h0
  · omega
  · have h1 : ¬ (2 : ℤ) ∣ a + b := fun hd => h0 (Or.inr hd)
    have h2 : (2 : ℤ).sign = 1 := rfl
    omega

end Bin2llvm.CxxInt
