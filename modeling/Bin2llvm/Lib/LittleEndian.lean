import Mathlib.Algebra.BigOperators.Intervals
import Mathlib.Algebra.Ring.Nat
import Mathlib.Data.Nat.Digits.Defs
import Mathlib.Tactic.Ring

/-!
# Bin2llvm.Lib.LittleEndian — numbers and their bytes

* `value bs`: the number with the bytes `bs`, the least significant one first.
* `byte v k`: the `k`-th byte of a number; `value_bytes` puts a number together from its bytes.
* `value_range`, `value_reverse_range`: the number as a sum, in either byte order.
* `value_pair`, `value_quad`: the same with shifts and `or`.
-/

namespace LittleEndian

def value (bs : List (BitVec 8)) : ℕ := Nat.ofDigits 256 (bs.map BitVec.toNat)

def byte (v k : ℕ) : BitVec 8 := BitVec.ofNat 8 (v / 256 ^ k)

@[simp] theorem value_nil : value [] = 0 := rfl

@[simp] theorem value_cons (b : BitVec 8) (bs : List (BitVec 8)) :
    value (b :: bs) = b.toNat + 256 * value bs := rfl

theorem value_append (bs cs : List (BitVec 8)) :
    value (bs ++ cs) = value bs + 256 ^ bs.length * value cs := by
  unfold value
  rw [List.map_append, Nat.ofDigits_append, List.length_map]

theorem value_lt (bs : List (BitVec 8)) : value bs < 256 ^ bs.length := by
  induction bs with
  | nil => exact Nat.one_pos
  | cons b bs ih =>
    have hb : b.toNat < 256 := b.isLt
    rw [value_cons, List.length_cons, pow_succ]
    omega

theorem toNat_byte (v k : ℕ) : (byte v k).toNat = v / 256 ^ k % 256 := BitVec.toNat_ofNat _ _

/-- The first `n` bytes of a number. -/
theorem value_bytes (v n : ℕ) : value ((List.range n).map (byte v)) = v % 256 ^ n := by
  induction n with
  | zero => rw [pow_zero, Nat.mod_one]; rfl
  | succ n ih =>
    rw [List.range_succ, List.map_append, value_append, ih, List.length_map, List.length_range,
      List.map_singleton, value_cons, value_nil, toNat_byte, Nat.mul_zero, Nat.add_zero,
        Nat.mod_pow_succ]

theorem byte_value {bs : List (BitVec 8)} {k : ℕ} (hk : k < bs.length) :
    byte (value bs) k = bs[k] := by
  induction bs generalizing k with
  | nil => exact absurd hk (Nat.not_lt_zero k)
  | cons b bs ih =>
    have hb : b.toNat < 256 := b.isLt
    cases k with
    | zero =>
      apply BitVec.eq_of_toNat_eq
      rw [toNat_byte, value_cons, pow_zero, Nat.div_one, Nat.add_mul_mod_self_left,
        Nat.mod_eq_of_lt hb, List.getElem_cons_zero]
    | succ k =>
      have hdiv : value (b :: bs) / 256 ^ (k + 1) = value bs / 256 ^ k := by
        rw [value_cons, pow_succ', ← Nat.div_div_eq_div_mul, Nat.add_mul_div_left _ _ (by decide),
          Nat.div_eq_of_lt hb, Nat.zero_add]
      have hlt : k < bs.length := Nat.lt_of_succ_lt_succ hk
      rw [byte, hdiv, List.getElem_cons_succ, ← ih hlt, byte]

/-! ## Sums -/

theorem value_range (f : ℕ → BitVec 8) (n : ℕ) :
    value ((List.range n).map f) = ∑ i ∈ Finset.range n, (f i).toNat * 256 ^ i := by
  induction n with
  | zero => rfl
  | succ n ih =>
    rw [List.range_succ, List.map_append, value_append, ih, Finset.sum_range_succ, List.length_map,
      List.length_range, List.map_singleton, value_cons, value_nil, Nat.mul_zero, Nat.add_zero,
        Nat.mul_comm (256 ^ n)]

theorem reverse_map_range {α : Type*} (f : ℕ → α) (n : ℕ) :
    ((List.range n).map f).reverse = (List.range n).map fun i => f (n - 1 - i) := by
  refine List.ext_getElem (by simp) fun k h₁ h₂ => ?_
  simp

theorem value_reverse_range (f : ℕ → BitVec 8) (n : ℕ) :
    value ((List.range n).map f).reverse = ∑ i ∈ Finset.range n,
      (f i).toNat * 256 ^ (n - 1 - i) := by
  rw [reverse_map_range, value_range, ← Finset.sum_range_reflect]
  refine Finset.sum_congr rfl fun i hi => ?_
  have hi : i < n := Finset.mem_range.mp hi
  rw [show n - 1 - (n - 1 - i) = i by omega]

/-! ## Shifts -/

/-- The next lower byte. -/
theorem or_shiftLeft (b : BitVec 8) (r : ℕ) : b.toNat ||| r <<< 8 = b.toNat + 256 * r := by
  rw [Nat.shiftLeft_eq, Nat.mul_comm r, Nat.or_comm, ← Nat.two_pow_add_eq_or_of_lt b.isLt r]
  exact Nat.add_comm _ _

theorem value_pair (b₀ b₁ : BitVec 8) : b₀.toNat ||| b₁.toNat <<< 8 = value [b₀, b₁] :=
  or_shiftLeft _ _

/-- The upper half is put together first. -/
theorem value_quad (b₀ b₁ b₂ b₃ : BitVec 8) :
    (b₀.toNat ||| b₁.toNat <<< 8) ||| (b₂.toNat <<< 16 ||| b₃.toNat <<< 24) = value [b₀,
      b₁, b₂, b₃] := by
  have hhalf : b₂.toNat <<< 16 ||| b₃.toNat <<< 24 = (b₂.toNat ||| b₃.toNat <<< 8) <<< 8 <<< 8 := by
    rw [← Nat.shiftLeft_add, Nat.shiftLeft_or_distrib, ← Nat.shiftLeft_add]
  have hlow : b₁.toNat <<< 8 ||| value [b₂, b₃] <<< 8 <<< 8 = value [b₁, b₂, b₃] <<< 8 := by
    rw [← Nat.shiftLeft_or_distrib, or_shiftLeft]
    rfl
  rw [hhalf, value_pair b₂, Nat.or_assoc, hlow, or_shiftLeft]
  rfl

end LittleEndian
