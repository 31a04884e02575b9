import Mathlib.Data.Nat.Digits.Defs
import Mathlib.Tactic.IntervalCases

/-!
# Bin2llvm.Lib.HexText — hexadecimal text, printed and read back

`printHex w n` is C's `printf("0x%0*lx", w, n)`, `strtoll16` is C's `strtoll(s, NULL, 16)` in the
"C" locale, with its leading white space, its sign, its optional `0x` and its saturation at the ends
of `long long`.

* `takeNum_toDigits`: the digits of `n` read back as `n`.
* `printHex_injective`: different numbers are printed differently.
* `strtoll16_printHex`: reading a printed number gives `min (2^63 - 1) n`.
-/

namespace Bin2llvm.HexText

/-! ## Digits -/

/-- The value of a hexadecimal digit. -/
def digitVal (c : Char) : Option ℕ :=
  if '0' ≤ c ∧ c ≤ '9' then some (c.toNat - 48)
  else if 'a' ≤ c ∧ c ≤ 'f' then some (c.toNat - 87)
  else if 'A' ≤ c ∧ c ≤ 'F' then some (c.toNat - 55)
  else none

/-- The number read from the longest prefix of digits, on top of `acc`. -/
def takeNum (acc : ℕ) : List Char → ℕ
  | [] => acc
  | c :: cs =>
    match digitVal c with
    | some d => takeNum (acc * 16 + d) cs
    | none => acc

theorem digitVal_digitChar {d : ℕ} (h : d < 16) : digitVal (Nat.digitChar d) = some d := by
  interval_cases d <;> decide

theorem takeNum_append {xs : List Char} (hx : ∀ c ∈ xs, (digitVal c).isSome) (acc : ℕ)
    (ys : List Char) : takeNum acc (xs ++ ys) = takeNum (takeNum acc xs) ys := by
  induction xs generalizing acc with
  | nil => rfl
  | cons c xs ih =>
    obtain ⟨d, hd⟩ := Option.isSome_iff_exists.mp (hx c (by simp))
    simp only [List.cons_append, takeNum, hd]
    exact ih (fun c' hc' => hx c' (by simp [hc'])) _

theorem digitVal_of_mem_toDigits (n : ℕ) : ∀ c ∈ Nat.toDigits 16 n, (digitVal c).isSome := by
  induction n using Nat.strong_induction_on with
  | _ n ih =>
    intro c hc
    rw [Nat.toDigits_eq_if (by omega)] at hc
    split_ifs at hc with h
    · simp only [List.mem_singleton] at hc
      rw [hc, digitVal_digitChar h]
      rfl
    · rcases List.mem_append.mp hc with hc | hc
      · exact ih (n / 16) (by omega) c hc
      · simp only [List.mem_singleton] at hc
        rw [hc, digitVal_digitChar (Nat.mod_lt n (by omega))]
        rfl

/-- The digits of `n` read back as `n`. -/
theorem takeNum_toDigits (n : ℕ) : takeNum 0 (Nat.toDigits 16 n) = n := by
  induction n using Nat.strong_induction_on with
  | _ n ih =>
    rw [Nat.toDigits_eq_if (by omega)]
    split_ifs with h
    · simp [takeNum, digitVal_digitChar h]
    · rw [takeNum_append (digitVal_of_mem_toDigits (n / 16)), ih (n / 16) (by omega)]
      simp only [takeNum, digitVal_digitChar (Nat.mod_lt n (by omega : 0 < 16))]
      omega

theorem takeNum_replicate_zero (k : ℕ) (cs : List Char) :
    takeNum 0 (List.replicate k '0' ++ cs) = takeNum 0 cs := by
  induction k with
  | zero => rfl
  | succ k ih => exact ih

/-! ## Printing and reading -/

/-- `printf("0x%0*lx", w, n)`. -/
def printHex (w n : ℕ) : List Char := '0' :: 'x' :: List.leftpad w '0' (Nat.toDigits 16 n)

/-- `isspace` in the "C" locale. -/
def isSpace (c : Char) : Bool := c = ' ' ∨ (9 ≤ c.toNat ∧ c.toNat ≤ 13)

/-- An optional sign: whether the number is negative, and the text after the sign. -/
def readSign : List Char → Bool × List Char
  | '-' :: t => (true, t)
  | '+' :: t => (false, t)
  | t => (false, t)

/-- An optional `0x`, which counts only when a digit follows it. -/
def skipPrefix : List Char → List Char
  | '0' :: x :: d :: t =>
    if (x = 'x' ∨ x = 'X') ∧ (digitVal d).isSome then d :: t else '0' :: x :: d :: t
  | t => t

/-- `strtoll(s, NULL, 16)`: saturates at `LLONG_MIN` and `LLONG_MAX`. -/
def strtoll16 (s : List Char) : ℤ :=
  let r := readSign (s.dropWhile isSpace)
  let n : ℤ := takeNum 0 (skipPrefix r.2)
  if r.1 then max (-2 ^ 63) (-n) else min (2 ^ 63 - 1) n

theorem leftpad_cons (w n : ℕ) : ∃ d t, List.leftpad w '0' (Nat.toDigits 16 n) = d :: t ∧
    (digitVal d).isSome := by
  cases h : List.leftpad w '0' (Nat.toDigits 16 n) with
  | nil =>
    have hl := congrArg List.length h
    have hp := Nat.length_toDigits_pos (b := 16) (n := n)
    simp only [List.length_leftpad, List.length_nil] at hl
    omega
  | cons d t =>
    refine ⟨d, t, rfl, ?_⟩
    have hd : d ∈ List.leftpad w '0' (Nat.toDigits 16 n) := by rw [h]; simp
    rcases List.mem_append.mp hd with hd | hd
    · rw [List.eq_of_mem_replicate hd]
      decide
    · exact digitVal_of_mem_toDigits n d hd

theorem takeNum_leftpad (w n : ℕ) : takeNum 0 (List.leftpad w '0' (Nat.toDigits 16 n)) = n := by
  rw [List.leftpad, takeNum_replicate_zero, takeNum_toDigits]

/-- Different numbers are printed differently. -/
theorem printHex_injective (w : ℕ) : Function.Injective (printHex w) := by
  intro m n h
  have hpad := (List.cons.inj (List.cons.inj h).2).2
  rw [← takeNum_leftpad w m, hpad, takeNum_leftpad]

theorem le_length_printHex (w n : ℕ) : w + 2 ≤ (printHex w n).length := by
  simp only [printHex, List.length_cons, List.length_leftpad]
  omega

theorem length_printHex {w n : ℕ} (hw : 0 < w) (h : n < 16 ^ w) :
    (printHex w n).length = w + 2 := by
  have hdigits : (Nat.toDigits 16 n).length ≤ w := (Nat.length_toDigits_le_iff (by decide) hw).mpr h
  simp only [printHex, List.length_cons, List.length_leftpad]
  omega

/-- Reading a printed number gives it back, up to the saturation of `strtoll`. -/
theorem strtoll16_printHex (w n : ℕ) : strtoll16 (printHex w n) = min (2 ^ 63 - 1) (n : ℤ) := by
  obtain ⟨d, t, hdt, hd⟩ := leftpad_cons w n
  have h1 : (printHex w n).dropWhile isSpace = printHex w n := rfl
  have h2 : readSign (printHex w n) = (false, printHex w n) := rfl
  have h3 : skipPrefix (printHex w n) = List.leftpad w '0' (Nat.toDigits 16 n) := by
    rw [printHex, hdt]
    simp [skipPrefix, hd]
  simp only [strtoll16, h1, h2, h3, takeNum_leftpad, Bool.false_eq_true, if_false]

end Bin2llvm.HexText
