import Mathlib.Data.List.Induction
import Mathlib.Data.List.Sort
import Mathlib.Data.Nat.Digits.Defs
import Mathlib.Tactic.IntervalCases
import Mathlib.Tactic.Tauto

/-!
# Bin2llvm.Coverage — `CoverageStatusQemu` of pymodules/coverage.py

The driver's record of explored code: a list of closed intervals of program counters, grown by the
QEMU `in_asm` log of each iteration.  Python integers are natural numbers here (every one is read
from eight hexadecimal digits).

* `mergeSortedLists_perm`, `mergeSortedLists_sorted`: the merge loses nothing and keeps the order of
  the starts.
* `mem_scan_iff`: what the intervals of a log cover.
* `pcOfLine_eq_some_iff`: the regular expression matches `0x`, eight hexadecimal digits and any text
  after them.
* `coverage_spec`: the intervals after any logs.
* `visitedInside_iff`: when the covered addresses are those of logged instructions.
-/

namespace Bin2llvm.CoverageStatusQemu

abbrev Interval := ℕ × ℕ

/-! ## `_get_intervals_from_qemu` -/

/-- The value of the match of `^(0x[0-9a-fA-F]{8})`. -/
def pcOfLine (line : List Char) : Option ℕ :=
  match line with
  | '0' :: 'x' :: cs =>
    let ds := cs.take 8
    if ds.length = 8 ∧ ds.all (fun c => c.isDigit ∨ ('a' ≤ c ∧ c ≤ 'f') ∨ ('A' ≤ c ∧ c ≤ 'F')) then
      some (ds.foldl (fun n c => 16 * n +
        (if c.isDigit then c.toNat - 48 else if 'a' ≤ c then c.toNat - 87 else c.toNat - 55)) 0)
    else none
  | _ => none

/-- The loop over the addresses of the log; the state is `(interval_start, pc_prev)` once there is
one. -/
def scan : Option Interval → List ℕ → List Interval
  | none, [] => []
  | some cur, [] => [cur]
  | none, pc :: pcs => scan (some (pc, pc)) pcs
  | some (start, prev), pc :: pcs =>
    if pc = prev + 4 ∨ pc = prev + 2 ∨ pc = prev then scan (some (start, pc)) pcs
    else (start, prev) :: scan (some (pc, pc)) pcs

/-- `_get_intervals_from_qemu`, on the lines of the log. -/
def getIntervalsFromQemu (lines : List (List Char)) : List Interval :=
  ((scan none (lines.filterMap pcOfLine)).filter (fun i => i.1 ≤ i.2)).insertionSort
    (fun a b => a.1 ≤ b.1)

/-! ## The list of intervals -/

/-- Python's `<` on pairs. -/
def tupleLt (a b : Interval) : Bool := a.1 < b.1 ∨ (a.1 = b.1 ∧ a.2 < b.2)

/-- `_merge_sorted_lists(a, b)`: pops the smaller head, the one of `b` on a tie. -/
def mergeSortedLists : List Interval → List Interval → List Interval
  | [], b => b
  | x :: a, b => popB x (mergeSortedLists a) b
where
  /-- The heads of `x :: a` and of a list `b`; `rest` merges `a` with what is left. -/
  popB (x : Interval) (rest : List Interval → List Interval) : List Interval → List Interval
    | [] => x :: rest []
    | y :: b => if tupleLt x y then x :: rest (y :: b) else y :: popB x rest b

/-- `extend_with_qemu_log`. -/
def extendWithQemuLog (intervals : List Interval) (lines : List (List Char)) : List Interval :=
  mergeSortedLists intervals (getIntervalsFromQemu lines)

/-- `visited(pc)`. -/
def visited : List Interval → ℕ → Bool
  | [], _ => false
  | (minPC, maxPC) :: is, pc => if minPC ≤ pc ∧ pc ≤ maxPC then true else visited is pc

theorem visited_iff (is : List Interval) (pc : ℕ) : visited is pc = true ↔ ∃ i ∈ is, i.1 ≤ pc ∧
    pc ≤ i.2 := by
  induction is with
  | nil => simp [visited]
  | cons i is ih =>
    obtain ⟨lo, hi⟩ := i
    simp only [visited, List.mem_cons, exists_eq_or_imp]
    by_cases h : lo ≤ pc ∧ pc ≤ hi
    · simp [h]
    · rw [if_neg h, ih]
      simp [h]

/-! ## The merge -/

theorem popB_perm {x : Interval} {rest : List Interval → List Interval} {a : List Interval}
    (hrest : ∀ b, (rest b).Perm (a ++ b)) (b : List Interval) :
    (mergeSortedLists.popB x rest b).Perm (x :: (a ++ b)) := by
  induction b with
  | nil => exact (hrest []).cons x
  | cons y b ih =>
    unfold mergeSortedLists.popB
    split_ifs
    · exact (hrest _).cons x
    · exact (ih.cons y).trans ((List.Perm.swap x y _).trans (List.perm_middle.symm.cons x))

theorem mergeSortedLists_perm (a b : List Interval) : (mergeSortedLists a b).Perm (a ++ b) := by
  induction a generalizing b with
  | nil => exact List.Perm.refl b
  | cons x a ih => exact popB_perm ih b

theorem mem_mergeSortedLists {a b : List Interval} {i : Interval} : i ∈ mergeSortedLists a b ↔
    i ∈ a ∨ i ∈ b :=
  (mergeSortedLists_perm a b).mem_iff.trans List.mem_append

/-- Sorted by the starts. -/
abbrev Sorted (is : List Interval) : Prop := is.Pairwise fun i j => i.1 ≤ j.1

theorem popB_sorted {x : Interval} {rest : List Interval → List Interval} {a : List Interval}
    (hperm : ∀ b, (rest b).Perm (a ++ b)) (hrest : ∀ b, Sorted b → Sorted (rest b))
    (hx : ∀ i ∈ a, x.1 ≤ i.1) {b : List Interval} (hb : Sorted b) :
    Sorted (mergeSortedLists.popB x rest b) := by
  induction b with
  | nil =>
    refine List.pairwise_cons.mpr ⟨fun i hi => hx i ?_, hrest [] hb⟩
    simpa using (hperm []).mem_iff.mp hi
  | cons y b ih =>
    have ⟨hy, hb'⟩ := List.pairwise_cons.mp hb
    unfold mergeSortedLists.popB
    split_ifs with hlt
    · have hxy : x.1 ≤ y.1 := by
        simp only [tupleLt, Bool.decide_or, Bool.or_eq_true, decide_eq_true_eq] at hlt
        omega
      refine List.pairwise_cons.mpr ⟨fun i hi => ?_, hrest _ hb⟩
      rcases List.mem_append.mp ((hperm _).mem_iff.mp hi) with hi | hi
      · exact hx i hi
      · rcases List.mem_cons.mp hi with rfl | hi
        · exact hxy
        · exact hxy.trans (hy i hi)
    · have hyx : y.1 ≤ x.1 := by
        simp only [tupleLt, Bool.decide_or, Bool.or_eq_true, decide_eq_true_eq] at hlt
        omega
      refine List.pairwise_cons.mpr ⟨fun i hi => ?_, ih hb'⟩
      rcases List.mem_cons.mp ((popB_perm hperm b).mem_iff.mp hi) with rfl | hi
      · exact hyx
      · rcases List.mem_append.mp hi with hi | hi
        · exact hyx.trans (hx i hi)
        · exact hy i hi

/-- Ties are merged in either order, since the tuples are compared. -/
theorem mergeSortedLists_sorted {a b : List Interval} (ha : Sorted a) (hb : Sorted b) :
    Sorted (mergeSortedLists a b) := by
  induction a generalizing b with
  | nil => exact hb
  | cons x a ih =>
    have ⟨hx, ha⟩ := List.pairwise_cons.mp ha
    exact popB_sorted (mergeSortedLists_perm a) (fun b hb => ih ha hb) hx hb

/-! ## What a log covers -/

/-- The three kinds of extension. -/
def Extends (p q : ℕ) : Prop := q = p + 4 ∨ q = p + 2 ∨ q = p

/-- An address of the log, or one between two successive addresses that are in one interval. -/
def Covered (pcs : List ℕ) (a : ℕ) : Prop :=
  a ∈ pcs ∨ ∃ pq ∈ pcs.zip pcs.tail, Extends pq.1 pq.2 ∧ pq.1 ≤ a ∧ a ≤ pq.2

theorem covered_cons_cons {p q a : ℕ} {pcs : List ℕ} : Covered (p :: q :: pcs) a ↔
    a = p ∨ Extends p q ∧ p ≤ a ∧ a ≤ q ∨ Covered (q :: pcs) a := by
  unfold Covered
  rw [List.mem_cons, List.tail_cons, List.zip_cons_cons]
  simp only [List.mem_cons, exists_eq_or_imp, List.tail_cons]
  tauto

theorem mem_scan_iff {start prev a : ℕ} {pcs : List ℕ} (h : start ≤ prev) :
    (∃ i ∈ scan (some (start, prev)) pcs, i.1 ≤ a ∧ a ≤ i.2) ↔ start ≤ a ∧ a ≤ prev ∨
      Covered (prev :: pcs) a := by
  induction pcs generalizing start prev with
  | nil =>
    simp only [scan, List.mem_singleton, exists_eq_left, Covered, List.tail_cons,
      List.zip_nil_right, List.not_mem_nil, false_and, exists_false, or_false]
    omega
  | cons pc pcs ih =>
    rw [covered_cons_cons]
    by_cases hext : Extends prev pc
    · have hstep : scan (some (start, prev)) (pc :: pcs) = scan (some (start, pc)) pcs :=
        if_pos hext
      have hle : prev ≤ pc := by unfold Extends at hext; omega
      rw [hstep, ih (h.trans hle)]
      simp only [hext, true_and]
      constructor
      · rintro (hin | hcov)
        · by_cases hp : a ≤ prev
          · exact Or.inl ⟨hin.1, hp⟩
          · exact Or.inr (Or.inr (Or.inl ⟨by omega, hin.2⟩))
        · exact Or.inr (Or.inr (Or.inr hcov))
      · rintro (hin | rfl | hin | hcov)
        · exact Or.inl ⟨hin.1, hin.2.trans hle⟩
        · exact Or.inl ⟨h, hle⟩
        · exact Or.inl ⟨h.trans hin.1, hin.2⟩
        · exact Or.inr hcov
    -- the interval is closed, and a new one begins
    · have hstep : scan (some (start, prev)) (pc :: pcs) = (start, prev) :: scan (some (pc, pc))
        pcs := if_neg hext
      rw [hstep]
      simp only [List.mem_cons, exists_eq_or_imp, ih (le_refl pc), hext, false_and, false_or]
      constructor
      · rintro (hin | hin | hcov)
        · exact Or.inl hin
        · exact Or.inr (Or.inr (Or.inl (List.mem_cons.mpr (Or.inl (by omega)))))
        · exact Or.inr (Or.inr hcov)
      · rintro (hin | rfl | hcov)
        · exact Or.inl hin
        · exact Or.inl ⟨h, le_refl _⟩
        · exact Or.inr (Or.inr hcov)

/-- No interval of a log is empty, so none is filtered out. -/
theorem le_of_mem_scan {cur : Interval} (h : cur.1 ≤ cur.2) {pcs : List ℕ} :
    ∀ i ∈ scan (some cur) pcs, i.1 ≤ i.2 := by
  induction pcs generalizing cur with
  | nil => simpa [scan] using h
  | cons pc pcs ih =>
    obtain ⟨start, prev⟩ := cur
    simp only at h
    unfold scan
    split_ifs with hext
    · exact ih (show start ≤ pc by omega)
    · exact List.forall_mem_cons.mpr ⟨h, ih (le_refl pc)⟩

/-- The addresses of the instruction lines. -/
def pcsOf (lines : List (List Char)) : List ℕ := lines.filterMap pcOfLine

theorem mem_getIntervals_iff {lines : List (List Char)} {a : ℕ} :
    (∃ i ∈ getIntervalsFromQemu lines, i.1 ≤ a ∧ a ≤ i.2) ↔ Covered (pcsOf lines) a := by
  unfold getIntervalsFromQemu
  simp only [List.mem_insertionSort, List.mem_filter, decide_eq_true_eq]
  show (∃ i, (i ∈ scan none (pcsOf lines) ∧ _) ∧ _) ↔ _
  cases pcsOf lines with
  | nil => simp [scan, Covered]
  | cons pc pcs =>
    have hmem : (∃ i, (i ∈ scan none (pc :: pcs) ∧ i.1 ≤ i.2) ∧ i.1 ≤ a ∧ a ≤ i.2) ↔
        ∃ i ∈ scan (some (pc, pc)) pcs, i.1 ≤ a ∧ a ≤ i.2 := by
      constructor
      · rintro ⟨i, ⟨hi, -⟩, hin⟩
        exact ⟨i, hi, hin⟩
      · rintro ⟨i, hi, hin⟩
        exact ⟨i, ⟨hi, le_of_mem_scan (le_refl pc) i hi⟩, hin⟩
    rw [hmem, mem_scan_iff (le_refl pc)]
    constructor
    · rintro (hin | hcov)
      · exact Or.inl (List.mem_cons.mpr (Or.inl (by omega)))
      · exact hcov
    · exact Or.inr

/-! ## Instruction lines -/

/-- `c` is the hexadecimal digit `d`, in either case. -/
def IsHexDigit (c : Char) (d : ℕ) : Prop :=
  "0123456789abcdef".toList[d]? = some c ∨ "0123456789ABCDEF".toList[d]? = some c

/-- An instruction line: `0x`, the eight digits of the address, the highest first, and any text
after them. -/
def LogsPC (line : List Char) (pc : ℕ) : Prop :=
  ∃ cs ds rest, line = '0' :: 'x' :: (cs ++ rest) ∧ List.Forall₂ IsHexDigit cs ds ∧ cs.length = 8 ∧
    Nat.ofDigits 16 ds.reverse = pc

/-- The class `[0-9a-fA-F]`. -/
abbrev hexClass (c : Char) : Bool := c.isDigit ∨ ('a' ≤ c ∧ c ≤ 'f') ∨ ('A' ≤ c ∧ c ≤ 'F')

/-- The value `int(…, 16)` gives such a character. -/
abbrev hexVal (c : Char) : ℕ := if c.isDigit then c.toNat - 48 else if 'a' ≤ c then c.toNat - 87
    else c.toNat - 55

theorem isHexDigit_hexVal {c : Char} (h : hexClass c = true) : IsHexDigit c (hexVal c) := by
  have hc : c = Char.ofNat c.toNat := (Char.ofNat_toNat c).symm
  have hle {a b : Char} : a ≤ b ↔ a.toNat ≤ b.toNat := Char.le_def.trans UInt32.le_iff_toNat_le
  have hr : (48 ≤ c.toNat ∧ c.toNat ≤ 57) ∨ (97 ≤ c.toNat ∧ c.toNat ≤ 102) ∨
      (65 ≤ c.toNat ∧ c.toNat ≤ 70) := by
    simpa [hexClass, hle, Char.isDigit_iff_toNat] using h
  -- the character is one of twenty-two
  rcases hr with ⟨h1, h2⟩ | ⟨h1, h2⟩ |
    ⟨h1, h2⟩ <;> (rw [hc]; generalize c.toNat = n at h1 h2; interval_cases n) <;>
    first | exact Or.inl rfl | exact Or.inr rfl

theorem hexVal_of_isHexDigit {c : Char} {d : ℕ} (h : IsHexDigit c d) :
    hexClass c = true ∧ hexVal c = d := by
  have hd : d < 16 := by
    rcases h with h | h
    · exact (List.getElem?_eq_some_iff.mp h).1
    · exact (List.getElem?_eq_some_iff.mp h).1
  rcases h with h | h <;> interval_cases d <;> cases h <;> decide

theorem foldl_hexVal (cs : List Char) : cs.foldl (fun n c => 16 * n + hexVal c) 0 =
    Nat.ofDigits 16 (cs.map hexVal).reverse := by
  rw [Nat.ofDigits_eq_foldr, List.foldr_reverse, List.foldl_map]
  simp only [Nat.cast_id, Nat.add_comm]

theorem pcOfLine_cons (cs : List Char) : pcOfLine ('0' :: 'x' :: cs) =
    if (cs.take 8).length = 8 ∧ (cs.take 8).all hexClass then
      some (Nat.ofDigits 16 ((cs.take 8).map hexVal).reverse)
    else none := by
  rw [← foldl_hexVal]
  rfl

/-- The lines the regular expression matches, and the address it gives. -/
theorem pcOfLine_eq_some_iff {line : List Char} {pc : ℕ} : pcOfLine line = some pc ↔
    LogsPC line pc := by
  constructor
  · intro h
    have hline : ∃ cs, line = '0' :: 'x' :: cs := by
      unfold pcOfLine at h
      split at h
      · exact ⟨_, rfl⟩
      · cases h
    obtain ⟨cs, rfl⟩ := hline
    rw [pcOfLine_cons] at h
    split_ifs at h with hcs
    refine ⟨cs.take 8, (cs.take 8).map hexVal, cs.drop 8, by rw [List.take_append_drop], ?_, hcs.1,
      Option.some.inj h⟩
    rw [List.forall₂_map_right_iff, List.forall₂_same]
    exact fun c hc => isHexDigit_hexVal (List.all_eq_true.mp hcs.2 c hc)
  · rintro ⟨cs, ds, rest, rfl, hds, hlen, rfl⟩
    -- the eight characters behind the `0x` are the digits
    have htake : (cs ++ rest).take 8 = cs := by
      rw [List.take_append_of_le_length hlen.ge, ← hlen, List.take_length]
    have hcs : cs.all hexClass = true ∧ cs.map hexVal = ds := by
      clear hlen htake
      induction hds with
      | nil => exact ⟨rfl, rfl⟩
      | cons hd _ ih =>
        obtain ⟨hc, rfl⟩ := hexVal_of_isHexDigit hd
        exact ⟨by rw [List.all_cons, hc, ih.1]; rfl, by rw [List.map_cons, ih.2]⟩
    rw [pcOfLine_cons, htake, if_pos ⟨hlen, hcs.1⟩, hcs.2]

/-! ## Sequences of logs -/

/-- The intervals after `extend_with_qemu_log` on each of the logs. -/
def coverage (logs : List (List (List Char))) : List Interval := logs.foldl extendWithQemuLog []

theorem coverage_append_singleton (logs : List (List (List Char))) (lines : List (List Char)) :
    coverage (logs ++ [lines]) = mergeSortedLists (coverage logs) (getIntervalsFromQemu lines) := by
  rw [coverage, List.foldl_append]
  rfl

theorem sorted_coverage (logs : List (List (List Char))) : Sorted (coverage logs) := by
  induction logs using List.reverseRecOn with
  | nil => exact List.Pairwise.nil
  | append_singleton logs lines ih =>
    rw [coverage_append_singleton]
    exact mergeSortedLists_sorted ih (List.pairwise_insertionSort _ _)

theorem coverage_perm (logs : List (List (List Char))) :
    (coverage logs).Perm (logs.flatMap getIntervalsFromQemu) := by
  induction logs using List.reverseRecOn with
  | nil => exact List.Perm.refl _
  | append_singleton logs lines ih =>
    rw [coverage_append_singleton, List.flatMap_append, List.flatMap_singleton]
    exact (mergeSortedLists_perm _ _).trans (ih.append_right _)

theorem visited_coverage_iff {logs : List (List (List Char))} {a : ℕ} :
    visited (coverage logs) a = true ↔ ∃ lines ∈ logs, Covered (pcsOf lines) a := by
  rw [visited_iff]
  simp only [(coverage_perm logs).mem_iff, List.mem_flatMap]
  constructor
  · rintro ⟨i, ⟨lines, hlines, hi⟩, hin⟩
    exact ⟨lines, hlines, mem_getIntervals_iff.mp ⟨i, hi, hin⟩⟩
  · rintro ⟨lines, hlines, hcov⟩
    obtain ⟨i, hi, hin⟩ := mem_getIntervals_iff.mpr hcov
    exact ⟨i, ⟨lines, hlines, hi⟩, hin⟩

/-- **After any logs the intervals are sorted by their starts and are those extracted from the logs,
each as often as it was extracted; the address of every instruction line is visited, what is visited
stays so, and the order of the logs does not matter.** -/
theorem coverage_spec (logs : List (List (List Char))) :
    Sorted (coverage logs) ∧ (coverage logs).Perm (logs.flatMap getIntervalsFromQemu) ∧
    (∀ lines ∈ logs, ∀ line ∈ lines, ∀ pc, LogsPC line pc → visited (coverage logs) pc = true) ∧
    (∀ more pc, visited (coverage logs) pc = true → visited (coverage (logs ++ more)) pc = true) ∧
    ∀ logs', logs'.Perm logs → ∀ pc, visited (coverage logs') pc = visited (coverage logs) pc := by
  refine ⟨sorted_coverage logs, coverage_perm logs, ?_, ?_, ?_⟩
  · intro lines hlines line hline pc hpc
    have hmem : pc ∈ pcsOf lines :=
      List.mem_filterMap.mpr ⟨line, hline, pcOfLine_eq_some_iff.mpr hpc⟩
    exact visited_coverage_iff.mpr ⟨lines, hlines, Or.inl hmem⟩
  · intro more pc hpc
    obtain ⟨lines, hlines, hcov⟩ := visited_coverage_iff.mp hpc
    exact visited_coverage_iff.mpr ⟨lines, List.mem_append_left _ hlines, hcov⟩
  · intro logs' hperm pc
    rw [Bool.eq_iff_iff, visited_coverage_iff, visited_coverage_iff]
    simp only [hperm.mem_iff]

/-- Two blocks, the second one before the first, and then the first again. -/
def twoLogs : List (List (List Char)) :=
  [["IN:".toList, "0x00008000:  e3a00001  mov r0, #1".toList, "0x00008004:  E12FFF1E  bx lr".toList,
    "0x00007ffE:  4770      bx lr".toList], ["0x00008000:  e3a00001  mov r0, #1".toList]]

/-- `0x7ffe`, a line with digits in both cases that goes backward, is visited. -/
theorem coverage_twoLogs : coverage twoLogs = [(0x7ffe, 0x7ffe), (0x8000, 0x8000),
    (0x8000, 0x8004)] ∧
    LogsPC "0x00007ffE:  4770      bx lr".toList 0x7ffe ∧
    visited (coverage twoLogs) 0x7ffe = true := by
  have hline : LogsPC "0x00007ffE:  4770      bx lr".toList 0x7ffe := by
    refine ⟨['0', '0', '0', '0', '7', 'f', 'f', 'E'], [0, 0, 0, 0, 7, 15, 15, 14],
      ":  4770      bx lr".toList, rfl, ?_, rfl, by decide⟩
    simp [IsHexDigit]
  exact ⟨by decide, hline,
    (coverage_spec twoLogs).2.2.1 _ (List.mem_cons_self ..) _ (by decide) _ hline⟩

/-! ## Addresses between instructions -/

/-- A line of the log.  The instruction on an instruction line takes two or four bytes. -/
structure AsmLine where
  text : List Char
  width : ℕ
  width_eq : width = 2 ∨ width = 4
  deriving DecidableEq, Repr

/-- The logged instructions, by address and width. -/
def instrsOf (log : List AsmLine) : List (ℕ × ℕ) :=
  log.filterMap fun l => (pcOfLine l.text).map fun pc => (pc, l.width)

/-- `a` lies inside a logged instruction. -/
def InsideInstr (log : List AsmLine) (a : ℕ) : Prop := ∃ i ∈ instrsOf log, i.1 ≤ a ∧ a < i.1 + i.2

/-- Only addresses inside logged instructions are visited. -/
def VisitedInside (log : List AsmLine) : Prop :=
  ∀ a, visited (coverage [log.map AsmLine.text]) a = true → InsideInstr log a

theorem map_fst_instrsOf (log : List AsmLine) :
    (instrsOf log).map Prod.fst = pcsOf (log.map AsmLine.text) := by
  unfold instrsOf pcsOf
  rw [List.map_filterMap, List.filterMap_map]
  congr 1
  funext l
  simp [Function.comp_def]

theorem width_of_mem_instrsOf {log : List AsmLine} {i : ℕ × ℕ}
    (h : i ∈ instrsOf log) : i.2 = 2 ∨ i.2 = 4 := by
  obtain ⟨l, -, hl⟩ := List.mem_filterMap.mp h
  obtain ⟨pc, -, rfl⟩ := Option.map_eq_some_iff.mp hl
  exact l.width_eq

theorem zip_tail_map (is : List (ℕ × ℕ)) :
    (is.map Prod.fst).zip (is.map Prod.fst).tail = (is.zip is.tail).map fun ij =>
      (ij.1.1, ij.2.1) := by
  rw [← List.map_tail, List.zip_map]
  rfl

/-- **Only addresses inside logged instructions are visited exactly when, wherever the log goes on
four bytes after an instruction of two bytes, the two bytes in between are inside logged
instructions.** -/
theorem visitedInside_iff (log : List AsmLine) : VisitedInside log ↔
    ∀ ij ∈ (instrsOf log).zip (instrsOf log).tail, ij.1.2 = 2 → ij.2.1 = ij.1.1 + 4 →
      InsideInstr log (ij.1.1 + 2) ∧ InsideInstr log (ij.1.1 + 3) := by
  have hvisited (a : ℕ) : visited (coverage [log.map AsmLine.text]) a = true ↔
      Covered ((instrsOf log).map Prod.fst) a := by
    rw [visited_coverage_iff, map_fst_instrsOf]
    simp
  constructor
  -- the line four bytes on has extended the interval over the gap
  · rintro h ⟨⟨p, w⟩, ⟨q, w'⟩⟩ hij hw hq
    simp only at hw hq ⊢
    subst hw hq
    have hcov (a : ℕ) (hle : p ≤ a) (hle' : a ≤ p + 4) : Covered
        ((instrsOf log).map Prod.fst) a := by
      refine Or.inr ⟨(p, p + 4), ?_, Or.inl rfl, hle, hle'⟩
      rw [zip_tail_map]
      exact List.mem_map.mpr ⟨_, hij, rfl⟩
    have hin (a : ℕ) (hle : p ≤ a) (hle' : a ≤ p + 4) : InsideInstr log a :=
      h a ((hvisited a).mpr (hcov a hle hle'))
    exact ⟨hin _ (by omega) (by omega), hin _ (by omega) (by omega)⟩
  · intro h a ha
    rcases (hvisited a).mp ha with hmem | ⟨pq, hpq, hext, hle, hle'⟩
    · obtain ⟨i, hi, rfl⟩ := List.mem_map.mp hmem
      have hpos : 0 < i.2 := by rcases width_of_mem_instrsOf hi with h | h <;> omega
      exact ⟨i, hi, le_refl _, by omega⟩
    · rw [zip_tail_map] at hpq
      obtain ⟨⟨i, j⟩, hij, rfl⟩ := List.mem_map.mp hpq
      have hi : i ∈ instrsOf log := (List.of_mem_zip hij).1
      have hj : j ∈ instrsOf log := List.mem_of_mem_tail (List.of_mem_zip hij).2
      have hwi := width_of_mem_instrsOf hi
      have hwj := width_of_mem_instrsOf hj
      simp only [Extends] at hext hle hle'
      by_cases hlast : a = j.1
      · exact ⟨j, hj, by omega, by omega⟩
      · by_cases hgap : i.1 + i.2 ≤ a
        · -- the instruction takes two bytes, the next line is four bytes on
          have ⟨h2, h3⟩ := h (i, j) hij (by dsimp only; omega) (by dsimp only; omega)
          rcases (show a = i.1 + 2 ∨ a = i.1 + 3 by omega) with rfl | rfl
          · exact h2
          · exact h3
        · exact ⟨i, hi, hle, by omega⟩

/-- Of two instructions of two bytes, four bytes apart. -/
theorem not_visitedInside_gap : ¬ VisitedInside
    [⟨"0x00001000:  4770      bx lr".toList, 2, Or.inl rfl⟩, ⟨"0x00001004:  46c0      nop".toList,
      2, Or.inl rfl⟩] := by
  intro h
  obtain ⟨i, hi, hin⟩ := h 0x1002 (by decide)
  revert i
  decide

end Bin2llvm.CoverageStatusQemu
