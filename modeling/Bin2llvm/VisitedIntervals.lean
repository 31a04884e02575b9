import Bin2llvm.Lib.CxxInt
import Bin2llvm.Coverage
import Mathlib.Data.UInt
import Mathlib.Tactic.Linarith

/-!
# Bin2llvm.VisitedIntervals — is a PC inside an explored interval?

The two lookups of the disassembler in `m_visitedPCIntervals`, with C++ scoping and index
arithmetic: `int` indices overflow (undefined, `none`), and they are compared with `size()` after
conversion to `size_t`.  An access outside the vector is `none` as well.

* `bsearch_eq`: the `mid` of the search loop shadows the outer one, so the index stays `-1`, the
  forward scan is never entered and the answer is always `false`.
* `isPCInVisitedIntervalsBsearch_correct_iff`: the search answers rightly exactly for the PCs inside
  no interval (and while the index sums stay inside `int`).
-/

namespace Bin2llvm

open CxxInt

/-- `m_visitedPCIntervals`: closed intervals sorted by start address, as the driver hands them
over. -/
structure VisitedIntervals where
  data : List (UInt64 × UInt64)
  size_lt : data.length < 2 ^ 64
  sorted : data.Pairwise (fun i j => i.1 ≤ j.1)

namespace VisitedIntervals

/-- What the first iteration gets: nothing was explored before. -/
def empty : VisitedIntervals := ⟨[], by decide, List.Pairwise.nil⟩

variable (v : VisitedIntervals) (pc : UInt64)

def size : ℕ := v.data.length

/-- `m_visitedPCIntervals[idx]`, indexed with an `int`. -/
def at? (idx : ℤ) : Option (UInt64 × UInt64) := v.data[toSize idx]?

/-! ## The code -/

/-- The search loop on `[a, b]`; its result is dropped with the `mid` it declares. -/
def bsearchLoop (a b : ℤ) : Option Unit :=
  if _h : a ≤ b then
    if IsInt (a + b) then
      let mid := (a + b).tdiv 2
      match v.at? mid with
      | none => none
      | some iv =>
        if iv.1 = pc then some ()
        else if pc < iv.1 then bsearchLoop a (mid - 1)
        else bsearchLoop (mid + 1) b
    else none
  else some ()
termination_by (b + 1 - a).toNat
decreasing_by all_goals have := midpoint_bounds _h; omega

/-- "adjust left": steps back while the interval at `idx` starts at `pc`. -/
def adjustLeft (idx : ℤ) : Option ℤ :=
  if _h : 0 ≤ idx then
    match v.at? idx with
    | none => none
    | some iv => if iv.1 = pc then adjustLeft (idx - 1) else some idx
  else some idx
termination_by (idx + 1).toNat
decreasing_by omega

/-- The forward scan from `idx`, until an interval holds `pc` or starts after it. -/
def scanForward (idx : ℤ) : Option Bool :=
  if toSize idx < v.size then
    match v.at? idx with
    | none => none
    | some iv =>
      if iv.1 ≤ pc ∧ pc ≤ iv.2 then some true
      else if pc < iv.1 then some false
      else if h : IsInt (idx + 1) then scanForward (idx + 1)
      else none
  else some false
termination_by (2 ^ 31 - idx).toNat
decreasing_by have := h.2; omega

/-- `b = m_visitedPCIntervals.size()-1`. -/
def lastIndex : ℤ := toInt (sizePred v.size)

/-- `isPCInVisitedIntervalsBsearch(pc)`. -/
def isPCInVisitedIntervalsBsearch : Option Bool :=
  let a : ℤ := 0
  let b := v.lastIndex
  let mid : ℤ := -1
  if a > b then some false
  else do
    -- the loop works on a `mid` of its own
    v.bsearchLoop pc a b
    let idx ← v.adjustLeft pc mid
    v.scanForward pc idx

/-- `isPCInVisitedIntervalsLinear(pc)`. -/
def isPCInVisitedIntervalsLinear : Option Bool := v.scanForward pc 0

/-! ## What the search should answer -/

/-- Some interval has `first ≤ pc ≤ second`. -/
def Contains : Prop := ∃ iv ∈ v.data, iv.1 ≤ pc ∧ pc ≤ iv.2

/-- The same list in the driver. -/
def toDriver : List CoverageStatusQemu.Interval := v.data.map fun iv => (iv.1.toNat, iv.2.toNat)

/-- The search terminates inside the vector, tells whether some interval contains `pc`, and agrees
with the linear scan and with the driver. -/
def BsearchCorrect : Prop :=
  ∃ r, v.isPCInVisitedIntervalsBsearch pc = some r ∧ (r = true ↔ v.Contains pc) ∧
    v.isPCInVisitedIntervalsLinear pc = some r ∧ CoverageStatusQemu.visited v.toDriver pc.toNat = r

/-- The left end after `t` steps to the right of a binary search on `[0, b]`. -/
def rightEnd (b : ℤ) : ℕ → ℤ
  | 0 => 0
  | t + 1 => (rightEnd b t + b) / 2 + 1

/-- The search for `pc` goes right until `a + b` leaves `int` (this takes more than `2^30`
intervals). -/
def SumOverflows : Prop :=
  ∃ t iv, rightEnd v.lastIndex t ≤ v.lastIndex ∧ 2 ^ 31 ≤ rightEnd v.lastIndex t + v.lastIndex ∧
    v.at? (rightEnd v.lastIndex t - 1) = some iv ∧ iv.1 < pc

/-- The `int` counter of the linear scan passes its last value before an interval after `pc` (this
takes `2^31` intervals). -/
def CounterOverflows : Prop := ∃ iv, v.at? (2 ^ 31 - 1) = some iv ∧ iv.1 ≤ pc

variable {v pc}

/-! ## Access and order -/

theorem at?_eq {i : ℤ} (h0 : 0 ≤ i) (h1 : i < v.size) : ∃ iv, v.at? i = some iv ∧ iv ∈ v.data := by
  have hs := v.size_lt
  unfold size at h1
  have hi : toSize i < v.data.length := by
    rw [toSize_of_nonneg h0 (by omega)]
    omega
  exact ⟨v.data[toSize i], List.getElem?_eq_getElem hi, List.getElem_mem hi⟩

theorem lt_size_of_at? {i : ℤ} (h0 : 0 ≤ i) (h1 : i < 2 ^ 64) {iv : UInt64 × UInt64}
    (h : v.at? i = some iv) : i < v.size := by
  obtain ⟨hi, -⟩ := List.getElem?_eq_some_iff.mp h
  rw [toSize_of_nonneg h0 h1] at hi
  unfold size
  omega

theorem first_le {i j : ℤ} (h0 : 0 ≤ i) (hij : i ≤ j) (hj : j < 2 ^ 64) {x y : UInt64 × UInt64}
    (hx : v.at? i = some x) (hy : v.at? j = some y) : x.1 ≤ y.1 := by
  obtain ⟨hi, rfl⟩ := List.getElem?_eq_some_iff.mp hx
  obtain ⟨hj', rfl⟩ := List.getElem?_eq_some_iff.mp hy
  have e1 := toSize_of_nonneg h0 (lt_of_le_of_lt hij hj)
  have e2 := toSize_of_nonneg (h0.trans hij) hj
  rcases Nat.lt_or_ge (toSize i) (toSize j) with h | h
  · exact List.pairwise_iff_getElem.mp v.sorted _ _ hi hj' h
  · have e : toSize i = toSize j := by omega
    simp only [e]
    exact UInt64.le_refl _

theorem lastIndex_lt_size (h : 0 ≤ v.lastIndex) : v.lastIndex < v.size := by
  have h1 := toInt_le (sizePred v.size)
  have h2 := toInt_lt (sizePred v.size)
  have hs := v.size_lt
  change v.size < 2 ^ 64 at hs
  rcases Nat.eq_zero_or_pos v.size with h0 | hpos
  · have : v.lastIndex = -1 := by
      unfold lastIndex
      rw [h0]
      decide
    omega
  · have : sizePred v.size = v.size - 1 := by
      unfold sizePred
      omega
    unfold lastIndex at h ⊢
    omega

/-! ## The search loop -/

theorem bsearchLoop_of_lt {a b : ℤ} (h : b < a) : v.bsearchLoop pc a b = some () := by
  rw [bsearchLoop, dif_neg (by omega)]

/-- Without overflow the loop ends inside the vector. -/
theorem bsearchLoop_of_small {a b : ℤ} (ha : 0 ≤ a) (hb : 2 * b < 2 ^ 31) (hs : b < v.size) :
    v.bsearchLoop pc a b = some () := by
  induction hn : (b + 1 - a).toNat using Nat.strong_induction_on generalizing a b with
  | _ n ih =>
    rcases lt_or_ge b a with hab | hab
    · exact bsearchLoop_of_lt hab
    · obtain ⟨h1, h2⟩ := midpoint_bounds hab
      obtain ⟨iv, hiv, -⟩ := at?_eq (v := v) (ha.trans h1) (lt_of_le_of_lt h2 hs)
      rw [bsearchLoop, dif_pos hab, if_pos ⟨by omega, by omega⟩]
      simp only [hiv]
      split_ifs with h3 h4
      · rfl
      · exact ih _ (by omega) ha (by omega) (by omega) rfl
      · exact ih _ (by omega) (by omega) hb hs rfl

theorem rightEnd_le (b : ℤ) (hb : -1 ≤ b) (t : ℕ) : rightEnd b t ≤ b + 1 := by
  induction t with
  | zero => simp only [rightEnd]; omega
  | succ t ih => simp only [rightEnd]; omega

theorem rightEnd_mono {b : ℤ} (hb : -1 ≤ b) {s t : ℕ} (h : s ≤ t) :
    rightEnd b s ≤ rightEnd b t := by
  induction t, h using Nat.le_induction with
  | base => exact le_refl _
  | succ t _ ih =>
    have := rightEnd_le b hb t
    simp only [rightEnd]
    omega

theorem rightEnd_nonneg {b : ℤ} (hb : -1 ≤ b) (t : ℕ) : 0 ≤ rightEnd b t :=
  rightEnd_mono hb (Nat.zero_le t)

/-- The loop started after `t` steps to the right fails exactly when the run of right steps goes on
until the index sum overflows. -/
theorem bsearchLoop_rightEnd {b : ℤ} (h0 : 0 ≤ b) (hb : b < 2 ^ 31) (hs : b < v.size) (t : ℕ) :
    v.bsearchLoop pc (rightEnd b t) b = none ↔
      ∃ t', t ≤ t' ∧ rightEnd b t' ≤ b ∧ 2 ^ 31 ≤ rightEnd b t' + b ∧
        (t' = t ∨ ∃ iv, v.at? (rightEnd b t' - 1) = some iv ∧ iv.1 < pc) := by
  have hmono {s t : ℕ} := rightEnd_mono (b := b) (by omega) (s := s) (t := t)
  induction hn : (b + 1 - rightEnd b t).toNat using Nat.strong_induction_on generalizing t with
  | _ n ih =>
    have hnn := rightEnd_nonneg (b := b) (by omega) t
    rcases lt_or_ge b (rightEnd b t) with hab | hab
    · rw [bsearchLoop_of_lt hab]
      refine iff_of_false (by simp) ?_
      rintro ⟨t', htt, hle, -, -⟩
      have := hmono htt
      omega
    rw [bsearchLoop, dif_pos hab]
    rcases lt_or_ge (rightEnd b t + b) (2 ^ 31) with hsum | hsum
    · rw [if_pos ⟨by omega, hsum⟩, tdiv_two_of_nonneg (by omega)]
      obtain ⟨iv, hiv, -⟩ := at?_eq (v := v) (i := (rightEnd b t + b) / 2) (by omega) (by omega)
      have hne {t' : ℕ} (h : 2 ^ 31 ≤ rightEnd b t' + b) : t' ≠ t := by rintro rfl; omega
      have hlater {t' : ℕ} (htt : t ≤ t') (h : 2 ^ 31 ≤ rightEnd b t' + b) :
          (rightEnd b t + b) / 2 ≤ rightEnd b t' - 1 := by
        have := hmono (show t + 1 ≤ t' by have := hne h; omega)
        simp only [rightEnd] at this
        omega
      -- an overflow further right needs an interval starting before `pc` at or after the midpoint
      have hstop (hpc : pc ≤ iv.1) : ¬ ∃ t', t ≤ t' ∧ rightEnd b t' ≤ b ∧
          2 ^ 31 ≤ rightEnd b t' + b ∧
          (t' = t ∨ ∃ iv, v.at? (rightEnd b t' - 1) = some iv ∧ iv.1 < pc) := by
        rintro ⟨t', htt, hle, hov, rfl | ⟨iv', hiv', hlt⟩⟩
        · omega
        · have := first_le (by omega) (hlater htt hov) (by omega) hiv hiv'
          exact UInt64.lt_irrefl pc (UInt64.lt_of_le_of_lt (UInt64.le_trans hpc this) hlt)
      simp only [hiv]
      split_ifs with h1 h2
      · exact iff_of_false (by simp) (hstop (UInt64.le_of_eq h1.symm))
      · rw [bsearchLoop_of_small hnn (by omega) (by omega)]
        exact iff_of_false (by simp) (hstop (UInt64.le_of_lt h2))
      · have hlt : iv.1 < pc := UInt64.lt_of_le_of_ne (UInt64.not_lt.mp h2) h1
        have hstep : (rightEnd b t + b) / 2 + 1 = rightEnd b (t + 1) := rfl
        rw [hstep]
        refine (ih _ (by rw [← hn, ← hstep]; omega) (t + 1) rfl).trans ?_
        constructor
        · rintro ⟨t', htt, hle, hov, h⟩
          refine ⟨t', by omega, hle, hov, Or.inr ?_⟩
          rcases h with rfl | h
          · exact ⟨iv, by rw [← hstep]; simpa using hiv, hlt⟩
          · exact h
        · rintro ⟨t', htt, hle, hov, rfl | h⟩
          · omega
          · exact ⟨t', by have := hne hov; omega, hle, hov, Or.inr h⟩
    · rw [if_neg (fun h => by have := h.2; omega)]
      exact iff_of_true rfl ⟨t, le_refl t, hab, hsum, Or.inl rfl⟩

/-! ## The answers -/

theorem adjustLeft_neg_one : v.adjustLeft pc (-1) = some (-1) := by
  rw [adjustLeft, dif_neg (by omega)]

/-- `-1 < size()` is false in `size_t`: the scan from `-1` is never entered. -/
theorem scanForward_neg_one : v.scanForward pc (-1) = some false := by
  have hs := v.size_lt
  rw [scanForward, if_neg]
  rw [toSize_neg_one]
  unfold size
  omega

variable (v pc) in
/-- **The answer is always `false`**, unless the index sum overflows. -/
theorem bsearch_eq : v.isPCInVisitedIntervalsBsearch pc = none ∧ v.SumOverflows pc ∨
    v.isPCInVisitedIntervalsBsearch pc = some false ∧ ¬ v.SumOverflows pc := by
  unfold isPCInVisitedIntervalsBsearch
  simp only [adjustLeft_neg_one, scanForward_neg_one, Option.bind_eq_bind, Option.bind_some]
  rcases lt_or_ge v.lastIndex 0 with hb | hb
  · refine Or.inr ⟨if_pos hb, ?_⟩
    rintro ⟨t, iv, hle, hov, -⟩
    omega
  · have hlt : v.lastIndex < 2 ^ 31 := toInt_lt _
    have hkey : v.bsearchLoop pc (rightEnd v.lastIndex 0) v.lastIndex = none ↔ _ :=
      bsearchLoop_rightEnd hb hlt (lastIndex_lt_size hb) 0
    have hiff : v.bsearchLoop pc 0 v.lastIndex = none ↔ v.SumOverflows pc := by
      refine hkey.trans ⟨?_, ?_⟩
      · rintro ⟨t, -, hle, hov, rfl | ⟨iv, hiv⟩⟩
        · simp only [rightEnd] at hov; omega
        · exact ⟨t, iv, hle, hov, hiv⟩
      · rintro ⟨t, iv, hle, hov, hiv⟩
        exact ⟨t, Nat.zero_le t, hle, hov, Or.inr ⟨iv, hiv⟩⟩
    rw [if_neg (by omega)]
    cases hl : v.bsearchLoop pc 0 v.lastIndex with
    | none => exact Or.inl ⟨rfl, hiff.mp hl⟩
    | some u => exact Or.inr ⟨rfl, fun h => by rw [hiff.mpr h] at hl; simp at hl⟩

/-- The linear scan of a vector without an interval around `pc`. -/
theorem scanForward_of_not_contains (hc : ¬ v.Contains pc) {i : ℤ} (h0 : 0 ≤ i) (h1 : i < 2 ^ 31) :
    v.scanForward pc i = none ∧ v.CounterOverflows pc ∨ v.scanForward pc i = some false ∧
      ¬ v.CounterOverflows pc := by
  induction hn : (2 ^ 31 - i).toNat using Nat.strong_induction_on generalizing i with
  | _ n ih =>
    rw [scanForward]
    have hsz : toSize i < v.size ↔ i < v.size := by
      rw [toSize_of_nonneg h0 (by omega)]
      omega
    by_cases hi : i < v.size
    · obtain ⟨iv, hiv, hmem⟩ := at?_eq h0 hi
      rw [if_pos (hsz.mpr hi)]
      simp only [hiv]
      rw [if_neg (fun h => hc ⟨iv, hmem, h⟩)]
      split_ifs with h2 h3
      · refine Or.inr ⟨rfl, ?_⟩
        rintro ⟨iv', hiv', hle⟩
        have := first_le h0 (show i ≤ 2 ^ 31 - 1 by omega) (by omega) hiv hiv'
        exact UInt64.lt_irrefl pc (UInt64.lt_of_lt_of_le h2 (UInt64.le_trans this hle))
      · exact ih _ (by omega) (by omega) h3.2 rfl
      · have hlast : i = 2 ^ 31 - 1 := by
          by_contra hne
          exact h3 ⟨by omega, by omega⟩
        exact Or.inl ⟨rfl, iv, hlast ▸ hiv, UInt64.not_lt.mp h2⟩
    · rw [if_neg (fun h => hi (hsz.mp h))]
      refine Or.inr ⟨rfl, ?_⟩
      rintro ⟨iv', hiv', -⟩
      have := lt_size_of_at? (by omega) (by omega) hiv'
      omega

theorem visited_toDriver_iff : CoverageStatusQemu.visited v.toDriver pc.toNat = true ↔
    v.Contains pc := by
  rw [CoverageStatusQemu.visited_iff]
  unfold toDriver Contains
  simp only [List.mem_map, UInt64.le_iff_toNat_le]
  constructor
  · rintro ⟨_, ⟨iv, hiv, rfl⟩, h⟩
    exact ⟨iv, hiv, h⟩
  · rintro ⟨iv, hiv, h⟩
    exact ⟨_, ⟨iv, hiv, rfl⟩, h⟩

/-- **The binary search is right exactly when no interval contains the PC** and no index leaves
`int` on the way. -/
theorem isPCInVisitedIntervalsBsearch_correct_iff (v : VisitedIntervals) (pc : UInt64) :
    v.BsearchCorrect pc ↔ ¬ v.Contains pc ∧ ¬ v.SumOverflows pc ∧ ¬ v.CounterOverflows pc := by
  constructor
  · rintro ⟨r, hr, hiff, hlin, -⟩
    rcases bsearch_eq v pc with ⟨h, -⟩ | ⟨h, hov⟩
    · rw [h] at hr; simp at hr
    · obtain rfl : false = r := by rw [h] at hr; simpa using hr
      have hc : ¬ v.Contains pc := fun hc => by simpa using hiff.mpr hc
      refine ⟨hc, hov, fun hcnt => ?_⟩
      rcases scanForward_of_not_contains hc (le_refl 0) (by omega) with ⟨h', -⟩ | ⟨-, h'⟩
      · unfold isPCInVisitedIntervalsLinear at hlin
        rw [h'] at hlin
        simp at hlin
      · exact h' hcnt
  · rintro ⟨hc, hov, hcnt⟩
    refine ⟨false, ?_, by simpa using hc, ?_, ?_⟩
    · rcases bsearch_eq v pc with ⟨-, h⟩ | ⟨h, -⟩
      · exact absurd h hov
      · exact h
    · rcases scanForward_of_not_contains hc (le_refl 0) (by omega) with ⟨-, h⟩ | ⟨h, -⟩
      · exact absurd h hcnt
      · exact h
    · rw [Bool.eq_false_iff]
      exact fun h => hc (visited_toDriver_iff.mp h)

/-- One interval, and a PC inside it: the search misses it. -/
theorem isPCInVisitedIntervalsBsearch_misses :
    ¬ BsearchCorrect ⟨[(0x8000, 0x8010)], by decide, by decide⟩ 0x8004 := by
  rintro ⟨r, hr, hiff, -, -⟩
  have hc : r = true := hiff.mpr ⟨(0x8000, 0x8010), by simp, by decide, by decide⟩
  rcases bsearch_eq ⟨[(0x8000, 0x8010)], by decide, by decide⟩ 0x8004 with ⟨h, -⟩ | ⟨h, -⟩
  · rw [h] at hr; simp at hr
  · rw [h] at hr; simp [hc] at hr

end VisitedIntervals

end Bin2llvm
