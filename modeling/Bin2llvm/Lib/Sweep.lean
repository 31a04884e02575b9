import Mathlib.Data.List.Basic

/-!
# Bin2llvm.Lib.Sweep — sweeping a list until nothing changes

Elements of a list use each other.  A round removes what may be removed and what no element that is
left uses.

* `live`: what is left after a number of rounds.
* `Dead`: what only dead elements use.
* `live_length_iff`: after as many rounds as there are elements, everything but the dead is left.
-/

namespace Sweep

variable {α : Type*} (removable : α → Bool) (uses : α → α → Bool) (l : List α)

/-- A round, when `p` is left. -/
def round (p : α → Bool) (a : α) : Bool :=
  p a && !(removable a && l.all fun b => !(p b && uses b a))

def live : ℕ → α → Bool
  | 0 => fun _ => true
  | n + 1 => round removable uses l (live n)

inductive Dead : α → Prop
  | intro (a : α) (ha : removable a = true) (h : ∀ b ∈ l, uses b a = true → Dead b) : Dead a

variable {removable uses l} {p q : α → Bool} {a : α}

theorem round_eq_true : round removable uses l p a = true ↔
    p a = true ∧ (removable a = true → ∃ b ∈ l, p b = true ∧ uses b a = true) := by
  cases hr : removable a <;> simp [round, hr]

theorem round_congr (h : ∀ b ∈ l, p b = q b) (ha : a ∈ l) :
    round removable uses l p a = round removable uses l q a := by
  have hused : (∃ b ∈ l, p b = true ∧ uses b a = true) ↔ ∃ b ∈ l, q b = true ∧ uses b a = true :=
    exists_congr fun b => and_congr_right fun hb => by rw [h b hb]
  rw [Bool.eq_iff_iff, round_eq_true, round_eq_true, h a ha, hused]

theorem live_of_succ {n : ℕ} (h : live removable uses l (n + 1) a = true) :
    live removable uses l n a = true :=
  (round_eq_true.mp h).1

/-- Only dead elements are removed. -/
theorem live_of_not_dead (n : ℕ) (h : ¬ Dead removable uses l a) :
    live removable uses l n a = true := by
  induction n generalizing a with
  | zero => rfl
  | succ n ih =>
    refine round_eq_true.mpr ⟨ih h, fun hr => ?_⟩
    by_contra hnone
    refine h (.intro a hr fun b hb huse => ?_)
    by_contra hb'
    exact hnone ⟨b, hb, ih hb', huse⟩

variable (removable uses l) in
/-- Every round but the last one makes the list shorter. -/
theorem stable_or_shorter (n : ℕ) :
    (∀ a ∈ l, live removable uses l (n + 1) a = live removable uses l n a) ∨
      (l.filter (live removable uses l n)).length + n ≤ l.length := by
  induction n with
  | zero => exact .inr (List.length_filter_le _ _)
  | succ n ih =>
    by_cases hstable : ∀ a ∈ l, live removable uses l (n + 1) a = live removable uses l n a
    · exact .inl fun a ha => round_congr hstable ha
    · right
      have hlen := ih.resolve_left hstable
      obtain ⟨a, ha, hne⟩ : ∃ a ∈ l, live removable uses l (n + 1) a ≠
          live removable uses l n a := by
        by_contra hnone
        exact hstable fun a ha => of_not_not fun hne => hnone ⟨a, ha, hne⟩
      have hgone : live removable uses l (n + 1) a = false := by
        cases h : live removable uses l (n + 1) a with
        | false => rfl
        | true => exact absurd (h.trans (live_of_succ h).symm) hne
      have hthere : live removable uses l n a = true := by
        rw [hgone] at hne
        exact eq_true_of_ne_false hne.symm
      -- an element that has gone stays away
      have hsub : l.filter (live removable uses l (n + 1)) =
          (l.filter (live removable uses l n)).filter (live removable uses l (n + 1)) := by
        rw [List.filter_filter]
        refine List.filter_congr fun b _ => ?_
        cases h : live removable uses l (n + 1) b with
        | false => rfl
        | true => rw [live_of_succ h]; rfl
      have hlt : (l.filter (live removable uses l (n + 1))).length <
          (l.filter (live removable uses l n)).length := by
        rw [hsub, List.length_filter_lt_length_iff_exists]
        exact ⟨a, List.mem_filter.mpr ⟨ha, hthere⟩, by simp [hgone]⟩
      omega

theorem live_succ_length (ha : a ∈ l) :
    live removable uses l (l.length + 1) a = live removable uses l l.length a := by
  rcases stable_or_shorter removable uses l l.length with h | h
  · exact h a ha
  · have hnil : l.filter (live removable uses l l.length) = [] :=
      List.length_eq_zero_iff.mp (by omega)
    have hdead : live removable uses l l.length a = false := by
      simpa using List.filter_eq_nil_iff.mp hnil a ha
    rw [hdead]
    exact Bool.eq_false_iff.mpr fun h => Bool.false_ne_true (hdead.symm.trans (live_of_succ h))

/-- What is left in the end is not dead. -/
theorem not_live_of_dead (h : Dead removable uses l a) (ha : a ∈ l) :
    live removable uses l l.length a = false := by
  induction h with
  | intro a hr _ ih =>
    rw [← live_succ_length ha]
    refine Bool.eq_false_iff.mpr fun hlive => ?_
    obtain ⟨b, hb, hbl, huse⟩ := (round_eq_true.mp hlive).2 hr
    exact Bool.false_ne_true ((ih b hb huse hb).symm.trans hbl)

theorem live_length_iff (ha : a ∈ l) : live removable uses l l.length a = true ↔
    ¬ Dead removable uses l a := by
  refine ⟨fun h hdead => ?_, live_of_not_dead l.length⟩
  exact Bool.false_ne_true ((not_live_of_dead hdead ha).symm.trans h)

end Sweep
