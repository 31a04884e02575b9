import Mathlib.Data.List.Basic

/-!
# Bin2llvm.Lib.Run — runs of machines, and machines that skip steps

A machine is a step function that may stop.  `Run step a xs b` goes from `a` to `b` and takes its
steps at `xs`.

* `Run.preserves`: what every step keeps, a run keeps.
* `Run.mem_of_stops`: there is one run until a machine stops.
* `Run.flatMap`: what a run puts out.
* `Run.forall_iff`: when what a step keeps under a condition holds all the way.
* `Run.exists_stop`: a machine with a measure that every step makes smaller stops.
* `Run.simulates`: a relation that every step keeps, be it matched or skipped, carries whole runs
  over.
* `Run.related`: the states on the way are related too.
* `Run.simulates_in`: the same where a step is matched by a few steps.
-/

namespace Bin2llvm

variable {α β : Type*}

inductive Run (step : α → Option α) : α → List α → α → Prop
  | refl (a : α) : Run step a [] a
  | head {a b c : α} {xs : List α} : step a = some b → Run step b xs c → Run step a (a :: xs) c

variable {step : α → Option α} {step' : β → Option β} {R : α → β → Prop} {Q : α → Prop} {a c : α}
variable {b : β} {xs : List α}

theorem Run.preserves (h : ∀ a b, Q a → step a = some b → Q b) (hrun : Run step a xs c)
    (ha : Q a) : Q c := by
  induction hrun with
  | refl a => exact ha
  | head hstep _ ih => exact ih (h _ _ ha hstep)

theorem Run.append {ys : List α} {d : α} (h : Run step a xs c) (h' : Run step c ys d) :
    Run step a (xs ++ ys) d := by
  induction h with
  | refl a => exact h'
  | head hstep _ ih => exact .head hstep (ih h')

theorem Run.start_mem (hrun : Run step a xs c) : a ∈ xs ++ [c] := by
  cases hrun with
  | refl a => exact List.mem_singleton_self a
  | head _ _ => exact List.mem_cons_self

/-- A run into a state that stops passes through the end of every other run from its start. -/
theorem Run.mem_of_stops (hrun : Run step a xs c) (hstop : step c = none) {ys : List α} {d : α}
    (h : Run step a ys d) : d ∈ xs ++ [c] := by
  induction hrun generalizing ys with
  | refl a =>
    cases h with
    | refl a => exact List.mem_singleton_self d
    | head hstep _ => cases hstep.symm.trans hstop
  | head hstep _ ih =>
    cases h with
    | refl a => exact List.mem_cons_self
    | head hstep' hrun' =>
      obtain rfl := Option.some.inj (hstep.symm.trans hstep')
      exact List.mem_cons_of_mem _ (ih hstop hrun')

/-- What the steps put out, a run puts out in their order. -/
theorem Run.flatMap {γ : Type*} {out g : α → List γ}
    (h : ∀ a b, Q a → step a = some b → Q b ∧ out b = out a ++ g a)
    (hrun : Run step a xs c) (ha : Q a) : out c = out a ++ xs.flatMap g := by
  induction hrun with
  | refl a => simp
  | head hstep _ ih =>
    obtain ⟨hb, hout⟩ := h _ _ ha hstep
    rw [ih hb, hout, List.flatMap_cons, List.append_assoc]

/-- What a step keeps exactly under the condition `K` holds in all states of a run exactly if all
its steps meet `K`. -/
theorem Run.forall_iff {P K : α → Prop} (h : ∀ a b, Q a → P a → step a = some b → Q b ∧ (P b ↔ K a))
    (hrun : Run step a xs c) (ha : Q a) (hP : P a) : (∀ x ∈ xs ++ [c], P x) ↔ ∀ x ∈ xs, K x := by
  induction hrun with
  | refl a => simpa using hP
  | head hstep hrun ih =>
    obtain ⟨hb, hiff⟩ := h _ _ ha hP hstep
    rw [List.cons_append, List.forall_mem_cons, List.forall_mem_cons]
    constructor
    · rintro ⟨-, hall⟩
      have hPb := hall _ hrun.start_mem
      exact ⟨hiff.mp hPb, (ih hb hPb).mp hall⟩
    · rintro ⟨hK, hall⟩
      exact ⟨hP, (ih hb (hiff.mpr hK)).mpr hall⟩

/-- The measure need only get smaller where the invariant `Q` holds. -/
theorem Run.exists_stop {m : α → ℕ} (h : ∀ a b, Q a → step a = some b → Q b ∧ m b < m a)
    (ha : Q a) : ∃ xs c, Run step a xs c ∧ step c = none := by
  induction hn : m a using Nat.strongRecOn generalizing a with
  | ind n ih =>
    cases hstep : step a with
    | none => exact ⟨[], a, .refl a, hstep⟩
    | some b =>
      obtain ⟨hb, hlt⟩ := h a b ha hstep
      obtain ⟨xs, c, hrun, hc⟩ := ih (m b) (hn ▸ hlt) hb rfl
      exact ⟨a :: xs, c, .head hstep hrun, hc⟩

/-- While `Q` holds, a step of the first machine is matched by a step of the second, or skipped. -/
def Simulation (step : α → Option α) (step' : β → Option β) (R : α → β → Prop)
    (Q : α → Prop) : Prop :=
  ∀ a b a', R a b → Q a → step a = some a' → R a' b ∨ ∃ b', step' b = some b' ∧ R a' b'

theorem Run.simulates (h : Simulation step step' R Q) (hrun : Run step a xs c) (hQ : ∀ x ∈ xs, Q x)
    (hR : R a b) : ∃ ys d, Run step' b ys d ∧ ys.length ≤ xs.length ∧ R c d := by
  induction hrun generalizing b with
  | refl a => exact ⟨[], b, .refl b, Nat.le_refl _, hR⟩
  | head hstep _ ih =>
    have hQ' := List.forall_mem_cons.mp hQ
    rcases h _ _ _ hR hQ'.1 hstep with hskip | ⟨b', hb', hmatch⟩
    · obtain ⟨ys, d, hys, hlen, hd⟩ := ih hQ'.2 hskip
      exact ⟨ys, d, hys, Nat.le_succ_of_le hlen, hd⟩
    · obtain ⟨ys, d, hys, hlen, hd⟩ := ih hQ'.2 hmatch
      exact ⟨b :: ys, d, .head hb' hys, Nat.succ_le_succ hlen, hd⟩

theorem Run.related (h : Simulation step step' R Q) (hrun : Run step a xs c) (hQ : ∀ x ∈ xs, Q x)
    (hR : R a b) : ∀ x ∈ xs, ∃ y, R x y := by
  induction hrun generalizing b with
  | refl a => exact fun x hx => nomatch hx
  | head hstep _ ih =>
    have hQ' := List.forall_mem_cons.mp hQ
    refine List.forall_mem_cons.mpr ⟨⟨b, hR⟩, ?_⟩
    rcases h _ _ _ hR hQ'.1 hstep with hskip | ⟨b', hb', hmatch⟩
    · exact ih hQ'.2 hskip
    · exact ih hQ'.2 hmatch

/-- While `Q` holds, a step of the first machine is matched by at most `k` steps of the second. -/
def SimulationIn (k : ℕ) (step : α → Option α) (step' : β → Option β) (R : α → β → Prop)
    (Q : α → Prop) : Prop :=
  ∀ a b a', R a b → Q a → step a = some a' → ∃ ys b', Run step' b ys b' ∧ ys.length ≤ k ∧ R a' b'

theorem Run.simulates_in {k : ℕ} (h : SimulationIn k step step' R Q) (hrun : Run step a xs c)
    (hQ : ∀ x ∈ xs, Q x) (hR : R a b) :
    ∃ ys d, Run step' b ys d ∧ ys.length ≤ k * xs.length ∧ R c d := by
  induction hrun generalizing b with
  | refl a => exact ⟨[], b, .refl b, Nat.zero_le _, hR⟩
  | @head a a' c xs hstep _ ih =>
    have hQ' := List.forall_mem_cons.mp hQ
    obtain ⟨ys, b', hys, hlen, hb'⟩ := h _ _ _ hR hQ'.1 hstep
    obtain ⟨zs, d, hzs, hlen', hd⟩ := ih hQ'.2 hb'
    refine ⟨ys ++ zs, d, hys.append hzs, ?_, hd⟩
    have htotal : k * (a :: xs).length = k * xs.length + k := by rw [List.length_cons, Nat.mul_succ]
    rw [List.length_append]
    omega

end Bin2llvm
