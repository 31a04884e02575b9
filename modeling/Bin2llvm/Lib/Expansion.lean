import Mathlib.Data.Fintype.Card
import Mathlib.Logic.Hydra

/-!
# Bin2llvm.Lib.Expansion — replacing items by smaller ones

A process that replaces items, each by finitely many items that come before it, ends when nothing
comes before itself.

* `wellFounded_of_acyclic`: a relation on finitely many items without a cycle is well-founded.
* `exists_iterate_zero`: rounds that each expand an item end with no item left.
-/

namespace Bin2llvm.Expansion

open Relation

variable {α σ : Type*} {r : α → α → Prop}

theorem wellFounded_of_acyclic (l : List α) (hdom : ∀ a b, r a b → a ∈ l ∧ b ∈ l)
    (h : ∀ a, ¬ TransGen r a a) : WellFounded r := by
  classical
  let q : {a // a ∈ l} → {a // a ∈ l} → Prop := fun a b => TransGen r a.1 b.1
  have htrans : IsTrans _ q := ⟨fun _ _ _ hab hbc => hab.trans hbc⟩
  have hirrefl : Std.Irrefl q := ⟨fun a => h a.1⟩
  have hwf : WellFounded q := Finite.wellFounded_of_trans_of_irrefl q
  have hmem : ∀ a : {a // a ∈ l}, Acc r a.1 := by
    intro a
    induction a using hwf.induction with
    | _ a ih => exact Acc.intro _ fun b hb => ih ⟨b, (hdom b a.1 hb).1⟩ (TransGen.single hb)
  exact ⟨fun a => Acc.intro _ fun b hb => hmem ⟨b, (hdom b a hb).1⟩⟩

/-- The rounds of a state that keeps `P` end: as long as there are items, a round expands some of
them. -/
theorem exists_iterate_zero (hr : WellFounded r) {items : σ → Multiset α} {next : σ → σ}
    {P : σ → Prop} (hround : ∀ s, P s → items s ≠ 0 → P (next s) ∧
      TransGen (CutExpand r) (items (next s)) (items s)) (s : σ)
    (hs : P s) : ∃ n, P (next^[n] s) ∧ items (next^[n] s) = 0 := by
  have hwf : WellFounded (InvImage (TransGen (CutExpand r)) items) :=
    InvImage.wf items hr.cutExpand.transGen
  induction s using hwf.induction with
  | _ s ih =>
    by_cases hzero : items s = 0
    · exact ⟨0, hs, hzero⟩
    · obtain ⟨hP, hlt⟩ := hround s hs hzero
      obtain ⟨n, hn⟩ := ih (next s) hlt hP
      exact ⟨n + 1, hn⟩

end Bin2llvm.Expansion
