import Bin2llvm.BuildFunctions.Fixups
import Bin2llvm.Lib.DepthFirst
import Bin2llvm.Lib.Lists

/-!
# Bin2llvm.BuildFunctions.SwitchedValue — the value an indirect jump switches on

`getValueSwitchedOn` goes from the stored value to its operands, as far as they are instructions of
the block, and takes the first operand of the first left shift by 1 or 2.  A shift by an amount that
is not constant is dereferenced unchecked, and a cycle of operands is followed for ever.

* `valueSwitchedOn_eq`: it is a depth-first search without a memory.
* `getValueSwitchedOn_eq_some_iff`: the depth it is given is enough.
* `findsIndex_iff`: it finds what it is to find exactly when the shift comes before both, or none of
  them is met.
-/

namespace Bin2llvm.BuildFunctions

open DepthFirst Relation

/-! ## Shifts and dependences -/

/-- The first operand of a left shift by the constant 1 or 2. -/
def shiftedIndex (ins : Instr) : Option Value :=
  match ins.op with
  | .binop .shl a w => if w.constInt? = some 1 ∨ w.constInt? = some 2 then some a else none
  | _ => none

/-- `w` is an operand of the instruction of `is` with the result `v`. -/
def OperandOf (is : List Instr) (v w : Value) : Prop :=
  ∃ ins ∈ is, ins.id.map Value.inst = some v ∧ w ∈ ins.op.operands

/-- `v` depends on the result of `ins`, through instructions of `is`. -/
def DependsOn (is : List Instr) (v : Value) (ins : Instr) : Prop :=
  ∃ w, ReflTransGen (OperandOf is) v w ∧ ins.id.map Value.inst = some w

/-- A left shift by 1 or 2 in the block, on which `v` depends. -/
def DependsOnIndex (origBB is : List Instr) (v : Value) : Prop :=
  ∃ ins ∈ origBB, DependsOn is v ins ∧ (shiftedIndex ins).isSome

/-- What is to be found for a store of `v` in `origBB`, when values depend on others through the
instructions `is`. -/
structure FindsIndex (origBB is : List Instr) (storeToPC : Instr) (v : Value) : Prop where
  terminates : ∃ r, getValueSwitchedOn origBB storeToPC = some r
  found : ∀ a, getValueSwitchedOn origBB storeToPC = some (some a) →
    ∃ ins ∈ origBB, DependsOn is v ins ∧ shiftedIndex ins = some a
  null : getValueSwitchedOn origBB storeToPC = some none ↔ ¬ DependsOnIndex origBB is v

/-! ## The search -/

/-- What `__getValueSwitchedOn` makes of an instruction of the block. -/
def visitInstr (ins : Instr) : Visit Value Value :=
  match ins.op with
  | .binop .shl a w =>
    match w.constInt? with
    | none => .stuck
    | some k => if k = 1 ∨ k = 2 then .hit a else .next [a, w]
  | op => .next op.operands

/-- What it makes of a value; that of another block is left. -/
def visitValue (origBB : List Instr) (v : Value) : Visit Value Value :=
  match v.inst?.bind fun k => origBB.find? (·.id = some k) with
  | none => .next []
  | some ins => visitInstr ins

/-- Depth first from the value, a left shift by 1 or 2 comes before every left shift by an amount
that is not constant and before every cycle of operands, or there is none of the three. -/
def ShiftFirst (origBB : List Instr) (v : Value) : Prop :=
  (∃ a, Meets (visitValue origBB) v a) ∨ Silent (visitValue origBB) v

variable {is is' : List Instr} {ins s : Instr} {v w p a : Value} {n : ℕ}

theorem firstFound_eq (find : Value → Option (Option Value)) (vs : List Value) :
    firstFound find vs = firstOf find vs := by
  induction vs with
  | nil => rfl
  | cons v vs ih =>
    rw [firstFound, firstOf]
    rcases find v with _ | _ | a
    · rfl
    · exact ih
    · rfl

theorem visitInstr_of_ne_shl (h : ∀ a w, ins.op ≠ .binop .shl a w) :
    visitInstr ins = .next ins.op.operands := by
  unfold visitInstr
  split
  · rename_i a w hop
    exact absurd hop (h a w)
  · rfl

theorem valueSwitchedOn_eq (is : List Instr) (n : ℕ) (v : Value) :
    valueSwitchedOn is n v = search (visitValue is) n v := by
  induction n generalizing v with
  | zero => rfl
  | succ n ih =>
    have hsearch : valueSwitchedOn is n = search (visitValue is) n := funext ih
    rw [valueSwitchedOn, search, visitValue]
    cases v.inst?.bind fun k => is.find? (·.id = some k) with
    | none => rfl
    | some ins =>
      simp only [firstFound_eq, hsearch]
      split
      · rename_i a w hop
        simp only [visitInstr, hop]
        cases w.constInt? with
        | none => rfl
        | some k => by_cases hk : k = 1 ∨ k = 2 <;> simp only [hk, if_true, if_false]
      · rename_i hop
        rw [visitInstr_of_ne_shl hop]

/-! ## Instructions of the block -/

theorem shiftedIndex_eq_some_iff : shiftedIndex ins = some a ↔ visitInstr ins = .hit a := by
  unfold shiftedIndex visitInstr
  split
  · rename_i b w _
    cases hw : w.constInt? with
    | none => simp
    | some k => split_ifs <;> simp_all
  · simp

theorem visitInstr_cases (ins : Instr) :
    visitInstr ins = .stuck ∨ (∃ a, visitInstr ins = .hit a) ∨
      visitInstr ins = .next ins.op.operands := by
  unfold visitInstr
  split
  · rename_i a w hop
    simp only [hop]
    cases w.constInt? with
    | none => exact .inl rfl
    | some k =>
      simp only
      split_ifs
      · exact .inr (.inl ⟨a, rfl⟩)
      · exact .inr (.inr rfl)
  · exact .inr (.inr rfl)

/-- An instruction that is no hit and no failure is left for its operands. -/
theorem visitInstr_eq_next (hstuck : visitInstr ins ≠ .stuck)
    (hhit : ∀ a, visitInstr ins ≠ .hit a) : visitInstr ins = .next ins.op.operands := by
  rcases visitInstr_cases ins with h | ⟨a, h⟩ | h
  · exact absurd h hstuck
  · exact absurd h (hhit a)
  · exact h

theorem operands_of_visitInstr {cs : List Value} (h : visitInstr ins = .next cs) :
    cs = ins.op.operands := by
  rcases visitInstr_cases ins with hv | ⟨a, hv⟩ | hv
  · cases h.symm.trans hv
  · cases h.symm.trans hv
  · exact Visit.next.inj (h.symm.trans hv)

/-- A value at which something is found is the result of an instruction. -/
theorem visitValue_cases (is : List Instr) (v : Value) :
    visitValue is v = .next [] ∨ ∃ ins ∈ is, ins.id.map Value.inst = some v ∧
      visitValue is v = visitInstr ins := by
  unfold visitValue
  cases v with
  | inst k =>
    cases hfind : is.find? (·.id = some k) with
    | none => exact .inl (by simp [Value.inst?, hfind])
    | some ins =>
      have hid : ins.id = some k := by simpa using List.find?_some hfind
      exact .inr ⟨ins, List.mem_of_find?_eq_some hfind,
        by rw [hid]; rfl, by simp [Value.inst?, hfind]⟩
  | _ => exact .inl rfl

theorem operandOf_of_edge (h : Edge (visitValue is) v w) : OperandOf is v w := by
  obtain ⟨cs, hv, hw⟩ := h
  rcases visitValue_cases is v with hnil | ⟨ins, hmem, hid, hins⟩
  · rw [hnil] at hv
    cases hv
    cases hw
  · exact ⟨ins, hmem, hid, operands_of_visitInstr (hins.symm.trans hv) ▸ hw⟩

/-- The results of a block. -/
def results (is : List Instr) : List Value := is.filterMap fun ins => ins.id.map Value.inst

theorem mem_results_of_edge (v w : Value) (h : Edge (visitValue is) v w) : v ∈ results is := by
  obtain ⟨ins, hmem, hid, -⟩ := operandOf_of_edge h
  exact List.mem_filterMap.mpr ⟨ins, hmem, hid⟩

/-- **The depth is enough**: the search for a store ends at it if it ends at all. -/
theorem getValueSwitchedOn_eq_some_iff (hop : s.op = .store v p) {r : Option Value} :
    getValueSwitchedOn is s = some r ↔ ∃ n, valueSwitchedOn is n v = some r := by
  have hlen : (results is).length < is.length + 1 :=
    Nat.lt_succ_of_le (List.length_filterMap_le _ _)
  have hdepth : getValueSwitchedOn is s = valueSwitchedOn is (is.length + 1) v := by
    rw [getValueSwitchedOn, hop]
  rw [hdepth]
  refine ⟨fun h => ⟨_, h⟩, fun ⟨n, h⟩ => ?_⟩
  rw [valueSwitchedOn_eq] at h ⊢
  exact search_of_search mem_results_of_edge h hlen

theorem getValueSwitchedOn_some_iff (hop : s.op = .store v p) :
    getValueSwitchedOn is s = some (some a) ↔ Meets (visitValue is) v a := by
  rw [getValueSwitchedOn_eq_some_iff hop, ← exists_search_some_iff mem_results_of_edge]
  simp only [valueSwitchedOn_eq]

theorem getValueSwitchedOn_none_iff (hop : s.op = .store v p) :
    getValueSwitchedOn is s = some none ↔ Silent (visitValue is) v := by
  rw [getValueSwitchedOn_eq_some_iff hop, ← exists_search_none_iff mem_results_of_edge]
  simp only [valueSwitchedOn_eq]

/-! ## SSA -/

theorem visitValue_of_mem (hssa : (is.filterMap Instr.id).Nodup) (hmem : ins ∈ is)
    (hid : ins.id.map Value.inst = some v) : visitValue is v = visitInstr ins := by
  obtain ⟨k, hk, rfl⟩ := Option.map_eq_some_iff.mp hid
  have hfind : is.find? (·.id = some k) = some ins := Lists.find?_of_key hssa hmem hk
  simp [visitValue, Value.inst?, hfind]

theorem dependsOn_mono (hsub : is ⊆ is') (h : DependsOn is v ins) : DependsOn is' v ins := by
  obtain ⟨w, hw, hid⟩ := h
  refine ⟨w, ReflTransGen.mono (fun _ _ ⟨ins, hmem, hop⟩ => ⟨ins, hsub hmem, hop⟩) _ _ hw, hid⟩

/-- What is found is the operand of a shift of the block on which the value depends. -/
theorem exists_shift_of_meets (h : Meets (visitValue is) v a) :
    ∃ ins ∈ is, DependsOn is v ins ∧ shiftedIndex ins = some a := by
  obtain ⟨w, hw, hhit⟩ := exists_hit_of_meets h
  rcases visitValue_cases is w with hnil | ⟨ins, hmem, hid, hins⟩
  · rw [hnil] at hhit
    cases hhit
  · refine ⟨ins, hmem, ⟨w, ?_, hid⟩, shiftedIndex_eq_some_iff.mpr (hins.symm.trans hhit)⟩
    exact ReflTransGen.mono (fun _ _ => operandOf_of_edge) _ _ hw

/-- From a silent value all dependences are searched. -/
theorem reach_of_silent (hssa : (is.filterMap Instr.id).Nodup) (h : Silent (visitValue is) v)
    (hw : ReflTransGen (OperandOf is) v w) : ReflTransGen (Edge (visitValue is)) v w := by
  induction hw with
  | refl => exact .refl
  | tail _ hop ih =>
    obtain ⟨ins, hmem, hid, hw⟩ := hop
    have hvisit := visitValue_of_mem hssa hmem hid
    refine ih.tail ⟨ins.op.operands, ?_, hw⟩
    rw [hvisit]
    exact visitInstr_eq_next (hvisit ▸ (h.1 _ ih).1) (hvisit ▸ h.2 _ ih)

theorem not_dependsOnIndex_of_silent (hssa : (is.filterMap Instr.id).Nodup)
    (h : Silent (visitValue is) v) : ¬ DependsOnIndex is is v := by
  rintro ⟨ins, hmem, ⟨w, hw, hid⟩, hshift⟩
  obtain ⟨a, ha⟩ := Option.isSome_iff_exists.mp hshift
  refine h.2 w (reach_of_silent hssa h hw) a ?_
  rw [visitValue_of_mem hssa hmem hid]
  exact shiftedIndex_eq_some_iff.mp ha

/-! ## What is found -/

theorem shiftFirst_iff (hop : s.op = .store v p) :
    ShiftFirst is v ↔ ∃ r, getValueSwitchedOn is s = some r := by
  unfold ShiftFirst
  constructor
  · rintro (⟨a, ha⟩ | hsilent)
    · exact ⟨some a, (getValueSwitchedOn_some_iff hop).mpr ha⟩
    · exact ⟨none, (getValueSwitchedOn_none_iff hop).mpr hsilent⟩
  · rintro ⟨_ | a, hr⟩
    · exact .inr ((getValueSwitchedOn_none_iff hop).mp hr)
    · exact .inl ⟨a, (getValueSwitchedOn_some_iff hop).mp hr⟩

/-- A search that ends finds what it is to find, unless the shift is seen through other instructions
only. -/
theorem findsIndex_iff_of_subset (hssa : (is.filterMap Instr.id).Nodup) (hsub : is ⊆ is')
    (hop : s.op = .store v p) :
    FindsIndex is is' s v ↔ ShiftFirst is v ∧ (DependsOnIndex is is' v →
      DependsOnIndex is is v) := by
  rw [shiftFirst_iff hop]
  have hfound : ∀ a, getValueSwitchedOn is s = some (some a) →
      ∃ ins ∈ is, DependsOn is v ins ∧ shiftedIndex ins = some a :=
    fun a ha => exists_shift_of_meets ((getValueSwitchedOn_some_iff hop).mp ha)
  have hnull : getValueSwitchedOn is s = some none → ¬ DependsOnIndex is is v :=
    fun h => not_dependsOnIndex_of_silent hssa ((getValueSwitchedOn_none_iff hop).mp h)
  have hsome : ∀ a, getValueSwitchedOn is s = some (some a) → DependsOnIndex is is v := by
    intro a ha
    obtain ⟨ins, hmem, hdep, hshift⟩ := hfound a ha
    exact ⟨ins, hmem, hdep, Option.isSome_iff_exists.mpr ⟨a, hshift⟩⟩
  constructor
  · rintro ⟨⟨r, hr⟩, -, hiff⟩
    refine ⟨⟨r, hr⟩, fun hdep => ?_⟩
    cases r with
    | none => exact absurd hdep (hiff.mp hr)
    | some a => exact hsome a hr
  · rintro ⟨⟨r, hr⟩, hseen⟩
    refine ⟨⟨r, hr⟩, fun a ha => ?_, fun h hdep => hnull h (hseen hdep), fun hno => ?_⟩
    · obtain ⟨ins, hmem, hdep, hshift⟩ := hfound a ha
      exact ⟨ins, hmem, dependsOn_mono hsub hdep, hshift⟩
    · cases r with
      | none => exact hr
      | some a =>
        obtain ⟨ins, hmem, hdep, hshift⟩ := hsome a hr
        exact absurd ⟨ins, hmem, dependsOn_mono hsub hdep, hshift⟩ hno

/-! ## Any block -/

/-- **The search finds what it is to find exactly when the shift comes before a shift by an amount
that is not constant and before a cycle, or none of the three is met.**  If a value can depend on a
shift of the block through other blocks too, the shift must also be seen from within the block. -/
theorem findsIndex_iff {f : Func} {b : BasicBlock} (hssa : (f.instrs.filterMap Instr.id).Nodup)
    (hb : b ∈ f.blocks) (hop : s.op = .store v p) :
    (FindsIndex b.instrs b.instrs s v ↔ ShiftFirst b.instrs v) ∧
      (FindsIndex b.instrs f.instrs s v ↔ ShiftFirst b.instrs v ∧
        (DependsOnIndex b.instrs f.instrs v → DependsOnIndex b.instrs b.instrs v)) := by
  have hsub : b.instrs.Sublist f.instrs := List.sublist_flatten_of_mem (List.mem_map_of_mem hb)
  have hblock : (b.instrs.filterMap Instr.id).Nodup := hssa.sublist (hsub.filterMap Instr.id)
  refine ⟨?_, findsIndex_iff_of_subset hblock hsub.subset hop⟩
  rw [findsIndex_iff_of_subset hblock (List.Subset.refl _) hop]
  exact and_iff_left id

/-- The store of a word of a table that is indexed with the first argument. -/
def tableStore : Instr := ⟨some 4, .store (.inst 3) (.global "PC"), []⟩

def tableLoad : BasicBlock :=
  ⟨0, "entry", [⟨some 1, .binop .shl (.arg 0) (.constInt 32 2), []⟩,
    ⟨some 2, .binop .add (.inst 1) (.constInt 32 0x7000), []⟩,
      ⟨some 3, .load (.inst 2), []⟩, tableStore]⟩

theorem findsIndex_tableLoad :
    FindsIndex tableLoad.instrs tableLoad.instrs tableStore (.inst 3) ∧
      FindsIndex tableLoad.instrs (⟨"f", [tableLoad]⟩ : Func).instrs tableStore (.inst 3) := by
  have hnil (P : Value → Prop) : ∀ v ∈ ([] : List Value), P v :=
    fun v hv => absurd hv List.not_mem_nil
  have hload : First (visitValue tableLoad.instrs) (.inst 3) (.inst 2) := ⟨[], [], rfl, hnil _⟩
  have hadd : First (visitValue tableLoad.instrs) (.inst 2) (.inst 1) :=
    ⟨[], [.constInt 32 0x7000], rfl, hnil _⟩
  have hfirst : ShiftFirst tableLoad.instrs (.inst 3) :=
    .inl ⟨.arg 0, .inst 1, .head hload (.single hadd), rfl⟩
  obtain ⟨hblock, hfunc⟩ :=
    findsIndex_iff (f := ⟨"f", [tableLoad]⟩) (b := tableLoad) (s := tableStore) (by decide)
      List.mem_cons_self rfl
  exact ⟨hblock.mpr hfirst, hfunc.mpr ⟨hfirst, fun h => h⟩⟩

/-- A shift by the second argument. -/
def variableShift : BasicBlock :=
  ⟨0, "entry", [⟨some 1, .binop .shl (.arg 0) (.arg 1), []⟩,
    ⟨some 2, .store (.inst 1) (.global "PC"), []⟩]⟩

/-- A block that goes to itself, each time with the next address. -/
def countingLoop : BasicBlock :=
  ⟨1, "loop", [⟨some 1, .phi [(0, .arg 0), (1, .inst 2)], []⟩,
    ⟨some 2, .binop .add (.inst 1) (.constInt 32 4), []⟩,
    ⟨some 3, .store (.inst 2) (.global "PC"), []⟩, Instr.fresh (.condBr (.arg 1) 1 2)]⟩

/-- The search follows the null pointer in the one, and the cycle in the other. -/
theorem not_findsIndex :
    (∃ s ∈ variableShift.instrs, s.op = .store (.inst 1) (.global "PC") ∧
      ¬ FindsIndex variableShift.instrs variableShift.instrs s (.inst 1)) ∧
      ∃ s ∈ countingLoop.instrs, s.op = .store (.inst 2) (.global "PC") ∧
        ¬ FindsIndex countingLoop.instrs countingLoop.instrs s (.inst 2) := by
  refine ⟨⟨_, .tail _ (.head _), rfl, fun h => ?_⟩, _, .tail _ (.tail _ (.head _)),
    rfl, fun h => ?_⟩
  · obtain ⟨r, hr⟩ := h.terminates
    cases hr
  · obtain ⟨r, hr⟩ := h.terminates
    have hnone : getValueSwitchedOn countingLoop.instrs ⟨some 3, .store (.inst 2) (.global "PC"),
        []⟩ = none := by
      decide
    cases hnone.symm.trans hr

end Bin2llvm.BuildFunctions
