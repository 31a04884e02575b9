import Bin2llvm.IR

/-!
# Bin2llvm.ARMDumpThumbBit — dumping the targets that are entered in thumb mode

`ARMDumpThumbBit` looks at the basic blocks that switch to thumb mode, with a tagged store of 1 to
`thumb`, and dumps the value that `getStoreToPCInBB` finds.  What it finds is a store to `thumb`
too.

* `mem_runOnModule`: what is dumped.
* `dumpsTargets_iff`: these are the targets exactly when, up to bit 0, the blocks that switch store
  to `PC` what they store first to `thumb`.
-/

namespace Bin2llvm.ARMDumpThumbBit

/-- The constant that a store with an `INS_currPC` tag stores to the global `g`. -/
def taggedStore? (g : String) (i : Instr) : Option UInt64 :=
  if i.has .INS_currPC then (i.storeTo? g).bind Value.constInt? else none

/-- The constant of the first tagged store to `thumb`. -/
def getStoreToPCInBB (block : BasicBlock) : Option UInt64 :=
  block.instrs.findSome? (taggedStore? "thumb")

/-- `v & -2`. -/
def clearThumbBit (v : UInt64) : UInt64 := v &&& ~~~1

/-- What the pass dumps at an instruction of the block. -/
def dumpIns (block : BasicBlock) (i : Instr) : Option UInt64 :=
  if taggedStore? "thumb" i = some 1 then (getStoreToPCInBB block).map clearThumbBit else none

/-- `m_thumbPCs`, which the destructor writes as a list. -/
def runOnModule (m : Module) : List UInt64 :=
  m.funcs.flatMap fun func => func.blocks.flatMap fun bb => bb.instrs.filterMap (dumpIns bb)

/-! ## What is dumped -/

/-- The block switches to thumb mode. -/
def Switches (bb : BasicBlock) : Prop := ∃ i ∈ bb.instrs, taggedStore? "thumb" i = some 1

/-- The blocks of the module. -/
def blocks (m : Module) : List BasicBlock := m.funcs.flatMap Func.blocks

/-- The constants that tagged stores of the block store to the global `g`, in order. -/
def constsTo (g : String) (bb : BasicBlock) : List UInt64 := bb.instrs.filterMap (taggedStore? g)

variable {m : Module} {pc v w : UInt64}

theorem getStoreToPCInBB_eq (bb : BasicBlock) : getStoreToPCInBB bb = (constsTo "thumb" bb).head? :=
  List.head?_filterMap.symm

theorem constsTo_ne_nil {bb : BasicBlock} (h : Switches bb) : constsTo "thumb" bb ≠ [] := by
  obtain ⟨i, hi, hmode⟩ := h
  exact List.ne_nil_of_mem (List.mem_filterMap.mpr ⟨i, hi, hmode⟩)

theorem mem_runOnModule : pc ∈ runOnModule m ↔
    ∃ bb ∈ blocks m, Switches bb ∧ ∃ w ∈ (constsTo "thumb" bb).head?, clearThumbBit w = pc := by
  unfold runOnModule blocks Switches
  simp only [List.mem_flatMap, List.mem_filterMap, dumpIns]
  constructor
  · rintro ⟨f, hf, bb, hbb, i, hi, h⟩
    split_ifs at h with hmode
    obtain ⟨w, hw, rfl⟩ := Option.map_eq_some_iff.mp h
    exact ⟨bb, ⟨f, hf, hbb⟩, ⟨i, hi, hmode⟩, w, (getStoreToPCInBB_eq bb).symm.trans hw, rfl⟩
  · rintro ⟨bb, ⟨f, hf, hbb⟩, ⟨i, hi, hmode⟩, w, hw, rfl⟩
    refine ⟨f, hf, bb, hbb, i, hi, ?_⟩
    rw [if_pos hmode, getStoreToPCInBB_eq, hw]
    rfl

/-- The pass dumps the targets that are entered with a switch to thumb mode, and nothing else. -/
def DumpsTargets (m : Module) : Prop := ∀ pc, pc ∈ runOnModule m ↔
  ∃ bb ∈ blocks m, Switches bb ∧ ∃ v ∈ constsTo "PC" bb, clearThumbBit v = pc

/-! ## The thumb bit -/

theorem toNat_clearThumbBit (v : UInt64) : (clearThumbBit v).toNat = v.toNat / 2 * 2 := by
  show v.toNat &&& (2 ^ 64 - 2) = v.toNat / 2 * 2
  refine Nat.eq_of_testBit_eq fun i => ?_
  rw [Nat.testBit_and]
  -- the mask has all bits but bit 0
  cases i with
  | zero => simp
  | succ i =>
    have hmask : (2 ^ 64 - 2).testBit (i + 1) = decide (i < 63) := by
      rw [Nat.testBit_succ]
      exact Nat.testBit_two_pow_sub_one 63 i
    rw [hmask, Nat.testBit_succ, Nat.testBit_succ (v.toNat / 2 * 2),
      Nat.mul_div_cancel _ (by decide)]
    by_cases hi : i < 63
    · simp [hi]
    · have hlt : v.toNat / 2 < 2 ^ i := by
        have := v.toNat_lt
        exact lt_of_lt_of_le (by omega) (Nat.pow_le_pow_right (by decide) (by omega : 63 ≤ i))
      simp [hi, Nat.testBit_lt_two_pow hlt]

/-- Only bit 0 is cleared. -/
theorem clearThumbBit_eq_iff : clearThumbBit v = clearThumbBit w ↔ v / 2 = w / 2 := by
  rw [← UInt64.toNat_inj, ← UInt64.toNat_inj, toNat_clearThumbBit, toNat_clearThumbBit,
    UInt64.toNat_div, UInt64.toNat_div]
  show v.toNat / 2 * 2 = w.toNat / 2 * 2 ↔ v.toNat / 2 = w.toNat / 2
  omega

theorem half_eq_zero_iff : v / 2 = 0 ↔ v = 0 ∨ v = 1 := by
  rw [← UInt64.toNat_inj, ← UInt64.toNat_inj, ← UInt64.toNat_inj, UInt64.toNat_div]
  show v.toNat / 2 = 0 ↔ v.toNat = 0 ∨ v.toNat = 1
  omega

/-! ## When the targets are dumped -/

theorem dumpsTargets_iff_head (m : Module) : DumpsTargets m ↔
    (∀ bb ∈ blocks m, Switches bb → ∀ v ∈ constsTo "PC" bb,
      ∃ bb' ∈ blocks m, Switches bb' ∧ ∃ w ∈ (constsTo "thumb" bb').head?, w / 2 = v / 2) ∧
    ∀ bb ∈ blocks m, Switches bb → ∀ w ∈ (constsTo "thumb" bb).head?,
      ∃ bb' ∈ blocks m, Switches bb' ∧ ∃ v ∈ constsTo "PC" bb', v / 2 = w / 2 := by
  simp only [← clearThumbBit_eq_iff]
  constructor
  · intro h
    exact ⟨fun bb hbb hsw v hv => mem_runOnModule.mp ((h _).mpr ⟨bb, hbb, hsw, v, hv, rfl⟩),
      fun bb hbb hsw w hw => (h _).mp (mem_runOnModule.mpr ⟨bb, hbb, hsw, w, hw, rfl⟩)⟩
  · rintro ⟨htargets, hmodes⟩ pc
    rw [mem_runOnModule]
    constructor
    · rintro ⟨bb, hbb, hsw, w, hw, rfl⟩
      exact hmodes bb hbb hsw w hw
    · rintro ⟨bb, hbb, hsw, v, hv, rfl⟩
      exact htargets bb hbb hsw v hv

/-- **The pass dumps the targets exactly when, over the blocks that switch to thumb mode, the
constants stored to `PC` are, up to bit 0, the constants of the first stores to `thumb`.**  Where
only 0 and 1 are stored to `thumb`, this means that every target is 0 or 1, and that there is one if
a block switches. -/
theorem dumpsTargets_iff (m : Module) :
    (DumpsTargets m ↔
        (∀ bb ∈ blocks m, Switches bb → ∀ v ∈ constsTo "PC" bb,
          ∃ bb' ∈ blocks m, Switches bb' ∧ ∃ w ∈ (constsTo "thumb" bb').head?, w / 2 = v / 2) ∧
        ∀ bb ∈ blocks m, Switches bb → ∀ w ∈ (constsTo "thumb" bb).head?,
          ∃ bb' ∈ blocks m, Switches bb' ∧ ∃ v ∈ constsTo "PC" bb', v / 2 = w / 2) ∧
      ((∀ bb ∈ blocks m, Switches bb → ∀ w ∈ constsTo "thumb" bb, w = 0 ∨ w = 1) →
        (DumpsTargets m ↔
          (∀ bb ∈ blocks m, Switches bb → ∀ v ∈ constsTo "PC" bb, v = 0 ∨ v = 1) ∧
          ∀ bb ∈ blocks m, Switches bb → ∃ bb' ∈ blocks m, Switches bb' ∧
            constsTo "PC" bb' ≠ [])) := by
  refine ⟨dumpsTargets_iff_head m, fun hmodes => ?_⟩
  -- up to bit 0 every mode is zero, so every target has to be
  have hzero {bb : BasicBlock} (hbb : bb ∈ blocks m) (hsw : Switches bb) {w : UInt64}
      (hw : w ∈ (constsTo "thumb" bb).head?) : w / 2 = 0 :=
    half_eq_zero_iff.mpr (hmodes bb hbb hsw w (List.mem_of_mem_head? hw))
  have hfirst {bb : BasicBlock} (hsw : Switches bb) : ∃ w, w ∈ (constsTo "thumb" bb).head? :=
    ⟨_, List.head?_eq_some_head (constsTo_ne_nil hsw)⟩
  rw [dumpsTargets_iff_head]
  constructor
  · rintro ⟨htargets, hdumped⟩
    refine ⟨fun bb hbb hsw v hv => ?_, fun bb hbb hsw => ?_⟩
    · obtain ⟨bb', hbb', hsw', w, hw, heq⟩ := htargets bb hbb hsw v hv
      exact half_eq_zero_iff.mp (heq.symm.trans (hzero hbb' hsw' hw))
    · obtain ⟨w, hw⟩ := hfirst hsw
      obtain ⟨bb', hbb', hsw', v, hv, -⟩ := hdumped bb hbb hsw w hw
      exact ⟨bb', hbb', hsw', List.ne_nil_of_mem hv⟩
  · rintro ⟨htargets, hsome⟩
    refine ⟨fun bb hbb hsw v hv => ?_, fun bb hbb hsw w hw => ?_⟩
    · obtain ⟨w, hw⟩ := hfirst hsw
      have hv0 : v / 2 = 0 := half_eq_zero_iff.mpr (htargets bb hbb hsw v hv)
      exact ⟨bb, hbb, hsw, w, hw, (hzero hbb hsw hw).trans hv0.symm⟩
    · obtain ⟨bb', hbb', hsw', hne⟩ := hsome bb hbb hsw
      obtain ⟨v, hv⟩ := List.exists_mem_of_ne_nil _ hne
      have hv0 : v / 2 = 0 := half_eq_zero_iff.mpr (htargets bb' hbb' hsw' v hv)
      exact ⟨bb', hbb', hsw', v, hv, hv0.trans (hzero hbb hsw hw).symm⟩

/-- A switch to thumb mode at `0x8000`, to `0x9000`. -/
def bxModule : Module := ⟨[⟨"Function_0x00008000", [⟨1, "entry", [
  ⟨none, .store (.constInt 32 1) (.global "thumb"), [(.INS_currPC, .str "0x00008000")]⟩,
  ⟨none, .store (.constInt 32 0x9001) (.global "PC"), [(.INS_currPC, .str "0x00008000")]⟩,
  ⟨none, .ret none, []⟩]⟩]⟩]⟩

/-- The target is lost, and 0 is dumped. -/
theorem bxModule_not_dumpsTargets : runOnModule bxModule = [0] ∧ ¬ DumpsTargets bxModule := by
  have hdump : runOnModule bxModule = [0] := by decide
  refine ⟨hdump, fun h => ?_⟩
  have hmem : (0x9000 : UInt64) ∈ runOnModule bxModule := by
    refine (h 0x9000).mpr ⟨_, List.mem_cons_self, ⟨_, List.mem_cons_self, ?_⟩, 0x9001, ?_,
      ?_⟩ <;> decide
  rw [hdump] at hmem
  revert hmem
  decide

end Bin2llvm.ARMDumpThumbBit
