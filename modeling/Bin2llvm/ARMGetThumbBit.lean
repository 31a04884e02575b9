import Bin2llvm.EnvAccesses
import Bin2llvm.ExtractPossibleTargets
import Bin2llvm.S2EInlineHelpers
import Bin2llvm.S2ETransformPass
import Bin2llvm.ThumbModes

/-!
# Bin2llvm.ARMGetThumbBit — the mode in which a translated block is left

`ARMGetThumbBit` looks at the constants that the returning basic blocks store to `thumb`, and makes
one bit of them. The disassembler records this bit for all targets of the block but the one a call
returns to.

* `runOnFunction`: the pass.
* `Harvest`: the passes over a translated block; `length_exits`: its exits are those before.
* `isThumbTarget_iff`: the mode recorded for a target.
* `recordsModes_iff`: for every target it is the mode in which the block is left for it exactly when
  all exits agree.
-/

namespace Bin2llvm.ARMGetThumbBit

open RecursiveDescentDisassembler

/-! ## The pass -/

def thumbBitOf (val : UInt64) : ThumbBit := if val = 1 then .set else .unset

/-- What is stored to the variable `thumb`. -/
def thumbReg (ins : Instr) : Option Value := ins.storeTo? "thumb"

/-- One instruction; the state is `thumbVal`, if there was a constant store. -/
def scanInstr (thumbVal : Option ThumbBit) (ins : Instr) : Option ThumbBit :=
  match (thumbReg ins).bind Value.constInt? with
  | some val => some (thumbBitOf val)
  | none => thumbVal

def runOnBlock (bb : BasicBlock) : Option ThumbBit :=
  if bb.returns then bb.instrs.foldl scanInstr none else none

def thumbBits (f : Func) : List ThumbBit := f.blocks.filterMap runOnBlock

/-- The first bit; others are reported only. -/
def runOnFunction (f : Func) : ThumbBit := (thumbBits f).head?.getD .undefined

/-- The constant of the last constant store to `thumb`. -/
def constStoreToThumb (bb : BasicBlock) : Option UInt64 :=
  ExtractPossibleTargetsPass.lastConst (bb.instrs.filterMap thumbReg)

/-- The basic blocks that return. -/
def exits (f : Func) : List BasicBlock := f.blocks.filter BasicBlock.returns

theorem foldl_scanInstr (is : List Instr) (thumbVal : Option ThumbBit) :
    is.foldl scanInstr thumbVal =
      ((ExtractPossibleTargetsPass.lastConst (is.filterMap thumbReg)).map thumbBitOf).or
      thumbVal := by
  induction is generalizing thumbVal with
  | nil => rfl
  | cons ins is ih =>
    rw [List.foldl_cons, ih]
    cases hins : thumbReg ins with
    | none =>
      rw [List.filterMap_cons_none hins, scanInstr, hins]
      rfl
    | some v =>
      rw [List.filterMap_cons_some hins, ExtractPossibleTargetsPass.lastConst_cons, scanInstr,
        hins, Option.bind_some]
      cases ExtractPossibleTargetsPass.lastConst (is.filterMap thumbReg) with
      | some val => rfl
      | none => cases v.constInt? <;> rfl

theorem thumbBits_eq (f : Func) :
    thumbBits f = ((exits f).filterMap constStoreToThumb).map thumbBitOf := by
  unfold thumbBits exits
  rw [List.filterMap_filter, List.map_filterMap]
  congr 1
  funext bb
  unfold runOnBlock
  rw [foldl_scanInstr, Option.or_none]
  cases bb.returns <;> rfl

/-! ## The passes over a translated block -/

/-- What `InlineFunction` gets, and what it makes of it. -/
structure ValidBlocks (f : Func) : Prop where
  terminated : ∀ bb ∈ f.blocks, bb.Terminated
  unique : ∀ i ∈ f.instrs, ∀ j ∈ f.instrs, i.id.isSome = true → i.id = j.id → i = j

/-- The returns of an inlined body become branches to what follows the call. -/
def KeepsExits (inlineFunction : Func → Option InstId → Option Func) : Prop :=
  ∀ f call f', ValidBlocks f → inlineFunction f call = some f' →
    ValidBlocks f' ∧ (exits f').length = (exits f).length

/-- The passes that have run when the targets of a block are scheduled. -/
structure Harvest (Ty : Type) [DecidableEq Ty] (getName : Value → String)
    (inlineFunction : Func → Option InstId → Option Func) (translated : Func) where
  targets : ExtractPossibleTargetsPass.Targets
  inlined : Func
  types : S2ETransformPass.TypeInfo Ty
  uses : S2ETransformPass.UseLists inlined
  globals : List (String × Ty)
  transformed : Func
  extract : ExtractPossibleTargetsPass.runOnFunction getName translated = some targets
  inline : ∃ n, (S2EInlineHelpers.runFuel inlineFunction n translated).map Prod.fst = some inlined
  transform : ∃ fuel, (S2ETransformPass.runOnFunction types inlined uses fuel globals).map
    Prod.fst = some transformed

variable {inlineFunction : Func → Option InstId → Option Func} {f f' : Func}

theorem inlineCalls_keepsExits (hI : KeepsExits inlineFunction) (calls : List (Option InstId))
    (hf : ValidBlocks f) : ValidBlocks (S2EInlineHelpers.inlineCalls inlineFunction f calls).1 ∧
      (exits (S2EInlineHelpers.inlineCalls inlineFunction f calls).1).length =
      (exits f).length := by
  induction calls generalizing f with
  | nil => exact ⟨hf, rfl⟩
  | cons call calls ih =>
    rw [S2EInlineHelpers.inlineCalls_cons]
    cases hinline : inlineFunction f call with
    | none => exact ⟨hf, rfl⟩
    | some f₁ =>
      obtain ⟨hvalid, hlen⟩ := hI f call f₁ hf hinline
      exact ⟨(ih hvalid).1, (ih hvalid).2.trans hlen⟩

theorem runFuel_keepsExits (hI : KeepsExits inlineFunction) {n : ℕ} (hf : ValidBlocks f)
    (h : (S2EInlineHelpers.runFuel inlineFunction n f).map Prod.fst = some f') :
    ValidBlocks f' ∧ (exits f').length = (exits f).length := by
  induction n generalizing f with
  | zero => cases h
  | succ n ih =>
    by_cases hnil : S2EInlineHelpers.functionsToInline f = []
    · rw [S2EInlineHelpers.runFuel, if_pos hnil] at h
      obtain rfl : f = f' := Option.some.inj h
      exact ⟨hf, rfl⟩
    · rw [S2EInlineHelpers.runFuel_succ n f hnil] at h
      obtain ⟨hvalid, hlen⟩ := inlineCalls_keepsExits hI (S2EInlineHelpers.functionsToInline f) hf
      obtain ⟨hvalid', hlen'⟩ := ih hvalid h
      exact ⟨hvalid', hlen'.trans hlen⟩

theorem length_exits_eq (f : Func) :
    (exits f).length = (f.blocks.map BasicBlock.returns).count true := by
  unfold exits
  rw [← List.countP_eq_length_filter, List.count, List.countP_map]
  congr 1
  funext bb
  simp

section

variable {Ty : Type} [DecidableEq Ty] {getName : Value → String} {translated : Func}

/-- No exit is lost and none is added. -/
theorem Harvest.length_exits (h : Harvest Ty getName inlineFunction translated)
    (hI : KeepsExits inlineFunction) (hvalid : ValidBlocks translated) :
    (exits h.transformed).length = (exits translated).length := by
  obtain ⟨n, hinline⟩ := h.inline
  obtain ⟨hinlined, hlen⟩ := runFuel_keepsExits hI hvalid hinline
  obtain ⟨fuel, htransform⟩ := h.transform
  obtain ⟨⟨f', globals⟩, hrun, hf'⟩ := Option.map_eq_some_iff.mp htransform
  rw [← hlen, length_exits_eq, length_exits_eq, ← hf',
    S2ETransformPass.map_returns_runOnFunction hrun hinlined.terminated hinlined.unique]

/-! ## The recorded modes -/

/-- A basic block that returns, as it is translated and after the passes. -/
structure Exit where
  translated : BasicBlock
  transformed : BasicBlock

/-- What is stored to `thumb`, with a cast or without. -/
def thumbStore? (ins : Instr) : Option Value :=
  match ins.op with
  | .store v ptr => if S2ETransformPass.globalOf ptr = some "thumb" then some v else none
  | _ => none

/-- The mode in which the block is left here.  It is not known if what is stored last is not
constant. -/
def Exit.leaves (thumb : Bool) (e : Exit) : Option Bool :=
  match (e.transformed.instrs.filterMap thumbStore?).getLast? with
  | none => some thumb
  | some v => v.constInt?.map fun val => decide (val ≠ 0)

/-- The constant that is stored to `PC`. -/
def Exit.target (getName : Value → String) (translated : Func) (e : Exit) : Option UInt64 :=
  ExtractPossibleTargetsPass.lastConst
    (ExtractPossibleTargetsPass.storesAt getName translated ExtractPossibleTargetsPass.pc_offset
      e.translated)

def Harvest.exits (h : Harvest Ty getName inlineFunction translated) : List Exit :=
  ((ARMGetThumbBit.exits translated).zip (ARMGetThumbBit.exits h.transformed)).map fun p =>
    ⟨p.1, p.2⟩

/-- What the passes find in the block. -/
def Harvest.block (h : Harvest Ty getName inlineFunction translated)
    (llvm_first_pc_after_bb : UInt64) : TranslationBlock :=
  ⟨llvm_first_pc_after_bb, h.targets.targetPCs, h.targets.implicitTargetPC,
    runOnFunction h.transformed⟩

/-- The block is left for the target in this mode: an exit stores it to `PC`, or a call returns to
it. -/
def Harvest.LeavesFor (h : Harvest Ty getName inlineFunction translated) (thumb : Bool)
    (t : UInt64) (mode : Bool) : Prop :=
  (∃ e ∈ h.exits, e.target getName translated = some t ∧ e.leaves thumb = some mode) ∨
    h.targets.implicitTargetPC = some t ∧ mode = thumb

/-- After the call in `s` the targets are recorded in the modes in which the block is left for
them. -/
def RecordsModes (h : Harvest Ty getName inlineFunction translated)
    (s s' : RecursiveDescentDisassembler.State) : Prop :=
  ∀ t mode, h.LeavesFor s.thumb t mode → s'.m_isPCThumb (realPC t) = some mode

/-- The first exit with a constant store to `thumb` stores the other mode. -/
def Switches (thumb : Bool) (es : List Exit) : Prop :=
  ∃ before e after val, es = before ++ e :: after ∧
    (∀ d ∈ before, constStoreToThumb d.transformed = none) ∧
    constStoreToThumb e.transformed = some val ∧ decide (val = 1) ≠ thumb

/-- All exits with a constant target keep the mode. -/
def AllKeep (h : Harvest Ty getName inlineFunction translated) (thumb : Bool) : Prop :=
  ∀ e ∈ h.exits, ∀ t, e.target getName translated = some t → ∀ mode, e.leaves thumb = some mode →
    mode = thumb

/-- All exits with a constant target switch the mode, but where the address is named last by the
target a call returns to; and the address of that is named last by itself. -/
def AllSwitch (h : Harvest Ty getName inlineFunction translated) (thumb : Bool)
    (pcs : List UInt64) : Prop :=
  (∀ e ∈ h.exits, ∀ t, e.target getName translated = some t → ∀ mode, e.leaves thumb = some mode →
      (mode = thumb ↔ lastNamed pcs (realPC t) = h.targets.implicitTargetPC)) ∧
    ∀ t, h.targets.implicitTargetPC = some t → lastNamed pcs (realPC t) = some t

variable {h : Harvest Ty getName inlineFunction translated} {G : Guest} {cfg : Config}
variable {s s' : RecursiveDescentDisassembler.State}
variable {pcEnd : UInt64} {pcs : List UInt64} {thumb : Bool} {t : UInt64}

/-- The exits as the pass sees them. -/
theorem map_transformed_exits (hI : KeepsExits inlineFunction) (hvalid : ValidBlocks translated) :
    h.exits.map Exit.transformed = ARMGetThumbBit.exits h.transformed := by
  unfold Harvest.exits
  rw [List.map_map]
  exact List.map_snd_zip (h.length_exits hI hvalid).le

theorem translated_mem_exits {e : Exit} (he : e ∈ h.exits) : e.translated ∈ translated.blocks ∧
    e.translated.returns = true := by
  obtain ⟨p, hp, rfl⟩ := List.mem_map.mp he
  exact List.mem_filter.mp (List.of_mem_zip hp).1

/-! ### What is scheduled -/

/-- What the block is left for is one of its targets. -/
theorem mem_targets {mode : Bool} (ht : h.LeavesFor thumb t mode) : t ∈ h.targets.targetPCs := by
  have heq := ExtractPossibleTargetsPass.runOnFunction_eq
    (ExtractPossibleTargetsPass.decodable_of_eq_some h.extract)
  rw [h.extract] at heq
  split_ifs at heq
  have htargets := congrArg ExtractPossibleTargetsPass.Targets.targetPCs (Option.some.inj heq)
  have himplicit := congrArg ExtractPossibleTargetsPass.Targets.implicitTargetPC
    (Option.some.inj heq)
  rw [htargets, List.mem_flatMap]
  rcases ht with ⟨e, he, htarget, -⟩ | ⟨ht, -⟩
  · obtain ⟨hmem, hret⟩ := translated_mem_exits he
    refine ⟨e.translated, hmem, ?_⟩
    rw [ExtractPossibleTargetsPass.targetsOf, if_pos hret]
    exact List.mem_append_left _ (Option.mem_toList.mpr htarget)
  · rw [himplicit] at ht
    obtain ⟨bb, hbb, hlr⟩ := List.mem_filterMap.mp (List.mem_of_mem_head? ht)
    refine ⟨bb, hbb, ?_⟩
    have hret : bb.returns = true := by
      by_contra hret
      rw [ExtractPossibleTargetsPass.implicitOf, if_neg hret] at hlr
      cases hlr
    rw [ExtractPossibleTargetsPass.targetsOf, if_pos hret]
    exact List.mem_append_right _ (Option.mem_toList.mpr hlr)

theorem mem_allPossiblePCs {tb : TranslationBlock} (hpcs : allPossiblePCs G cfg s.pc tb = some pcs)
    (ht : t ∈ tb.targets) : t ∈ pcs := by
  unfold allPossiblePCs at hpcs
  cases hinfo : jumpTableOf cfg s.pc tb with
  | none =>
    rw [hinfo] at hpcs
    obtain rfl := Option.some.inj hpcs
    exact ht
  | some info =>
    rw [hinfo] at hpcs
    obtain ⟨addrs, -, rfl⟩ := Option.map_eq_some_iff.mp hpcs
    exact List.mem_append_left _ ht

theorem exists_lastNamed (ht : t ∈ pcs) : ∃ t', lastNamed pcs (realPC t) = some t' := by
  unfold lastNamed
  rw [← Option.isSome_iff_exists, List.find?_isSome]
  exact ⟨t, List.mem_reverse.mpr ht, by simp⟩

/-- A mode that is there stays. -/
theorem isPCThumb_exploreNext_of_some {vector : List UInt64}
    (hs : (exploreNext G vector s).after = some s') {pc : UInt64} {mode : Bool}
    (hmode : s.m_isPCThumb pc = some mode) : s'.m_isPCThumb pc = some mode := by
  induction vector generalizing s with
  | nil =>
    obtain rfl := Option.some.inj hs
    exact hmode
  | cons next rest ih =>
    have hnext : (prepareNext s next rest).m_isPCThumb pc = some mode := by
      show Function.update s.m_isPCThumb next (some ((s.m_isPCThumb next).getD false))
        pc = some mode
      rcases eq_or_ne pc next with rfl | hne
      · rw [Function.update_self, hmode]
        rfl
      · rw [Function.update_of_ne hne, hmode]
    unfold exploreNext at hs
    split_ifs at hs
    · obtain rfl := Option.some.inj hs
      exact hnext
    · exact ih hs hnext
    · cases hs

/-- After a call the mode of a target is the one of the target named last. -/
theorem isPCThumb_call (hmode : s.thumb = thisIsForSureThumbMode s)
    (hpcs : allPossiblePCs G cfg s.pc (G.translate s.pc s.thumb) = some pcs)
    (hs : (slotExecuteBlockStart G cfg s).after = some s') {t' : UInt64}
    (hlast : lastNamed pcs (realPC t) = some t') :
    s'.m_isPCThumb (realPC t) = some (isThumbTarget (G.translate s.pc s.thumb) s.thumb t') := by
  unfold slotExecuteBlockStart at hs
  rw [if_neg (not_not.mpr hmode)] at hs
  dsimp only at hs
  rw [hpcs, Option.bind_some] at hs
  split_ifs at hs with hpc
  · cases hfold : pcs.foldlM (schedule cfg (G.translate s.pc s.thumb))
        (record s (G.translate s.pc s.thumb)) with
    | none =>
      rw [hfold] at hs
      cases hs
    | some s₁ =>
      rw [hfold] at hs
      refine isPCThumb_exploreNext_of_some hs ?_
      rw [(isPCThumb_foldlM_schedule hfold).2, hlast]
      rfl
  · cases hs

/-! ### The bit of the block -/

theorem switches_iff (hI : KeepsExits inlineFunction) (hvalid : ValidBlocks translated) :
    Switches thumb h.exits ↔
      ∃ val, ((ARMGetThumbBit.exits h.transformed).filterMap constStoreToThumb).head? = some val ∧
        decide (val = 1) ≠ thumb := by
  rw [← map_transformed_exits hI hvalid, List.filterMap_map, List.head?_filterMap]
  unfold Switches
  constructor
  · rintro ⟨before, e, after, val, heq, hbefore, hval, hne⟩
    exact ⟨val, List.findSome?_eq_some_iff.mpr ⟨before, e, after, heq, hval, hbefore⟩, hne⟩
  · rintro ⟨val, hfind, hne⟩
    obtain ⟨before, e, after, heq, hval, hbefore⟩ := List.findSome?_eq_some_iff.mp hfind
    exact ⟨before, e, after, val, heq, hbefore, hval, hne⟩

/-- The mode recorded for a target: the other one if the first exit switches, but for the one a call
returns to. -/
theorem isThumbTarget_block (hI : KeepsExits inlineFunction) (hvalid : ValidBlocks translated)
    (t : UInt64) : isThumbTarget (h.block pcEnd) thumb t = thumb ↔
      (Switches thumb h.exits → h.targets.implicitTargetPC = some t) := by
  rw [switches_iff hI hvalid]
  unfold isThumbTarget Harvest.block runOnFunction
  rw [thumbBits_eq, List.head?_map]
  split_ifs with himplicit
  · exact iff_of_true rfl fun _ => himplicit
  · have himplicit' : h.targets.implicitTargetPC ≠ some t := himplicit
    cases hfirst : ((ARMGetThumbBit.exits h.transformed).filterMap constStoreToThumb).head? with
    | none => simp
    | some val =>
      by_cases hval : val = 1
      · cases thumb <;> simp [thumbBitOf, hval, himplicit']
      · cases thumb <;> simp [thumbBitOf, hval, himplicit']

theorem bool_eq_iff {a b c : Bool} (h : a = c ↔ b = c) : a = b := by
  cases a <;> cases b <;> cases c <;> simp_all

section Call

variable (hI : KeepsExits inlineFunction) (hvalid : ValidBlocks translated)
variable (hblock : G.translate s.pc s.thumb = h.block pcEnd)
variable (hmode : s.thumb = thisIsForSureThumbMode s)
variable (hpcs : allPossiblePCs G cfg s.pc (G.translate s.pc s.thumb) = some pcs)
variable (hs : (slotExecuteBlockStart G cfg s).after = some s')

include hblock hmode hpcs hs in
/-- The mode recorded for a target, in terms of the target named last. -/
theorem recorded_iff {mode : Bool} (ht : h.LeavesFor s.thumb t mode) :
    ∃ t', lastNamed pcs (realPC t) = some t' ∧
    (s'.m_isPCThumb (realPC t) = some mode ↔ isThumbTarget (h.block pcEnd) s.thumb t' = mode) := by
  have hmem : t ∈ (G.translate s.pc s.thumb).targets := by
    rw [hblock]
    exact mem_targets ht
  obtain ⟨t', hlast⟩ := exists_lastNamed (mem_allPossiblePCs hpcs hmem)
  refine ⟨t', hlast, ?_⟩
  rw [isPCThumb_call hmode hpcs hs hlast, hblock, Option.some.injEq]

include hI hvalid hblock hmode hpcs hs

/-- All targets are recorded in the current mode. -/
theorem recordsModes_of_not_switches (hsw : ¬ Switches s.thumb h.exits) : RecordsModes h s s' ↔
    AllKeep h s.thumb := by
  have hkeep (t' : UInt64) : isThumbTarget (h.block pcEnd) s.thumb t' = s.thumb :=
    (isThumbTarget_block hI hvalid t').mpr fun hyes => absurd hyes hsw
  constructor
  · intro hrec e he t htarget mode hleaves
    have hfor : h.LeavesFor s.thumb t mode := Or.inl ⟨e, he, htarget, hleaves⟩
    obtain ⟨t', -, hiff⟩ := recorded_iff hblock hmode hpcs hs hfor
    rw [← hiff.mp (hrec t mode hfor), hkeep]
  · intro hexits t mode hfor
    obtain ⟨t', -, hiff⟩ := recorded_iff hblock hmode hpcs hs hfor
    rw [hiff, hkeep]
    rcases hfor with ⟨e, he, htarget, hleaves⟩ | ⟨-, rfl⟩
    · exact (hexits e he t htarget mode hleaves).symm
    · rfl

/-- All targets are recorded in the other mode, but those at whose address the one a call returns to
is named last. -/
theorem recordsModes_of_switches (hsw : Switches s.thumb h.exits) :
    RecordsModes h s s' ↔ AllSwitch h s.thumb pcs := by
  have hbit (t' : UInt64) : isThumbTarget (h.block pcEnd) s.thumb t' = s.thumb ↔
      h.targets.implicitTargetPC = some t' := by
    rw [isThumbTarget_block hI hvalid t', imp_iff_right hsw]
  constructor
  · refine fun hrec => ⟨fun e he t htarget mode hleaves => ?_, fun t himplicit => ?_⟩
    · have hfor : h.LeavesFor s.thumb t mode := Or.inl ⟨e, he, htarget, hleaves⟩
      obtain ⟨t', hlast, hiff⟩ := recorded_iff hblock hmode hpcs hs hfor
      rw [← hiff.mp (hrec t mode hfor), hbit, hlast, eq_comm]
    · have hfor : h.LeavesFor s.thumb t s.thumb := Or.inr ⟨himplicit, rfl⟩
      obtain ⟨t', hlast, hiff⟩ := recorded_iff hblock hmode hpcs hs hfor
      rw [hlast, ← (hbit t').mp (hiff.mp (hrec t s.thumb hfor)), himplicit]
  · rintro ⟨hexits, himplicit⟩ t mode hfor
    obtain ⟨t', hlast, hiff⟩ := recorded_iff hblock hmode hpcs hs hfor
    refine hiff.mpr ?_
    rcases hfor with ⟨e, he, htarget, hleaves⟩ | ⟨ht, rfl⟩
    · refine bool_eq_iff (c := s.thumb) ?_
      rw [hbit, hexits e he t htarget mode hleaves, hlast, eq_comm]
    · obtain rfl : t' = t := Option.some.inj (hlast.symm.trans (himplicit t ht))
      exact (hbit t').mpr ht

end Call

/-- **Which mode is recorded.**  The targets of a block are recorded in the modes in which it is
left for them exactly when no exit switches the mode, and neither does the first that stores one; or
when all do, but for those at the address that a call returns to. -/
theorem recordsModes_iff (h : Harvest Ty getName inlineFunction translated)
    (hI : KeepsExits inlineFunction) (hvalid : ValidBlocks translated)
    (hblock : G.translate s.pc s.thumb = h.block pcEnd) (hmode : s.thumb = thisIsForSureThumbMode s)
    (hpcs : allPossiblePCs G cfg s.pc (G.translate s.pc s.thumb) = some pcs)
    (hs : (slotExecuteBlockStart G cfg s).after = some s') :
    RecordsModes h s s' ↔ ¬ Switches s.thumb h.exits ∧ AllKeep h s.thumb ∨
      Switches s.thumb h.exits ∧ AllSwitch h s.thumb pcs := by
  by_cases hsw : Switches s.thumb h.exits
  · rw [recordsModes_of_switches hI hvalid hblock hmode hpcs hs hsw]
    simp [hsw]
  · rw [recordsModes_of_not_switches hI hvalid hblock hmode hpcs hs hsw]
    simp [hsw]

end

/-! ## A call and a conditional branch -/

/-- The constant `val` is stored to the register at the offset. -/
def storeReg (k : InstId) (offset val : UInt64) : List Instr :=
  [⟨some k, .binop .add (.inst 0) (.constInt 64 offset), []⟩,
    ⟨some (k + 1), .other 43 [.inst k], []⟩,
      ⟨some (k + 2), .store (.constInt 32 val) (.inst (k + 1)), []⟩]

/-- `blx` to thumb code at `0x2000`, in ARM code. -/
def blx : Func := ⟨"tcg-llvm-tb-0-1000", [⟨0, "entry", ⟨some 0, .load (.arg 0), []⟩ ::
  (storeReg 1 0xbc 0x1004 ++ storeReg 4 0xcc 1 ++ storeReg 7 0xc0 0x2000 ++ [⟨none, .ret none, []⟩])⟩]⟩

def blxTransformed : Func := ⟨"tcg-llvm-tb-0-1000", [⟨0, "entry", [
  ⟨some 3, .store (.constInt 32 0x1004) (.global "LR"), []⟩,
  ⟨some 6, .store (.constInt 32 1) (.global "thumb"), []⟩,
  ⟨some 9, .store (.constInt 32 0x2000) (.global "PC"), []⟩, ⟨none, .ret none, []⟩]⟩]⟩

def noBodies : Func → Option InstId → Option Func := S2EInlineHelpers.inlineBody ⟨[]⟩

theorem keepsExits_noBodies : KeepsExits noBodies := by
  intro f call f' _ h
  obtain ⟨name, -, h⟩ := Option.bind_eq_some_iff.mp h
  obtain ⟨G, hG, -⟩ := Option.bind_eq_some_iff.mp h
  cases hG

def blxHarvest : Harvest ℕ ExtractPossibleTargetsPass.envName noBodies blx where
  targets := ⟨[0x2000, 0x1004], some 0x1004⟩
  inlined := blx
  types := S2ETransformPass.typeInfo
  uses := S2ETransformPass.useList blx
  globals := []
  transformed := blxTransformed
  extract := by decide
  inline := ⟨1, by decide⟩
  transform := ⟨4, by decide⟩

theorem validBlocks_blx : ValidBlocks blx where
  terminated bb hbb := by
    obtain rfl := List.mem_singleton.mp hbb
    refine ⟨⟨some 0, .load (.arg 0), []⟩ :: (storeReg 1 0xbc 0x1004 ++ storeReg 4 0xcc 1 ++
      storeReg 7 0xc0 0x2000), ⟨none, .ret none, []⟩, rfl, rfl, by decide⟩
  unique := by decide

/-- Everywhere is the block that was harvested. -/
def guestOf (tb : TranslationBlock) : Guest := ⟨fun _ _ => tb, fun _ => 0, fun _ => true⟩

/-- The call is recorded as thumb code, and where it returns to as ARM code. -/
theorem recordsModes_blx : ∃ s', (slotExecuteBlockStart (guestOf (blxHarvest.block 0x1004)) noFiles
    (initial noFiles 0x1000 false)).after = some s' ∧
    RecordsModes blxHarvest (initial noFiles 0x1000 false) s' := by
  obtain ⟨s', hs⟩ : ∃ s', (slotExecuteBlockStart (guestOf (blxHarvest.block 0x1004)) noFiles
      (initial noFiles 0x1000 false)).after = some s' := ⟨_, rfl⟩
  have hpcs : allPossiblePCs (guestOf (blxHarvest.block 0x1004)) noFiles 0x1000
      (blxHarvest.block 0x1004) = some [0x2000, 0x1004] := rfl
  have hiff := recordsModes_iff blxHarvest keepsExits_noBodies validBlocks_blx rfl rfl hpcs hs
  refine ⟨s', hs, hiff.mpr (Or.inr ⟨⟨[], _, [], 1, rfl, ?_, by decide, by decide⟩, ?_, ?_⟩)⟩
  · exact fun d hd => nomatch hd
  · intro e he t htarget mode hleaves
    obtain rfl := List.mem_singleton.mp he
    obtain rfl := Option.some.inj htarget
    obtain rfl := Option.some.inj hleaves
    decide
  · intro t ht
    obtain rfl := Option.some.inj ht
    decide

/-- `bxne r3` at `0x1004`, where `r3` is `0x2001`. -/
def bxne : Func := ⟨"tcg-llvm-tb-0-1000", [
  ⟨0, "entry", [⟨some 0, .load (.arg 0), []⟩, ⟨none, .condBr .undef 1 2, []⟩]⟩,
  ⟨1, "taken", storeReg 1 0xcc 1 ++ storeReg 4 0xc0 0x2000 ++ [⟨none, .ret none, []⟩]⟩,
  ⟨2, "next", storeReg 7 0xc0 0x1008 ++ [⟨none, .ret none, []⟩]⟩]⟩

def bxneTransformed : Func := ⟨"tcg-llvm-tb-0-1000", [
  ⟨0, "entry", [⟨none, .condBr .undef 1 2, []⟩]⟩,
  ⟨1, "taken", [⟨some 3, .store (.constInt 32 1) (.global "thumb"), []⟩,
    ⟨some 6, .store (.constInt 32 0x2000) (.global "PC"), []⟩, ⟨none, .ret none, []⟩]⟩,
  ⟨2, "next", [⟨some 9, .store (.constInt 32 0x1008) (.global "PC"), []⟩, ⟨none, .ret none, []⟩]⟩]⟩

def bxneHarvest : Harvest ℕ ExtractPossibleTargetsPass.envName noBodies bxne where
  targets := ⟨[0x2000, 0x1008], none⟩
  inlined := bxne
  types := S2ETransformPass.typeInfo
  uses := S2ETransformPass.useList bxne
  globals := []
  transformed := bxneTransformed
  extract := by decide
  inline := ⟨1, by decide⟩
  transform := ⟨4, by decide⟩

theorem validBlocks_bxne : ValidBlocks bxne where
  terminated bb hbb := by
    simp only [bxne, List.mem_cons, List.not_mem_nil, or_false] at hbb
    rcases hbb with rfl | rfl | rfl
    · exact ⟨[⟨some 0, .load (.arg 0), []⟩], ⟨none, .condBr .undef 1 2, []⟩, rfl, rfl, by decide⟩
    · exact ⟨storeReg 1 0xcc 1 ++ storeReg 4 0xc0 0x2000, ⟨none, .ret none, []⟩, rfl,
        rfl, by decide⟩
    · exact ⟨storeReg 7 0xc0 0x1008, ⟨none, .ret none, []⟩, rfl, rfl, by decide⟩
  unique := by decide

/-- The next instruction is recorded as thumb code. -/
theorem not_recordsModes_bxne : KeepsExits noBodies ∧ ValidBlocks bxne ∧
    ∃ s', (slotExecuteBlockStart (guestOf (bxneHarvest.block 0x1008)) noFiles
        (initial noFiles 0x1000 false)).after = some s' ∧
      s'.m_isPCThumb 0x1008 = some true ∧
      ¬ RecordsModes bxneHarvest (initial noFiles 0x1000 false) s' := by
  refine ⟨keepsExits_noBodies, validBlocks_bxne, _, rfl, by decide, fun hrec => ?_⟩
  have hnext := hrec 0x1008 false (Or.inl ⟨_, List.mem_cons_of_mem _ List.mem_cons_self,
    by decide, by decide⟩)
  revert hnext
  decide

end Bin2llvm.ARMGetThumbBit
