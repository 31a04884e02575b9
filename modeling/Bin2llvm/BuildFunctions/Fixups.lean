import Bin2llvm.BuildFunctions.Explore

/-!
# Bin2llvm.BuildFunctions.Fixups — from block-functions to a function

The explored block-functions are cloned into one function, and the stores to `PC` at the end of
their basic blocks become branches, switches and returns.  Every block to update gets its terminator
at the end; afterwards the fake returns of the updated blocks are removed.  A failed `assert`, a
null dereference and a double erase are `none`.

Clones keep the identities of what they clone: the new function is in a module of its own.
-/

namespace Bin2llvm

/-- What a loop over all instructions of the function collects, with the block of the
instruction. -/
def Func.scan {α : Type*} (f : Func) (g : Instr → Option α) : List (BlockId × α) :=
  f.blocks.flatMap fun b => (b.instrs.filterMap g).map (b.id, ·)

namespace BuildFunctions

open FixOverlappedBBs

/-! ## The map from program counters to basic blocks -/

abbrev BBMap := List (UInt64 × BlockId)

/-- One block of `buildBBMap`: of two blocks with the same start, the first counts. -/
def addToBBMap (bbMap : BBMap) (bb : BasicBlock) : Option BBMap :=
  match bb.instrs with
  | [] => none
  | ins :: _ =>
    if bb.name ≠ "fake_indirect_bb" ∧ ins.has .BB_pcStart then do
      let pcStart ← getBBStart ins
      if (bbMap.lookup pcStart).isSome then pure bbMap else pure ((pcStart, bb.id) :: bbMap)
    else some bbMap

def buildBBMap (newFunc : Func) : Option BBMap := newFunc.blocks.foldlM addToBBMap []

/-! ## Inlining -/

/-- `inlineBBs`: the clones of all blocks, and a returning block for indirect jumps if there are
any. -/
def inlineBBs (name : String) (bbs : List Func) (hasIndirectJump : Bool) : Func × Option BlockId :=
  let newFunc : Func := ⟨name, bbs.flatMap Func.blocks⟩
  if hasIndirectJump then
    let fakeBB := newFunc.freshBlockId
    (newFunc.addBlock fakeBB "fake_indirect_bb" (.ret none), some fakeBB)
  else (newFunc, none)

/-- `cleanupFakeReturns`.  The fake return of a block that is listed twice would be erased twice. -/
def cleanupFakeReturns (f : Func) (bbToUpdate : List BlockId) : Option Func :=
  let holds (bb : BlockId) : Bool := f.blocks.any fun b => b.id = bb ∧ b.instrs.any (·.has .INS_fakeReturn)
  if (bbToUpdate.filter holds).Nodup then
    some (f.mapBlocks fun b =>
      if b.id ∈ bbToUpdate then { b with instrs := b.instrs.filter fun i => !i.has .INS_fakeReturn } else b)
  else none

/-! ## Calls -/

/-- The block a call returns to. -/
def callTarget (bbMap : BBMap) (ins : Instr) : Option BlockId :=
  if isCall ins then (getHexMetadataFromIns ins .INS_callReturn).bind fun pc =>
    bbMap.lookup pc else none

def markUnresolved (bbMap : BBMap) (ins : Instr) : Instr :=
  if isCall ins ∧ callTarget bbMap ins = none then
    ins.setMetadata .INS_unresolvedCall (.str "true") else ins

def fixupCalls (newFunc : Func) (bbMap : BBMap) : Option Func :=
  let bbToTargetBB := newFunc.scan (callTarget bbMap)
  if newFunc.instrs.all (fun i => !isCall i || (getHexMetadataFromIns i .INS_callReturn).isSome) ∧
      (bbToTargetBB.map Prod.fst).Nodup then
    let f := newFunc.mapInstrs (markUnresolved bbMap)
    let f := bbToTargetBB.foldl (fun f u => f.modifyBlock u.1 (· ++ [Instr.fresh (.br u.2)])) f
    cleanupFakeReturns f (bbToTargetBB.map Prod.fst)
  else none

/-! ## Direct jumps -/

/-- A jump with a known target block. -/
def jumpTarget (bbMap : BBMap) (ins : Instr) : Option (Instr × BlockId) :=
  if ins.has .INS_directJump then
    ((getHexMetadataFromIns ins .INS_directJump).bind fun pc => bbMap.lookup pc).map (ins, ·)
  else none

/-- The terminator goes to the end of the block, and the store to `PC` away. -/
def replaceStore (ins : Instr) (op : Op) (is : List Instr) : List Instr :=
  (is ++ [Instr.fresh op]).erase ins

def fixupDirectJumps (newFunc : Func) (bbMap : BBMap) : Option Func :=
  let insToUpdate := newFunc.scan (jumpTarget bbMap)
  if newFunc.instrs.all (fun i => !i.has .INS_directJump ||
      (getHexMetadataFromIns i .INS_directJump).isSome) then
    let f :=
      insToUpdate.foldl (fun f u => f.modifyBlock u.1 (replaceStore u.2.1 (.br u.2.2))) newFunc
    cleanupFakeReturns f (insToUpdate.map Prod.fst)
  else none

/-! ## Indirect jumps -/

/-- The first operand with a result, in order; `none` is a crash on the way. -/
def firstFound (search : Value → Option (Option Value)) : List Value → Option (Option Value)
  | [] => some none
  | v :: vs =>
    match search v with
    | none => none
    | some (some r) => some (some r)
    | some none => firstFound search vs

/-- `__getValueSwitchedOn(v, origBB)` on the instructions of `origBB`: the first operand of a left
shift by 1 or 2. The cast of a shift amount that is not constant is dereferenced unchecked, and a
cycle of operands is followed for ever: both are `none`. -/
def valueSwitchedOn (origBB : List Instr) : ℕ → Value → Option (Option Value)
  | 0, _ => none
  | fuel + 1, v =>
    match v.inst?.bind fun k => origBB.find? (·.id = some k) with
    | none => some none
    | some ins =>
      match ins.op with
      | .binop .shl a w =>
        match w.constInt? with
        | none => none
        | some k =>
          if k = 1 ∨ k = 2 then some (some a) else firstFound (valueSwitchedOn origBB fuel) [a, w]
      | op => firstFound (valueSwitchedOn origBB fuel) op.operands

/-- `getValueSwitchedOn(storeToPC)`. -/
def getValueSwitchedOn (origBB : List Instr) (storeToPC : Instr) : Option (Option Value) :=
  match storeToPC.op with
  | .store v _ => valueSwitchedOn origBB (origBB.length + 1) v
  | _ => none

/-- The function while switches are created. -/
structure SwitchState where
  func : Func
  myfakeBB : Option BlockId
  insToUpdate : List (BlockId × Instr)

/-- The block for `pc`; for an unknown one `myfakeBB`, created under the given name when there is
none yet. -/
def SwitchState.blockFor (st : SwitchState) (bbMap : BBMap) (fakeName : String) (pc : UInt64) :
    SwitchState × BlockId :=
  match bbMap.lookup pc, st.myfakeBB with
  | some bb, _ => (st, bb)
  | none, some bb => (st, bb)
  | none, none =>
    let bb := st.func.freshBlockId
    ({ st with func := st.func.addBlock bb fakeName (.ret none), myfakeBB := some bb }, bb)

/-- The cases in order: the `i32` value `idx_start + i`, and the block of its target. -/
def SwitchState.addCases (bbMap : BBMap) (idx_start : UInt64) :
    ℕ → List UInt64 → SwitchState → SwitchState × List (UInt64 × BlockId)
  | _, [], st => (st, [])
  | i, pc :: pcs, st =>
    let (st, bb) := st.blockFor bbMap "fake_switch_case" pc
    let (st, cases) := addCases bbMap idx_start (i + 1) pcs st
    (st, ((idx_start + UInt64.ofNat i) % 0x100000000, bb) :: cases)

/-- The tags without which a switch is handled as any indirect jump. -/
def switchComplete (ins : Instr) : Bool :=
  ins.has .INS_switch_default && ins.has .INS_switch_cnt && ins.has .INS_switch_idx_start

/-- One store of `transformToSwitch`; nothing happens when the value it switches on is not found. -/
def transformToSwitch (bbMap : BBMap) (st : SwitchState)
    (u : BlockId × Instr) : Option SwitchState :=
  if switchComplete u.2 then do
    let default_pc ← getHexMetadataFromIns u.2 .INS_switch_default
    let cnt_entries ← getHexMetadataFromIns u.2 .INS_switch_cnt
    let idx_start ← getHexMetadataFromIns u.2 .INS_switch_idx_start
    let parent ← st.func.blocks.find? (·.id = u.1)
    let op ← getValueSwitchedOn parent.instrs u.2
    match op with
    | none => pure st
    | some op =>
      let casePCs ← switchCasePCs u.2 cnt_entries
      let (st, bb_default) := st.blockFor bbMap "fake_switch" default_pc
      let (st, cases) := st.addCases bbMap idx_start 0 casePCs
      pure { st with func := st.func.appendTo u.1 (.switch op bb_default cases) }
  else some { st with insToUpdate := st.insToUpdate ++ [u] }

def indirectJump (ins : Instr) : Option Instr :=
  if ins.has .INS_indirectJump then some ins else none

/-- `BranchInst::Create(fakeBB, …)` for every store of `insToUpdate`. -/
def branchToFake (f : Func) (fakeBB : Option BlockId) (insToUpdate : List (BlockId × Instr)) :
    Option Func :=
  insToUpdate.foldlM (fun f u => fakeBB.map fun bb => f.appendTo u.1 (.br bb)) f

def fixupIndirectJumps (newFunc : Func) (bbMap : BBMap) (fakeBB : Option BlockId) : Option Func := do
  let jumps := newFunc.scan indirectJump
  let insToUpdate := jumps.filter fun u => !u.2.has .INS_switch_cnt
  let transform := jumps.filter fun u => u.2.has .INS_switch_cnt
  let st ← transform.foldlM (transformToSwitch bbMap) ⟨newFunc, fakeBB, insToUpdate⟩
  let f ← branchToFake st.func fakeBB st.insToUpdate
  cleanupFakeReturns f (jumps.map Prod.fst)

/-! ## Returns -/

def returnStore (ins : Instr) : Option Instr := if ins.has .INS_return then some ins else none

def fixupReturns (newFunc : Func) : Option Func :=
  let insToUpdate := newFunc.scan returnStore
  let f := insToUpdate.foldl (fun f u => f.modifyBlock u.1 (replaceStore u.2 (.ret none))) newFunc
  cleanupFakeReturns f (insToUpdate.map Prod.fst)

/-! ## The pass -/

/-- The four fixups of `makeFunctionForward`, each with a new map. -/
def fixups (newFunc : Func) (fakeBB : Option BlockId) : Option Func := do
  let pcToBB ← buildBBMap newFunc
  let newFunc ← fixupCalls newFunc pcToBB
  let pcToBB ← buildBBMap newFunc
  let newFunc ← fixupDirectJumps newFunc pcToBB
  let pcToBB ← buildBBMap newFunc
  let newFunc ← fixupIndirectJumps newFunc pcToBB fakeBB
  let _ ← buildBBMap newFunc
  let newFunc ← fixupReturns newFunc
  let _ ← buildBBMap newFunc
  pure newFunc

/-- `makeFunctionForward`.  The loop that should schedule the block-functions for removal compares
its iterator with itself and never runs. -/
def makeFunctionForward (all : List (UInt64 × Func)) (name : String)
    (startBB : Func) : Option Func := do
  let (bbs, hasIndirectJump) ← exploreBB all startBB
  let (newFunc, fakeBB) := inlineBBs name bbs hasIndirectJump
  fixups newFunc fakeBB

/-- The number of uses of a basic block is not zero. -/
def hasUses (f : Func) (bb : BlockId) : Bool := f.instrs.any fun i => bb ∈ i.op.successors

/-- "some fixup": an entry block that is jumped to gets a block in front of it, with the metadata of
its first instruction. -/
def fixupEntry (func : Func) : Func :=
  match func.blocks with
  | [] => func
  | entry :: bbs =>
    if entry.name = "func_entry_point" ∧ hasUses func entry.id then
      let md := (entry.instrs.head?.map Instr.md).getD []
      { func with blocks := ⟨func.freshBlockId, "fixup_entry", [⟨none, .br entry.id, md⟩]⟩ ::
        entry :: bbs }
    else func

/-- The entry block is called `func_entry_point`. -/
def isEntryPoint (func : Func) : Bool := func.blocks.head?.any (·.name = "func_entry_point")

/-- `runOnModule`: the new module, one function for each entry point.  The old module stays as it
is. -/
def runOnModule (M : Module) : Option Module := do
  let all ← allBBs M
  let newFuncs ← (M.blockFunctions.filter isEntryPoint).mapM fun func =>
    makeFunctionForward all ("final-func-" ++ func.name) func
  pure ⟨newFuncs.map fixupEntry⟩

/-! ## The built functions -/

@[simp] theorem name_fixupEntry (f : Func) : (fixupEntry f).name = f.name := by
  unfold fixupEntry
  cases f.blocks with
  | nil => rfl
  | cons e bbs => simp only; split_ifs <;> rfl

variable {M N : Module} {F G : Func} {all : List (UInt64 × Func)}

theorem exists_allBBs (h : runOnModule M = some N) : ∃ all, allBBs M = some all := by
  unfold runOnModule at h
  obtain ⟨all, hall, -⟩ := Option.bind_eq_some_iff.mp h
  exact ⟨all, hall⟩

theorem exists_newFuncs (hall : allBBs M = some all) (h : runOnModule M = some N) : ∃ newFuncs,
      (M.blockFunctions.filter isEntryPoint).mapM (fun F =>
        makeFunctionForward all ("final-func-" ++ F.name) F) =
        some newFuncs ∧ N = ⟨newFuncs.map fixupEntry⟩ := by
  unfold runOnModule at h
  rw [hall, Option.bind_eq_bind, Option.bind_some] at h
  obtain ⟨newFuncs, hnew, h⟩ := Option.bind_eq_some_iff.mp h
  exact ⟨newFuncs, hnew, (Option.some.inj h).symm⟩

/-- `BuildFunctions` builds one function for each entry point. -/
theorem mem_runOnModule (hall : allBBs M = some all) (h : runOnModule M = some N) :
    G ∈ N.funcs ↔ ∃ F ∈ M.blockFunctions, isEntryPoint F = true ∧
      ∃ f, makeFunctionForward all ("final-func-" ++ F.name) F = some f ∧ G = fixupEntry f := by
  obtain ⟨newFuncs, hnew, rfl⟩ := exists_newFuncs hall h
  constructor
  · intro hG
    obtain ⟨f, hf, rfl⟩ := List.mem_map.mp hG
    obtain ⟨F, hF, hFf⟩ := OptionMapM.exists_of_mem_result hnew hf
    obtain ⟨hF, hentry⟩ := List.mem_filter.mp hF
    exact ⟨F, hF, hentry, f, hFf, rfl⟩
  · rintro ⟨F, hF, hentry, f, hFf, rfl⟩
    obtain ⟨f', hf', hFf'⟩ := OptionMapM.exists_of_mem hnew (List.mem_filter.mpr ⟨hF, hentry⟩)
    obtain rfl : f = f' := Option.some.inj (hFf.symm.trans hFf')
    exact List.mem_map_of_mem hf'

theorem exists_built (hall : allBBs M = some all) (h : runOnModule M = some N)
    (hF : F ∈ M.blockFunctions) (hentry : isEntryPoint F = true) :
    ∃ f, makeFunctionForward all ("final-func-" ++ F.name) F = some f ∧ fixupEntry f ∈ N.funcs := by
  obtain ⟨newFuncs, hnew, -⟩ := exists_newFuncs hall h
  obtain ⟨f, -, hf⟩ := OptionMapM.exists_of_mem hnew (List.mem_filter.mpr ⟨hF, hentry⟩)
  exact ⟨f, hf, (mem_runOnModule hall h).mpr ⟨F, hF, hentry, f, hf, rfl⟩⟩

end BuildFunctions

end Bin2llvm
