import Mathlib.Data.List.Basic
import Mathlib.Data.List.Infix
import Mathlib.Data.List.MinMax
import Mathlib.Data.Nat.Notation

/-!
# Bin2llvm.IR — the LLVM objects the passes work on

Instructions, basic blocks, functions and modules as the passes see them through `dyn_cast`,
`getOperand` and `getMetadata`.  A basic block is a plain list of instructions: while a pass
rewrites it, it may hold two terminators or none.

* `Value`: operands.  A `ConstantInt` carries its width and its zero-extended value.
* `Op`, `Instr`: an instruction with its metadata.  The `id` of an instruction is its identity (its
  address in LLVM, and the name of its result); terminators a pass appends are never referred to
  again and carry none.
* `BasicBlock`, `Func`, `Module`: containers in iteration order.
-/

namespace Bin2llvm

/-! ## Operands -/

abbrev BlockId := ℕ

abbrev InstId := ℕ

/-- Operands.  Constant expressions over several operands are folded into pairs. -/
inductive Value where
  | constInt (width : ℕ) (val : UInt64)
  | global (name : String)
  | func (name : String)
  | constCast (v : Value)
  | constExpr (opcode : ℕ) (lhs rhs : Value)
  | arg (n : ℕ)
  | inst (id : InstId)
  | undef
  deriving DecidableEq, Repr

/-- `dyn_cast<ConstantInt>(v)`, followed by `getZExtValue()`. -/
def Value.constInt? : Value → Option UInt64
  | .constInt _ v => some v
  | _ => none

/-- `dyn_cast<GlobalVariable>(v)`, followed by `getName()`. -/
def Value.global? : Value → Option String
  | .global g => some g
  | _ => none

/-- `dyn_cast<Instruction>(v)`. -/
def Value.inst? : Value → Option InstId
  | .inst i => some i
  | _ => none

/-- `value->replaceAllUsesWith(replaceWith)`, at one operand. -/
def replaceValue (value replaceWith : Value) (v : Value) : Value :=
  if v = value then replaceWith else v

/-! ## Metadata -/

/-- The metadata kinds; `INS_switch_case i` is the kind printed with `"INS_switch_case%d"`. -/
inductive MDKind where
  | BB_pcStart | BB_pcEnd | INS_currPC
  | INS_directCall | INS_indirectCall | INS_callReturn
  | INS_directJump | INS_indirectJump | INS_return
  | INS_fakeReturn | INS_splitCall | INS_unresolvedCall | INS_computedValue
  | INS_switch_cnt | INS_switch_default | INS_switch_idx_start | INS_switch_case (i : ℕ)
  | inststart | lastpc
  deriving DecidableEq, Repr

/-- The operand of a metadata node: a string, an integer constant, or nothing. -/
inductive MDNode where
  | str (s : String)
  | int (n : UInt64)
  | empty
  deriving DecidableEq, Repr

abbrev Metadata := List (MDKind × MDNode)

/-! ## Instructions -/

inductive BinOp where
  | add | sub | mul | udiv | sdiv | urem | srem | shl | lshr | ashr | and | or | xor
  deriving DecidableEq, Repr

/-- Instructions; casts, comparisons, selects and address computations are `other`. -/
inductive Op where
  | store (val ptr : Value)
  | load (ptr : Value)
  | call (callee : Value) (args : List Value)
  | binop (opcode : BinOp) (lhs rhs : Value)
  | phi (incoming : List (BlockId × Value))
  | other (opcode : ℕ) (args : List Value)
  | br (dest : BlockId)
  | condBr (cond : Value) (ifTrue ifFalse : BlockId)
  | switch (cond : Value) (dflt : BlockId) (cases : List (UInt64 × BlockId))
  | ret (val : Option Value)
  | unreachable
  deriving DecidableEq, Repr

namespace Op

def isTerminator : Op → Bool
  | br _ | condBr .. | switch .. | ret _ | unreachable => true
  | _ => false

/-- The operands, in `getOperand` order (basic blocks left out). -/
def operands : Op → List Value
  | store v p => [v, p]
  | load p => [p]
  | call f args => args ++ [f]
  | binop _ a b => [a, b]
  | phi inc => inc.map Prod.snd
  | other _ args => args
  | condBr c _ _ => [c]
  | switch c _ _ => [c]
  | ret v => v.toList
  | br _ | unreachable => []

/-- The basic blocks a terminator can go to. -/
def successors : Op → List BlockId
  | br d => [d]
  | condBr _ t e => [t, e]
  | switch _ d cs => d :: cs.map Prod.snd
  | _ => []

def mapValues (σ : Value → Value) : Op → Op
  | store v p => store (σ v) (σ p)
  | load p => load (σ p)
  | call f args => call (σ f) (args.map σ)
  | binop o a b => binop o (σ a) (σ b)
  | phi inc => phi (inc.map fun p => (p.1, σ p.2))
  | other o args => other o (args.map σ)
  | br d => br d
  | condBr c t e => condBr (σ c) t e
  | switch c d cs => switch (σ c) d cs
  | ret v => ret (v.map σ)
  | unreachable => unreachable

@[simp] theorem isTerminator_mapValues (σ : Value → Value) (o : Op) :
    (o.mapValues σ).isTerminator = o.isTerminator := by cases o <;> rfl

@[simp] theorem operands_mapValues (σ : Value → Value) (o : Op) :
    (o.mapValues σ).operands = o.operands.map σ := by
  cases o with
  | ret v => cases v <;> rfl
  | _ => simp [mapValues, operands]

theorem mapValues_mapValues (σ τ : Value → Value) (o : Op) :
    (o.mapValues σ).mapValues τ = o.mapValues (τ ∘ σ) := by cases o <;> simp [mapValues]

theorem mapValues_id (o : Op) : o.mapValues id = o := by cases o <;> simp [mapValues]

end Op

structure Instr where
  id : Option InstId
  op : Op
  md : Metadata
  deriving DecidableEq, Repr

namespace Instr

def getMetadata (i : Instr) (k : MDKind) : Option MDNode := i.md.lookup k

/-- `setMetadata`: the node of kind `k` is replaced, the others stay. -/
def setMetadata (i : Instr) (k : MDKind) (n : MDNode) : Instr :=
  { i with md := (k, n) :: i.md.filter (fun p => p.1 ≠ k) }

/-- Whether the instruction carries metadata of kind `k`. -/
def has (i : Instr) (k : MDKind) : Bool := (i.getMetadata k).isSome

def isTerminator (i : Instr) : Bool := i.op.isTerminator

def isStore (i : Instr) : Bool :=
  match i.op with
  | .store .. => true
  | _ => false

def mapValues (σ : Value → Value) (i : Instr) : Instr := { i with op := i.op.mapValues σ }

/-- A store to a global variable: the stored value and the global's name. -/
def storeToGlobal? (i : Instr) : Option (Value × String) :=
  match i.op with
  | .store v (.global g) => some (v, g)
  | _ => none

def isStoreTo (i : Instr) (g : String) : Bool :=
  match i.storeToGlobal? with
  | some (_, g') => g' == g
  | none => false

/-- The value a store to the global `g` stores. -/
def storeTo? (i : Instr) (g : String) : Option Value :=
  match i.storeToGlobal? with
  | some (v, g') => if g' = g then some v else none
  | none => none

theorem storeTo?_eq_some {i : Instr} {g : String} {v : Value} :
    i.storeTo? g = some v ↔ i.storeToGlobal? = some (v, g) := by
  unfold storeTo?
  cases i.storeToGlobal? with
  | none => simp
  | some p => simp [Prod.ext_iff, and_comm]

theorem isStoreTo_iff {i : Instr} {g : String} : i.isStoreTo g = true ↔
    ∃ v, i.storeTo? g = some v := by
  unfold isStoreTo storeTo?
  cases i.storeToGlobal? with
  | none => simp
  | some p => simp

theorem storeTo?_op {i : Instr} {g : String} {v : Value} : i.storeTo? g = some v ↔
    i.op = .store v (.global g) := by
  rw [storeTo?_eq_some]
  unfold storeToGlobal?
  split
  · rename_i v' g' hop
    rw [hop]
    simp
  · rename_i hno
    refine iff_of_false (by simp) fun hop => hno v g hop

theorem op_of_isStoreTo {i : Instr} {g : String} (h : i.isStoreTo g = true) :
    ∃ v, i.op = .store v (.global g) := by
  obtain ⟨v, hv⟩ := isStoreTo_iff.mp h
  exact ⟨v, storeTo?_op.mp hv⟩

/-- An instruction a pass appends and never refers to again. -/
def fresh (o : Op) : Instr := ⟨none, o, []⟩

theorem lookup_filter_ne {k k' : MDKind} (h : k' ≠ k) (md : Metadata) :
    (md.filter (fun p => p.1 ≠ k)).lookup k' = md.lookup k' := by
  induction md with
  | nil => rfl
  | cons p md ih =>
    obtain ⟨q, n⟩ := p
    by_cases hq : q = k
    · subst hq
      simp only [ne_eq, not_true_eq_false, decide_false, Bool.false_eq_true, not_false_eq_true,
        List.filter_cons_of_neg, List.lookup_cons, beq_eq_false_iff_ne.mpr h]
      exact ih
    · simp only [ne_eq, hq, not_false_eq_true, decide_true, List.filter_cons_of_pos,
        List.lookup_cons]
      cases k' == q with
      | true => rfl
      | false => exact ih

@[simp] theorem getMetadata_setMetadata_self (i : Instr) (k : MDKind) (n : MDNode) :
    (i.setMetadata k n).getMetadata k = some n := by simp [getMetadata, setMetadata]

theorem getMetadata_setMetadata_of_ne (i : Instr) {k k' : MDKind} (h : k' ≠ k) (n : MDNode) :
    (i.setMetadata k n).getMetadata k' = i.getMetadata k' := by
  rw [getMetadata, setMetadata, List.lookup_cons]
  simp only [beq_eq_false_iff_ne.mpr h]
  exact lookup_filter_ne h i.md

@[simp] theorem has_setMetadata_self (i : Instr) (k : MDKind) (n : MDNode) :
    (i.setMetadata k n).has k = true := by
  simp [has]

theorem has_setMetadata_of_ne (i : Instr) {k k' : MDKind} (h : k' ≠ k) (n : MDNode) :
    (i.setMetadata k n).has k' = i.has k' := by rw [has, has, getMetadata_setMetadata_of_ne i h]

@[simp] theorem op_setMetadata (i : Instr) (k : MDKind) (n : MDNode) :
    (i.setMetadata k n).op = i.op := rfl

@[simp] theorem storeToGlobal?_setMetadata (i : Instr) (k : MDKind) (n : MDNode) :
    (i.setMetadata k n).storeToGlobal? = i.storeToGlobal? := rfl

@[simp] theorem storeTo?_setMetadata (i : Instr) (k : MDKind) (n : MDNode) (g : String) :
    (i.setMetadata k n).storeTo? g = i.storeTo? g := rfl

@[simp] theorem isStoreTo_setMetadata (i : Instr) (k : MDKind) (n : MDNode) (g : String) :
    (i.setMetadata k n).isStoreTo g = i.isStoreTo g := rfl

@[simp] theorem id_setMetadata (i : Instr) (k : MDKind) (n : MDNode) :
    (i.setMetadata k n).id = i.id := rfl

@[simp] theorem md_mapValues (σ : Value → Value) (i : Instr) : (i.mapValues σ).md = i.md := rfl

@[simp] theorem id_mapValues (σ : Value → Value) (i : Instr) : (i.mapValues σ).id = i.id := rfl

@[simp] theorem op_mapValues (σ : Value → Value) (i : Instr) :
    (i.mapValues σ).op = i.op.mapValues σ := rfl

@[simp] theorem getMetadata_mapValues (σ : Value → Value) (i : Instr) (k : MDKind) :
    (i.mapValues σ).getMetadata k = i.getMetadata k := rfl

@[simp] theorem isTerminator_mapValues (σ : Value → Value) (i : Instr) :
    (i.mapValues σ).isTerminator = i.isTerminator := Op.isTerminator_mapValues σ i.op

theorem mapValues_mapValues (σ τ : Value → Value) (i : Instr) :
    (i.mapValues σ).mapValues τ = i.mapValues (τ ∘ σ) := by
  simp [mapValues, Op.mapValues_mapValues]

end Instr

/-! ## Blocks, functions, modules -/

structure BasicBlock where
  id : BlockId
  name : String
  instrs : List Instr
  deriving DecidableEq, Repr

/-- `llvm::Function`; a declaration has no blocks. -/
structure Func where
  name : String
  blocks : List BasicBlock
  deriving DecidableEq, Repr

structure Module where
  funcs : List Func
  deriving DecidableEq, Repr

/-- `std::strstr(s, sub) != NULL`. -/
def strstr (s sub : String) : Bool := decide (sub.toList <:+: s.toList)

namespace BasicBlock

def mapInstrs (g : Instr → Instr) (b : BasicBlock) : BasicBlock :=
  { b with instrs := b.instrs.map g }

/-- `getTerminator()`: the last instruction, if it is a terminator. -/
def terminator? (b : BasicBlock) : Option Instr := b.instrs.getLast?.filter Instr.isTerminator

/-- `isa<ReturnInst>(getTerminator())`. -/
def returns (b : BasicBlock) : Bool :=
  b.terminator?.any fun ins => match ins.op with
    | .ret _ => true
    | _ => false

/-- One terminator, the last instruction. -/
def Terminated (b : BasicBlock) : Prop :=
  ∃ is t, b.instrs = is ++ [t] ∧ t.isTerminator = true ∧ ∀ i ∈ is, i.isTerminator = false

/-- The basic blocks the terminator can go to. -/
def successors (b : BasicBlock) : List BlockId :=
  (b.terminator?.map fun ins => ins.op.successors).getD []

end BasicBlock

namespace Func

def instrs (f : Func) : List Instr := f.blocks.flatMap BasicBlock.instrs

def mapInstrs (g : Instr → Instr) (f : Func) : Func :=
  { f with blocks := f.blocks.map (BasicBlock.mapInstrs g) }

/-- `value->replaceAllUsesWith(replaceWith)`. -/
def replaceAllUsesWith (f : Func) (value replaceWith : Value) : Func :=
  f.mapInstrs (Instr.mapValues (replaceValue value replaceWith))

/-- Block-functions are the functions whose name contains `void-tcg-llvm-tb`. -/
def isBlockFunction (f : Func) : Bool := strstr f.name "void-tcg-llvm-tb"

def mapBlocks (g : BasicBlock → BasicBlock) (f : Func) : Func := { f with blocks := f.blocks.map g }

/-- The instructions of the block `bb` are rewritten with `g`. -/
def modifyBlock (f : Func) (bb : BlockId) (g : List Instr → List Instr) : Func :=
  f.mapBlocks fun b => if b.id = bb then { b with instrs := g b.instrs } else b

/-- `XInst::Create(…, bb)`: appends at the end of the block. -/
def appendTo (f : Func) (bb : BlockId) (o : Op) : Func := f.modifyBlock bb (· ++ [Instr.fresh o])

/-- `eraseFromParent()` of the instructions with the given identities. -/
def eraseInstrs (f : Func) (ids : List InstId) : Func :=
  f.mapBlocks fun b => { b with instrs := b.instrs.filter fun i => i.id.all (fun k => k ∉ ids) }

/-- `BasicBlock::Create(…)`: a new last block holding one instruction. -/
def addBlock (f : Func) (bb : BlockId) (name : String) (o : Op) : Func :=
  { f with blocks := f.blocks ++ [⟨bb, name, [Instr.fresh o]⟩] }

def blockIds (f : Func) : List BlockId := f.blocks.map BasicBlock.id

/-- An identity no block of the function has. -/
def freshBlockId (f : Func) : BlockId := f.blockIds.foldr max 0 + 1

theorem lt_freshBlockId {f : Func} {bb : BlockId} (h : bb ∈ f.blockIds) : bb < f.freshBlockId :=
  Nat.lt_succ_of_le (List.le_max_of_le' 0 h le_rfl)

end Func

namespace Module

def instrs (m : Module) : List Instr := m.funcs.flatMap Func.instrs

def blockFunctions (m : Module) : List Func := m.funcs.filter Func.isBlockFunction

end Module

end Bin2llvm
