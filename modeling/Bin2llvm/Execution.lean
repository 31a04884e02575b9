import Bin2llvm.Semantics

/-!
# Bin2llvm.Execution — executions of functions

A machine that goes through the blocks of a function.  A result can be read once it is computed; a
phi reads what was computed when its block was entered.

* `Point`: a state, and the instructions that have results.
* `Config`, `step`: where an execution stands, and its next step.
* `outcome`: what a finished execution returns.
-/

namespace Bin2llvm.Execution

/-- How terminators choose. -/
structure Control (W : Type) where
  isTrue : W → Bool
  isCase : W → UInt64 → Bool

structure Point (W E : Type) where
  st : State W E
  done : List InstId

/-- The rest of the block, and from where and with what the block was entered. -/
structure Config (W E : Type) where
  bb : BlockId
  code : List Instr
  now : Point W E
  edge : Option (BlockId × Point W E)

section

variable {W E : Type} (I : Interp W E) (K : Control W)

def Point.read (p : Point W E) (v : Value) : Option W :=
  if v.inst?.all (· ∈ p.done) then some (eval I p.st v) else none

def Point.set (p : Point W E) (id : Option InstId) (w : W) : Point W E :=
  ⟨{ p.st with env := setResult p.st.env id (some w) }, id.toList ++ p.done⟩

def Point.exec [DecidableEq W] (p : Point W E) (i : Instr) : Point W E :=
  ⟨Bin2llvm.exec I p.st i, i.id.toList ++ p.done⟩

/-- Where a switch goes. -/
def Control.select (w : W) (d : BlockId) (cs : List (UInt64 × BlockId)) : BlockId :=
  ((cs.find? fun p => K.isCase w p.1).map Prod.snd).getD d

/-- The block `d` is entered. -/
def Config.goto (f : Func) (c : Config W E) (d : BlockId) : Option (Config W E) :=
  (f.blocks.find? fun b => b.id = d).map fun b => ⟨d, b.instrs, c.now, some (c.bb, c.now)⟩

variable [DecidableEq W]

def step (f : Func) (c : Config W E) : Option (Config W E) :=
  match c.code with
  | [] => none
  | i :: is =>
    match i.op with
    | .phi inc => do
      let (pred, p) ← c.edge
      let v ← inc.lookup pred
      let w ← p.read I v
      some { c with code := is, now := c.now.set i.id w }
    | .br d => c.goto f d
    | .condBr v t e => do
      let w ← c.now.read I v
      c.goto f (if K.isTrue w then t else e)
    | .switch v d cs => do
      let w ← c.now.read I v
      c.goto f (K.select w d cs)
    | .ret _ | .unreachable => none
    | op =>
      if op.operands.all fun v => (c.now.read I v).isSome then some { c with code := is, now := c.now.exec I i }
      else none

/-- The first block is entered, and nothing is computed yet. -/
def start (f : Func) (st : State W E) : Option (Config W E) :=
  f.blocks.head?.map fun b => ⟨b.id, b.instrs, ⟨st, []⟩, none⟩

/-- The value an execution that is at its end returns. -/
def outcome (c : Config W E) : Option (Option W) :=
  match c.code with
  | [] => none
  | i :: _ =>
    match i.op with
    | .ret none => some none
    | .ret (some v) => (c.now.read I v).map some
    | _ => none

end

section

variable {W E : Type} {I : Interp W E} {K : Control W} {p : Point W E} {v : Value} {w : W}
variable {f : Func} {c : Config W E} {i : Instr} {is : List Instr}

theorem Point.read_of_leaf (h : v.inst? = none) : p.read I v = some (I.leaf v) := by
  rw [Point.read, h, eval_eq_leaf h]
  rfl

theorem Point.read_inst {k : InstId} : p.read I (.inst k) = some w ↔
    k ∈ p.done ∧ p.st.env k = w := by
  unfold Point.read
  by_cases hk : k ∈ p.done
  · simp [Value.inst?, hk, eval]
  · simp [Value.inst?, hk]

theorem Point.eval_of_read (h : p.read I v = some w) : eval I p.st v = w := by
  unfold Point.read at h
  split_ifs at h
  exact Option.some.inj h

/-- An instruction that is no phi and does not end the block is executed when its operands are there. -/
theorem step_of_plain [DecidableEq W] (hcode : c.code = i :: is) (hphi : ∀ inc, i.op ≠ .phi inc)
    (hterm : i.op.isTerminator = false) : step I K f c =
      if i.op.operands.all fun v => (c.now.read I v).isSome then some { c with code := is, now := c.now.exec I i }
      else none := by
  unfold step
  rw [hcode]
  cases hop : i.op with
  | phi inc => exact absurd hop (hphi inc)
  | br _ | condBr _ _ _ | switch _ _ _ | ret _ | unreachable => rw [hop] at hterm; cases hterm
  | store _ _ | load _ | call _ _ | binop _ _ _ | other _ _ => simp only [hop]

end

end Bin2llvm.Execution
