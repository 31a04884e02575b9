import Bin2llvm.IR
import Bin2llvm.Lib.Sweep

/-!
# Bin2llvm.DeadCode — removing what nothing uses

LLVM's `-dce` removes instructions without side effects whose value is not used, until there are
none left.  Whether a call has side effects is an attribute of its callee, `pure`.
-/

namespace Bin2llvm

/-- Neither a terminator nor `mayHaveSideEffects()`. -/
def Op.sideEffectFree (pure : Value → Bool) : Op → Bool
  | store .. => false
  | call callee _ => pure callee
  | o => !o.isTerminator

/-- Whether the instruction uses the value of `i`. -/
def Instr.uses (user i : Instr) : Bool := i.id.any fun k => decide (.inst k ∈ user.op.operands)

namespace Func

variable (pure : Value → Bool) (f : Func)

/-- An instruction without side effects that only such instructions use. -/
abbrev Dead : Instr → Prop := Sweep.Dead (fun i => i.op.sideEffectFree pure) Instr.uses f.instrs

/-- What is left of the instructions. -/
def isLive : Instr → Bool :=
  Sweep.live (fun i => i.op.sideEffectFree pure) Instr.uses f.instrs f.instrs.length

def dce : Func := f.mapBlocks fun b => { b with instrs := b.instrs.filter (f.isLive pure) }

variable {pure f}

theorem isLive_iff {b : BasicBlock} {i : Instr} (hb : b ∈ f.blocks) (hi : i ∈ b.instrs) :
    f.isLive pure i = true ↔ ¬ f.Dead pure i :=
  Sweep.live_length_iff (List.mem_flatMap.mpr ⟨b, hb, hi⟩)

theorem isLive_of_sideEffect {i : Instr} (h : i.op.sideEffectFree pure = false) :
    f.isLive pure i = true := by
  refine Sweep.live_of_not_dead _ fun hdead => ?_
  obtain ⟨_, hfree, -⟩ := hdead
  exact Bool.false_ne_true (h.symm.trans hfree)

end Func

end Bin2llvm
