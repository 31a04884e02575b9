import Bin2llvm.IR
import Mathlib.Logic.Function.Basic

/-!
# Bin2llvm.Semantics — what blocks compute

An execution of straight-line code over arbitrary words: instructions read their operands, loads and
stores go through addresses, and a call does with the memory and the rest of the world whatever the
interpretation says.

* `Interp`, `State`: interpretations and states.
* `exec`, `run`, `uses`: one instruction, a list of instructions, and the operand values it reads on
  the way.
* `exec_mapValues`: an instruction whose rewritten operands have the old values does what it did.
-/

namespace Bin2llvm

/-- What instructions mean.  A leaf is an operand that no instruction computes; a call gets the
values of its operands, the callee last. -/
structure Interp (W E : Type) where
  leaf : Value → W
  binop : BinOp → W → W → W
  other : ℕ → List W → W
  call : List W → (W → W) → E → W × (W → W) × E
  global_inj : ∀ g h, leaf (.global g) = leaf (.global h) → g = h

/-- The results of instructions, the memory, and the rest of the world. -/
structure State (W E : Type) where
  env : InstId → W
  mem : W → W
  ext : E

section

variable {W E : Type} (I : Interp W E)

def eval (st : State W E) : Value → W
  | .inst k => st.env k
  | v => I.leaf v

/-- The values an instruction reads. -/
def usesOf (st : State W E) (i : Instr) : List W := i.op.operands.map (eval I st)

variable [DecidableEq W]

/-- The result, the memory and the world after an operation on the values of its operands. -/
def effect (op : Op) (vs : List W) (st : State W E) : Option W × (W → W) × E :=
  match op, vs with
  | .store _ _, [v, p] => (none, Function.update st.mem p v, st.ext)
  | .load _, [p] => (some (st.mem p), st.mem, st.ext)
  | .call _ _, vs => let r := I.call vs st.mem st.ext; (some r.1, r.2.1, r.2.2)
  | .binop o _ _, [a, b] => (some (I.binop o a b), st.mem, st.ext)
  | .other n _, vs => (some (I.other n vs), st.mem, st.ext)
  | _, _ => (none, st.mem, st.ext)

/-- The results of instructions after one of identity `id` with the given result. -/
def setResult (env : InstId → W) (id : Option InstId) (r : Option W) : InstId → W :=
  match id, r with
  | some k, some w => Function.update env k w
  | _, _ => env

def exec (st : State W E) (i : Instr) : State W E :=
  let r := effect I i.op (usesOf I st i) st
  ⟨setResult st.env i.id r.1, r.2.1, r.2.2⟩

def run (st : State W E) (is : List Instr) : State W E := is.foldl (exec I) st

/-- The values the instructions read, one after the other. -/
def uses : State W E → List Instr → List (List W)
  | _, [] => []
  | st, i :: is => usesOf I st i :: uses (exec I st i) is

end

variable {W E : Type} {I : Interp W E} {st st' : State W E} {i : Instr} {v : Value}

theorem eval_eq_leaf (h : v.inst? = none) : eval I st v = I.leaf v := by
  cases v <;> first | rfl | simp [Value.inst?] at h

theorem eval_congr (h : ∀ k, v = .inst k → st.env k = st'.env k) : eval I st v = eval I st' v := by
  cases v with
  | inst k => exact h k rfl
  | _ => rfl

theorem setResult_of_ne {env : InstId → W} {id : Option InstId} {k : InstId} (h : id ≠ some k)
    (r : Option W) : setResult env id r k = env k := by
  cases id with
  | none => rfl
  | some j =>
    cases r with
    | none => rfl
    | some w => exact Function.update_of_ne (fun hk => h (congrArg some hk.symm)) _ _

theorem setResult_congr {env env' : InstId → W} {id : Option InstId} {k : InstId}
    (h : env' k = env k) (r : Option W) : setResult env' id r k = setResult env id r k := by
  cases id with
  | none => exact h
  | some j =>
    cases r with
    | none => exact h
    | some w =>
      rcases eq_or_ne k j with rfl | hne
      · simp [setResult]
      · simpa [setResult, Function.update_of_ne hne] using h

variable [DecidableEq W]

/-- Operations look at the values of their operands only. -/
theorem effect_mapValues (σ : Value → Value) (op : Op) (vs : List W) (st : State W E) :
    effect I (op.mapValues σ) vs st = effect I op vs st := by
  cases op <;> rcases vs with _ | ⟨a, _ | ⟨b, _ | ⟨c, vs⟩⟩⟩ <;> rfl

/-- Operations look at the memory and the world only. -/
theorem effect_congr (op : Op) (vs : List W) (hmem : st'.mem = st.mem) (hext : st'.ext = st.ext) :
    effect I op vs st' = effect I op vs st := by
  unfold effect
  rw [hmem, hext]

theorem exec_mapValues {σ : Value → Value}
    (h : ∀ v ∈ i.op.operands, eval I st (σ v) = eval I st v) :
    usesOf I st (i.mapValues σ) = usesOf I st i ∧ exec I st (i.mapValues σ) = exec I st i := by
  have huses : usesOf I st (i.mapValues σ) = usesOf I st i := by
    unfold usesOf
    rw [Instr.op_mapValues, Op.operands_mapValues, List.map_map]
    exact List.map_congr_left h
  refine ⟨huses, ?_⟩
  unfold exec
  rw [huses, Instr.op_mapValues, effect_mapValues, Instr.id_mapValues]

theorem exec_eq_of_uses {σ : Value → Value} (h : usesOf I st (i.mapValues σ) = usesOf I st i) :
    exec I st (i.mapValues σ) = exec I st i := by
  unfold exec
  rw [h, Instr.op_mapValues, effect_mapValues, Instr.id_mapValues]

/-- Other results stay. -/
theorem env_exec_of_ne {k : InstId} (h : i.id ≠ some k) : (exec I st i).env k = st.env k :=
  setResult_of_ne h _

theorem eval_exec_of_ne (h : ∀ k, v = .inst k → i.id ≠ some k) :
    eval I (exec I st i) v = eval I st v :=
  eval_congr fun k hk => env_exec_of_ne (h k hk)

@[simp] theorem run_nil : run I st [] = st := rfl

@[simp] theorem run_cons (is : List Instr) : run I st (i :: is) = run I (exec I st i) is := rfl

theorem run_append (is js : List Instr) : run I st (is ++ js) = run I (run I st is) js := by
  unfold run
  rw [List.foldl_append]

theorem run_take_succ {is : List Instr} {m : ℕ} (h : is[m]? = some i) :
    run I st (is.take (m + 1)) = exec I (run I st (is.take m)) i := by
  rw [List.take_add_one, h, run_append]
  rfl

theorem uses_getElem? (is : List Instr) (m : ℕ) :
    (uses I st is)[m]? = (is[m]?).map (usesOf I (run I st (is.take m))) := by
  induction is generalizing st m with
  | nil => simp [uses]
  | cons i is ih =>
    cases m with
    | zero => simp [uses]
    | succ m => simpa [uses] using ih m

end Bin2llvm
