import Bin2llvm.Execution
import Bin2llvm.Lib.Run

/-!
# Bin2llvm.Calls — executions of modules

A machine with a stack: a call of a function of the module starts it, and its return goes on behind
the call.  Calls of other functions are calls of helpers, as before.

* `Frame`, `stepCalls`: the machine.
* `stepCalls_inner`, `stepCalls_enter`, `stepCalls_leave`: steps inside a function, at a call and at
  a return.
* `step_mapInstrs`: a function some of whose instructions are replaced.
-/

namespace Bin2llvm.Execution

/-- A function, and where its execution stands. -/
structure Frame (W E : Type) where
  func : Func
  cfg : Config W E

section

variable {W E : Type} (I : Interp W E) (K : Control W)

/-- The function of the module that is called next. -/
def callee (N : Module) (c : Config W E) : Option Func :=
  match c.code with
  | [] => none
  | i :: _ =>
    match i.op with
    | .call (.func name) _ => N.funcs.find? fun g => g.name = name
    | _ => none

/-- The call has returned `w` in the state `st`: the results of the caller are as they were. -/
def Config.resume (c : Config W E) (st : State W E) (w : Option W) : Config W E :=
  match c.code with
  | [] => c
  | i :: is =>
    { c with code := is, now := ⟨{ st with env := setResult c.now.st.env i.id w },
      i.id.toList ++ c.now.done⟩ }

/-- The function on top of the stack is executed; a caller stands at its call. -/
def stepCalls [DecidableEq W] (N : Module) : List (Frame W E) → Option (List (Frame W E))
  | [] => none
  | x :: xs =>
    match callee N x.cfg with
    | some g => (start g x.cfg.now.st).map fun c => ⟨g, c⟩ :: x :: xs
    | none =>
      match step I K x.func x.cfg with
      | some c => some (⟨x.func, c⟩ :: xs)
      | none =>
        match outcome I x.cfg, xs with
        | some w, y :: ys => some ({ y with cfg := y.cfg.resume x.cfg.now.st w } :: ys)
        | _, _ => none

/-- A configuration with its code replaced. -/
def Config.mapCode (g : Instr → Instr) (c : Config W E) : Config W E :=
  { c with code := c.code.map g }

end

section

variable {W E : Type} {I : Interp W E} {K : Control W} {N : Module} {f h : Func} {c d : Config W E}
variable {st : State W E} {i : Instr} {is : List Instr} {xs : List (Config W E)} {y : Frame W E}
variable {ys : List (Frame W E)}

/-- Behind a call without a result. -/
theorem resume_none (hcode : c.code = i :: is) (st : State W E) : c.resume st none =
    { c with code := is, now := ⟨{ st with env := c.now.st.env }, i.id.toList ++ c.now.done⟩ } := by
  have hset : setResult c.now.st.env i.id none = c.now.st.env := by
    cases i.id <;> rfl
  unfold Config.resume
  rw [hcode]
  simp only [hset]

theorem callee_eq_none (hcode : c.code = i :: is) (h : ∀ name vs, i.op ≠ .call (.func name) vs) :
    callee N c = none := by
  unfold callee
  rw [hcode]
  cases hop : i.op with
  | call v vs =>
    cases v with
    | func name => exact absurd hop (h name vs)
    | _ => simp only [hop]
  | _ => simp only [hop]

theorem callee_of_isTerminator (hcode : c.code = i :: is)
    (h : i.op.isTerminator = true) : callee N c = none := by
  refine callee_eq_none hcode fun name vs hop => ?_
  rw [hop] at h
  cases h

variable [DecidableEq W]

theorem stepCalls_inner (hcallee : callee N c = none) (hstep : step I K f c = some d) :
    stepCalls I K N (⟨f, c⟩ :: ys) = some (⟨f, d⟩ :: ys) := by
  simp [stepCalls, hcallee, hstep]

theorem stepCalls_enter (hcallee : callee N c = some h) (hstart : start h c.now.st = some d) :
    stepCalls I K N (⟨f, c⟩ :: ys) = some (⟨h, d⟩ :: ⟨f, c⟩ :: ys) := by
  simp [stepCalls, hcallee, hstart]

theorem stepCalls_leave (hcode : c.code = i :: is) (hop : i.op = .ret none) :
    stepCalls I K N (⟨f, c⟩ :: y :: ys) = some ({ y with cfg := y.cfg.resume c.now.st none } :: ys) := by
  have hcallee : callee N c = none := callee_of_isTerminator hcode (by rw [hop]; rfl)
  simp [stepCalls, hcallee, step, outcome, hcode, hop]

/-! ## Replaced instructions -/

variable {g : Instr → Instr}

omit [DecidableEq W] in
theorem goto_mapInstrs (c : Config W E) (bb : BlockId) :
    (c.mapCode g).goto (f.mapInstrs g) bb = (c.goto f bb).map (Config.mapCode g) := by
  unfold Config.goto Func.mapInstrs
  rw [List.find?_map, Option.map_map, Option.map_map]
  rfl

omit [DecidableEq W] in
theorem start_mapInstrs : start (f.mapInstrs g) st = (start f st).map (Config.mapCode g) := by
  unfold start Func.mapInstrs
  rw [List.head?_map, Option.map_map, Option.map_map]
  rfl

/-- An instruction that stays does what it did. -/
theorem step_mapInstrs (h : ∀ i is, c.code = i :: is → g i = i) :
    step I K (f.mapInstrs g) (c.mapCode g) = (step I K f c).map (Config.mapCode g) := by
  obtain ⟨bb, code, now, edge⟩ := c
  cases code with
  | nil => rfl
  | cons i is =>
    have hi : g i = i := h i is rfl
    have hgoto := fun bb' =>
      goto_mapInstrs (f := f) (g := g) (⟨bb, i :: is, now, edge⟩ : Config W E) bb'
    simp only [step, Config.mapCode, List.map_cons, hi] at hgoto ⊢
    -- the first instruction stays, and with it what it does
    cases hop : i.op with
    | phi inc =>
      cases edge with
      | none => rfl
      | some e =>
        cases hv : inc.lookup e.1 with
        | none => simp [hv]
        | some v => cases hw : e.2.read I v <;> simp [hv, hw, Config.mapCode]
    | br bb' => exact hgoto bb'
    | condBr v t e =>
      cases hw : now.read I v with
      | none => simp [hw]
      | some w => simpa [hw] using hgoto _
    | switch v bb' cs =>
      cases hw : now.read I v with
      | none => simp [hw]
      | some w => simpa [hw] using hgoto _
    | ret _ | unreachable => rfl
    | store _ _ | load _ | call _ _ | binop _ _ _ | other _ _ =>
      simp only
      split_ifs <;> rfl

end

end Bin2llvm.Execution
