import Bin2llvm.BlockPasses
import Bin2llvm.DeadCode
import Bin2llvm.ErasedInstrs

/-!
# Bin2llvm.ErasingPasses — passes that only erase instructions

`S2EDeleteInstructionCount` erases what the emulator does for its own bookkeeping,
`RemoveBranchTrace` the stores of a byte 0 or 1 to a constant address that stand for the trace of
branches.

* `RemoveBranchTrace.runOnFunction`: the pass.
* `RemoveBranchTrace.returns_removeBranchTrace_iff`,
  `S2EDeleteInstructionCount.returns_deleteInstructionCount_iff`: functions return what they
  returned.
-/

namespace Bin2llvm

open Execution

section

variable {W E : Type} [DecidableEq W] {I : Interp W E} {K : Control W} {A : W → Prop}
variable {erased : Instr → Bool} {f : Func} {i : Instr} {v p : Value}

/-- A store to an address in question. -/
theorem silent_store (hop : i.op = .store v p) (hp : p.inst? = none)
    (hA : A (I.leaf p)) : Silent I A i := by
  refine ⟨by rw [hop]; rfl, fun st a ha => ?_, fun st => ?_⟩
  · unfold exec usesOf
    rw [hop]
    show Function.update st.mem (eval I st p) (eval I st v) a = st.mem a
    rw [eval_eq_leaf hp]
    exact Function.update_of_ne (fun h : a = I.leaf p => ha (h ▸ hA)) _ _
  · unfold exec usesOf
    rw [hop]
    rfl

/-- A call that does nothing but compute a value. -/
theorem silent_call {callee : Value} {args : List Value} (hop : i.op = .call callee args)
    (hcallee : callee.inst? = none)
    (hcall : ∀ vs m e, (I.call (vs ++ [I.leaf callee]) m e).2 = (m, e)) : Silent I A i := by
  have hexec : ∀ st : State W E, ((exec I st i).mem, (exec I st i).ext) = (st.mem, st.ext) := by
    intro st
    unfold exec usesOf
    rw [hop]
    show (I.call ((args ++ [callee]).map (eval I st)) st.mem st.ext).2 = _
    rw [List.map_append, List.map_singleton, eval_eq_leaf hcallee]
    exact hcall _ _ _
  exact ⟨by rw [hop]; rfl, fun st a _ => congrFun (Prod.mk.inj (hexec st)).1 a,
    fun st => (Prod.mk.inj (hexec st)).2⟩

theorem erasable_of_unused (hsilent : ∀ i ∈ f.instrs, erased i = true → Silent I A i)
    (hload : ∀ i ∈ f.instrs, erased i = true → ∀ p, i.op ≠ .load p)
    (hunused : ∀ s ∈ f.instrs, erased s = true → ∀ i ∈ f.instrs, i.uses s = false) :
    Erasable I A erased f where
  silent := hsilent
  loads i hi he p hp := absurd hp (hload i hi he p)
  unused i hi _ v hv k hk := by
    rintro ⟨s, hs, hse, hid⟩
    have hno := hunused s hs hse i hi
    subst hk
    simp [Instr.uses, hid, hv] at hno

end

namespace RemoveBranchTrace

/-- A store of 0 or 1 through an `i8*` that is a constant cast.  What is stored has the type the
pointer points to. -/
def isTrace (ins : Instr) : Bool :=
  match ins.op with
  | .store (.constInt 8 val) (.constCast _) => val == 0 || val == 1
  | _ => false

/-- The second component says whether something was erased. -/
def runOnFunction (F : Func) : Func × Bool := (eraseIf isTrace F, F.instrs.any isTrace)

theorem exists_store_of_isTrace {ins : Instr} (h : isTrace ins = true) :
    ∃ val q, ins.op = .store (.constInt 8 val) (.constCast q) := by
  unfold isTrace at h
  split at h
  · next val q hop => exact ⟨val, q, hop⟩
  · cases h

variable {W E : Type}

/-- The addresses of the trace. -/
def AtTrace (I : Interp W E) (F : Func) (a : W) : Prop :=
  ∃ ins ∈ F.instrs, isTrace ins = true ∧ ∃ v p, ins.op = .store v p ∧ a = I.leaf p

variable [DecidableEq W] {I : Interp W E} {K : Control W} {F : Func} {st : State W E}
variable {o : Option W} {m : W → W} {e : E}

theorem erasable (hunused : ∀ s ∈ F.instrs, isTrace s = true → ∀ i ∈ F.instrs, i.uses s = false) :
    Erasable I (AtTrace I F) isTrace F := by
  refine erasable_of_unused (fun i hi ht => ?_) (fun i hi ht p hp => ?_) hunused
  · obtain ⟨val, q, hop⟩ := exists_store_of_isTrace ht
    exact silent_store hop rfl ⟨i, hi, ht, _, _, hop, rfl⟩
  · obtain ⟨val, q, hop⟩ := exists_store_of_isTrace ht
    rw [hop] at hp
    cases hp

/-- A store of the trace can always be executed. -/
theorem unstuck {c₀ : Config W E} (hc₀ : start F st = some c₀) : Unstuck I K isTrace F c₀ := by
  refine unstuck_of_leaves (fun i _ ht inc hop => ?_) (fun i _ ht =>
    ?_) (fun i _ ht v hv => ?_) hc₀ <;> obtain ⟨val, q, hop'⟩ := exists_store_of_isTrace ht
  · rw [hop] at hop'
    cases hop'
  · rw [hop']
    rfl
  · rw [hop'] at hv
    rcases List.mem_pair.mp hv with rfl | rfl <;> rfl

/-- **Without the trace a function returns when it returned**, with the same value, memory and
world, in executions that do not look at the trace. -/
theorem returns_removeBranchTrace_iff (hcalls : CallsIgnore I (AtTrace I F))
    (hunused : ∀ s ∈ F.instrs, isTrace s = true → ∀ i ∈ F.instrs, i.uses s = false) :
    Returns I K (AtTrace I F) (runOnFunction F).1 st o m e ↔ Returns I K (AtTrace I F) F st o m e :=
  returns_eraseIf_iff hcalls (erasable hunused) fun _ hc₀ => unstuck hc₀

/-- A branch is traced, and a register is written. -/
def traced : Func := ⟨"void-tcg-llvm-tb-0-8000", [⟨0, "entry", [
  ⟨some 1, .store (.constInt 8 1) (.constCast (.constInt 64 0x1000)), []⟩,
  ⟨some 2, .store (.arg 0) (.global "R0"), []⟩, ⟨none, .ret (some (.arg 0)), []⟩]⟩]⟩

open RemoveExtraStoreToPC (valueInterp cleared)

/-- It returns its argument, without the trace too. -/
theorem returns_traced : (runOnFunction traced).2 = true ∧ Returns valueInterp ⟨fun _ => true,
    fun _ _ => true⟩ (AtTrace valueInterp traced) (runOnFunction traced).1 cleared (some (.arg 0))
      (Function.update cleared.mem (.global "R0") (.arg 0)) () := by
  refine ⟨by decide,
    (returns_removeBranchTrace_iff (fun _ _ _ _ h => ⟨rfl, h, rfl⟩) (by decide)).mpr ?_⟩
  refine ⟨_, [_, _], _, rfl, .head rfl (.head rfl (.refl _)), ?_, rfl, fun a ha => ?_, rfl⟩
  · rintro d hd i is p hcode hop
    rcases List.mem_pair.mp hd with rfl | rfl <;> (cases hcode; cases hop)
  · have hne : a ≠ .constCast (.constInt 64 0x1000) := fun h =>
      ha ⟨_, List.mem_cons_self, rfl, _, _, rfl, h⟩
    show Function.update (Function.update cleared.mem (.constCast (.constInt 64 0x1000))
      (.constInt 8 1)) (.global "R0")
      (.arg 0) a = Function.update cleared.mem (.global "R0") (.arg 0) a
    by_cases hR0 : a = .global "R0"
    · rw [hR0, Function.update_self, Function.update_self]
    · rw [Function.update_of_ne hR0, Function.update_of_ne hR0, Function.update_of_ne hne]

end RemoveBranchTrace

namespace S2EDeleteInstructionCount

def counters : List String := ["s2e_icount", "s2e_current_tb", "s2e_icount_before_tb"]

theorem isErased_cases {ins : Instr} (h : isErased ins = some true) :
    (∃ v, ∃ g ∈ counters, ins.op = .store v (.global g)) ∨
      ∃ args, ins.op = .call (.func "helper_s2e_tcg_execution_handler") args := by
  unfold isErased at h
  split at h
  · next v g hop => exact .inl ⟨v, g, by simpa [counters] using h, hop⟩
  · next name args hop => exact .inr ⟨args, by rw [hop]; simpa using h⟩
  · cases h
  · cases h

def isErasable (ins : Instr) : Bool := isErased ins = some true

variable {W E : Type}

/-- The addresses of the counters. -/
def AtCounter (I : Interp W E) (a : W) : Prop := ∃ g ∈ counters, a = I.leaf (.global g)

variable [DecidableEq W] {I : Interp W E} {K : Control W} {f f' : Func} {st : State W E}
variable {o : Option W} {m : W → W} {e : E}

theorem runOnFunction_eq (h : runOnFunction f = some f') : f' = eraseIf isErasable f := by
  unfold runOnFunction at h
  split_ifs at h with hall
  obtain rfl := Option.some.inj h
  have hfilter : ∀ b ∈ f.blocks, b.instrs.filter (fun ins => isErased ins = some false) =
      b.instrs.filter fun ins => !isErasable ins := by
    intro b hb
    refine List.filter_congr fun ins hins => ?_
    have hsome := List.all_eq_true.mp hall ins (List.mem_flatMap.mpr ⟨b, hb, hins⟩)
    obtain ⟨c, hc⟩ := Option.isSome_iff_exists.mp hsome
    cases c <;> simp [isErasable, hc]
  unfold eraseIf Func.mapBlocks
  exact congrArg (Func.mk f.name) (List.map_congr_left fun b hb => by rw [hfilter b hb])

theorem erasable
    (hhandler : ∀ vs m e, (I.call (vs ++ [I.leaf (.func "helper_s2e_tcg_execution_handler")]) m
      e).2 = (m, e))
    (hunused : ∀ s ∈ f.instrs, isErasable s = true → ∀ i ∈ f.instrs, i.uses s = false) :
    Erasable I (AtCounter I) isErasable f := by
  refine erasable_of_unused (fun i _ ht => ?_) (fun i _ ht p hp => ?_) hunused
  · rcases isErased_cases (of_decide_eq_true ht) with ⟨v, g, hg, hop⟩ | ⟨args, hop⟩
    · exact silent_store hop rfl ⟨g, hg, rfl⟩
    · exact silent_call hop rfl hhandler
  · rcases isErased_cases (of_decide_eq_true ht) with ⟨v, g, hg, hop⟩ | ⟨args, hop⟩ <;>
      (rw [hop] at hp; cases hp)

/-- **Without the bookkeeping a function returns when it returned**, with the same value, memory and
world, in executions that do not look at the counters. -/
theorem returns_deleteInstructionCount_iff (h : runOnFunction f = some f')
    (hcalls : CallsIgnore I (AtCounter I))
    (hhandler : ∀ vs m e, (I.call (vs ++ [I.leaf (.func "helper_s2e_tcg_execution_handler")]) m
      e).2 = (m, e))
    (hunused : ∀ s ∈ f.instrs, isErasable s = true → ∀ i ∈ f.instrs, i.uses s = false)
    (hready : ∀ c₀, start f st = some c₀ → Unstuck I K isErasable f c₀) :
    Returns I K (AtCounter I) f' st o m e ↔ Returns I K (AtCounter I) f st o m e :=
  runOnFunction_eq h ▸ returns_eraseIf_iff hcalls (erasable hhandler hunused) hready

/-- The instruction counter is stored, and the handler is called. -/
def counted : Func :=
  ⟨"void-tcg-llvm-tb-0-8000", [⟨0, "entry", [⟨some 1, .store (.arg 0) (.global "s2e_icount"), []⟩,
  ⟨some 2, .call (.func "helper_s2e_tcg_execution_handler") [.constInt 64 0x8000], []⟩,
  ⟨none, .ret (some (.arg 0)), []⟩]⟩]⟩

open RemoveExtraStoreToPC (valueInterp cleared)

theorem returns_counted : ∃ f', runOnFunction counted = some f' ∧ Returns valueInterp
    ⟨fun _ => true, fun _ _ => true⟩ (AtCounter valueInterp) f' cleared (some (.arg 0))
    cleared.mem () := by
  obtain ⟨f', hf'⟩ := Option.isSome_iff_exists.mp (show (runOnFunction counted).isSome =
    true by decide)
  refine ⟨f', hf', (returns_deleteInstructionCount_iff hf' (fun _ _ _ _ h => ⟨rfl, h, rfl⟩)
    (fun _ _ _ => rfl) (by decide) fun c₀ => unstuck_of_leaves ?_ (by decide) (by decide)).mpr ?_⟩
  · intro i hi ht inc hop
    rcases isErased_cases (of_decide_eq_true ht) with ⟨v, g, -, hop'⟩ | ⟨args, hop'⟩ <;>
      (rw [hop] at hop'; cases hop')
  · refine ⟨_, [_, _], _, rfl, .head rfl (.head rfl (.refl _)), ?_, rfl, fun a ha => ?_, rfl⟩
    · rintro d hd i is p hcode hop
      rcases List.mem_pair.mp hd with rfl | rfl <;> (cases hcode; cases hop)
    · have hne : a ≠ .global "s2e_icount" := fun h => ha ⟨_, List.mem_cons_self, h⟩
      exact Function.update_of_ne hne _ _

end S2EDeleteInstructionCount

end Bin2llvm
