import Bin2llvm.EnvPointers
import Bin2llvm.ErasedInstrs

/-!
# Bin2llvm.EnvExecutions — executions after `S2ETransformPass`

Where the globals are placed at the addresses they are named after, a function does after the pass
what it did before.

* `CpuLayout`, `EnvStored`: where the CPU state is.
* `Holds`: pointers to the CPU state hold its addresses, in every execution.
* `Beside`: an execution of the function, and one of the function after the pass.
* `beside_step`: a step on one side is at most two on the other.
* `runOnFunction_simulates`: whole executions.
-/

namespace Bin2llvm.S2ETransformPass

open Execution

section

variable {W E Ty : Type} (I : Interp W E) (T : TypeInfo Ty) (f : Func) (addr : UInt64 → W)

/-- `addr` has the addresses in the CPU state.  The globals are placed there, and an instruction the
pass follows computes the address the pass takes it to compute. -/
structure CpuLayout : Prop where
  named : ∀ p, T.getName p = "env" → p.inst? = none
  global : ∀ ins ∈ f.instrs, ∀ ptr offset, (ins.op = .load ptr ∨ ∃ v, ins.op = .store v ptr) →
    EnvPtr T f ptr offset → I.leaf (.global (getGlobalName offset.toUInt32)) = addr offset
  constCast : ∀ g, I.leaf (.constCast (.global g)) = I.leaf (.global g)
  castArg : ∀ ins ∈ f.instrs, ∀ opcode v, ins.op = .other opcode [v] →
    isCast opcode = true → ArgPtr f v → I.other opcode [I.leaf (.arg 0)] = I.leaf (.arg 0)
  gepArg : ∀ ins ∈ f.instrs, ∀ v width, ins.op = .other GetElementPtr [v, .constInt width 0] →
    ArgPtr f v →
    I.other GetElementPtr [I.leaf (.arg 0), I.leaf (.constInt width 0)] = I.leaf (.arg 0)
  cast : ∀ ins ∈ f.instrs, ∀ opcode v offset, ins.op = .other opcode [v] → isCast opcode = true →
    EnvPtr T f v offset → I.other opcode [addr offset] = addr offset
  add : ∀ ins ∈ f.instrs, ∀ v width val offset, ins.op = .binop .add v (.constInt width val) →
    EnvPtr T f v offset →
    I.binop .add (addr offset) (I.leaf (.constInt width val)) =
    addr (offset + getSExtValue width val)
  gep : ∀ ins ∈ f.instrs, ∀ k v indices total offset, ins.id = some k →
    ins.op = .other GetElementPtr (v :: indices) →
    gepTotal (indices.zip (T.indexTypes k)) = some total → EnvPtr T f v offset →
    I.other GetElementPtr (addr offset :: indices.map I.leaf) = addr (offset + total)

/-- The environment pointer is where the function loads it from. -/
structure EnvStored (m : W → W) : Prop where
  arg : m (I.leaf (.arg 0)) = addr 0
  named : ∀ p, T.getName p = "env" → m (I.leaf p) = addr 0
  cpuState : m (I.leaf (.global "CPUSTATE")) = I.leaf (.arg 0)

/-- What is computed of the pointers. -/
structure Holds (p : Point W E) : Prop where
  fresh : freshInstId f ∉ p.done
  arg : ∀ k ∈ p.done, ArgPtr f (.inst k) → p.st.env k = I.leaf (.arg 0)
  env : ∀ k ∈ p.done, ∀ offset, EnvPtr T f (.inst k) offset → p.st.env k = addr offset

end

/-! ## What computes a pointer -/

section

variable {Ty : Type} {T : TypeInfo Ty} {f : Func} {ins : Instr} {k : InstId} {offset : UInt64}

theorem ArgPtr.cases_inst (hids : (f.instrs.filterMap Instr.id).Nodup) (hins : ins ∈ f.instrs)
    (hid : ins.id = some k) (h : ArgPtr f (.inst k)) :
    (∃ opcode v, ins.op = .other opcode [v] ∧ isCast opcode = true ∧ ArgPtr f v) ∨
      ∃ v width, ins.op = .other GetElementPtr [v, .constInt width 0] ∧ ArgPtr f v := by
  cases h with
  | cast hins' hid' hop hcast h =>
    obtain rfl := Lists.eq_of_key hids hins hins' hid hid'
    exact .inl ⟨_, _, hop, hcast, h⟩
  | gep hins' hid' hop h =>
    obtain rfl := Lists.eq_of_key hids hins hins' hid hid'
    exact .inr ⟨_, _, hop, h⟩

theorem EnvPtr.cases_inst (hids : (f.instrs.filterMap Instr.id).Nodup) (hins : ins ∈ f.instrs)
    (hid : ins.id = some k) (h : EnvPtr T f (.inst k) offset) :
    (∃ p, ins.op = .load p ∧ (ArgPtr f p ∨ T.getName p = "env") ∧ offset = 0) ∨
      (∃ opcode v, ins.op = .other opcode [v] ∧ isCast opcode = true ∧ EnvPtr T f v offset) ∨
      (∃ v width val o, ins.op = .binop .add v (.constInt width val) ∧ EnvPtr T f v o ∧
        offset = o + getSExtValue width val) ∨
      ∃ v indices total o, ins.op = .other GetElementPtr (v :: indices) ∧
        gepTotal (indices.zip (T.indexTypes k)) = some total ∧ EnvPtr T f v o ∧
        offset = o + total := by
  cases h with
  | load hins' hid' hop h =>
    obtain rfl := Lists.eq_of_key hids hins hins' hid hid'
    exact .inl ⟨_, hop, h, rfl⟩
  | cast hins' hid' hop hcast h =>
    obtain rfl := Lists.eq_of_key hids hins hins' hid hid'
    exact .inr (.inl ⟨_, _, hop, hcast, h⟩)
  | add hins' hid' hop h =>
    obtain rfl := Lists.eq_of_key hids hins hins' hid hid'
    exact .inr (.inr (.inl ⟨_, _, _, _, hop, h, rfl⟩))
  | gep hins' hid' hop htotal h =>
    obtain rfl := Lists.eq_of_key hids hins hins' hid hid'
    exact .inr (.inr (.inr ⟨_, _, _, _, hop, htotal, h, rfl⟩))

/-- What computes an address is a load, an addition, or an operation without effects. -/
theorem Address.op_cases (hids : (f.instrs.filterMap Instr.id).Nodup) (hins : ins ∈ f.instrs)
    (hid : ins.id = some k) (h : Address T f k) :
    (∃ p, ins.op = .load p) ∨ (∃ a b, ins.op = .binop .add a b) ∨
      ∃ opcode args, ins.op = .other opcode args := by
  rcases h with h | ⟨offset, h⟩
  · rcases h.cases_inst hids hins hid with ⟨_, _, hop, -⟩ | ⟨_, _, hop, -⟩ <;>
      exact .inr (.inr ⟨_, _, hop⟩)
  · rcases h.cases_inst hids hins hid with ⟨_, hop, -⟩ | ⟨_, _, hop, -⟩ | ⟨_, _, _, _, hop, -⟩ |
      ⟨_, _, _, _, hop, -⟩
    · exact .inl ⟨_, hop⟩
    · exact .inr (.inr ⟨_, _, hop⟩)
    · exact .inr (.inl ⟨_, _, hop⟩)
    · exact .inr (.inr ⟨_, _, hop⟩)

end

/-! ## Pointers hold addresses -/

section

variable {W E Ty : Type} {I : Interp W E} {K : Control W} {T : TypeInfo Ty} {f : Func}
variable {addr : UInt64 → W} {p q : Point W E} {v : Value} {w : W} {offset : UInt64} {i : Instr}
variable {c d : Config W E}

theorem holds_nil (st : State W E) : Holds I T f addr ⟨st, []⟩ :=
  ⟨List.not_mem_nil, fun _ hk => absurd hk List.not_mem_nil, fun _ hk => absurd hk List.not_mem_nil⟩

namespace Holds

theorem eq_leaf (h : Holds I T f addr p) (hv : ArgPtr f v) (hw : p.read I v = some w) :
    w = I.leaf (.arg 0) := by
  cases hv with
  | arg =>
    rw [Point.read_of_leaf rfl] at hw
    exact (Option.some.inj hw).symm
  | cast hins hid hop hcast hv =>
    obtain ⟨hk, rfl⟩ := Point.read_inst.mp hw
    exact h.arg _ hk (.cast hins hid hop hcast hv)
  | gep hins hid hop hv =>
    obtain ⟨hk, rfl⟩ := Point.read_inst.mp hw
    exact h.arg _ hk (.gep hins hid hop hv)

theorem eq_addr (h : Holds I T f addr p) (hv : EnvPtr T f v offset)
    (hw : p.read I v = some w) : w = addr offset := by
  obtain ⟨k, rfl⟩ := hv.exists_inst
  obtain ⟨hk, rfl⟩ := Point.read_inst.mp hw
  exact h.env k hk offset hv

/-- One more result. -/
theorem grow (h : Holds I T f addr p) (hi : i ∈ f.instrs) (hdone : q.done = i.id.toList ++ p.done)
    (hother : ∀ k, i.id ≠ some k → q.st.env k = p.st.env k)
    (harg : ∀ k, i.id = some k → ArgPtr f (.inst k) → q.st.env k = I.leaf (.arg 0))
    (henv : ∀ k, i.id = some k → ∀ offset, EnvPtr T f (.inst k) offset → q.st.env k = addr offset) :
    Holds I T f addr q := by
  have hcases : ∀ k ∈ q.done, i.id = some k ∨ i.id ≠ some k ∧ k ∈ p.done := by
    intro k hk
    by_cases hid : i.id = some k
    · exact .inl hid
    · rw [hdone] at hk
      exact .inr ⟨hid, (List.mem_append.mp hk).resolve_left fun hk => hid (Option.mem_toList.mp hk)⟩
  refine ⟨fun hk => ?_, fun k hk hv => ?_, fun k hk offset hv => ?_⟩
  · rcases hcases _ hk with hid | ⟨-, hk⟩
    · exact (lt_freshInstId hi hid).ne rfl
    · exact h.fresh hk
  · rcases hcases k hk with hid | ⟨hid, hk⟩
    · exact harg k hid hv
    · exact (hother k hid).trans (h.arg k hk hv)
  · rcases hcases k hk with hid | ⟨hid, hk⟩
    · exact henv k hid offset hv
    · exact (hother k hid).trans (h.env k hk offset hv)

variable [DecidableEq W]

/-- The result of an instruction without effects. -/
theorem env_exec_other {k : InstId} {opcode : ℕ} {args : List Value} (hid : i.id = some k)
    (hop : i.op = .other opcode args) :
    (p.exec I i).st.env k = I.other opcode (args.map (eval I p.st)) := by
  simp [Point.exec, exec, effect, usesOf, hid, hop, Op.operands, setResult]

variable (L : CpuLayout I T f addr) (hwt : WellTyped T f)
variable (hids : (f.instrs.filterMap Instr.id).Nodup)
include L hids

theorem exec_arg (h : Holds I T f addr p) (hi : i ∈ f.instrs) {k : InstId} (hid : i.id = some k)
    (hread : ∀ v ∈ i.op.operands, ∃ w, p.read I v = some w) (hk : ArgPtr f (.inst k)) :
    (p.exec I i).st.env k = I.leaf (.arg 0) := by
  have heval : ∀ v ∈ i.op.operands, ArgPtr f v → eval I p.st v = I.leaf (.arg 0) := by
    intro v hv hptr
    obtain ⟨w, hw⟩ := hread v hv
    exact (Point.eval_of_read hw).trans (h.eq_leaf hptr hw)
  rcases hk.cases_inst hids hi hid with ⟨opcode, v, hop, hcast, hv⟩ | ⟨v, width, hop, hv⟩
  · rw [env_exec_other hid hop, List.map_singleton, heval v (by simp [hop, Op.operands]) hv]
    exact L.castArg i hi opcode v hop hcast hv
  · rw [env_exec_other hid hop, List.map_cons, List.map_singleton,
      heval v (by simp [hop, Op.operands]) hv]
    exact L.gepArg i hi v width hop hv

include hwt

theorem exec_env (h : Holds I T f addr p) (hm : EnvStored I T addr p.st.mem)
    (hi : i ∈ f.instrs) {k : InstId} (hid : i.id = some k)
    (hread : ∀ v ∈ i.op.operands, ∃ w, p.read I v = some w) (hk : EnvPtr T f (.inst k) offset) :
    (p.exec I i).st.env k = addr offset := by
  have heval : ∀ v ∈ i.op.operands, ∀ o, EnvPtr T f v o → eval I p.st v = addr o := by
    intro v hv o hptr
    obtain ⟨w, hw⟩ := hread v hv
    exact (Point.eval_of_read hw).trans (h.eq_addr hptr hw)
  rcases hk.cases_inst hids hi hid with ⟨ptr, hop, hptr, rfl⟩ | ⟨opcode, v, hop, hcast, hv⟩ |
    ⟨v, width, val, o, hop, hv, rfl⟩ | ⟨v, indices, total, o, hop, htotal, hv, rfl⟩
  · have hmem : (p.exec I i).st.env k = p.st.mem (eval I p.st ptr) := by
      simp [Point.exec, exec, effect, usesOf, hid, hop, Op.operands, setResult]
    rw [hmem]
    rcases hptr with hptr | hname
    · obtain ⟨w, hw⟩ := hread ptr (by simp [hop, Op.operands])
      rw [Point.eval_of_read hw, h.eq_leaf hptr hw]
      exact hm.arg
    · rw [eval_eq_leaf (L.named ptr hname)]
      exact hm.named ptr hname
  · rw [env_exec_other hid hop, List.map_singleton, heval v (by simp [hop, Op.operands]) offset hv]
    exact L.cast i hi opcode v offset hop hcast hv
  · have hadd : (p.exec I i).st.env k = I.binop .add (eval I p.st v)
        (I.leaf (.constInt width val)) := by
      simp [Point.exec, exec, effect, usesOf, hid, hop, Op.operands, setResult, eval]
    rw [hadd, heval v (by simp [hop, Op.operands]) o hv]
    exact L.add i hi v width val o hop hv
  · have hconst := inst?_of_index hwt hi hid hop htotal
    rw [env_exec_other hid hop, List.map_cons, heval v (by simp [hop, Op.operands]) o hv,
      List.map_congr_left fun u hu => eval_eq_leaf (hconst u hu)]
    exact L.gep i hi k v indices total o hid hop htotal hv

/-- **Pointers hold addresses after a step.** -/
theorem step (h : Holds I T f addr c.now) (hm : EnvStored I T addr c.now.st.mem)
    (hsub : ∀ i ∈ c.code, i ∈ f.instrs) (hstep : Execution.step I K f c = some d) :
    Holds I T f addr d.now := by
  cases hcode : c.code with
  | nil => simp [Execution.step, hcode] at hstep
  | cons i is =>
    have hi : i ∈ f.instrs := hsub i (by rw [hcode]; exact List.mem_cons_self)
    rcases cases_of_step hcode hstep with ⟨-, bb, hgoto⟩ |
      ⟨inc, pred, p, v, w, hop, -, -, -, rfl⟩ | ⟨hread, -, rfl⟩
    · obtain ⟨b, -, rfl⟩ := Option.map_eq_some_iff.mp hgoto
      exact h
    · -- a phi computes no pointer
      refine h.grow hi rfl (fun k hk => setResult_of_ne hk _) (fun k hid hk =>
        ?_) fun k hid offset hk => ?_
      · rcases hk.cases_inst hids hi hid with ⟨_, _, hop', -⟩ | ⟨_, _, hop', -⟩ <;>
          simp [hop] at hop'
      · rcases hk.cases_inst hids hi hid with ⟨_, hop', -⟩ | ⟨_, _, hop', -⟩ |
          ⟨_, _, _, _, hop', -⟩ | ⟨_, _, _, _, hop', -⟩ <;> simp [hop] at hop'
    · exact h.grow hi rfl (fun k hk => env_exec_of_ne hk) (fun k hid hk =>
        h.exec_arg L hids hi hid hread hk)
        fun k hid offset hk => h.exec_env L hwt hids hm hi hid hread hk

end Holds

end

/-! ## The function after the pass -/

section

variable {Ty : Type} {T : TypeInfo Ty} {f f' : Func} {U : UseLists f} (R : Transformed T U f')

/-- The value that stands for an operand. -/
abbrev newValue (f : Func) : Value → Value := replaceValue (.arg 0) (.inst (freshInstId f))

namespace Transformed

def newIns (ins : Instr) : Option Instr := S2ETransformPass.newIns R.final (freshInstId f) ins

def newCode (is : List Instr) : List Instr := is.filterMap R.newIns

def loadIns : Instr := ⟨some (freshInstId f), .load R.globalEnv, []⟩

/-- The load comes behind the phis. -/
def withLoad (is : List Instr) : List Instr :=
  is.takeWhile Instr.isPhi ++ R.loadIns :: is.dropWhile Instr.isPhi

/-- The results that are others after the pass, or not there. -/
def Differs (k : InstId) : Prop := Gone R.final k ∨ k = freshInstId f

variable {R} {ins : Instr} {k : InstId} {bb : BlockId} {b : BasicBlock}

theorem cases_newIns (ins : Instr) :
    (∃ k, ins.id = some k ∧ Gone R.final k ∧ R.newIns ins = none) ∨
    (∃ k ptr, ins.id = some k ∧ R.final.replaceMap.lookup k = some ptr ∧ R.newIns ins =
      some ⟨ins.id, withPointer ptr (ins.op.mapValues (newValue f)), []⟩) ∨
    (∀ k, ins.id = some k → k ∉ R.final.eraseList) ∧
      R.newIns ins = some (ins.mapValues (newValue f)) := by
  unfold newIns S2ETransformPass.newIns
  cases hid : ins.id with
  | none => exact .inr (.inr ⟨fun k hk => (by cases hk), by simp⟩)
  | some k =>
    cases hlookup : R.final.replaceMap.lookup k with
    | some ptr => exact .inr (.inl ⟨k, ptr, rfl, hlookup, by simp [hlookup]⟩)
    | none =>
      by_cases hk : k ∈ R.final.eraseList
      · exact .inl ⟨k, rfl, ⟨hk, hlookup⟩, by simp [hlookup, hk]⟩
      · refine .inr (.inr ⟨fun j hj => ?_, by simp [hlookup, hk]⟩)
        obtain rfl := Option.some.inj hj
        exact hk

theorem isPhi_newIns {ins' : Instr} (h : R.newIns ins = some ins') : ins'.isPhi = ins.isPhi := by
  rcases R.cases_newIns ins with ⟨k, -, -, hnew⟩ | ⟨k, ptr, -, -, hnew⟩ | ⟨-, hnew⟩
  · cases h.symm.trans hnew
  · obtain rfl := Option.some.inj (h.symm.trans hnew)
    cases hop : ins.op <;> simp [Instr.isPhi, hop, Op.mapValues, withPointer]
  · obtain rfl := Option.some.inj (h.symm.trans hnew)
    exact Instr.isPhi_mapValues _ ins

theorem blocks_eq (R : Transformed T U f') : f'.blocks =
    if R.ok then (f.mapBlocks fun bb => { bb with instrs := R.newCode bb.instrs }).blocks
    else (insertLoad (f.mapBlocks fun bb => { bb with instrs := R.newCode bb.instrs })
      R.loadIns).blocks := by
  refine (congrArg Func.blocks R.func_eq).trans ?_
  cases R.ok <;> rfl

/-- A block after the pass, with the load if it is the entry block. -/
theorem find?_blocks (hb : f.blocks.find? (fun b => b.id = bb) = some b) :
    ∃ code, f'.blocks.find? (fun b => b.id = bb) = some { b with instrs := code } ∧
      (code = R.newCode b.instrs ∨ R.ok = false ∧ code = R.withLoad (R.newCode b.instrs)) := by
  rw [R.blocks_eq]
  cases hok : R.ok with
  | true =>
    refine ⟨_, ?_, .inl rfl⟩
    simp only [if_true, Func.mapBlocks, List.find?_map]
    rw [show ((fun b : BasicBlock => decide (b.id = bb)) ∘ _) = fun b =>
      decide (b.id = bb) from rfl, hb]
    rfl
  | false =>
    cases hbs : f.blocks with
    | nil => rw [hbs] at hb; cases hb
    | cons entry bbs =>
      rw [hbs, List.find?_cons] at hb
      simp only [Bool.false_eq_true, if_false, insertLoad, Func.mapBlocks, hbs, List.map_cons,
        List.find?_cons]
      split at hb
      · next heq =>
        obtain rfl := Option.some.inj hb
        simp only [heq]
        exact ⟨_, rfl, .inr ⟨trivial, rfl⟩⟩
      · next heq =>
        simp only [heq, List.find?_map]
        rw [show ((fun b : BasicBlock => decide (b.id = bb)) ∘ _) = fun b =>
          decide (b.id = bb) from rfl, hb]
        exact ⟨_, rfl, .inl rfl⟩

theorem head?_blocks (hb : f.blocks.head? = some b) : f'.blocks.head? =
    some { b with instrs := if R.ok then R.newCode b.instrs
      else R.withLoad (R.newCode b.instrs) } := by
  rw [R.blocks_eq]
  obtain ⟨bbs, hbs⟩ : ∃ bbs, f.blocks = b :: bbs := List.head?_eq_some_iff.mp hb
  cases hok : R.ok with
  | true => simp [Func.mapBlocks, hbs]
  | false => simp [insertLoad, Func.mapBlocks, hbs, withLoad]

/-- What is replaced is an access to the CPU state. -/
theorem access_of_replaced {ptr : Value} (hids : (f.instrs.filterMap Instr.id).Nodup)
    (hins : ins ∈ f.instrs) (hid : ins.id = some k)
    (h : R.final.replaceMap.lookup k = some ptr) : ∃ q offset,
      (ins.op = .load q ∨ ∃ v, ins.op = .store v q) ∧ EnvPtr T f q offset ∧
        globalOf ptr = some (getGlobalName offset.toUInt32) := by
  obtain ⟨ins', hins', q, offset, hid', haccess, hq, hglobal⟩ := R.replaced h
  obtain rfl := Lists.eq_of_key hids hins hins' hid hid'
  exact ⟨q, offset, haccess, hq, hglobal⟩

/-- What stays in place reads nothing that goes, and the argument only if it is loaded. -/
theorem operand_of_kept (hins : ins ∈ f.instrs) (hid : ∀ k, ins.id = some k →
    k ∉ R.final.eraseList) {v : Value}
    (hv : v ∈ ins.op.operands) : (∀ k, v = .inst k → ¬ Gone R.final k) ∧
    (v = .arg 0 → R.ok = false) := by
  refine ⟨fun k hk => R.unused hins hid (hk ▸ hv), fun harg => ?_⟩
  by_contra hok
  obtain ⟨k, hk, hid'⟩ := (R.argErased (by simpa using hok)).mem hins (harg ▸ hv)
  exact hid k hid' hk

/-- So does a store to the CPU state, at what it stores. -/
theorem operand_of_stored (hins : ins ∈ f.instrs) {v ptr : Value} (hop : ins.op = .store v ptr)
    {offset : UInt64} (hptr : EnvPtr T f ptr offset) : (∀ k, v = .inst k → ¬ Gone R.final k) ∧
    (v = .arg 0 → R.ok = false) := by
  refine ⟨fun k hk => R.unused_stored hins (hk ▸ hop), fun harg => ?_⟩
  by_contra hok
  have hv : (.arg 0 : Value) ∈ ins.op.operands := by simp [hop, harg, Op.operands]
  have heq := (R.argErased (by simpa using hok)).notStored ins (U.mem_uses.mpr ⟨hins, hv⟩) v ptr hop
  obtain ⟨k, rfl⟩ := hptr.exists_inst
  cases heq

end Transformed

end

/-! ## Both executions -/

section

variable {W E Ty : Type} {T : TypeInfo Ty} {f f' : Func} {U : UseLists f}

/-- The argument has been loaded, if something still needs it. -/
def Transformed.ArgRead (R : Transformed T U f') (I : Interp W E) (p : Point W E) : Prop :=
  R.ok = false → freshInstId f ∈ p.done ∧ p.st.env (freshInstId f) = I.leaf (.arg 0)

/-- An execution of the function, and one of the function after the pass.  The load of the argument
may still be to come, behind the phis of the entry block. -/
structure Beside (R : Transformed T U f') (I : Interp W E) (addr : UInt64 → W)
    (c c' : Config W E) : Prop where
  bb : c'.bb = c.bb
  sub : ∀ i ∈ c.code, i ∈ f.instrs
  now : Agrees (fun _ => False) R.Differs c.now c'.now
  holds : Holds I T f addr c.now
  edge : ∀ pred p, c.edge = some (pred, p) → ∃ p', c'.edge = some (pred, p') ∧
    Agrees (fun _ => False) R.Differs p p' ∧ Holds I T f addr p ∧ R.ArgRead I p'
  code : c'.code = R.newCode c.code ∧ R.ArgRead I c'.now ∨
    R.ok = false ∧ c'.code = R.withLoad (R.newCode c.code)

variable {R : Transformed T U f'} {I : Interp W E} {K : Control W} {addr : UInt64 → W}
variable {p p' : Point W E} {c c' d d' : Config W E} {v ptr : Value} {w : W} {i i' : Instr}
variable {is is' : List Instr} {bb : BlockId}

/-- An operand after the pass reads what it read. -/
theorem read_replaceValue (hp : Agrees (fun _ => False) R.Differs p p')
    (hholds : Holds I T f addr p) (harg : R.ArgRead I p')
    (hv : (∀ k, v = .inst k → ¬ Gone R.final k) ∧ (v = .arg 0 → R.ok = false))
    (hw : p.read I v = some w) : p'.read I (newValue f v) = some w := by
  unfold newValue replaceValue
  split_ifs with hzero
  · obtain ⟨hdone, henv⟩ := harg (hv.2 hzero)
    subst hzero
    rw [Point.read_of_leaf rfl] at hw
    exact Point.read_inst.mpr ⟨hdone, henv.trans (Option.some.inj hw)⟩
  · refine hp.read (fun k hk hdiffers => ?_) hw
    subst hk
    rcases hdiffers with hgone | rfl
    · exact hv.1 k rfl hgone
    · exact hholds.fresh (Point.read_inst.mp hw).1

theorem leaf_of_globalOf (L : CpuLayout I T f addr) {g : String} (h : globalOf ptr = some g) :
    ptr.inst? = none ∧ I.leaf ptr = I.leaf (.global g) := by
  unfold globalOf at h
  split at h
  · obtain rfl := Option.some.inj h
    exact ⟨rfl, rfl⟩
  · obtain rfl := Option.some.inj h
    exact ⟨rfl, L.constCast _⟩
  · cases h

theorem Beside.start {st : State W E} {c₀ : Config W E} (h : Execution.start f st = some c₀) :
    ∃ c₀', Execution.start f' st = some c₀' ∧ Beside R I addr c₀ c₀' := by
  obtain ⟨b, hb, rfl⟩ := Option.map_eq_some_iff.mp h
  refine ⟨⟨b.id, if R.ok then R.newCode b.instrs else R.withLoad (R.newCode b.instrs),
    ⟨st, []⟩, none⟩, ?_, rfl, ?_, .refl _, holds_nil st, fun _ _ hedge => (by cases hedge), ?_⟩
  · rw [Execution.start, R.head?_blocks hb]
    rfl
  · exact fun i hi => List.mem_flatMap.mpr ⟨b, List.mem_of_head? hb, hi⟩
  · cases hok : R.ok with
    | true => exact .inl ⟨rfl, fun hfalse => absurd (hok.symm.trans hfalse) (by decide)⟩
    | false => exact .inr ⟨rfl, rfl⟩

/-- The next block is entered. -/
theorem Beside.goto (h : Beside R I addr c c') (harg : R.ArgRead I c'.now)
    (hgoto : c.goto f bb = some d) : ∃ d', c'.goto f' bb = some d' ∧ Beside R I addr d d' := by
  obtain ⟨b, hb, rfl⟩ := Option.map_eq_some_iff.mp hgoto
  obtain ⟨code, hb', hcode⟩ := R.find?_blocks hb
  refine ⟨⟨bb, code, c'.now, some (c'.bb, c'.now)⟩, by rw [Config.goto, hb']; rfl, rfl, ?_, h.now,
    h.holds, ?_, ?_⟩
  · exact fun i hi => List.mem_flatMap.mpr ⟨b, List.mem_of_find?_eq_some hb, hi⟩
  · intro pred p hp
    obtain ⟨rfl, rfl⟩ := Prod.mk.inj (Option.some.inj hp)
    exact ⟨c'.now, by rw [h.bb], h.now, h.holds, harg⟩
  · exact hcode.imp_left fun hcode => ⟨hcode, harg⟩

variable [DecidableEq W]

omit [DecidableEq W] in
theorem callsIgnore_false : CallsIgnore I fun _ => False := by
  intro vs m m' e hm
  obtain rfl : m' = m := funext fun a => hm a not_false
  exact ⟨rfl, fun _ _ => rfl, rfl⟩

theorem ArgRead.step (harg : R.ArgRead I c'.now) (hcode : c'.code = i' :: is')
    (hid : i'.id ≠ some (freshInstId f)) (hstep : Execution.step I K f' c' = some d') :
    R.ArgRead I d'.now := by
  intro hok
  obtain ⟨hdone, henv⟩ := harg hok
  rcases cases_of_step hcode hstep with ⟨-, bb, hgoto⟩ | ⟨_, _, _, _, _, -, -, -, -, rfl⟩ |
    ⟨-, -, rfl⟩
  · obtain ⟨b, -, rfl⟩ := Option.map_eq_some_iff.mp hgoto
    exact ⟨hdone, henv⟩
  · exact ⟨List.mem_append_right _ hdone, (setResult_of_ne hid _).trans henv⟩
  · exact ⟨List.mem_append_right _ hdone, (env_exec_of_ne hid).trans henv⟩

/-- The load, if it is still to come. -/
theorem Beside.load (L : CpuLayout I T f addr) (h : Beside R I addr c c')
    (hm : EnvStored I T addr c.now.st.mem) (hhead : ∀ j js, R.newCode c.code = j :: js →
      j.isPhi = false) :
    ∃ ys c'', Run (Execution.step I K f') c' ys c'' ∧ ys.length ≤ 1 ∧ Beside R I addr c c'' ∧
      c''.code = R.newCode c.code ∧ R.ArgRead I c''.now := by
  rcases h.code with ⟨hcode, harg⟩ | ⟨hok, hcode⟩
  · exact ⟨[], c', .refl c', Nat.zero_le 1, h, hcode, harg⟩
  · have hsplit : R.withLoad (R.newCode c.code) = R.loadIns :: R.newCode c.code := by
      unfold Transformed.withLoad
      cases hnew : R.newCode c.code with
      | nil => rfl
      | cons j js => simp [hhead j js hnew]
    rw [hsplit] at hcode
    obtain ⟨hleaf, heq⟩ := leaf_of_globalOf L R.cpuState
    -- the load in front is executed, and the argument is what it reads
    have hstep : Execution.step I K f' c' =
        some { c' with code := R.newCode c.code, now := c'.now.exec I R.loadIns } := by
      rw [step_of_plain hcode (fun _ hinc => by cases hinc) rfl, if_pos]
      simp [Transformed.loadIns, Op.operands, Point.read_of_leaf hleaf]
    have hargRead : R.ArgRead I (c'.now.exec I R.loadIns) := by
      refine fun _ => ⟨List.mem_append_left _ (Option.mem_toList.mpr rfl), ?_⟩
      have hmem : c'.now.st.mem = c.now.st.mem := funext fun a => h.now.mem a not_false
      simp only [Point.exec, exec, effect, usesOf, Transformed.loadIns, Op.operands,
        List.map_singleton, setResult, Function.update_self]
      rw [eval_eq_leaf hleaf, heq, hmem]
      exact hm.cpuState
    have hagrees : Agrees (fun _ => False) R.Differs c'.now (c'.now.exec I R.loadIns) := by
      have hdiffers : ∀ k, R.loadIns.id = some k → R.Differs k :=
        fun k hk => .inr (Option.some.inj hk).symm
      exact (agrees_of_setResult (p := c'.now) (q := c'.now.exec I R.loadIns)
        (r := some (c'.now.st.mem (eval I c'.now.st R.globalEnv))) hdiffers rfl rfl
          (fun _ _ => rfl) rfl).2
    exact ⟨[c'], _, .head hstep (.refl _), Nat.le_refl 1, ⟨h.bb, h.sub, h.now.trans hagrees,
      h.holds, h.edge, .inl ⟨rfl, hargRead⟩⟩, rfl, hargRead⟩

end

/-! ## A step -/

section

variable {W E Ty : Type} {T : TypeInfo Ty} {f f' : Func} {U : UseLists f} {R : Transformed T U f'}
variable {I : Interp W E} {K : Control W} {addr : UInt64 → W} {c c' d : Config W E} {ptr : Value}
variable {i : Instr} {is is' : List Instr} {k : InstId} [DecidableEq W] (L : CpuLayout I T f addr)
variable (hwt : WellTyped T f)
  (hids : (f.instrs.filterMap Instr.id).Nodup)

include hids in
theorem silent_of_gone (hi : i ∈ f.instrs) (hid : i.id = some k) (hk : Gone R.final k) :
    Silent I (fun _ => False) i := by
  rcases (R.address_of_gone hk).1.op_cases hids hi hid with ⟨p, hop⟩ | ⟨a, b, hop⟩ |
    ⟨opcode, args, hop⟩ <;>
    exact ⟨by simp [hop, Op.isTerminator], fun st a _ => by simp [exec, effect, usesOf,
      hop, Op.operands], fun st => by simp [exec, effect, usesOf, hop, Op.operands]⟩

include L hids in
/-- The access before and after the pass. -/
theorem access_eq {p p' : Point W E} (hp : Agrees (fun _ => False) R.Differs p p')
    (hholds : Holds I T f addr p) (harg : R.ArgRead I p') (hi : i ∈ f.instrs) (hid : i.id = some k)
    (hlookup : R.final.replaceMap.lookup k = some ptr)
    (hall : ∀ v ∈ i.op.operands, (p.read I v).isSome = true) :
    let op := withPointer ptr (i.op.mapValues (newValue f))
    (∀ inc, op ≠ .phi inc) ∧ op.isTerminator = false ∧
      (∀ v ∈ op.operands, (p'.read I v).isSome = true) ∧
      op.operands.map (eval I p'.st) = i.op.operands.map (eval I p.st) ∧
      ∀ vs (st : State W E), effect I op vs st = effect I i.op vs st := by
  obtain ⟨q, offset, haccess, henv, hglobal⟩ := R.access_of_replaced hids hi hid hlookup
  obtain ⟨hleaf, heq⟩ := leaf_of_globalOf L hglobal
  have hptr : eval I p'.st ptr = eval I p.st q := by
    have hmem : q ∈ i.op.operands := by
      rcases haccess with hop | ⟨v, hop⟩ <;> simp [hop, Op.operands]
    obtain ⟨w, hw⟩ := Option.isSome_iff_exists.mp (hall q hmem)
    rw [eval_eq_leaf hleaf, heq, L.global i hi q offset haccess henv, Point.eval_of_read hw,
      hholds.eq_addr henv hw]
  have hread : (p'.read I ptr).isSome = true := by rw [Point.read_of_leaf hleaf]; rfl
  rcases haccess with hop | ⟨v, hop⟩
  · simp only [hop, Op.mapValues, withPointer]
    refine ⟨fun _ hinc => (by cases hinc), rfl, List.forall_mem_singleton.mpr hread, ?_,
      fun vs st => ?_⟩
    · simp only [Op.operands, List.map_singleton, hptr]
    · rcases vs with _ | ⟨x, _ | ⟨y, vs⟩⟩ <;> rfl
  · obtain ⟨w, hw⟩ := Option.isSome_iff_exists.mp (hall v (by simp [hop, Op.operands]))
    have hw' := read_replaceValue hp hholds harg (R.operand_of_stored hi hop henv) hw
    simp only [hop, Op.mapValues, withPointer]
    refine ⟨fun _ hinc => (by cases hinc), rfl, ?_, ?_, fun vs st => ?_⟩
    · exact List.forall_mem_cons.mpr ⟨by rw [hw']; rfl, List.forall_mem_singleton.mpr hread⟩
    · simp only [Op.operands, List.map_cons, List.map_nil, hptr, Point.eval_of_read hw,
        Point.eval_of_read hw']
    · rcases vs with _ | ⟨x, _ | ⟨y, _ | ⟨z, vs⟩⟩⟩ <;> rfl

include L hwt hids

/-- An instruction that goes. -/
theorem Beside.skip (h : Beside R I addr c c') (hm : EnvStored I T addr c.now.st.mem)
    (hcode : c.code = i :: is) (hid : i.id = some k) (hk : Gone R.final k)
    (hnew : R.newIns i = none) (hstep : step I K f c = some d) : Beside R I addr d c' := by
  have hi : i ∈ f.instrs := h.sub i (by rw [hcode]; exact List.mem_cons_self)
  have hholds := h.holds.step L hwt hids hm h.sub hstep
  have hdiffers : ∀ j, i.id = some j → R.Differs j :=
    fun j hj => .inl (Option.some.inj (hid.symm.trans hj) ▸ hk)
  obtain ⟨p, rfl, hp, -⟩ := step_silent (silent_of_gone hids hi hid hk) hdiffers hcode hstep
  have hsub : ∀ j ∈ is, j ∈ f.instrs :=
    fun j hj => h.sub j (by rw [hcode]; exact List.mem_cons_of_mem _ hj)
  have hcode' : R.newCode c.code = R.newCode is := by
    rw [hcode, Transformed.newCode, List.filterMap_cons_none hnew]
    rfl
  refine ⟨h.bb, hsub, hp.trans h.now, hholds, h.edge, ?_⟩
  rw [← hcode']
  exact h.code

/-- An access that is replaced. -/
theorem Beside.replace (h : Beside R I addr c c') (hm : EnvStored I T addr c.now.st.mem)
    (hcode : c.code = i :: is) (hid : i.id = some k)
    (hlookup : R.final.replaceMap.lookup k = some ptr)
    (hcode' : c'.code = ⟨i.id, withPointer ptr (i.op.mapValues (newValue f)), []⟩ ::
      R.newCode is) (harg : R.ArgRead I c'.now) (hstep : step I K f c = some d) :
    ∃ d', step I K f' c' = some d' ∧ Beside R I addr d d' := by
  have hi : i ∈ f.instrs := h.sub i (by rw [hcode]; exact List.mem_cons_self)
  have hholds := h.holds.step L hwt hids hm h.sub hstep
  have hplain : (∀ inc, i.op ≠ .phi inc) ∧ i.op.isTerminator = false := by
    obtain ⟨q, offset, haccess, -⟩ := R.access_of_replaced hids hi hid hlookup
    rcases haccess with hop | ⟨v, hop⟩ <;> rw [hop] <;> exact ⟨fun _ hinc => (by cases hinc), rfl⟩
  rw [step_of_plain hcode hplain.1 hplain.2] at hstep
  split_ifs at hstep with hall
  obtain rfl := Option.some.inj hstep
  obtain ⟨hphi, hterm, hall', huses, heffect⟩ :=
    access_eq L hids h.now h.holds harg hi hid hlookup (List.all_eq_true.mp hall)
  have hstep' := (step_of_plain (K := K) (f := f') hcode' hphi hterm).trans
    (if_pos (List.all_eq_true.mpr hall'))
  refine ⟨_, hstep', h.bb, fun j hj => h.sub j (by rw [hcode]; exact List.mem_cons_of_mem _ hj),
    ?_, hholds, h.edge, .inl ⟨rfl, ArgRead.step harg hcode' ?_ hstep'⟩⟩
  · exact h.now.exec callsIgnore_false rfl (fun vs => heffect vs _) huses fun _ _ => not_false
  · exact fun heq => (lt_freshInstId hi heq).ne rfl

/-- An instruction that stays, on the operands that stand for the old ones. -/
theorem Beside.keep (h : Beside R I addr c c') (hm : EnvStored I T addr c.now.st.mem)
    (hcode : c.code = i :: is) (hkept : ∀ k, i.id = some k → k ∉ R.final.eraseList)
    (hcode' : c'.code = i.mapValues (newValue f) :: is')
    (harg : R.ArgRead I c'.now ∧ is' = R.newCode is ∨
      i.isPhi = true ∧ R.ok = false ∧ is' = R.withLoad (R.newCode is))
      (hstep : step I K f c = some d) :
    ∃ d', step I K f' c' = some d' ∧ Beside R I addr d d' := by
  have hi : i ∈ f.instrs := h.sub i (by rw [hcode]; exact List.mem_cons_self)
  have hholds := h.holds.step L hwt hids hm h.sub hstep
  -- operands are read as before: the argument is what the load in front reads
  have hread : (∀ inc, i.op ≠ .phi inc) → ∀ v ∈ i.op.operands, ∀ w, c.now.read I v = some w →
      c'.now.read I (newValue f v) = some w := by
    intro hphi v hv w hw
    have harg : R.ArgRead I c'.now := by
      rcases harg with ⟨harg, -⟩ | ⟨hphi', -⟩
      · exact harg
      · obtain ⟨inc, hop⟩ := Instr.isPhi_iff.mp hphi'
        exact absurd hop (hphi inc)
    exact read_replaceValue h.now h.holds harg (R.operand_of_kept hi hkept hv) hw
  have hedge : ∀ pred p, c.edge = some (pred, p) → ∃ p', c'.edge = some (pred, p') ∧
      ∀ v ∈ i.op.operands, ∀ w, p.read I v = some w → p'.read I (newValue f v) = some w := by
    intro pred p hp
    obtain ⟨p', hp', hag, hholds', harg'⟩ := h.edge pred p hp
    exact ⟨p', hp', fun v hv w hw =>
      read_replaceValue hag hholds' harg' (R.operand_of_kept hi hkept hv) hw⟩
  have hfresh : (i.mapValues (newValue f)).id ≠ some (freshInstId f) :=
    fun heq => (lt_freshInstId hi heq).ne rfl
  rcases step_mapped callsIgnore_false hcode hcode' rfl rfl hread (fun _ _ _ _ _ =>
      not_false) h.now hedge hstep with
    ⟨bb, hbb, hgoto, hstep'⟩ | ⟨p, p', rfl, hp, -, hstep'⟩
  · have harg : R.ArgRead I c'.now := by
      rcases harg with ⟨harg, -⟩ | ⟨hphi, -⟩
      · exact harg
      · obtain ⟨inc, hop⟩ := Instr.isPhi_iff.mp hphi
        rw [hop] at hbb
        exact absurd hbb List.not_mem_nil
    obtain ⟨d', hd', hbeside⟩ := h.goto harg hgoto
    exact ⟨d', (hstep' f').trans hd', hbeside⟩
  · have hsub : ∀ j ∈ is, j ∈ f.instrs :=
      fun j hj => h.sub j (by rw [hcode]; exact List.mem_cons_of_mem _ hj)
    -- the load in front of the code is still to come, or it is done
    refine ⟨_, hstep' f', h.bb, hsub, hp, hholds, h.edge, ?_⟩
    rcases harg with ⟨harg, rfl⟩ | ⟨-, hok, rfl⟩
    · exact .inl ⟨rfl, ArgRead.step harg hcode' hfresh (hstep' f')⟩
    · exact .inr ⟨hok, rfl⟩

omit hwt hids in
/-- The next instruction that stays is no phi: the load may have to come first. -/
theorem Beside.load_then (h : Beside R I addr c c') (hm : EnvStored I T addr c.now.st.mem)
    {i' : Instr} (hcons : R.newCode c.code = i' :: R.newCode is) (hphi : i'.isPhi = false)
    (hnext : ∀ c'', Beside R I addr c c'' → c''.code = i' :: R.newCode is → R.ArgRead I c''.now →
      ∃ d', step I K f' c'' = some d' ∧ Beside R I addr d d') :
    ∃ ys d', Run (step I K f') c' ys d' ∧ ys.length ≤ 2 ∧ Beside R I addr d d' := by
  obtain ⟨ys, c'', hys, hlen, hbeside, hcode'', harg⟩ := h.load (K := K) L hm fun j js hj => by
    obtain rfl := (List.cons.inj (hcons.symm.trans hj)).1
    exact hphi
  obtain ⟨d', hd', hbeside'⟩ := hnext c'' hbeside (hcode''.trans hcons) harg
  refine ⟨ys ++ [c''], d', hys.append (.head hd' (.refl d')), ?_, hbeside'⟩
  rw [List.length_append, List.length_singleton]
  omega

/-- **A step of the function is at most two of the function after the pass.** -/
theorem beside_step : SimulationIn 2 (step I K f) (step I K f') (Beside R I addr)
    fun c => EnvStored I T addr c.now.st.mem := by
  intro c c' d h hm hstep
  cases hcode : c.code with
  | nil => simp [step, hcode] at hstep
  | cons i is =>
    have hcons : ∀ i', R.newIns i = some i' → R.newCode c.code = i' :: R.newCode is :=
        fun i' hnew => by
      rw [hcode, Transformed.newCode, List.filterMap_cons_some hnew]
      rfl
    rcases R.cases_newIns i with ⟨k, hid, hk, hnew⟩ | ⟨k, ptr, hid, hlookup, hnew⟩ | ⟨hkept, hnew⟩
    · exact ⟨[], c', .refl c', Nat.zero_le 2, h.skip L hwt hids hm hcode hid hk hnew hstep⟩
    · have hphi : i.isPhi = false := by
        have hi : i ∈ f.instrs := h.sub i (by rw [hcode]; exact List.mem_cons_self)
        obtain ⟨q, offset, haccess, -⟩ := R.access_of_replaced hids hi hid hlookup
        rcases haccess with hop | ⟨v, hop⟩ <;> simp [Instr.isPhi, hop]
      exact h.load_then L hm (hcons _ hnew)
          ((R.isPhi_newIns hnew).trans hphi) fun c'' hbeside hcode'' harg =>
        hbeside.replace L hwt hids hm hcode hid hlookup hcode'' harg hstep
    · cases hphi : i.isPhi with
      | false =>
        exact h.load_then L hm (hcons _ hnew)
            ((R.isPhi_newIns hnew).trans hphi) fun c'' hbeside hcode'' harg =>
          hbeside.keep L hwt hids hm hcode hkept hcode'' (.inl ⟨harg, rfl⟩) hstep
      | true =>
        -- the phis of the entry block come before the load
        have hone : ∀ is', c'.code = i.mapValues (newValue f) :: is' →
            (R.ArgRead I c'.now ∧ is' = R.newCode is ∨
              i.isPhi = true ∧ R.ok = false ∧ is' = R.withLoad (R.newCode is)) →
            ∃ ys d', Run (step I K f') c' ys d' ∧ ys.length ≤ 2 ∧ Beside R I addr d d' := by
          intro is' hcode' harg
          obtain ⟨d', hd', hbeside'⟩ := h.keep L hwt hids hm hcode hkept hcode' harg hstep
          exact ⟨[c'], d', .head hd' (.refl d'), Nat.le_succ 1, hbeside'⟩
        rcases h.code with ⟨hcode', harg⟩ | ⟨hok, hcode'⟩
        · exact hone _ (hcode'.trans (hcons _ hnew)) (.inl ⟨harg, rfl⟩)
        · refine hone (R.withLoad (R.newCode is)) ?_ (.inr ⟨hphi, hok, rfl⟩)
          rw [hcode', hcons _ hnew, Transformed.withLoad, List.takeWhile_cons_of_pos,
            List.dropWhile_cons_of_pos]
          · rfl
          · exact (R.isPhi_newIns hnew).trans hphi
          · exact (R.isPhi_newIns hnew).trans hphi

/-! ## Whole executions -/

omit [DecidableEq W] L hwt in
/-- A return stays. -/
theorem Beside.exists_ret {o : Option W} (h : Beside R I addr c c') (ho : outcome I c = some o) :
    ∃ i is r, c.code = i :: is ∧ i ∈ f.instrs ∧ i.op = .ret r ∧ (∀ k, i.id = some k →
      k ∉ R.final.eraseList) ∧ R.newCode c.code = i.mapValues (newValue f) :: R.newCode is := by
  cases hcode : c.code with
  | nil => simp [outcome, hcode] at ho
  | cons i is =>
    have hi : i ∈ f.instrs := h.sub i (by rw [hcode]; exact List.mem_cons_self)
    obtain ⟨r, hop⟩ : ∃ r, i.op = .ret r := by
      unfold outcome at ho
      rw [hcode] at ho
      cases hop : i.op <;> simp [hop] at ho
      exact ⟨_, rfl⟩
    rcases R.cases_newIns i with ⟨k, hid, hk, -⟩ | ⟨k, ptr, hid, hlookup, -⟩ | ⟨hkept, hnew⟩
    · rcases (R.address_of_gone hk).1.op_cases hids hi hid with ⟨_, hop'⟩ | ⟨_, _, hop'⟩ |
        ⟨_, _, hop'⟩ <;> simp [hop] at hop'
    · obtain ⟨q, offset, haccess, -⟩ := R.access_of_replaced hids hi hid hlookup
      rcases haccess with hop' | ⟨v, hop'⟩ <;> simp [hop] at hop'
    · exact ⟨i, is, r, rfl, hi, hop, hkept,
        by rw [Transformed.newCode, List.filterMap_cons_some hnew]; rfl⟩

omit [DecidableEq W] L hwt in
/-- A function returns after the pass what it returned. -/
theorem Beside.outcome_eq {o : Option W} (h : Beside R I addr c c')
    (hcode' : c'.code = R.newCode c.code) (harg : R.ArgRead I c'.now) (ho : outcome I c = some o) :
    outcome I c' = some o := by
  obtain ⟨i, is, r, hcode, hi, hop, hkept, hnew⟩ := h.exists_ret hids ho
  rw [hnew] at hcode'
  cases r with
  | none => simpa [outcome, hcode, hcode', hop, Instr.mapValues, Op.mapValues] using ho
  | some v =>
    simp only [outcome, hcode, hop, Option.map_eq_some_iff] at ho
    obtain ⟨w, hw, rfl⟩ := ho
    have hv : v ∈ i.op.operands := by rw [hop]; exact List.mem_singleton_self v
    have hw' := read_replaceValue h.now h.holds harg (R.operand_of_kept hi hkept hv) hw
    simp [outcome, hcode', hop, Instr.mapValues, Op.mapValues, hw']

/-- **Whatever a function has done at some point, it has done after the pass**, with twice as many
steps at most: the memory and the world are the same, and it returns when the function returns, with
the same value. -/
theorem runOnFunction_simulates [DecidableEq Ty] {fuel : ℕ} {globals globals' : List (String × Ty)}
    {st : State W E} {c₀ : Config W E} {cs : List (Config W E)}
    (hrun : runOnFunction T f U fuel globals = some (f', globals'))
    (hstart : start f st = some c₀) (hsteps : Run (step I K f) c₀ cs c)
    (hm : ∀ x ∈ cs ++ [c], EnvStored I T addr x.now.st.mem) :
    ∃ c₀' cs' c', start f' st = some c₀' ∧ Run (step I K f') c₀' cs' c' ∧
      cs'.length ≤ 2 * cs.length + 1 ∧
      c'.bb = c.bb ∧ c'.now.st.mem = c.now.st.mem ∧ c'.now.st.ext = c.now.st.ext ∧
      ∀ o, outcome I c = some o → outcome I c' = some o := by
  obtain ⟨R⟩ := exists_transformed hwt hrun
  obtain ⟨c₀', hstart', hbeside₀⟩ : ∃ c₀', start f' st = some c₀' ∧ Beside R I addr c₀ c₀' :=
    Beside.start hstart
  obtain ⟨cs', c', hsteps', hlen, hbeside⟩ := hsteps.simulates_in (beside_step L hwt hids)
    (fun x hx => hm x (List.mem_append_left _ hx)) hbeside₀
  have hmem : ∀ {c''}, Beside R I addr c c'' → c''.now.st.mem = c.now.st.mem := fun h =>
    funext fun a => h.now.mem a not_false
  by_cases ho : ∃ o, outcome I c = some o
  · -- nothing but the load may be to come
    obtain ⟨ys, c'', hys, hlen', hbeside', hcode'', harg⟩ := hbeside.load (K := K) L
      (hm c (List.mem_append_right _ (List.mem_singleton_self c))) fun j js hj => by
        obtain ⟨o, ho⟩ := ho
        obtain ⟨i, is, r, -, -, hop, -, hnew⟩ := hbeside.exists_ret hids ho
        obtain rfl := (List.cons.inj (hnew.symm.trans hj)).1
        rw [Instr.isPhi_mapValues, Instr.isPhi, hop]
    refine ⟨c₀', cs' ++ ys, c'', hstart', hsteps'.append hys, ?_, hbeside'.bb, hmem hbeside',
      hbeside'.now.ext, fun o => hbeside'.outcome_eq hids hcode'' harg⟩
    rw [List.length_append]
    omega
  · exact ⟨c₀', cs', c', hstart', hsteps', Nat.le_succ_of_le hlen, hbeside.bb, hmem hbeside,
      hbeside.now.ext, fun o h => absurd ⟨o, h⟩ ho⟩

end

/-! ## A store to PC -/

/-- A number, an address in the CPU state, or another operand. -/
inductive Word where
  | num (n : UInt64)
  | cpu (offset : UInt64)
  | sym (v : Value)
  deriving DecidableEq

def globalWord (g : String) : Word := if g = "PC" then .cpu 0xc0 else .sym (.global g)

/-- PC is in the CPU state, and the helpers do nothing. -/
def words : Interp Word Unit where
  leaf
    | .constInt _ n => .num n
    | .global g | .constCast (.global g) => globalWord g
    | v => .sym v
  binop
    | .add, .cpu offset, .num n => .cpu (offset + n)
    | _, w, _ => w
  other _ ws := ws.headD (.num 0)
  call _ m e := (.num 0, m, e)
  global_inj := by
    intro g h heq
    dsimp only [globalWord] at heq
    split_ifs at heq with hg hh hh
    · rw [hg, hh]
    · cases heq
      rfl

/-- The helper still gets the argument. -/
def writesPC : Func := ⟨"tcg-llvm-tb-0-8000", [⟨0, "entry", [
  ⟨some 0, .load (.arg 0), []⟩,
  ⟨some 1, .binop .add (.inst 0) (.constInt 64 0xc0), []⟩,
  ⟨some 2, .other 43 [.inst 1], []⟩,
  ⟨some 3, .store (.constInt 64 0x8004) (.inst 2), []⟩,
  ⟨some 4, .call (.func "helper_wfi") [.arg 0], []⟩,
  ⟨some 5, .load (.inst 2), []⟩,
  ⟨none, .ret (some (.inst 5)), []⟩]⟩]⟩

def atReset : State Word Unit :=
  ⟨fun _ => .num 0, fun w => if w = .sym (.arg 0) then .cpu 0 else
    if w = .sym (.global "CPUSTATE") then .sym (.arg 0) else .num 0, ()⟩

def neverTaken : Control Word := ⟨fun _ => false, fun _ _ => false⟩

theorem mem_writesPC {ins : Instr} (h : ins ∈ writesPC.instrs) :
    ins = ⟨some 0, .load (.arg 0), []⟩ ∨
      ins = ⟨some 1, .binop .add (.inst 0) (.constInt 64 0xc0), []⟩ ∨
    ins = ⟨some 2, .other 43 [.inst 1], []⟩ ∨
    ins = ⟨some 3, .store (.constInt 64 0x8004) (.inst 2), []⟩ ∨
    ins = ⟨some 4, .call (.func "helper_wfi") [.arg 0], []⟩ ∨ ins = ⟨some 5, .load (.inst 2), []⟩ ∨
    ins = ⟨none, .ret (some (.inst 5)), []⟩ := by
  simpa [writesPC, Func.instrs] using h

theorem argPtr_writesPC {v : Value} (h : ArgPtr writesPC v) : v = .arg 0 := by
  induction h with
  | arg => rfl
  | cast hins _ hop _ _ ih =>
    subst ih
    rcases mem_writesPC hins with rfl | rfl | rfl | rfl | rfl | rfl | rfl <;> cases hop
  | gep hins _ hop _ ih =>
    rcases mem_writesPC hins with rfl | rfl | rfl | rfl | rfl | rfl | rfl <;> cases hop

theorem envPtr_writesPC {v : Value} {offset : UInt64} (h : EnvPtr typeInfo writesPC v offset) :
    v = .inst 0 ∧ offset = 0 ∨ (v = .inst 1 ∨ v = .inst 2) ∧ offset = 0xc0 := by
  induction h with
  | load hins hid hop h =>
    obtain rfl := argPtr_writesPC (h.resolve_right (by simp [typeInfo]))
    rcases mem_writesPC hins with rfl | rfl | rfl | rfl | rfl | rfl | rfl <;> cases hop
    cases hid
    exact .inl ⟨rfl, rfl⟩
  | cast hins hid hop _ _ ih =>
    rcases mem_writesPC hins with rfl | rfl | rfl | rfl | rfl | rfl | rfl <;> cases hop
    cases hid
    rcases ih with ⟨hv, -⟩ | ⟨-, rfl⟩
    · cases hv
    · exact .inr ⟨.inr rfl, rfl⟩
  | add hins hid hop _ ih =>
    rcases mem_writesPC hins with rfl | rfl | rfl | rfl | rfl | rfl | rfl <;> cases hop
    cases hid
    rcases ih with ⟨-, rfl⟩ | ⟨hv, -⟩
    · exact .inr ⟨.inl rfl, by decide⟩
    · rcases hv with hv | hv <;> cases hv
  | gep hins _ hop _ _ _ =>
    rcases mem_writesPC hins with rfl | rfl | rfl | rfl | rfl | rfl | rfl <;> cases hop

theorem cpuLayout_words : CpuLayout words typeInfo writesPC .cpu where
  named _ h := absurd h (by simp [typeInfo])
  global ins hins ptr offset haccess hptr := by
    rcases envPtr_writesPC hptr with ⟨rfl, rfl⟩ | ⟨-, rfl⟩
    · rcases mem_writesPC hins with rfl | rfl | rfl | rfl | rfl | rfl | rfl <;>
        rcases haccess with hop | ⟨_, hop⟩ <;> cases hop
    · decide +kernel
  constCast _ := rfl
  castArg ins hins opcode v hop _ hv := rfl
  gepArg ins hins v width hop hv := rfl
  cast ins hins opcode v offset hop _ hv := rfl
  add ins hins v width val offset hop hv := by
    rcases mem_writesPC hins with rfl | rfl | rfl | rfl | rfl | rfl | rfl <;> cases hop
    show Word.cpu (offset + 0xc0) = _
    rw [show getSExtValue 64 0xc0 = 0xc0 by decide]
  gep ins hins k v indices total offset _ hop _ _ := by
    rcases mem_writesPC hins with rfl | rfl | rfl | rfl | rfl | rfl | rfl <;> cases hop

theorem wellTyped_writesPC : WellTyped typeInfo writesPC where
  cast ins hins opcode args hop _ := by
    rcases mem_writesPC hins with rfl | rfl | rfl | rfl | rfl | rfl | rfl <;> cases hop
    exact ⟨_, rfl⟩
  gep ins hins k args _ hop := by
    rcases mem_writesPC hins with rfl | rfl | rfl | rfl | rfl | rfl | rfl <;> cases hop

theorem runOnFunction_simulates_writesPC :
    ∃ r ∈ runOnFunction typeInfo writesPC (useList writesPC) 4 [],
      ∃ c₀ cs c, start r.1 atReset = some c₀ ∧ Run (step words neverTaken r.1) c₀ cs c ∧
        c.now.st.mem (.cpu 0xc0) = .num 0x8004 ∧ outcome words c = some (some (.num 0x8004)) := by
  have hsome : (runOnFunction typeInfo writesPC (useList writesPC) 4 []).isSome = true := by
    decide +kernel
  obtain ⟨r, hr⟩ := Option.isSome_iff_exists.mp hsome
  have hruns : ∃ c₀ cs c, start writesPC atReset = some c₀ ∧
      Run (step words neverTaken writesPC) c₀ cs c ∧
      (∀ x ∈ cs ++ [c], EnvStored words typeInfo .cpu x.now.st.mem) ∧
      c.now.st.mem (.cpu 0xc0) = .num 0x8004 ∧ outcome words c = some (some (.num 0x8004)) := by
    refine ⟨_, [_, _, _, _, _, _], _, rfl,
      .head rfl (.head rfl (.head rfl (.head rfl (.head rfl (.head rfl (.refl _)))))), ?_, rfl, rfl⟩
    have hname : ∀ p, typeInfo.getName p ≠ "env" := by simp [typeInfo]
    have hstored : ∀ m : Word → Word, m (.sym (.arg 0)) = .cpu 0 →
        m (.sym (.global "CPUSTATE")) = .sym (.arg 0) →
        EnvStored words typeInfo .cpu m :=
          fun m harg hcpu => ⟨harg, fun p hp => absurd hp (hname p), hcpu⟩
    simp only [List.cons_append, List.nil_append, List.forall_mem_cons, List.not_mem_nil,
      false_implies, implies_true, and_true]
    exact ⟨hstored _ rfl rfl, hstored _ rfl rfl, hstored _ rfl rfl, hstored _ rfl rfl,
      hstored _ rfl rfl, hstored _ rfl rfl, hstored _ rfl rfl⟩
  obtain ⟨c₀, cs, c, hstart, hsteps, hm, hpc, ho⟩ := hruns
  obtain ⟨c₀', cs', c', hstart', hsteps', -, -, hmem, -, hout⟩ :=
    runOnFunction_simulates cpuLayout_words wellTyped_writesPC (by decide) hr hstart hsteps hm
  exact ⟨r, hr, c₀', cs', c', hstart', hsteps', by rw [hmem, hpc], hout _ ho⟩

end Bin2llvm.S2ETransformPass
