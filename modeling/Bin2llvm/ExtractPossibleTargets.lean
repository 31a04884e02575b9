import Bin2llvm.IR
import Bin2llvm.Lib.Lists
import Bin2llvm.Lib.OptionMapM

/-!
# Bin2llvm.ExtractPossibleTargets — where a translated block goes

The pass runs on a block as S2E translated it, before accesses to registers are named: a register is
the address `inttoptr (add %env_v, offset)`.  Of every basic block that returns it takes the
constant stored to `PC`, and the one stored to `LR`, to which a call returns.  This is the ARM
build; a failed assert is `none`.

* `runOnFunction`: the pass; `runOnFunction_eq` in terms of the last constant stores.
* `reports_iff`: the targets are those of the last stores to `PC` and to `LR` exactly when no
  constant one is followed by one that is not.
-/

namespace Bin2llvm

/-- `dyn_cast<Instruction>(v)`. -/
def Func.instrOf (f : Func) (v : Value) : Option Instr :=
  v.inst?.bind fun k => f.instrs.find? (·.id = some k)

namespace ExtractPossibleTargetsPass

/-! ## The pass -/

/-- `Instruction::IntToPtr`. -/
def IntToPtr : ℕ := 43

def pc_offset : UInt32 := 0xc0

def lr_offset : UInt32 := 0xbc

/-- `getSExtValue()`, into an `unsigned int`. -/
def getSExtValue (width : ℕ) (val : UInt64) : UInt32 :=
  UInt32.ofInt (BitVec.ofNat width val.toNat).toInt

def startswith (name start : String) : Bool := decide (start.toList <+: name.toList)

/-- What the pass has found. -/
structure Targets where
  targetPCs : List UInt64
  implicitTargetPC : Option UInt64
  deriving DecidableEq, Repr

section

variable (getName : Value → String) (f : Func)

/-- `envOffset` of an address, if it has one.  The index is read unchecked. -/
def envOffset (p : Value) : Option (Option UInt32) :=
  match (f.instrOf p).map Instr.op with
  | some (.other opcode [a]) =>
    if opcode = IntToPtr then
      match (f.instrOf a).map fun add => add.op.operands with
      | some (base :: rest) =>
        if startswith (getName base) "env_v" then
          match rest with
          | .constInt width val :: _ => some (some (getSExtValue width val))
          | _ :: _ => some none
          | [] => none
        else some none
      | some [] => none
      | none => some none
    else some none
  | _ => some none

/-- The constant that a store puts into the register at an offset. -/
def isStoreTo (offset : UInt32) (store : Instr) : Option (Option UInt64) :=
  match store.op with
  | .store v p => (envOffset getName f p).map fun o => if o = some offset then v.constInt? else none
  | _ => some none

def isStoreToPC : Instr → Option (Option UInt64) := isStoreTo getName f pc_offset

def isStoreToLR : Instr → Option (Option UInt64) := isStoreTo getName f lr_offset

/-- One instruction; the state is the last constants stored to `PC` and to `LR`. -/
def scanInstr (last : Option UInt64 × Option UInt64) (ins : Instr) :
    Option (Option UInt64 × Option UInt64) := do
  let constStoreToPC ← isStoreToPC getName f ins
  let constStoreToLR ← isStoreToLR getName f ins
  pure (constStoreToPC.or last.1, constStoreToLR.or last.2)

def runOnBlock (st : Targets) (bb : BasicBlock) : Option Targets :=
  if bb.returns then do
    let (pc, lr) ← bb.instrs.foldlM (scanInstr getName f) (none, none)
    let targetPCs := st.targetPCs ++ pc.toList
    match lr, st.implicitTargetPC with
    | none, _ => some ⟨targetPCs, st.implicitTargetPC⟩
    | some lr, none => some ⟨targetPCs ++ [lr], some lr⟩
    | some _, some _ => none
  else some st

def runOnFunction : Option Targets := f.blocks.foldlM (runOnBlock getName f) ⟨[], none⟩

end

/-! ## Stores to a register -/

variable {getName : Value → String} {f : Func} {offset : UInt32} {bb : BasicBlock} {ins : Instr}

/-- The index of every address is there. -/
def Decodable (getName : Value → String) (f : Func) : Prop :=
  ∀ bb ∈ f.blocks, bb.returns = true → ∀ ins ∈ bb.instrs, ∀ v p, ins.op = .store v p →
    (envOffset getName f p).isSome = true

/-- What an instruction stores to the register at an offset. -/
def storedAt (getName : Value → String) (f : Func) (offset : UInt32) (ins : Instr) : Option Value :=
  match ins.op with
  | .store v p => if envOffset getName f p = some (some offset) then some v else none
  | _ => none

/-- What a basic block stores to the register at an offset, in order. -/
def storesAt (getName : Value → String) (f : Func) (offset : UInt32)
    (bb : BasicBlock) : List Value :=
  bb.instrs.filterMap (storedAt getName f offset)

/-- The constant of the last constant store. -/
def lastConst (vs : List Value) : Option UInt64 := (vs.filterMap Value.constInt?).getLast?

/-- The constant of the last store, if that is constant. -/
def constOfLast (vs : List Value) : Option UInt64 := vs.getLast?.bind Value.constInt?

theorem lastConst_cons (v : Value) (vs : List Value) :
    lastConst (v :: vs) = (lastConst vs).or v.constInt? := by
  unfold lastConst
  cases hv : v.constInt? with
  | none => rw [List.filterMap_cons_none hv, Option.or_none]
  | some c =>
    rw [List.filterMap_cons_some hv, List.getLast?_cons]
    cases (vs.filterMap Value.constInt?).getLast? <;> rfl

theorem isStoreTo_eq (h : ∀ v p, ins.op = .store v p → (envOffset getName f p).isSome = true)
    (offset : UInt32) :
    isStoreTo getName f offset ins =
      some ((storedAt getName f offset ins).bind Value.constInt?) := by
  unfold isStoreTo storedAt
  cases hop : ins.op with
  | store v p =>
    obtain ⟨o, ho⟩ := Option.isSome_iff_exists.mp (h v p hop)
    simp only [ho, Option.map_some, Option.some.injEq]
    split_ifs <;> rfl
  | _ => rfl

/-- The loop over a basic block. -/
theorem foldlM_scanInstr {is : List Instr}
    (h : ∀ ins ∈ is, ∀ v p, ins.op = .store v p → (envOffset getName f p).isSome = true)
    (pc lr : Option UInt64) : is.foldlM (scanInstr getName f) (pc, lr) =
      some ((lastConst (is.filterMap (storedAt getName f pc_offset))).or pc,
        (lastConst (is.filterMap (storedAt getName f lr_offset))).or lr) := by
  induction is generalizing pc lr with
  | nil => rfl
  | cons ins is ih =>
    have ⟨hins, his⟩ := List.forall_mem_cons.mp h
    have hcons (offset : UInt32) (last : Option UInt64) :
        (lastConst ((ins :: is).filterMap (storedAt getName f offset))).or last =
          (lastConst (is.filterMap (storedAt getName f offset))).or
            (((storedAt getName f offset ins).bind Value.constInt?).or last) := by
      cases hs : storedAt getName f offset ins with
      | none => rw [List.filterMap_cons_none hs]; rfl
      | some v => rw [List.filterMap_cons_some hs, lastConst_cons, Option.or_assoc]; rfl
    have hstep : scanInstr getName f (pc, lr) ins =
        some (((storedAt getName f pc_offset ins).bind Value.constInt?).or pc,
          ((storedAt getName f lr_offset ins).bind Value.constInt?).or lr) := by
      unfold scanInstr isStoreToPC isStoreToLR
      rw [isStoreTo_eq hins, isStoreTo_eq hins]
      rfl
    rw [List.foldlM_cons, hstep, Option.bind_eq_bind, Option.bind_some, ih his, hcons, hcons]

/-! ## Whole blocks -/

section

variable (getName f)

/-- The constant a returning basic block stores to `LR`. -/
def implicitOf (bb : BasicBlock) : Option UInt64 :=
  if bb.returns then lastConst (storesAt getName f lr_offset bb) else none

/-- What a basic block adds to the targets. -/
def targetsOf (bb : BasicBlock) : List UInt64 :=
  if bb.returns then (lastConst (storesAt getName f pc_offset bb)).toList ++
    (implicitOf getName f bb).toList else []

end

theorem runOnBlock_of_not_returns {bb : BasicBlock} (hret : bb.returns = false) (st : Targets) :
    runOnBlock getName f st bb = some st := by
  rw [runOnBlock, hret]
  rfl

/-- The assert fails at the second implicit target. -/
theorem runOnBlock_of_returns {bb : BasicBlock} (hret : bb.returns = true)
    (h : ∀ ins ∈ bb.instrs, ∀ v p, ins.op = .store v p → (envOffset getName f p).isSome = true)
    (st : Targets) : runOnBlock getName f st bb =
      match lastConst (storesAt getName f lr_offset bb), st.implicitTargetPC with
      | none, _ =>
        some ⟨st.targetPCs ++ (lastConst (storesAt getName f pc_offset bb)).toList,
          st.implicitTargetPC⟩
      | some lr, none =>
        some ⟨st.targetPCs ++ (lastConst (storesAt getName f pc_offset bb)).toList ++ [lr], some lr⟩
      | some _, some _ => none := by
  have hscan := foldlM_scanInstr h none none
  rw [Option.or_none, Option.or_none] at hscan
  rw [runOnBlock, hret, if_pos rfl, hscan]
  rfl

/-- The assert allows one implicit target. -/
theorem foldlM_runOnBlock {bbs : List BasicBlock} (h : ∀ bb ∈ bbs, bb.returns = true →
    ∀ ins ∈ bb.instrs, ∀ v p,
      ins.op = .store v p → (envOffset getName f p).isSome = true) (st : Targets) :
    bbs.foldlM (runOnBlock getName f) st =
      if (st.implicitTargetPC.toList ++ bbs.filterMap (implicitOf getName f)).length ≤ 1 then
        some ⟨st.targetPCs ++ bbs.flatMap (targetsOf getName f),
          (st.implicitTargetPC.toList ++ bbs.filterMap (implicitOf getName f)).head?⟩
      else none := by
  induction bbs generalizing st with
  | nil =>
    obtain ⟨targetPCs, implicit⟩ := st
    cases implicit <;> simp
  | cons bb bbs ih =>
    have ⟨hbb, hbbs⟩ := List.forall_mem_cons.mp h
    rw [List.foldlM_cons, List.flatMap_cons]
    cases hret : bb.returns with
    | false =>
      have himp : implicitOf getName f bb = none := by rw [implicitOf, hret]; rfl
      have htargets : targetsOf getName f bb = [] := by rw [targetsOf, hret]; rfl
      rw [runOnBlock_of_not_returns hret, Option.bind_eq_bind, Option.bind_some, ih hbbs,
        List.filterMap_cons_none himp, htargets, List.nil_append]
    | true =>
      have himp : implicitOf getName f bb = lastConst (storesAt getName f lr_offset bb) := by
        rw [implicitOf, hret]; rfl
      have htargets : targetsOf getName f bb =
          (lastConst (storesAt getName f pc_offset bb)).toList ++
          (lastConst (storesAt getName f lr_offset bb)).toList := by
        rw [targetsOf, hret, himp]
        rfl
      rw [runOnBlock_of_returns hret (hbb hret), htargets]
      cases hlr : lastConst (storesAt getName f lr_offset bb) with
      | none =>
        rw [List.filterMap_cons_none (himp.trans hlr)]
        simp only [Option.bind_eq_bind, Option.bind_some]
        rw [ih hbbs]
        simp
      | some lr =>
        rw [List.filterMap_cons_some (himp.trans hlr)]
        -- a second implicit target fails the assert
        cases hst : st.implicitTargetPC with
        | none =>
          simp only [Option.bind_eq_bind, Option.bind_some]
          rw [ih hbbs]
          simp
        | some lr' => simp

theorem runOnFunction_eq (h : Decodable getName f) : runOnFunction getName f =
    if (f.blocks.filterMap (implicitOf getName f)).length ≤ 1 then
      some ⟨f.blocks.flatMap (targetsOf getName f),
        (f.blocks.filterMap (implicitOf getName f)).head?⟩
    else none := by
  rw [runOnFunction, foldlM_runOnBlock h]
  rfl

/-! ## The reported targets -/

/-- What a basic block is left with: the constants of its last stores to `PC` and to `LR`, if these
are constant. -/
def lastTargetsOf (getName : Value → String) (f : Func) (bb : BasicBlock) : List UInt64 :=
  if bb.returns then (constOfLast (storesAt getName f pc_offset bb)).toList ++
    (constOfLast (storesAt getName f lr_offset bb)).toList else []

/-- Of every returning basic block the constant of its last store to `PC` is reported, if that is
constant, then the one of its last store to `LR`, and nothing else. -/
def Reports (getName : Value → String) (f : Func) : Prop :=
  ∃ r, runOnFunction getName f = some r ∧ r.targetPCs = f.blocks.flatMap (lastTargetsOf getName f)

/-- Some store is constant. -/
def storesConst (vs : List Value) : Bool := vs.any fun v => v.constInt?.isSome

/-- There is a constant store, and one after it that is not. -/
def Stale (vs : List Value) : Prop :=
  (∃ v ∈ vs, v.constInt?.isSome = true) ∧ ∃ v, vs.getLast? = some v ∧
    v.constInt? = none

theorem lastConst_append_singleton (vs : List Value) (v : Value) :
    lastConst (vs ++ [v]) = v.constInt?.or (lastConst vs) := by
  unfold lastConst
  rw [List.filterMap_append]
  cases hv : v.constInt? with
  | none => rw [List.filterMap_cons_none hv]; simp
  | some c => rw [List.filterMap_cons_some hv]; simp

theorem constOfLast_eq_iff (vs : List Value) : constOfLast vs = lastConst vs ↔ ¬ Stale vs := by
  unfold constOfLast Stale
  induction vs using List.reverseRecOn with
  | nil => simp [lastConst]
  | append_singleton vs v _ =>
    rw [lastConst_append_singleton, List.getLast?_concat, Option.bind_some]
    cases hv : v.constInt? with
    | some c => simp [hv]
    | none =>
      have hconst : none = lastConst vs ↔ ∀ v ∈ vs, v.constInt? = none := by
        unfold lastConst
        rw [eq_comm, List.getLast?_eq_none_iff, List.filterMap_eq_nil_iff]
      rw [Option.none_or, hconst]
      simp [hv]

theorem toList_inj {o o' : Option UInt64} : o.toList = o'.toList ↔ o = o' := by
  cases o <;> cases o' <;> simp

theorem length_constOfLast_le (vs : List Value) :
    (constOfLast vs).toList.length ≤ (lastConst vs).toList.length := by
  by_cases h : Stale vs
  · obtain ⟨v, hlast, hv⟩ := h.2
    simp [constOfLast, hlast, hv]
  · rw [(constOfLast_eq_iff vs).mpr h]

theorem isSome_lastConst (vs : List Value) : (lastConst vs).isSome = storesConst vs := by
  unfold lastConst storesConst
  rw [Bool.eq_iff_iff, List.getLast?_isSome, List.any_eq_true, Ne, List.filterMap_eq_nil_iff]
  simp [Option.isSome_iff_ne_none]

/-- The implicit targets are as many as there are returning basic blocks with a constant store to
`LR`. -/
theorem length_filterMap_implicitOf (bbs : List BasicBlock) :
    (bbs.filterMap (implicitOf getName f)).length =
      bbs.countP fun bb => bb.returns && storesConst (storesAt getName f lr_offset bb) := by
  rw [List.length_filterMap_eq_countP]
  refine List.countP_congr fun bb _ => ?_
  unfold implicitOf
  cases bb.returns with
  | false => rfl
  | true => rw [if_pos rfl, isSome_lastConst, Bool.true_and]

/-- What is reported for a basic block is what it is left with, unless it has a stale constant. -/
theorem lastTargetsOf_eq_iff (bb : BasicBlock) :
    lastTargetsOf getName f bb = targetsOf getName f bb ↔ (bb.returns = true →
      ¬ Stale (storesAt getName f pc_offset bb) ∧ ¬ Stale (storesAt getName f lr_offset bb)) := by
  unfold lastTargetsOf targetsOf implicitOf
  split_ifs with hret
  · simp only [← constOfLast_eq_iff, ← toList_inj]
    constructor
    · intro heq _
      -- neither part is longer than the reported one, so they are equal part by part
      have hpc := length_constOfLast_le (storesAt getName f pc_offset bb)
      have hlr := length_constOfLast_le (storesAt getName f lr_offset bb)
      have hlen := congrArg List.length heq
      rw [List.length_append, List.length_append] at hlen
      exact List.append_inj heq (by omega)
    · intro h
      rw [(h hret).1, (h hret).2]
  · exact ⟨fun _ h => absurd h hret, fun _ => rfl⟩

theorem length_lastTargetsOf_le (bb : BasicBlock) :
    (lastTargetsOf getName f bb).length ≤ (targetsOf getName f bb).length := by
  unfold lastTargetsOf targetsOf implicitOf
  split_ifs
  · rw [List.length_append, List.length_append]
    exact Nat.add_le_add (length_constOfLast_le _) (length_constOfLast_le _)
  · exact Nat.le_refl _

theorem decodable_of_eq_some {r : Targets} (h : runOnFunction getName f = some r) :
    Decodable getName f := by
  intro bb hbb hret ins hins v p hop
  obtain ⟨st, st', hblock⟩ := OptionMapM.exists_step h hbb
  rw [runOnBlock, if_pos hret] at hblock
  obtain ⟨last, hscan, -⟩ := Option.bind_eq_some_iff.mp hblock
  obtain ⟨c, c', hins'⟩ := OptionMapM.exists_step hscan hins
  obtain ⟨pc, hpc, -⟩ := Option.bind_eq_some_iff.mp hins'
  unfold isStoreToPC isStoreTo at hpc
  rw [hop] at hpc
  obtain ⟨o, ho, -⟩ := Option.map_eq_some_iff.mp hpc
  rw [ho]
  rfl

/-- **The targets are those of the last stores to `PC` and `LR` exactly when no returning basic
block has a constant store to one of the two and a last one to it that is not constant, not two of
them store a constant to `LR`, and all indices are there.** -/
theorem reports_iff (getName : Value → String) (f : Func) : Reports getName f ↔
    Decodable getName f ∧
    (f.blocks.countP fun bb => bb.returns && storesConst (storesAt getName f lr_offset bb)) ≤ 1 ∧
    ∀ bb ∈ f.blocks, bb.returns = true →
      ¬ Stale (storesAt getName f pc_offset bb) ∧ ¬ Stale (storesAt getName f lr_offset bb) := by
  have hspec : f.blocks.flatMap (lastTargetsOf getName f) = f.blocks.flatMap (targetsOf getName f) ↔
      ∀ bb ∈ f.blocks, bb.returns = true →
        ¬ Stale (storesAt getName f pc_offset bb) ∧ ¬ Stale (storesAt getName f lr_offset bb) :=
    (Lists.flatMap_eq_iff fun bb _ => length_lastTargetsOf_le bb).trans
      (forall₂_congr fun bb _ => lastTargetsOf_eq_iff bb)
  rw [← length_filterMap_implicitOf]
  constructor
  · rintro ⟨r, hr, hrep⟩
    have hdec : Decodable getName f := decodable_of_eq_some hr
    rw [runOnFunction_eq hdec] at hr
    split_ifs at hr with hlen
    obtain rfl := Option.some.inj hr
    exact ⟨hdec, hlen, hspec.mp hrep.symm⟩
  · rintro ⟨hdec, hlen, hstale⟩
    exact ⟨_, (runOnFunction_eq hdec).trans (if_pos hlen), (hspec.mpr hstale).symm⟩

/-- The names of S2E: the environment is loaded into `env_v`. -/
def envName : Value → String
  | .inst 0 => "env_v"
  | _ => ""

/-- `pop {pc}` at `0x1000`: the program counter is updated with the address of the instruction
first. -/
def popPC : Func := ⟨"tcg-llvm-tb-1000", [⟨0, "entry", [
  ⟨some 0, .load .undef, []⟩,
  ⟨some 1, .binop .add (.inst 0) (.constInt 64 0xc0), []⟩,
  ⟨some 2, .other IntToPtr [.inst 1], []⟩,
  ⟨some 3, .store (.constInt 32 0x1000) (.inst 2), []⟩,
  ⟨some 4, .call (.func "__ldl_mmu") [.constInt 32 0x2000, .constInt 32 0], []⟩,
  ⟨some 5, .binop .add (.inst 0) (.constInt 64 0xc0), []⟩,
  ⟨some 6, .other IntToPtr [.inst 5], []⟩,
  ⟨some 7, .store (.inst 4) (.inst 6), []⟩,
  ⟨some 8, .ret (some (.constInt 64 0)), []⟩]⟩]⟩

/-- The address of the instruction is reported. -/
theorem not_reports_popPC : ¬ Reports envName popPC := by
  rintro ⟨r, hr, hrep⟩
  obtain rfl : ⟨[0x1000], none⟩ = r := Option.some.inj
    ((by decide : runOnFunction envName popPC = some _).symm.trans hr)
  revert hrep
  decide

end ExtractPossibleTargetsPass

end Bin2llvm
