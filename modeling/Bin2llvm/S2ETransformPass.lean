import Bin2llvm.DeadBlocks
import Bin2llvm.Lib.HexText
import Bin2llvm.Lib.Lists
import Mathlib.Data.List.TakeWhile

/-!
# Bin2llvm.S2ETransformPass — from the CPU state to global registers

The first argument of a translated block points to the environment pointer.  The pass follows the
uses of what is loaded from there, adds up constant offsets, and replaces the loads and stores it
comes to by accesses to globals that are named after the offset.  This is the ARM build; a failed
`dyn_cast` and a double erase are `none`.

* `getGlobalName`: the names, which differ at different offsets.
* `processEnvUse`, `processArgUse`, `runOnFunction`: the pass.
* `OnlyAdds`: the parts of the pass add to the lists, and take nothing away.
* `Visited`: a part of the pass that has run.
* `Visited.replaced`: what is there of an access in the end.
* `map_returns_runOnFunction`: the basic blocks return as before.
* `runOnFunction_eq_of_le`: where values come before their uses, the recursion ends.
-/

namespace Bin2llvm.S2ETransformPass

/-! ## Names -/

def cpu_offset_names_arm : List (UInt32 × String) :=
  [(0x000000cc, "thumb"), (0x00000080, "ZF"), (0x00000074, "CF"), (0x00000078, "VF"),
    (0x0000007c, "NF"), (0x000000c0, "PC"), (0x000000bc, "LR"), (0x000000b8, "SP"),
    (0x000000b4, "R12"), (0x000000b0, "R11"), (0x000000ac, "R10"), (0x000000a8, "R9"),
    (0x000000a4, "R8"), (0x000000a0, "R7"), (0x0000009c, "R6"),
    (0x00000098, "R5"), (0x00000094, "R4"), (0x00000090, "R3"), (0x0000008c, "R2"),
    (0x00000088, "R1"), (0x00000084, "R0"), (0x0001e8d8, "s2e_icount"), (0x000004a8, "current_tb"),
      (0x000004b0, "s2e_icount_before_tb")]

/-- `"GLOBAL_@"`, and the offset through `std::hex`. -/
def offsetName (offset : UInt32) : String :=
  "GLOBAL_@" ++ String.ofList (Nat.toDigits 16 offset.toNat)

def getGlobalName (offset : UInt32) : String :=
  (cpu_offset_names_arm.lookup offset).getD (offsetName offset)

theorem offsetName_injective : Function.Injective offsetName := by
  intro o o' h
  have hlist := congrArg String.toList h
  simp only [offsetName, String.toList_append, String.toList_ofList,
    List.append_cancel_left_eq] at hlist
  have hnat := congrArg (HexText.takeNum 0) hlist
  rw [HexText.takeNum_toDigits, HexText.takeNum_toDigits] at hnat
  exact UInt32.toNat_inj.mp hnat

/-- No register has the name of an offset. -/
theorem name_ne_offsetName {p : UInt32 × String} (hp : p ∈ cpu_offset_names_arm) (offset : UInt32) :
    p.2 ≠ offsetName offset := by
  intro h
  have hpre : "GLOBAL_@".toList <+: p.2.toList := by
    rw [h, offsetName, String.toList_append]
    exact List.prefix_append _ _
  have hnone : ∀ q ∈ cpu_offset_names_arm, ¬ "GLOBAL_@".toList <+: q.2.toList := by decide
  exact hnone p hp hpre

theorem getGlobalName_injective : Function.Injective getGlobalName := by
  intro o o' h
  unfold getGlobalName at h
  cases ho : cpu_offset_names_arm.lookup o with
  | none =>
    cases ho' : cpu_offset_names_arm.lookup o' with
    | none =>
      rw [ho, ho'] at h
      exact offsetName_injective h
    | some n' =>
      rw [ho, ho'] at h
      exact absurd h.symm (name_ne_offsetName (Lists.mem_of_lookup ho') o)
  | some n =>
    cases ho' : cpu_offset_names_arm.lookup o' with
    | none =>
      rw [ho, ho'] at h
      exact absurd h (name_ne_offsetName (Lists.mem_of_lookup ho) o')
    | some n' =>
      rw [ho, ho'] at h
      have hunique : ∀ p ∈ cpu_offset_names_arm, ∀ q ∈ cpu_offset_names_arm, p.2 = q.2 →
        p.1 = q.1 := by decide
      exact hunique _ (Lists.mem_of_lookup ho) _ (Lists.mem_of_lookup ho') h

/-! ## The pass -/

/-- `Instruction::GetElementPtr`. -/
def GetElementPtr : ℕ := 29

/-- `isCast()`: the opcodes from `Trunc` to `BitCast`. -/
def isCast (opcode : ℕ) : Bool := 33 ≤ opcode && opcode ≤ 44

/-- What an index of a `getelementptr` goes into. -/
inductive IndexType where
  | struct (getElementOffset : UInt64 → UInt64)
  | sequential (typeAllocSize : UInt64)

/-- Names and types.  A load has the type of its result, a store the one of the stored value. -/
structure TypeInfo (Ty : Type) where
  getName : Value → String
  indexTypes : InstId → List IndexType
  accessType : InstId → Ty
  argType : Ty
  storeSize : Ty → UInt64

/-- The use lists of a function, in some order.  An instruction is there once for each operand. -/
structure UseLists (f : Func) where
  uses : Value → List Instr
  perm : ∀ v, (uses v).Perm (f.instrs.flatMap fun u => List.replicate (u.op.operands.count v) u)

/-- The types of the globals, and what `eraseList` and `replaceMap` hold: the accesses to replace
are there with the pointers of the new ones. -/
structure PassState (Ty : Type) where
  eraseList : List InstId
  replaceMap : List (InstId × Value)
  globals : List (String × Ty)

/-- A part of the pass, which reports whether it succeeded. -/
abbrev Process (Ty : Type) := PassState Ty → Option (Bool × PassState Ty)

/-- `getSExtValue()`, as 64 bits. -/
def getSExtValue (width : ℕ) (val : UInt64) : UInt64 :=
  UInt64.ofInt (BitVec.ofNat width val.toNat).toInt

/-- What a constant index adds to the offset. -/
def indexOffset (ty : IndexType) (width : ℕ) (val : UInt64) : UInt64 :=
  match ty with
  | .struct getElementOffset => getElementOffset val
  | .sequential typeAllocSize => typeAllocSize * getSExtValue width val

/-- The sum is an `int`, here by its bits, and -1 is also what an index that is no constant
gives. -/
def getGetElementPtrOffset (elementOffset : UInt32) : List (Value × IndexType) → Option UInt32
  | [] => some elementOffset
  | (.constInt width val, ty) :: rest =>
    if val = 0 then getGetElementPtrOffset elementOffset rest
    else getGetElementPtrOffset (elementOffset + (indexOffset ty width val).toUInt32) rest
  | (.arg _, _) :: _ | (.inst _, _) :: _ => some 0xffffffff
  | _ => none

section

variable {Ty : Type}

/-- The uses one after the other, whether they succeed or not. -/
def forUses (process : Instr → Process Ty) : List Instr → Process Ty
  | [], st => some (true, st)
  | use :: rest, st => do
    let (ok, st) ← process use st
    let (oks, st) ← forUses process rest st
    some (ok && oks, st)

/-- The instruction is erased if all its uses are. -/
def eraseAfter (id : InstId) (process : Process Ty) : Process Ty := fun st => do
  let (ok, st) ← process st
  some (ok, if ok then { st with eraseList := st.eraseList ++ [id] } else st)

def isEnvLoad (T : TypeInfo Ty) (ins : Instr) : Bool :=
  match ins.op with
  | .load ptr => decide (T.getName ptr = "env")
  | _ => false

variable [DecidableEq Ty]

/-- A global that is there with another type is cast. -/
def getOrInsertGlobal (globals : List (String × Ty)) (name : String) (ty : Ty) :
    Value × List (String × Ty) :=
  match globals.lookup name with
  | none => (.global name, globals ++ [(name, ty)])
  | some ty' => (if ty' = ty then .global name else .constCast (.global name), globals)

variable (T : TypeInfo Ty) {f : Func} (U : UseLists f)

/-- The new access stands for the old one, which is erased. -/
def replaceAccess (id : InstId) (currentOffset : UInt32) : Process Ty := fun st =>
  let (global, globals) := getOrInsertGlobal st.globals (getGlobalName currentOffset)
    (T.accessType id)
  some (true, ⟨st.eraseList ++ [id],
    if (st.replaceMap.lookup id).isSome then st.replaceMap
    else st.replaceMap ++ [(id, global)], globals⟩)

/-- A use of a value that is the environment pointer and an offset; `fuel` bounds the depth of the
recursion. -/
def processEnvUse : ℕ → Value → Instr → UInt32 → Process Ty
  | 0, _, _, _ => fun _ => none
  | fuel + 1, envPointer, use, currentOffset => fun st =>
    use.id.bind fun id =>
      let propagate (offset : UInt32) : Process Ty :=
        eraseAfter id (forUses (fun u => processEnvUse fuel (.inst id) u offset)
          (U.uses (.inst id)))
      match use.op with
      | .other opcode args =>
        if isCast opcode then propagate currentOffset st
        else if opcode = GetElementPtr then
          (getGetElementPtrOffset 0 ((args.drop 1).zip (T.indexTypes id))).bind fun offset =>
            if offset = 0xffffffff then some (false, st) else propagate (currentOffset + offset) st
        else some (false, st)
      | .binop .add _ (.constInt width val) =>
        propagate (currentOffset + (getSExtValue width val).toUInt32) st
      | .load _ => replaceAccess T id currentOffset st
      | .store _ ptr =>
        if ptr = envPointer then replaceAccess T id currentOffset st else some (false, st)
      | _ => some (false, st)

/-- A use of the argument, or a load from `env`. -/
def processArgUse : ℕ → Instr → Process Ty
  | 0, _ => fun _ => none
  | fuel + 1, use => fun st =>
    use.id.bind fun id =>
      let propagate : Process Ty := eraseAfter id (forUses (processArgUse fuel) (U.uses (.inst id)))
      match use.op with
      | .other opcode args =>
        if isCast opcode then propagate st
        else if opcode = GetElementPtr then
          match args with
          | [_, .constInt _ val] => if val = 0 then propagate st else some (false, st)
          | _ => some (false, st)
        else some (false, st)
      | .load _ =>
        eraseAfter id (forUses (fun u => processEnvUse T U fuel (.inst id) u 0)
          (U.uses (.inst id))) st
      | _ => some (false, st)

end

/-- An identity no instruction of the function has. -/
def freshInstId (f : Func) : InstId := (f.instrs.filterMap Instr.id).foldr max 0 + 1

/-- The new access through another pointer. -/
def withPointer (ptr : Value) : Op → Op
  | .store v _ => .store v ptr
  | .load _ => .load ptr
  | o => o

/-- What stands for an instruction after `cleanup`.  The argument is replaced by `loadEnv`. -/
def newIns {Ty : Type} (st : PassState Ty) (loadEnv : InstId) (ins : Instr) : Option Instr :=
  match ins.id.bind fun id => st.replaceMap.lookup id with
  | some ptr =>
    some ⟨ins.id, withPointer ptr (ins.op.mapValues (replaceValue (.arg 0) (.inst loadEnv))), []⟩
  | none =>
    if ins.id.any (· ∈ st.eraseList) then none
    else some (ins.mapValues (replaceValue (.arg 0) (.inst loadEnv)))

/-- At `getFirstInsertionPt()` of the entry block. -/
def insertLoad (f : Func) (ins : Instr) : Func :=
  match f.blocks with
  | [] => f
  | entry :: bbs =>
    { f with blocks := { entry with
        instrs := entry.instrs.takeWhile Instr.isPhi ++ ins :: entry.instrs.dropWhile
          Instr.isPhi } :: bbs }

/-- The function after the pass, and the globals of the module. -/
def runOnFunction {Ty : Type} [DecidableEq Ty] (T : TypeInfo Ty) (f : Func)
    (U : UseLists f) (fuel : ℕ) (globals : List (String × Ty)) :
    Option (Func × List (String × Ty)) := do
  let (argOk, st) ← forUses (processArgUse T U fuel) (U.uses (.arg 0)) ⟨[], [], globals⟩
  let (envOk, st) ← forUses (processArgUse T U fuel) (f.instrs.filter (isEnvLoad T)) st
  let (globalEnv, globals) := getOrInsertGlobal st.globals "CPUSTATE" T.argType
  let loadEnv := freshInstId f
  if st.eraseList.Nodup then
    let f' := f.mapBlocks fun bb => { bb with instrs := bb.instrs.filterMap (newIns st loadEnv) }
    some (if argOk && envOk then f' else insertLoad f' ⟨some loadEnv, .load globalEnv, []⟩, globals)
  else none

/-! ## What the pass adds -/

section

variable {Ty : Type}

/-- The accesses to replace are erased. -/
def PassState.Kept (st : PassState Ty) : Prop := ∀ p ∈ st.replaceMap, p.1 ∈ st.eraseList

/-- One state comes before another. -/
structure Grows (st st' : PassState Ty) : Prop where
  eraseList : st.eraseList <+: st'.eraseList
  replaceMap : st.replaceMap <+: st'.replaceMap
  globals : st.globals <+: st'.globals
  kept : st.Kept → st'.Kept

theorem Grows.refl (st : PassState Ty) : Grows st st :=
  ⟨List.prefix_rfl, List.prefix_rfl, List.prefix_rfl, fun h => h⟩

theorem Grows.trans {st st' st'' : PassState Ty} (h : Grows st st')
    (h' : Grows st' st'') : Grows st st'' :=
  ⟨h.eraseList.trans h'.eraseList, h.replaceMap.trans h'.replaceMap,
      h.globals.trans h'.globals, fun hk =>
    h'.kept (h.kept hk)⟩

theorem Grows.erase (st : PassState Ty) (id : InstId) :
    Grows st { st with eraseList := st.eraseList ++ [id] } :=
  ⟨List.prefix_append _ _, List.prefix_rfl, List.prefix_rfl, fun hk p hp =>
    List.mem_append_left _ (hk p hp)⟩

def OnlyAdds (process : Process Ty) : Prop :=
  ∀ {st b st'}, process st = some (b, st') → Grows st st'

theorem forUses_cons {process : Instr → Process Ty} {use : Instr} {rest : List Instr}
    {st st' : PassState Ty} {b : Bool} (h : forUses process (use :: rest) st = some (b, st')) :
    ∃ ok oks mid, process use st = some (ok, mid) ∧
      forUses process rest mid = some (oks, st') ∧ b = (ok && oks) := by
  simp only [forUses, Option.bind_eq_bind, Option.bind_eq_some_iff, Prod.exists, Option.some.injEq,
    Prod.mk.injEq] at h
  obtain ⟨ok, mid, huse, oks, st'', hrest, rfl, rfl⟩ := h
  exact ⟨ok, oks, mid, huse, hrest, rfl⟩

theorem eraseAfter_eq {id : InstId} {process : Process Ty} {st st' : PassState Ty} {b : Bool}
    (h : eraseAfter id process st = some (b, st')) :
    ∃ mid, process st = some (b, mid) ∧
      st' = if b then { mid with eraseList := mid.eraseList ++ [id] } else mid := by
  simp only [eraseAfter, Option.bind_eq_bind, Option.bind_eq_some_iff, Prod.exists,
    Option.some.injEq, Prod.mk.injEq] at h
  obtain ⟨ok, mid, hmid, rfl, rfl⟩ := h
  exact ⟨mid, hmid, rfl⟩

theorem onlyAdds_forUses {process : Instr → Process Ty} (h : ∀ use, OnlyAdds (process use))
    (uses : List Instr) : OnlyAdds (forUses process uses) := by
  induction uses with
  | nil =>
    intro st b st' hrun
    simp only [forUses, Option.some.injEq, Prod.mk.injEq] at hrun
    exact hrun.2 ▸ Grows.refl st
  | cons use rest ih =>
    intro st b st' hrun
    obtain ⟨ok, oks, mid, huse, hrest, -⟩ := forUses_cons hrun
    exact (h use huse).trans (ih hrest)

theorem grows_erase_ite (st : PassState Ty) (b : Bool) (id : InstId) :
    Grows st (if b then { st with eraseList := st.eraseList ++ [id] } else st) := by
  cases b with
  | true => exact Grows.erase st id
  | false => exact Grows.refl st

theorem onlyAdds_eraseAfter {process : Process Ty} (h : OnlyAdds process) (id : InstId) :
    OnlyAdds (eraseAfter id process) := by
  intro st b st' hrun
  obtain ⟨mid, hmid, rfl⟩ := eraseAfter_eq hrun
  exact (h hmid).trans (grows_erase_ite mid b id)

theorem eq_of_failed {st st' : PassState Ty} {b : Bool} (h : some (false, st) = some (b, st')) :
    b = false ∧ st' = st := by
  rw [Option.some.injEq, Prod.mk.injEq] at h
  exact ⟨h.1.symm, h.2.symm⟩

theorem forUses_congr {process process' : Instr → Process Ty} {uses : List Instr}
    (h : ∀ use ∈ uses, process use = process' use) :
    forUses process uses = forUses process' uses := by
  induction uses with
  | nil => rfl
  | cons use rest ih =>
    have ⟨huse, hrest⟩ := List.forall_mem_cons.mp h
    funext st
    simp only [forUses, huse, ih hrest]

/-! ## What has run -/

/-- A part of the pass that has run on the way to `final`. -/
def Visited (final : PassState Ty) (process : Process Ty) : Prop :=
  ∃ st b st', process st = some (b, st') ∧ st.Kept ∧ Grows st' final

namespace Visited

variable {final : PassState Ty}

theorem mono {final' : PassState Ty} {process : Process Ty} (h : Visited final process)
    (hg : Grows final final') : Visited final' process := by
  obtain ⟨st, b, st', hrun, hk, hst'⟩ := h
  exact ⟨st, b, st', hrun, hk, hst'.trans hg⟩

theorem of_eraseAfter {id : InstId} {process : Process Ty}
    (h : Visited final (eraseAfter id process)) : Visited final process := by
  obtain ⟨st, b, st', hrun, hk, hg⟩ := h
  obtain ⟨mid, hmid, rfl⟩ := eraseAfter_eq hrun
  exact ⟨st, b, mid, hmid, hk, (grows_erase_ite mid b id).trans hg⟩

theorem of_forUses {process : Instr → Process Ty} (hadds : ∀ use, OnlyAdds (process use))
    {use : Instr} {uses : List Instr} (h : Visited final (forUses process uses))
    (huse : use ∈ uses) : Visited final (process use) := by
  induction uses with
  | nil => exact absurd huse List.not_mem_nil
  | cons u rest ih =>
    obtain ⟨st, b, st', hrun, hk, hg⟩ := h
    obtain ⟨ok, oks, mid, hu, hrest, -⟩ := forUses_cons hrun
    rcases List.mem_cons.mp huse with rfl | huse
    · exact ⟨st, ok, mid, hu, hk, (onlyAdds_forUses hadds rest hrest).trans hg⟩
    · exact ih ⟨mid, oks, st', hrest, (hadds u hu).kept hk, hg⟩ huse

end Visited

variable {f : Func}

theorem UseLists.mem_uses (U : UseLists f) {ins : Instr} {v : Value} :
    ins ∈ U.uses v ↔ ins ∈ f.instrs ∧ v ∈ ins.op.operands := by
  rw [(U.perm v).mem_iff, List.mem_flatMap]
  refine ⟨fun ⟨u, hu, h⟩ => ?_, fun ⟨hins, hv⟩ => ⟨ins, hins, ?_⟩⟩
  · obtain ⟨hne, rfl⟩ := List.mem_replicate.mp h
    exact ⟨hu, List.count_pos_iff.mp (Nat.pos_of_ne_zero hne)⟩
  · exact List.mem_replicate.mpr ⟨(List.count_pos_iff.mpr hv).ne', rfl⟩

theorem id_of_newIns {st : PassState Ty} {loadEnv : InstId} {ins ins' : Instr}
    (h : newIns st loadEnv ins = some ins') : ins'.id = ins.id := by
  unfold newIns at h
  split at h
  · rw [← Option.some.inj h]
  · split_ifs at h
    rw [← Option.some.inj h, Instr.id_mapValues]

/-! ## What is erased -/

/-- Only instructions of the function are erased, and no terminators. -/
def ErasesInner (f : Func) (st : PassState Ty) : Prop :=
  ∀ id ∈ st.eraseList, ∃ ins ∈ f.instrs, ins.id = some id ∧ ins.isTerminator = false

theorem ErasesInner.erase {st : PassState Ty} (h : ErasesInner f st) {ins : Instr} {id : InstId}
    (hins : ins ∈ f.instrs) (hid : ins.id = some id) (hinner : ins.isTerminator = false) :
    ErasesInner f { st with eraseList := st.eraseList ++ [id] } := by
  intro id' hid'
  rcases List.mem_append.mp hid' with hmem | hmem
  · exact h id' hmem
  · obtain rfl := List.mem_singleton.mp hmem
    exact ⟨ins, hins, hid, hinner⟩

/-- A part of the pass that erases no other instructions. -/
def KeepsTerminators (f : Func) (process : Process Ty) : Prop :=
  ∀ {st b st'}, process st = some (b, st') → ErasesInner f st → ErasesInner f st'

theorem keepsTerminators_forUses {process : Instr → Process Ty} {uses : List Instr}
    (h : ∀ use ∈ uses, KeepsTerminators f (process use)) :
    KeepsTerminators f (forUses process uses) := by
  induction uses with
  | nil =>
    intro st b st' hrun hst
    simp only [forUses, Option.some.injEq, Prod.mk.injEq] at hrun
    exact hrun.2 ▸ hst
  | cons use rest ih =>
    intro st b st' hrun hst
    have ⟨huse, hrest⟩ := List.forall_mem_cons.mp h
    obtain ⟨ok, oks, mid, hmid, hlast, -⟩ := forUses_cons hrun
    exact ih hrest hlast (huse hmid hst)

theorem keepsTerminators_eraseAfter {process : Process Ty} (h : KeepsTerminators f process)
    {ins : Instr} {id : InstId} (hins : ins ∈ f.instrs) (hid : ins.id = some id)
    (hinner : ins.isTerminator = false) : KeepsTerminators f (eraseAfter id process) := by
  intro st b st' hrun hst
  obtain ⟨mid, hmid, rfl⟩ := eraseAfter_eq hrun
  cases b with
  | true => exact (h hmid hst).erase hins hid hinner
  | false => exact h hmid hst

/-- A terminator stays, its operands replaced. -/
theorem newIns_of_isTerminator {st : PassState Ty} (hkept : st.Kept)
    (hinner : ErasesInner f st) {t : Instr} (hunique : ∀ ins ∈ f.instrs, ins.id.isSome = true →
      ins.id = t.id → ins.isTerminator = true) (loadEnv : InstId) :
    newIns st loadEnv t = some (t.mapValues (replaceValue (.arg 0) (.inst loadEnv))) := by
  have hnot : ∀ id, t.id = some id → id ∉ st.eraseList := by
    intro id hid hmem
    obtain ⟨ins, hins, hid', hinner⟩ := hinner id hmem
    rw [hunique ins hins (by rw [hid']; rfl) (hid'.trans hid.symm)] at hinner
    cases hinner
  unfold newIns
  cases hid : t.id with
  | none => rfl
  | some id =>
    have hlookup : st.replaceMap.lookup id = none := by
      cases hl : st.replaceMap.lookup id with
      | none => rfl
      | some ptr => exact absurd (hkept _ (Lists.mem_of_lookup hl)) (hnot id hid)
    simp [hlookup, hnot id hid]

/-! ## The parts of the pass -/

variable [DecidableEq Ty]

/-- The global, with or without a cast. -/
def globalOf : Value → Option String
  | .global g | .constCast (.global g) => some g
  | _ => none

theorem getOrInsertGlobal_spec (globals : List (String × Ty)) (name : String) (ty : Ty) :
    ∃ ty', globalOf (getOrInsertGlobal globals name ty).1 = some name ∧
      (getOrInsertGlobal globals name ty).2.lookup name = some ty' := by
  unfold getOrInsertGlobal
  cases h : globals.lookup name with
  | none => exact ⟨ty, rfl, by simp [List.lookup_append, h]⟩
  | some ty' =>
    refine ⟨ty', ?_, h⟩
    dsimp only
    split <;> rfl

theorem prefix_getOrInsertGlobal (globals : List (String × Ty)) (name : String) (ty : Ty) :
    globals <+: (getOrInsertGlobal globals name ty).2 := by
  unfold getOrInsertGlobal
  cases globals.lookup name with
  | none => exact List.prefix_append _ _
  | some ty' => exact List.prefix_rfl

variable {T : TypeInfo Ty} {U : UseLists f}

theorem onlyAdds_replaceAccess (id : InstId) (currentOffset : UInt32) :
    OnlyAdds (replaceAccess T id currentOffset) := by
  intro st b st' hrun
  simp only [replaceAccess, Option.some.injEq, Prod.mk.injEq] at hrun
  obtain ⟨rfl, rfl⟩ := hrun
  refine ⟨List.prefix_append _ _, ?_, prefix_getOrInsertGlobal _ _ _, fun hk p hp => ?_⟩
  · dsimp only
    split
    · exact List.prefix_rfl
    · exact List.prefix_append _ _
  · dsimp only at hp ⊢
    split at hp
    · exact List.mem_append_left _ (hk p hp)
    · rcases List.mem_append.mp hp with hp | hp
      · exact List.mem_append_left _ (hk p hp)
      · rw [List.mem_singleton.mp hp]
        exact List.mem_append_right _ (List.mem_singleton_self id)

/-- What a use of the environment pointer can do. -/
theorem processEnvUse_cases {fuel : ℕ} {envPointer : Value} {use : Instr} {currentOffset : UInt32}
    {st st' : PassState Ty} {b : Bool}
    (h : processEnvUse T U fuel envPointer use currentOffset st = some (b, st')) :
    (b = false ∧ st' = st) ∨ ∃ n id, fuel = n + 1 ∧ use.id = some id ∧ use.isTerminator = false ∧
      ((∃ offset, eraseAfter id (forUses (fun u => processEnvUse T U n (.inst id) u offset)
          (U.uses (.inst id))) st = some (b, st')) ∨
        replaceAccess T id currentOffset st = some (b, st')) := by
  cases fuel with
  | zero => exact absurd h (by simp [processEnvUse])
  | succ n =>
    rw [processEnvUse, Option.bind_eq_some_iff] at h
    obtain ⟨id, hid, h⟩ := h
    dsimp only at h
    split at h
    case h_1 opcode args hop =>
      split_ifs at h
      · exact Or.inr ⟨n, id, rfl, hid, congrArg Op.isTerminator hop, Or.inl ⟨_, h⟩⟩
      · obtain ⟨offset, -, h⟩ := Option.bind_eq_some_iff.mp h
        split_ifs at h
        · exact Or.inl (eq_of_failed h)
        · exact Or.inr ⟨n, id, rfl, hid, congrArg Op.isTerminator hop, Or.inl ⟨_, h⟩⟩
      · exact Or.inl (eq_of_failed h)
    case h_2 hop => exact Or.inr ⟨n, id, rfl, hid, congrArg Op.isTerminator hop, Or.inl ⟨_, h⟩⟩
    case h_3 hop => exact Or.inr ⟨n, id, rfl, hid, congrArg Op.isTerminator hop, Or.inr h⟩
    case h_4 hop =>
      split_ifs at h
      · exact Or.inr ⟨n, id, rfl, hid, congrArg Op.isTerminator hop, Or.inr h⟩
      · exact Or.inl (eq_of_failed h)
    case h_5 => exact Or.inl (eq_of_failed h)

theorem onlyAdds_processEnvUse (fuel : ℕ) :
    ∀ (envPointer : Value) (use : Instr) (currentOffset : UInt32),
      OnlyAdds (processEnvUse T U fuel envPointer use currentOffset) := by
  induction fuel with
  | zero =>
    intro envPointer use currentOffset st b st' hrun
    exact absurd hrun (by simp [processEnvUse])
  | succ n ih =>
    intro envPointer use currentOffset st b st' hrun
    rcases processEnvUse_cases hrun with ⟨-, rfl⟩ | ⟨n', id, hn, -, -, ⟨offset, h⟩ | h⟩
    · exact Grows.refl _
    · obtain rfl : n = n' := Nat.succ.inj hn
      exact onlyAdds_eraseAfter (onlyAdds_forUses (fun u => ih (.inst id) u offset) _) id h
    · exact onlyAdds_replaceAccess id currentOffset h

/-- What a use of the argument can do. -/
theorem processArgUse_cases {fuel : ℕ} {use : Instr} {st st' : PassState Ty} {b : Bool}
    (h : processArgUse T U fuel use st = some (b, st')) :
    (b = false ∧ st' = st) ∨ ∃ n id, fuel = n + 1 ∧ use.id = some id ∧ use.isTerminator = false ∧
      (eraseAfter id (forUses (processArgUse T U n) (U.uses (.inst id))) st = some (b, st') ∨
        eraseAfter id (forUses (fun u => processEnvUse T U n (.inst id) u 0) (U.uses (.inst id)))
          st = some (b, st')) := by
  cases fuel with
  | zero => exact absurd h (by simp [processArgUse])
  | succ n =>
    rw [processArgUse, Option.bind_eq_some_iff] at h
    obtain ⟨id, hid, h⟩ := h
    dsimp only at h
    split at h
    case h_1 opcode args hop =>
      split_ifs at h
      · exact Or.inr ⟨n, id, rfl, hid, congrArg Op.isTerminator hop, Or.inl h⟩
      · split at h
        · split_ifs at h
          · exact Or.inr ⟨n, id, rfl, hid, congrArg Op.isTerminator hop, Or.inl h⟩
          · exact Or.inl (eq_of_failed h)
        · exact Or.inl (eq_of_failed h)
      · exact Or.inl (eq_of_failed h)
    case h_2 hop => exact Or.inr ⟨n, id, rfl, hid, congrArg Op.isTerminator hop, Or.inr h⟩
    case h_3 => exact Or.inl (eq_of_failed h)

theorem onlyAdds_processArgUse (fuel : ℕ) :
    ∀ use : Instr, OnlyAdds (processArgUse T U fuel use) := by
  induction fuel with
  | zero =>
    intro use st b st' hrun
    exact absurd hrun (by simp [processArgUse])
  | succ n ih =>
    intro use st b st' hrun
    rcases processArgUse_cases hrun with ⟨-, rfl⟩ | ⟨n', id, hn, -, -, h | h⟩
    · exact Grows.refl _
    · obtain rfl : n = n' := Nat.succ.inj hn
      exact onlyAdds_eraseAfter (onlyAdds_forUses ih _) id h
    · exact onlyAdds_eraseAfter (onlyAdds_forUses (fun u =>
        onlyAdds_processEnvUse n' (.inst id) u 0) _) id h

/-- An instruction is not erased twice, so the global is the one of this visit. -/
theorem Visited.replaced {final : PassState Ty} {id : InstId} {currentOffset : UInt32}
    (h : Visited final (replaceAccess T id currentOffset)) (hnd : final.eraseList.Nodup) :
    ∃ ptr ty, final.replaceMap.lookup id = some ptr ∧
      globalOf ptr = some (getGlobalName currentOffset) ∧
      final.globals.lookup (getGlobalName currentOffset) = some ty := by
  obtain ⟨st, b, st', hrun, hk, hg⟩ := h
  simp only [replaceAccess, Option.some.injEq, Prod.mk.injEq] at hrun
  obtain ⟨-, rfl⟩ := hrun
  have hnew : id ∉ st.eraseList := by
    intro hid
    have := hnd.sublist hg.eraseList.sublist
    exact (List.nodup_append.mp this).2.2 id hid id (List.mem_singleton_self id) rfl
  have hnone : st.replaceMap.lookup id = none := by
    cases hl : st.replaceMap.lookup id with
    | none => rfl
    | some ptr => exact absurd (hk _ (Lists.mem_of_lookup hl)) hnew
  have hmap := hg.replaceMap
  have hglobals := hg.globals
  simp only [hnone, Option.isSome_none, Bool.false_eq_true, if_false] at hmap
  obtain ⟨ty, hname, hty⟩ := getOrInsertGlobal_spec st.globals (getGlobalName currentOffset)
    (T.accessType id)
  refine ⟨_, ty, hmap.lookup_eq_some ?_, hname, hglobals.lookup_eq_some hty⟩
  simp [List.lookup_append, hnone]

/-! ## The function after the pass -/

theorem instrs_filterMap (f : Func) (g : Instr → Option Instr) :
    (f.mapBlocks fun bb => { bb with instrs := bb.instrs.filterMap g }).instrs =
      f.instrs.filterMap g := by
  simp only [Func.instrs, Func.mapBlocks, List.flatMap_map, List.filterMap_flatMap]

theorem mem_instrs_insertLoad {ins ins' : Instr} (h : ins' ∈ f.instrs) :
    ins' ∈ (insertLoad f ins).instrs := by
  unfold insertLoad Func.instrs at *
  cases hb : f.blocks with
  | nil => rwa [hb] at h ⊢
  | cons entry bbs =>
    rw [hb, List.flatMap_cons, List.mem_append,
      ← List.takeWhile_append_dropWhile (p := Instr.isPhi) (l := entry.instrs),
        List.mem_append] at h
    simp only [List.flatMap_cons, List.mem_append, List.mem_cons]
    tauto

theorem of_mem_instrs_insertLoad {ins ins' : Instr} (h : ins' ∈ (insertLoad f ins).instrs) :
    ins' = ins ∨ ins' ∈ f.instrs := by
  unfold insertLoad Func.instrs at *
  cases hb : f.blocks with
  | nil =>
    simp only [hb] at h
    exact absurd h List.not_mem_nil
  | cons entry bbs =>
    rw [List.flatMap_cons, List.mem_append,
      ← List.takeWhile_append_dropWhile (p := Instr.isPhi) (l := entry.instrs), List.mem_append]
    simp only [hb, List.flatMap_cons, List.mem_append, List.mem_cons] at h
    tauto

theorem lt_freshInstId {ins : Instr} {id : InstId} (hins : ins ∈ f.instrs)
    (hid : ins.id = some id) : id < freshInstId f :=
  Nat.lt_succ_of_le (List.le_max_of_le' 0 (List.mem_filterMap.mpr ⟨ins, hins, hid⟩) le_rfl)

/-- What the pass has come to before `cleanup`, and what it makes of it. -/
theorem runOnFunction_eq {fuel : ℕ} {globals globals' : List (String × Ty)} {f' : Func}
    (h : runOnFunction T f U fuel globals = some (f', globals')) : ∃ final : PassState Ty,
      final.eraseList.Nodup ∧ final.globals <+: globals' ∧
      (∀ use ∈ U.uses (.arg 0), Visited final (processArgUse T U fuel use)) ∧
      (∀ use ∈ f.instrs.filter (isEnvLoad T), Visited final (processArgUse T U fuel use)) ∧
      (∀ ins ∈ f.instrs, ∀ ins', newIns final (freshInstId f) ins = some ins' → ins' ∈ f'.instrs) ∧
      ∀ ins' ∈ f'.instrs, ins'.id = some (freshInstId f) ∨
        ∃ ins ∈ f.instrs, newIns final (freshInstId f) ins = some ins' := by
  simp only [runOnFunction, Option.bind_eq_bind, Option.bind_eq_some_iff, Prod.exists] at h
  obtain ⟨argOk, mid, hargs, envOk, final, henvs, h⟩ := h
  have hargVisited : Visited mid (forUses (processArgUse T U fuel) (U.uses (.arg 0))) :=
    ⟨_, argOk, mid, hargs, fun p hp => absurd hp List.not_mem_nil, Grows.refl mid⟩
  have hkept : mid.Kept :=
    (onlyAdds_forUses (onlyAdds_processArgUse fuel) _ hargs).kept fun p hp =>
      absurd hp List.not_mem_nil
  have henvVisited : Visited final (forUses (processArgUse T U fuel)
      (f.instrs.filter (isEnvLoad T))) :=
    ⟨mid, envOk, final, henvs, hkept, Grows.refl final⟩
  -- what the first loop has added stays through the second one
  have hgrows : Grows mid final := onlyAdds_forUses (onlyAdds_processArgUse fuel) _ henvs
  have hnd : final.eraseList.Nodup := by
    by_contra hnd
    simp [if_neg hnd] at h
  rw [if_pos hnd, Option.some.injEq, Prod.mk.injEq] at h
  obtain ⟨rfl, rfl⟩ := h
  have hinstrs := instrs_filterMap f (newIns final (freshInstId f))
  refine ⟨final, hnd, prefix_getOrInsertGlobal _ _ _,
    fun use huse => (hargVisited.of_forUses (onlyAdds_processArgUse fuel) huse).mono hgrows,
    fun use huse => henvVisited.of_forUses (onlyAdds_processArgUse fuel) huse,
    fun ins hins ins' hnew => ?_, fun ins' hins' => ?_⟩
  · have hmem : ins' ∈ f.instrs.filterMap (newIns final (freshInstId f)) :=
      List.mem_filterMap.mpr ⟨ins, hins, hnew⟩
    split_ifs
    · rwa [hinstrs]
    · exact mem_instrs_insertLoad (by rwa [hinstrs])
  · split_ifs at hins'
    · rw [hinstrs] at hins'
      exact Or.inr (List.mem_filterMap.mp hins')
    · rcases of_mem_instrs_insertLoad hins' with rfl | hins'
      · exact Or.inl rfl
      · rw [hinstrs] at hins'
        exact Or.inr (List.mem_filterMap.mp hins')

/-! ## The basic blocks -/

theorem keepsTerminators_replaceAccess {ins : Instr} {id : InstId} (hins : ins ∈ f.instrs)
    (hid : ins.id = some id) (hinner : ins.isTerminator = false) (currentOffset : UInt32) :
    KeepsTerminators f (replaceAccess T id currentOffset) := by
  intro st b st' hrun hst
  simp only [replaceAccess, Option.some.injEq, Prod.mk.injEq] at hrun
  obtain ⟨-, rfl⟩ := hrun
  exact hst.erase hins hid hinner

theorem keepsTerminators_processEnvUse (fuel : ℕ) :
    ∀ (envPointer : Value) (use : Instr) (currentOffset : UInt32),
    use ∈ f.instrs → KeepsTerminators f (processEnvUse T U fuel envPointer use currentOffset) := by
  induction fuel with
  | zero =>
    intro envPointer use currentOffset _ st b st' hrun
    exact absurd hrun (by simp [processEnvUse])
  | succ n ih =>
    intro envPointer use currentOffset huse st b st' hrun hst
    rcases processEnvUse_cases hrun with ⟨-, rfl⟩ | ⟨n', id, hn, hid, hinner, ⟨offset, h⟩ | h⟩
    · exact hst
    · obtain rfl : n = n' := Nat.succ.inj hn
      have huses : KeepsTerminators f
          (forUses (fun u => processEnvUse T U n (.inst id) u offset) (U.uses (.inst id))) :=
        keepsTerminators_forUses fun u hu => ih (.inst id) u offset (U.mem_uses.mp hu).1
      exact keepsTerminators_eraseAfter huses huse hid hinner h hst
    · exact keepsTerminators_replaceAccess huse hid hinner currentOffset h hst

theorem keepsTerminators_processArgUse (fuel : ℕ) : ∀ use ∈ f.instrs,
    KeepsTerminators f (processArgUse T U fuel use) := by
  induction fuel with
  | zero =>
    intro use _ st b st' hrun
    exact absurd hrun (by simp [processArgUse])
  | succ n ih =>
    intro use huse st b st' hrun hst
    rcases processArgUse_cases hrun with ⟨-, rfl⟩ | ⟨n', id, hn, hid, hinner, h | h⟩
    · exact hst
    · obtain rfl : n = n' := Nat.succ.inj hn
      have huses : KeepsTerminators f (forUses (processArgUse T U n) (U.uses (.inst id))) :=
        keepsTerminators_forUses fun u hu => ih u (U.mem_uses.mp hu).1
      exact keepsTerminators_eraseAfter huses huse hid hinner h hst
    · have huses : KeepsTerminators f
          (forUses (fun u => processEnvUse T U n' (.inst id) u 0) (U.uses (.inst id))) :=
        keepsTerminators_forUses fun u hu => keepsTerminators_processEnvUse n' (.inst id) u 0
          (U.mem_uses.mp hu).1
      exact keepsTerminators_eraseAfter huses huse hid hinner h hst

theorem returns_append_singleton {b : BasicBlock} {is : List Instr} {t : Instr}
    (h : b.instrs = is ++ [t]) : b.returns = match t.op with
      | .ret _ => true
      | _ => false := by
  unfold BasicBlock.returns BasicBlock.terminator?
  rw [h, List.getLast?_concat]
  obtain ⟨k, op, md⟩ := t
  cases op <;> rfl

theorem filterMap_append_singleton {g : Instr → Option Instr} {σ : Value → Value}
    {is : List Instr} {t : Instr} (ht : g t = some (t.mapValues σ)) :
    (is ++ [t]).filterMap g = is.filterMap g ++ [t.mapValues σ] := by
  rw [List.filterMap_append, List.filterMap_cons_some ht, List.filterMap_nil]

theorem returns_filterMap {b : BasicBlock} (hb : b.Terminated) {g : Instr → Option Instr}
    {σ : Value → Value} (h : ∀ t ∈ b.instrs, t.isTerminator = true → g t = some (t.mapValues σ)) :
    ({ b with instrs := b.instrs.filterMap g } : BasicBlock).returns = b.returns := by
  obtain ⟨is, t, heq, ht, -⟩ := hb
  have heq' : b.instrs.filterMap g = is.filterMap g ++ [t.mapValues σ] := by
    rw [heq, filterMap_append_singleton (h t (by simp [heq]) ht)]
  rw [returns_append_singleton heq, returns_append_singleton heq', Instr.op_mapValues]
  cases t.op <;> rfl

theorem isPhi_of_isTerminator {t : Instr} (ht : t.isTerminator = true) : t.isPhi = false := by
  obtain ⟨k, op, md⟩ := t
  cases op with
  | phi => cases ht
  | _ => rfl

/-- The load from the environment pointer is not the last instruction. -/
theorem map_returns_insertLoad (f : Func) (ins : Instr)
    (h : ∀ b ∈ f.blocks, ∃ is t, b.instrs = is ++ [t] ∧
    t.isPhi = false) : (insertLoad f ins).blocks.map BasicBlock.returns =
    f.blocks.map BasicBlock.returns := by
  unfold insertLoad
  cases hb : f.blocks with
  | nil => rw [hb]
  | cons entry bbs =>
    obtain ⟨is, t, heq, ht⟩ := h entry (by rw [hb]; exact List.mem_cons_self)
    have hdrop : entry.instrs.dropWhile Instr.isPhi ≠ [] := by
      intro hnil
      have hall := List.dropWhile_eq_nil_iff.mp hnil
      rw [heq] at hall
      rw [hall t (by simp)] at ht
      cases ht
    have hlast : (entry.instrs.takeWhile Instr.isPhi ++ ins :: entry.instrs.dropWhile
        Instr.isPhi).getLast? = entry.instrs.getLast? := by
      conv_rhs => rw [← List.takeWhile_append_dropWhile (p := Instr.isPhi) (l := entry.instrs)]
      rw [List.getLast?_append_of_ne_nil _ (List.cons_ne_nil _ _),
        List.getLast?_append_of_ne_nil _ hdrop, List.getLast?_cons_of_ne_nil hdrop]
    simp only [List.map_cons, List.cons.injEq, and_true]
    unfold BasicBlock.returns BasicBlock.terminator?
    rw [hlast]

/-- What has been collected before `cleanup`. -/
theorem kept_and_erasesInner {fuel : ℕ} {globals : List (String × Ty)} {mid final : PassState Ty}
    {argOk envOk : Bool} (hargs : forUses (processArgUse T U fuel) (U.uses (.arg 0)) ⟨[], [],
      globals⟩ = some (argOk, mid))
    (henvs : forUses (processArgUse T U fuel) (f.instrs.filter (isEnvLoad T)) mid =
      some (envOk, final)) :
    final.Kept ∧ ErasesInner f final := by
  have hadds := onlyAdds_processArgUse (T := T) (U := U) fuel
  have hkeeps := keepsTerminators_processArgUse (T := T) (U := U) fuel
  have hmid : mid.Kept := (onlyAdds_forUses hadds _ hargs).kept fun p hp =>
    absurd hp List.not_mem_nil
  have hargUses : KeepsTerminators f (forUses (processArgUse T U fuel) (U.uses (.arg 0))) :=
    keepsTerminators_forUses fun u hu => hkeeps u (U.mem_uses.mp hu).1
  have henvLoads : KeepsTerminators f (forUses (processArgUse T U fuel)
      (f.instrs.filter (isEnvLoad T))) :=
    keepsTerminators_forUses fun u hu => hkeeps u (List.mem_filter.mp hu).1
  exact ⟨(onlyAdds_forUses hadds _ henvs).kept hmid,
    henvLoads henvs (hargUses hargs fun id hid => absurd hid List.not_mem_nil)⟩

/-- **The basic blocks that return before the pass return after it.** -/
theorem map_returns_runOnFunction {fuel : ℕ} {globals globals' : List (String × Ty)} {f' : Func}
    (h : runOnFunction T f U fuel globals = some (f', globals'))
    (hterm : ∀ b ∈ f.blocks, b.Terminated) (hunique : ∀ i ∈ f.instrs, ∀ j ∈ f.instrs,
      i.id.isSome = true → i.id = j.id → i = j) :
    f'.blocks.map BasicBlock.returns = f.blocks.map BasicBlock.returns := by
  simp only [runOnFunction, Option.bind_eq_bind, Option.bind_eq_some_iff, Prod.exists] at h
  obtain ⟨argOk, mid, hargs, envOk, final, henvs, h⟩ := h
  obtain ⟨hkept, hinner⟩ := kept_and_erasesInner hargs henvs
  have hnew : ∀ b ∈ f.blocks, ∀ t ∈ b.instrs, t.isTerminator = true →
      newIns final (freshInstId f) t =
      some (t.mapValues (replaceValue (.arg 0) (.inst (freshInstId f)))) := by
    intro b hb t ht hterm
    have hmem : t ∈ f.instrs := List.mem_flatMap.mpr ⟨b, hb, ht⟩
    exact newIns_of_isTerminator hkept hinner
      (fun ins hins hsome hid => hunique ins hins t hmem hsome hid ▸ hterm) _
  have hblocks : (f.mapBlocks fun bb => { bb with
      instrs := bb.instrs.filterMap (newIns final (freshInstId f)) }).blocks.map
        BasicBlock.returns =
      f.blocks.map BasicBlock.returns := by
    rw [Func.mapBlocks, List.map_map]
    exact List.map_congr_left fun b hb => returns_filterMap (hterm b hb) (hnew b hb)
  split_ifs at h with hnd hok
  · rw [Option.some.injEq, Prod.mk.injEq] at h
    rw [← h.1]
    exact hblocks
  · rw [Option.some.injEq, Prod.mk.injEq] at h
    rw [← h.1, map_returns_insertLoad _ _ fun b' hb' => ?_, hblocks]
    obtain ⟨b, hb, rfl⟩ := List.mem_map.mp hb'
    obtain ⟨is, t, heq, ht, -⟩ := hterm b hb
    -- the load is put in front of the terminator
    have hlast : b.instrs.filterMap (newIns final (freshInstId f)) = is.filterMap
        (newIns final (freshInstId f)) ++
        [t.mapValues (replaceValue (.arg 0) (.inst (freshInstId f)))] := by
      rw [heq, filterMap_append_singleton (hnew b hb t (by simp [heq]) ht)]
    exact ⟨_, _, hlast, isPhi_of_isTerminator ((Instr.isTerminator_mapValues _ t).trans ht)⟩

/-! ## Fuel -/

/-- Values come before their uses, phi nodes apart. -/
def Ranked (f : Func) (rank : InstId → ℕ) (n : ℕ) : Prop :=
  ∀ use ∈ f.instrs, use.isPhi = false → ∀ k, use.id = some k →
    rank k ≤ n ∧ ∀ j, .inst j ∈ use.op.operands → rank j < rank k

variable {rank : InstId → ℕ} {n : ℕ}

/-- The fuel is more than what is left of the rank. -/
def Fueled (rank : InstId → ℕ) (n fuel : ℕ) (use : Instr) : Prop :=
  0 < fuel ∧ (use.isPhi = false → ∀ k, use.id = some k → n + 1 < fuel + rank k)

theorem Fueled.uses (hr : Ranked f rank n) {fuel : ℕ} {use u : Instr} {k : InstId}
    (hmem : use ∈ f.instrs) (hphi : use.isPhi = false) (hid : use.id = some k)
    (h : Fueled rank n (fuel + 1) use) (hu : u ∈ U.uses (.inst k)) :
    u ∈ f.instrs ∧ Fueled rank n fuel u := by
  obtain ⟨hmemu, hoperand⟩ := U.mem_uses.mp hu
  have hle := (hr use hmem hphi k hid).1
  have hlt := h.2 hphi k hid
  refine ⟨hmemu, by omega, fun hphiu k' hid' => ?_⟩
  have := (hr u hmemu hphiu k' hid').2 k hoperand
  omega

theorem processEnvUse_congr {m m' : ℕ} {envPointer : Value} {use : Instr} {k : InstId}
    {currentOffset : UInt32} (hid : use.id = some k)
    (h : ∀ offset : UInt32, forUses (fun u => processEnvUse T U m (.inst k) u offset)
      (U.uses (.inst k)) =
      forUses (fun u => processEnvUse T U m' (.inst k) u offset) (U.uses (.inst k))) :
    processEnvUse T U (m + 1) envPointer use currentOffset =
      processEnvUse T U (m' + 1) envPointer use currentOffset := by
  funext st
  simp only [processEnvUse, hid, Option.bind_some, h]

theorem processEnvUse_succ (hr : Ranked f rank n) (fuel : ℕ) : ∀ (envPointer : Value) (use : Instr)
    (currentOffset : UInt32), use ∈ f.instrs → Fueled rank n fuel use →
    processEnvUse T U (fuel + 1) envPointer use currentOffset =
      processEnvUse T U fuel envPointer use currentOffset := by
  induction fuel with
  | zero => exact fun _ _ _ _ h => absurd h.1 (lt_irrefl 0)
  | succ m ih =>
    intro envPointer use currentOffset hmem h
    cases hid : use.id with
    | none =>
      funext st
      simp only [processEnvUse, hid, Option.bind_none]
    | some k =>
      cases hphi : use.isPhi with
      | true =>
        obtain ⟨inc, hop⟩ := Instr.isPhi_iff.mp hphi
        funext st
        simp only [processEnvUse, hid, hop, Option.bind_some]
      | false =>
        refine processEnvUse_congr hid fun offset => forUses_congr fun u hu => ?_
        have ⟨hmemu, hfuel⟩ := Fueled.uses hr hmem hphi hid h hu
        exact ih (.inst k) u offset hmemu hfuel

theorem processArgUse_congr {m m' : ℕ} {use : Instr} {k : InstId} (hid : use.id = some k)
    (harg : forUses (processArgUse T U m) (U.uses (.inst k)) =
      forUses (processArgUse T U m') (U.uses (.inst k)))
    (henv : forUses (fun u => processEnvUse T U m (.inst k) u 0) (U.uses (.inst k)) =
      forUses (fun u => processEnvUse T U m' (.inst k) u 0) (U.uses (.inst k))) :
    processArgUse T U (m + 1) use = processArgUse T U (m' + 1) use := by
  funext st
  simp only [processArgUse, hid, Option.bind_some, harg, henv]

theorem processArgUse_succ (hr : Ranked f rank n) (fuel : ℕ) :
    ∀ use ∈ f.instrs, Fueled rank n fuel use →
      processArgUse T U (fuel + 1) use = processArgUse T U fuel use := by
  induction fuel with
  | zero => exact fun _ _ h => absurd h.1 (lt_irrefl 0)
  | succ m ih =>
    intro use hmem h
    cases hid : use.id with
    | none =>
      funext st
      simp only [processArgUse, hid, Option.bind_none]
    | some k =>
      cases hphi : use.isPhi with
      | true =>
        obtain ⟨inc, hop⟩ := Instr.isPhi_iff.mp hphi
        funext st
        simp only [processArgUse, hid, hop, Option.bind_some]
      | false =>
        have huses : ∀ u ∈ U.uses (.inst k), u ∈ f.instrs ∧ Fueled rank n m u := fun u hu =>
          Fueled.uses hr hmem hphi hid h hu
        refine processArgUse_congr hid (forUses_congr fun u hu => ?_) (forUses_congr fun u hu => ?_)
        · exact ih u (huses u hu).1 (huses u hu).2
        · exact processEnvUse_succ hr m (.inst k) u 0 (huses u hu).1 (huses u hu).2

/-- The recursion ends: from some fuel on the result is the same. -/
theorem runOnFunction_eq_of_le (hr : Ranked f rank n) {fuel : ℕ} (hfuel : n + 2 ≤ fuel)
    (globals : List (String × Ty)) :
    runOnFunction T f U fuel globals = runOnFunction T f U (n + 2) globals := by
  induction fuel, hfuel using Nat.le_induction with
  | base => rfl
  | succ fuel hle ih =>
    have hfueled : ∀ use, Fueled rank n fuel use := fun use => ⟨by omega, fun _ k _ => by omega⟩
    have harg : forUses (processArgUse T U (fuel + 1)) (U.uses (.arg 0)) =
        forUses (processArgUse T U fuel) (U.uses (.arg 0)) :=
      forUses_congr fun use huse => processArgUse_succ hr fuel use
        (U.mem_uses.mp huse).1 (hfueled use)
    have henv : forUses (processArgUse T U (fuel + 1)) (f.instrs.filter (isEnvLoad T)) =
        forUses (processArgUse T U fuel) (f.instrs.filter (isEnvLoad T)) :=
      forUses_congr fun use huse => processArgUse_succ hr fuel use
        (List.mem_filter.mp huse).1 (hfueled use)
    rw [← ih, runOnFunction, runOnFunction, harg, henv]

end

end Bin2llvm.S2ETransformPass
