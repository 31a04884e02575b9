import Bin2llvm.JumpTableInfo
import Bin2llvm.MemoryPools

/-!
# Bin2llvm.ReplaceConstantLoads — loads from the segment files

`ReplaceConstantLoads` goes through a function once: a call of a load helper with a constant address
is replaced by the bytes that the first memory pool around the address holds.  Later calls of the
same sweep may have become constant by that.  Then the stores to `PC` at indirect jumps with a known
jump table are annotated with its cases, and the replaced calls are erased.  A failed `assert`, and
a call through a pointer that is no function, is `none`.

* `sweep`, `annotateStore`, `runOnFunction`: the pass.
* `TableTags`: what the tags of an annotated store say; `tableTags_annotateStore`.
-/

namespace Bin2llvm.ReplaceConstantLoads

open FixOverlappedBBs

/-! ## The pass -/

/-- The command line: `-memory`, `-is-big-endian` and `-jump-table-info`. -/
structure Options where
  memoryPools : List MemoryPool
  isBigEndian : Bool
  jumpTableInfoList : List JumpTableInfo

/-- A replaced call: what stands for its result, and where it was loaded from. -/
structure ConstantLoad where
  call : InstId
  address : UInt64
  bits : ℕ
  value : UInt64
  deriving DecidableEq, Repr

/-- The width of `valueType` for a helper. -/
def valueType (helper : String) : Option ℕ :=
  if helper = "__ldl_mmu" then some 32
  else if helper = "__lds_mmu" then some 16
  else if helper = "__ldb_mmu" then some 8
  else none

/-- The width and the address of a call of a load helper with a constant address. -/
def loadCall (ins : Instr) : Option (Option (ℕ × UInt64)) :=
  match ins.op with
  | .call callee [a, _] =>
    match a.constInt? with
    | none => some none
    | some address =>
      match callee with
      | .func helper => some ((valueType helper).map fun bits => (bits, address))
      | _ => none
  | _ => some none

section

variable (o : Options)

/-- What the first pool around the address holds. -/
def getMemoryValue (address : UInt64) (size : ℕ) : Option (Option UInt64) :=
  match o.memoryPools.find? fun p => p.inside address with
  | none => some none
  | some p => (p.read address size o.isBigEndian).map some

/-- The instruction at the `n`-th place of the sweep.  The log is `eraseIns`. -/
def replaceLoad (st : Func × List ConstantLoad) (n : ℕ) : Option (Func × List ConstantLoad) :=
  match st.1.instrs[n]? with
  | none => some st
  | some ins => do
    match ← loadCall ins with
    | none => some st
    | some (bits, address) =>
      match ← getMemoryValue o address (bits / 8) with
      | none => some st
      | some value => do
        let call ← ins.id
        some (st.1.replaceAllUsesWith (.inst call) (.constInt bits value),
          st.2 ++ [⟨call, address, bits, value⟩])

def sweep (f : Func) : Option (Func × List ConstantLoad) :=
  (List.range f.instrs.length).foldlM (replaceLoad o) (f, [])

/-- The entry of a jump table at this address. -/
def loadedPC (address : UInt64) : Option UInt64 :=
  (getMemoryValue o address 4).map fun v => v.getD 0xdeadbeef

/-- `INS_switch_case<i>`. -/
def annotateCase (info : JumpTableInfo) (ins : Instr) (i : ℕ) : Option Instr := do
  let addr ← info.entryAddr i
  let pc ← loadedPC o addr
  some (ins.setMetadata (.INS_switch_case i) (.str (hex pc)))

def annotateTable (info : JumpTableInfo) (ins : Instr) : Option Instr := do
  let cnt ← info.cnt_entries
  let ins := ins.setMetadata .INS_switch_cnt (.str (hex (UInt64.ofNat cnt)))
  let ins := ins.setMetadata .INS_switch_default (.str (hex info.default_case_pc))
  let ins := ins.setMetadata .INS_switch_idx_start (.str (hex info.idx_start))
  (List.range cnt).foldlM (annotateCase o info) ins

/-- The jump table of a store to `PC`. -/
def tableOf (ins : Instr) : Option (Option JumpTableInfo) :=
  if ins.isStoreTo "PC" ∧ ins.has .INS_currPC then
    (getCurrentPCOfIns ins).map (JumpTableInfo.lookupLast JumpTableInfo.indirect_jmp_pc
      o.jumpTableInfoList)
  else some none

def annotateStore (ins : Instr) : Option Instr := do
  match ← tableOf o ins with
  | none => some ins
  | some info => annotateTable o info ins

def annotateBlock (bb : BasicBlock) : Option BasicBlock :=
  (bb.instrs.mapM (annotateStore o)).map fun is => { bb with instrs := is }

def annotateJumpTables (f : Func) : Option Func :=
  (f.blocks.mapM (annotateBlock o)).map fun bbs => { f with blocks := bbs }

/-- The function, and whether it was changed. -/
def runOnFunction (f : Func) : Option (Func × Bool) := do
  let (f, eraseIns) ← sweep o f
  let f ← annotateJumpTables o f
  some (f.eraseInstrs (eraseIns.map ConstantLoad.call), !eraseIns.isEmpty)

end

/-! ## The tags of a jump table -/

variable {o : Options} {info : JumpTableInfo} {ins ins' : Instr}

/-- A number that went through a metadata string. -/
def throughHex (v : UInt64) : UInt64 := strtoll (hex v)

/-- The tags of the store at an indirect jump with the jump table `info`. -/
structure TableTags (o : Options) (info : JumpTableInfo) (cnt : ℕ) (ins : Instr) : Prop where
  cnt_eq : getHexMetadataFromIns ins .INS_switch_cnt = some (UInt64.ofNat cnt)
  default_eq : getHexMetadataFromIns ins .INS_switch_default =
    some (throughHex info.default_case_pc)
  idx_start_eq : getHexMetadataFromIns ins .INS_switch_idx_start = some (throughHex info.idx_start)
  case_eq : ∀ i < cnt, ∃ addr pc, info.entryAddr i = some addr ∧ loadedPC o addr = some pc ∧
    getHexMetadataFromIns ins (.INS_switch_case i) = some pc

/-- Numbers below `2^63` come through unchanged. -/
theorem throughHex_of_lt {v : UInt64} (h : v.toNat < 2 ^ 63) : throughHex v = v :=
  strtoll_hex_of_lt h

theorem lt_two_pow_63 {n k : ℕ} (h : n < 2 ^ k) (hk : k < 63) : n < 2 ^ 63 :=
  h.trans_le (Nat.pow_le_pow_right Nat.two_pos hk.le)

/-- The pools are read as the memory they agree with. -/
theorem word_of_getMemoryValue {memory : UInt64 → UInt8}
    (hpools : ∀ p ∈ o.memoryPools, p.Agrees memory) {address value : UInt64} {size : ℕ}
    (h : getMemoryValue o address size = some (some value)) :
    value = word o.isBigEndian memory address size := by
  unfold getMemoryValue at h
  cases hp : o.memoryPools.find? fun p => p.inside address with
  | none => rw [hp] at h; cases h
  | some p =>
    rw [hp] at h
    obtain ⟨w, hw, heq⟩ := Option.map_eq_some_iff.mp h
    rw [← Option.some.inj heq]
    exact MemoryPool.read_eq (hpools p (List.mem_of_find?_eq_some hp)) hw

theorem loadedPC_lt {address pc : UInt64}
    (h : loadedPC o address = some pc) : pc.toNat < 2 ^ 32 := by
  obtain ⟨v, hv, rfl⟩ := Option.map_eq_some_iff.mp h
  unfold getMemoryValue at hv
  cases hp : o.memoryPools.find? fun p => p.inside address with
  | none =>
    rw [hp] at hv
    obtain rfl := Option.some.inj hv
    decide
  | some p =>
    rw [hp] at hv
    obtain ⟨w, hw, rfl⟩ := Option.map_eq_some_iff.mp hv
    have hlt := MemoryPool.read_lt hw
    rwa [show 8 * 4 = 32 from rfl] at hlt

theorem getHex_setMetadata_self (ins : Instr) (k : MDKind) (v : UInt64) :
    getHexMetadataFromIns (ins.setMetadata k (.str (hex v))) k = some (throughHex v) := by
  rw [getHexMetadataFromIns, Instr.getMetadata_setMetadata_self]
  rfl

theorem getHex_setMetadata_of_ne (ins : Instr) {k k' : MDKind} (h : k' ≠ k) (n : MDNode) :
    getHexMetadataFromIns (ins.setMetadata k n) k' = getHexMetadataFromIns ins k' := by
  rw [getHexMetadataFromIns, getHexMetadataFromIns, Instr.getMetadata_setMetadata_of_ne ins h]

/-- The cases are tagged one after the other; other tags stay. -/
theorem foldlM_annotateCase {cnt : ℕ}
    (h : (List.range cnt).foldlM (annotateCase o info) ins = some ins') :
    (∀ k, (∀ i, k ≠ .INS_switch_case i) →
      getHexMetadataFromIns ins' k = getHexMetadataFromIns ins k) ∧
      ∀ i < cnt, ∃ addr pc, info.entryAddr i = some addr ∧ loadedPC o addr = some pc ∧
        getHexMetadataFromIns ins' (.INS_switch_case i) = some pc := by
  let P (done : List ℕ) (ins₁ : Instr) : Prop :=
    (∀ k, (∀ i, k ≠ .INS_switch_case i) →
      getHexMetadataFromIns ins₁ k = getHexMetadataFromIns ins k) ∧
      ∀ i ∈ done, ∃ addr pc, info.entryAddr i = some addr ∧ loadedPC o addr = some pc ∧
        getHexMetadataFromIns ins₁ (.INS_switch_case i) = some pc
  have hstep : ∀ done ins₁ i ins₂, P done ins₁ → annotateCase o info ins₁ i = some ins₂ →
      P (done ++ [i]) ins₂ := by
    rintro done ins₁ i ins₂ ⟨hother, hcases⟩ hi
    unfold annotateCase at hi
    obtain ⟨addr, haddr, hi⟩ := Option.bind_eq_some_iff.mp hi
    obtain ⟨pc, hpc, hi⟩ := Option.bind_eq_some_iff.mp hi
    obtain rfl := Option.some.inj hi
    have hself : getHexMetadataFromIns (ins₁.setMetadata (.INS_switch_case i) (.str (hex pc)))
        (.INS_switch_case i) = some pc := by
      rw [getHex_setMetadata_self, throughHex_of_lt (lt_two_pow_63 (loadedPC_lt hpc) (by decide))]
    refine ⟨fun k hk => ?_, fun j hj => ?_⟩
    · rw [getHex_setMetadata_of_ne ins₁ (hk i), hother k hk]
    · rcases eq_or_ne j i with rfl | hne
      · exact ⟨addr, pc, haddr, hpc, hself⟩
      · have hj' : j ∈ done := by simpa [hne] using hj
        rw [getHex_setMetadata_of_ne ins₁ fun heq => hne (MDKind.INS_switch_case.inj heq)]
        exact hcases j hj'
  have hP : P (List.range cnt) ins' := OptionMapM.foldlM_preserves hstep ⟨fun _ _ => rfl, by simp⟩ h
  exact ⟨hP.1, fun i hi => hP.2 i (by simpa using hi)⟩

theorem tableTags_annotateTable (h : annotateTable o info ins = some ins') :
    ∃ cnt, info.cnt_entries = some cnt ∧ TableTags o info cnt ins' := by
  unfold annotateTable at h
  obtain ⟨cnt, hcnt, h⟩ := Option.bind_eq_some_iff.mp h
  obtain ⟨hother, hcases⟩ := foldlM_annotateCase h
  have hlt := (JumpTableInfo.cnt_entries_le hcnt).2
  refine ⟨cnt, hcnt, ?_, ?_, ?_, hcases⟩
  · rw [hother _ (by simp), getHex_setMetadata_of_ne _ (by simp),
      getHex_setMetadata_of_ne _ (by simp), getHex_setMetadata_self, throughHex_of_lt]
    rw [UInt64.toNat_ofNat']
    exact (Nat.mod_le _ _).trans_lt (lt_two_pow_63 hlt (by decide))
  · rw [hother _ (by simp), getHex_setMetadata_of_ne _ (by simp), getHex_setMetadata_self]
  · rw [hother _ (by simp), getHex_setMetadata_self]

/-- The store at an indirect jump with a known jump table gets the tags of the table. -/
theorem tableTags_annotateStore (h : annotateStore o ins = some ins')
    (htable : tableOf o ins = some (some info)) :
    ∃ cnt, info.cnt_entries = some cnt ∧ TableTags o info cnt ins' := by
  unfold annotateStore at h
  rw [htable, Option.bind_eq_bind, Option.bind_some] at h
  exact tableTags_annotateTable h

end Bin2llvm.ReplaceConstantLoads
