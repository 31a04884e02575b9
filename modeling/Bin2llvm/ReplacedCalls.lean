import Bin2llvm.ConstantLoads
import Bin2llvm.FoldedLoads

/-!
# Bin2llvm.ReplacedCalls — which load calls are replaced

The translator links and emits the load helpers `__ldb_mmu`, `__ldw_mmu` and `__ldl_mmu`.  A call of
one of them with a constant address is to be replaced if all its bytes lie in a memory pool, and to
be left if not.  The pass asks the pools for the first byte only, and it knows other names.

* `isSome_read_iff`: a pool can be read where it has all bytes.
* `expected`: the loads that are to be replaced.
* `isSome_runOnFunction_iff`: after the sweep, the pass ends exactly when the jump tables can be
  read.
* `replaces_iff`: the pass replaces these loads, and no others, exactly when no call is one it
  mistakes.
-/

namespace Bin2llvm.ReplaceConstantLoads

open FixOverlappedBBs (getCurrentPCOfIns)

/-! ## What is to be replaced -/

/-- The widths of the load helpers. -/
def linkedBits (helper : String) : Option ℕ :=
  if helper = "__ldb_mmu" then some 8
  else if helper = "__ldw_mmu" then some 16
  else if helper = "__ldl_mmu" then some 32
  else none

/-- A call of a load helper with a constant address. -/
def linkedLoad (ins : Instr) : Option (ℕ × UInt64) :=
  match ins.op with
  | .call (.func helper) [.constInt _ address, _] =>
    (linkedBits helper).map fun bits => (bits, address)
  | _ => none

/-- All `n` bytes from `address` on are in the pool. -/
def holds (p : MemoryPool) (address : UInt64) (n : ℕ) : Bool :=
  (List.range n).all fun k => p.inside (address + UInt64.ofNat k)

section

variable (o : Options)

/-- The bytes in the first pool that has all of them. -/
def poolValue (address : UInt64) (n : ℕ) : Option UInt64 :=
  (o.memoryPools.find? fun p => holds p address n).bind fun p => p.read address n o.isBigEndian

/-- The load an instruction stands for, when the loads before it are replaced. -/
def expectedLoad (ins : Instr) : Option ConstantLoad := do
  let (bits, address) ← linkedLoad ins
  let value ← poolValue o address (bits / 8)
  let call ← ins.id
  some ⟨call, address, bits, value⟩

def expectLoad (loads : List ConstantLoad) (ins : Instr) : List ConstantLoad :=
  loads ++ (expectedLoad o (ins.mapValues (subst loads))).toList

/-- The loads that are to be replaced, in order.  An address may be constant because of the ones
before. -/
def expected (is : List Instr) : List ConstantLoad := is.foldl (expectLoad o) []

/-- The bytes are all in the first pool around the address, if there is one. -/
def ReadWhole (address : UInt64) (n : ℕ) : Prop :=
  ∀ p, o.memoryPools.find? (fun p => p.inside address) = some p → holds p address n = true

/-- The stores to `PC` tell their program counters, and the jump tables there have entries that can
be read. -/
def TablesRead (f : Func) : Prop :=
  ∀ ins ∈ f.instrs, ins.isStoreTo "PC" = true → ins.has .INS_currPC = true →
    ∃ pc, getCurrentPCOfIns ins = some pc ∧
    ∀ info, JumpTableInfo.lookupLast JumpTableInfo.indirect_jmp_pc o.jumpTableInfoList
      pc = some info →
      ∃ cnt, info.cnt_entries = some cnt ∧ ∀ i < cnt, ∃ addr, info.entryAddr i = some addr ∧
      ReadWhole o addr 4

/-- The pass ends the sweep, and it replaces the calls it is to replace; where the jump tables can
be read it comes to its end, and then these are erased, and the others are left, with their operands
replaced. -/
def ReplacesLoads (f : Func) : Prop :=
  ∃ f₁, sweep o f = some (f₁, expected o f.instrs) ∧ ((runOnFunction o f).isSome = true ↔
    TablesRead o f) ∧
    ∀ f' changed, runOnFunction o f = some (f', changed) → FoldedFunc (expected o f.instrs) f f'

/-- The pass does not mistake the call, if it is one with a constant first argument out of two: it
calls a function; a 16-bit load is not all in a pool, and nothing in a pool is loaded with the name
`__lds_mmu`; and the first pool around the address of a 32-bit load has all its bytes. -/
def NotMistaken (ins : Instr) : Prop :=
  ∀ callee w address x, ins.op = .call callee [.constInt w address, x] →
    ∃ helper, callee = .func helper ∧
    (helper = "__ldw_mmu" → ∀ p ∈ o.memoryPools, holds p address 2 = false) ∧
    (helper = "__lds_mmu" → ∀ p ∈ o.memoryPools, p.inside address = false) ∧
    (helper = "__ldl_mmu" → ∀ p, o.memoryPools.find? (fun p => p.inside address) = some p →
      holds p address 4 = true)

end

/-- Instructions are different objects, and a call of a load helper has a result. -/
structure WellFormedCalls (f : Func) : Prop where
  nodup : (f.instrs.filterMap Instr.id).Nodup
  result : ∀ ins ∈ f.instrs, ∀ helper args, ins.op = .call (.func helper) args →
    (valueType helper).isSome ∨ (linkedBits helper).isSome → ins.id.isSome

variable {o : Options} {p : MemoryPool} {f f₁ : Func} {loads loads' : List ConstantLoad}
variable {ins : Instr} {is : List Instr} {address : UInt64} {n : ℕ}

/-! ## Reads -/

theorem holds_iff : holds p address n = true ↔
    ∀ k < n, p.inside (address + UInt64.ofNat k) = true := by
  simp [holds]

theorem inside_of_holds (h : holds p address n = true) (hn : 0 < n) : p.inside address = true := by
  simpa using holds_iff.mp h 0 hn

/-- The end of a pool that has an address does not wrap. -/
theorem toNat_mp_end (hlen : p.mp_file.length < 2 ^ 64) (h : p.inside address = true) :
    p.mp_end.toNat = p.mp_start.toNat + p.mp_file.length := by
  have hadd : p.mp_end.toNat = (p.mp_start.toNat + p.mp_file.length) % 2 ^ 64 := by
    rw [MemoryPool.mp_end, UInt64.toNat_add, UInt64.toNat_ofNat', Nat.add_mod_mod]
  have hstart := p.mp_start.toNat_lt
  unfold MemoryPool.inside at h
  simp only [decide_eq_true_eq, UInt64.le_iff_toNat_le, UInt64.lt_iff_toNat_lt] at h
  omega

/-- An offset into the file is an address in the pool. -/
theorem inside_of_lt_length (hlen : p.mp_file.length < 2 ^ 64)
    (h : p.inside address = true) {a : UInt64} (ha : (a - p.mp_start).toNat < p.mp_file.length) :
    p.inside a = true := by
  have hend := toNat_mp_end hlen h
  have hlt := p.mp_end.toNat_lt
  have hsub : a = p.mp_start + (a - p.mp_start) := by rw [UInt64.add_comm, UInt64.sub_add_cancel]
  have hnat : a.toNat = p.mp_start.toNat + (a - p.mp_start).toNat := by
    conv_lhs => rw [hsub]
    rw [UInt64.toNat_add]
    omega
  unfold MemoryPool.inside
  simp only [decide_eq_true_eq, UInt64.le_iff_toNat_le, UInt64.lt_iff_toNat_lt]
  omega

/-- The addresses of the bytes, in the order they are read. -/
theorem exists_byteAddr (big : Bool) (address : UInt64) {n k : ℕ} (hk : k < n) :
    ∃ i < n, byteAddr big address n i = address + UInt64.ofNat k := by
  cases big with
  | true => exact ⟨k, hk, rfl⟩
  | false =>
    refine ⟨n - 1 - k, by omega, ?_⟩
    rw [byteAddr_little (by omega), show n - 1 - (n - 1 - k) = k by omega]

/-- **A pool can be read where it has all bytes.** -/
theorem isSome_read_iff (hlen : p.mp_file.length < 2 ^ 64) (hn : 0 < n) (hn8 : n ≤ 8) (big : Bool) :
    (p.read address n big).isSome = true ↔ holds p address n = true := by
  rw [holds_iff]
  refine ⟨fun h k hk => ?_, isSome_read big hn hn8⟩
  obtain ⟨v, hv⟩ := Option.isSome_iff_exists.mp h
  unfold MemoryPool.read at hv
  split_ifs at hv with hcond
  obtain ⟨i, hi, haddr⟩ := exists_byteAddr big address hk
  obtain ⟨c, c', hbyte⟩ := OptionMapM.exists_step hv (List.mem_range.mpr hi)
  obtain ⟨b, hb, -⟩ := Option.map_eq_some_iff.mp hbyte
  rw [haddr] at hb
  exact inside_of_lt_length hlen hcond.1 (List.getElem?_eq_some_iff.mp hb).1

/-- A read of the first pool around the address gives what the first pool with all bytes has, or
fails. -/
theorem getMemoryValue_cases (hlen : ∀ p ∈ o.memoryPools, p.mp_file.length < 2 ^ 64)
    (hn : 0 < n) (hn8 : n ≤ 8) (address : UInt64) :
    (o.memoryPools.find? (fun p => p.inside address) = none ∧
        getMemoryValue o address n = some none ∧ poolValue o address n = none) ∨
      (∃ p v, o.memoryPools.find? (fun p => p.inside address) = some p ∧ holds p address n = true ∧
        getMemoryValue o address n = some (some v) ∧ poolValue o address n = some v) ∨
      (∃ p, o.memoryPools.find? (fun p => p.inside address) = some p ∧ holds p address n = false ∧
        getMemoryValue o address n = none) := by
  unfold getMemoryValue poolValue
  cases hfind : o.memoryPools.find? fun p => p.inside address with
  | none =>
    refine Or.inl ⟨rfl, rfl, ?_⟩
    have hnone : o.memoryPools.find? (fun p => holds p address n) = none := by
      rw [List.find?_eq_none] at hfind ⊢
      exact fun p hp hholds => hfind p hp (inside_of_holds hholds hn)
    rw [hnone]
    rfl
  | some p =>
    have hp := hlen p (List.mem_of_find?_eq_some hfind)
    by_cases hholds : holds p address n = true
    · obtain ⟨v, hv⟩ :=
        Option.isSome_iff_exists.mp ((isSome_read_iff hp hn hn8 o.isBigEndian).mpr hholds)
      refine Or.inr (Or.inl ⟨p, v, rfl, hholds, by simp only [hv, Option.map_some], ?_⟩)
      have hfirst : o.memoryPools.find? (fun p => holds p address n) = some p := by
        obtain ⟨-, before, after, hsplit, hbefore⟩ := List.find?_eq_some_iff_append.mp hfind
        refine List.find?_eq_some_iff_append.mpr ⟨hholds, before, after, hsplit, fun q hq => ?_⟩
        have hq := hbefore q hq
        by_contra hnot
        rw [inside_of_holds (by simpa using hnot) hn] at hq
        cases hq
      rw [hfirst, Option.bind_some, hv]
    · refine Or.inr (Or.inr ⟨p, rfl, by simpa using hholds, ?_⟩)
      have hread := mt (isSome_read_iff hp hn hn8 o.isBigEndian).mp hholds
      simp only [Option.not_isSome_iff_eq_none.mp hread, Option.map_none]

theorem isSome_getMemoryValue_iff (hlen : ∀ p ∈ o.memoryPools, p.mp_file.length < 2 ^ 64)
    (hn : 0 < n) (hn8 : n ≤ 8) :
    (getMemoryValue o address n).isSome = true ↔ ReadWhole o address n := by
  rcases getMemoryValue_cases hlen hn hn8 address with
    ⟨hfind, hread, -⟩ | ⟨p, v, hfind, hholds, hread, -⟩ | ⟨p, hfind, hholds, hread⟩
  · simp [ReadWhole, hfind, hread]
  · simp [ReadWhole, hfind, hholds, hread]
  · simp [ReadWhole, hfind, hholds, hread]

/-! ## The jump tables -/

theorem isSome_annotateCase_iff (hlen : ∀ p ∈ o.memoryPools, p.mp_file.length < 2 ^ 64)
    {info : JumpTableInfo} {i : ℕ} :
    (annotateCase o info ins i).isSome = true ↔ ∃ addr, info.entryAddr i = some addr ∧
      ReadWhole o addr 4 := by
  unfold annotateCase loadedPC
  cases info.entryAddr i with
  | none => simp
  | some addr =>
    simp only [Option.some.injEq, exists_eq_left',
      ← isSome_getMemoryValue_iff hlen (by decide : 0 < 4) (by decide)]
    cases hread : getMemoryValue o addr 4 <;> simp [hread]

/-- A table is annotated entry by entry, whatever the tags are so far. -/
theorem isSome_annotateTable_iff (hlen : ∀ p ∈ o.memoryPools, p.mp_file.length < 2 ^ 64)
    {info : JumpTableInfo} : (annotateTable o info ins).isSome = true ↔
      ∃ cnt, info.cnt_entries = some cnt ∧ ∀ i < cnt, ∃ addr, info.entryAddr i = some addr ∧
      ReadWhole o addr 4 := by
  unfold annotateTable
  cases hcnt : info.cnt_entries with
  | none => simp
  | some cnt =>
    simp only [Option.bind_eq_bind, Option.bind_some, Option.some.injEq, exists_eq_left']
    constructor
    · intro h i hi
      obtain ⟨ins', hrun⟩ := Option.isSome_iff_exists.mp h
      obtain ⟨c, c', hstep⟩ := OptionMapM.exists_step hrun (List.mem_range.mpr hi)
      exact (isSome_annotateCase_iff hlen).mp (Option.isSome_iff_exists.mpr ⟨c', hstep⟩)
    · intro h
      exact OptionMapM.isSome_foldlM
        (fun i hi _ => (isSome_annotateCase_iff hlen).mpr (h i (List.mem_range.mp hi))) _

theorem isSome_annotateStore_iff (hlen : ∀ p ∈ o.memoryPools, p.mp_file.length < 2 ^ 64) :
    (annotateStore o ins).isSome = true ↔ (ins.isStoreTo "PC" = true → ins.has .INS_currPC = true →
      ∃ pc, getCurrentPCOfIns ins = some pc ∧
        ∀ info, JumpTableInfo.lookupLast JumpTableInfo.indirect_jmp_pc o.jumpTableInfoList
          pc = some info →
          ∃ cnt, info.cnt_entries = some cnt ∧ ∀ i < cnt, ∃ addr, info.entryAddr i = some addr ∧
            ReadWhole o addr 4) := by
  unfold annotateStore tableOf
  by_cases hstore : ins.isStoreTo "PC" = true ∧ ins.has .INS_currPC = true
  · rw [if_pos hstore]
    simp only [hstore.1, hstore.2, forall_const]
    cases getCurrentPCOfIns ins with
    | none => simp
    | some pc =>
      simp only [Option.map_some, Option.bind_eq_bind, Option.bind_some, Option.some.injEq,
        exists_eq_left']
      cases JumpTableInfo.lookupLast JumpTableInfo.indirect_jmp_pc o.jumpTableInfoList pc with
      | none => simp
      | some info => simpa using isSome_annotateTable_iff hlen
  · rw [if_neg hstore]
    refine iff_of_true rfl fun hpc hcurr => absurd ⟨hpc, hcurr⟩ hstore

/-- The jump tables are annotated exactly when they can be read. -/
theorem isSome_runOnFunction_iff (hlen : ∀ p ∈ o.memoryPools, p.mp_file.length < 2 ^ 64)
    (hsweep : sweep o f = some (f₁, loads)) : (runOnFunction o f).isSome = true ↔
    TablesRead o f := by
  have hrun : (runOnFunction o f).isSome = (annotateJumpTables o f₁).isSome := by
    unfold runOnFunction
    rw [hsweep, Option.bind_eq_bind, Option.bind_some]
    dsimp only
    cases annotateJumpTables o f₁ <;> rfl
  have hblocks : (annotateJumpTables o f₁).isSome = true ↔
      ∀ ins ∈ f₁.instrs, (annotateStore o ins).isSome = true := by
    unfold annotateJumpTables annotateBlock
    simp only [Option.isSome_map, OptionMapM.isSome_mapM, Func.instrs, List.mem_flatMap]
    exact ⟨fun h ins ⟨b, hb, hins⟩ => h b hb ins hins, fun h b hb ins hins => h ins ⟨b, hb, hins⟩⟩
  rw [hrun, hblocks, (sweep_spec hsweep).1, instrs_mapInstrs_eq, List.forall_mem_map]
  refine forall₂_congr fun ins _ => ?_
  rw [isSome_annotateStore_iff hlen, isStoreTo_mapValues_subst]
  rfl

/-! ## One instruction -/

/-- A call with a constant first argument out of two. -/
def ConstantCall (ins : Instr) (callee : Value) (address : UInt64) : Prop :=
  ∃ w x, ins.op = .call callee [.constInt w address, x]

/-- Anything else is left, as it should be. -/
theorem replacedLoad_of_not (h : ∀ callee address, ¬ ConstantCall ins callee address) :
    replacedLoad o ins = some none ∧ expectedLoad o ins = none := by
  have hload : loadCall ins = some none := by
    unfold loadCall
    split
    case h_1 callee a x hop =>
      cases a with
      | constInt w v => exact absurd ⟨w, x, hop⟩ (h callee v)
      | _ => rfl
    case h_2 => rfl
  have hlinked : linkedLoad ins = none := by
    unfold linkedLoad
    split
    case h_1 helper w address x hop => exact absurd ⟨w, x, hop⟩ (h (.func helper) address)
    case h_2 => rfl
  unfold replacedLoad expectedLoad
  rw [hload, hlinked]
  exact ⟨rfl, rfl⟩

/-- A call through a pointer that is no function. -/
theorem replacedLoad_of_pointer {callee : Value} (h : ConstantCall ins callee address)
    (hcallee : ∀ helper, callee ≠ .func helper) : replacedLoad o ins = none := by
  obtain ⟨w, x, hop⟩ := h
  have hload : loadCall ins = none := by
    unfold loadCall
    rw [hop]
    cases callee with
    | func helper => exact absurd rfl (hcallee helper)
    | _ => rfl
  unfold replacedLoad
  rw [hload]
  rfl

section Helper

variable {helper : String} {bits : ℕ} {call : InstId}

/-- A name the pass does not know. -/
theorem replacedLoad_of_unknown (h : ConstantCall ins (.func helper) address)
    (hbits : valueType helper = none) : replacedLoad o ins = some none := by
  obtain ⟨w, x, hop⟩ := h
  unfold replacedLoad loadCall
  rw [hop]
  simp [Value.constInt?, hbits]

/-- A name the pass knows: what the pools have. -/
theorem replacedLoad_of_known (h : ConstantCall ins (.func helper) address)
    (hbits : valueType helper = some bits) (hid : ins.id = some call) : replacedLoad o ins =
      (getMemoryValue o address (bits / 8)).map fun v => v.map fun value =>
      ⟨call, address, bits, value⟩ := by
  obtain ⟨w, x, hop⟩ := h
  unfold replacedLoad loadCall
  rw [hop]
  simp only [Value.constInt?, hbits, Option.map_some, Option.bind_eq_bind, Option.bind_some, hid]
  cases getMemoryValue o address (bits / 8) with
  | none => rfl
  | some v => cases v <;> rfl

theorem expectedLoad_of_unlinked (h : ConstantCall ins (.func helper) address)
    (hbits : linkedBits helper = none) : expectedLoad o ins = none := by
  obtain ⟨w, x, hop⟩ := h
  unfold expectedLoad linkedLoad
  rw [hop]
  simp [hbits]

theorem expectedLoad_of_linked (h : ConstantCall ins (.func helper) address)
    (hbits : linkedBits helper = some bits) (hid : ins.id = some call) :
    expectedLoad o ins = (poolValue o address (bits / 8)).map fun value =>
      ⟨call, address, bits, value⟩ := by
  obtain ⟨w, x, hop⟩ := h
  unfold expectedLoad linkedLoad
  rw [hop]
  simp only [hbits, Option.map_some, Option.bind_eq_bind, Option.bind_some, hid]
  cases poolValue o address (bits / 8) <;> rfl

end Helper

/-- The pass replaces the instruction that should be left, or the other way round. -/
def Mistakes (o : Options) (ins : Instr) : Prop :=
  replacedLoad o ins = none ∨ ∃ c, ins.id = some c.call ∧
    (replacedLoad o ins = some (some c) ∧ expectedLoad o ins = none ∨
      replacedLoad o ins = some none ∧ expectedLoad o ins = some c)

/-- The helper's calls have results. -/
def HasResult (ins : Instr) : Prop :=
  ∀ helper args, ins.op = .call (.func helper) args → (valueType helper).isSome ∨
    (linkedBits helper).isSome → ins.id.isSome

/-- What the pass does with an instruction, one it does not mistake or one it does. -/
def Outcome (o : Options) (ins : Instr) : Prop :=
  NotMistaken o ins ∧ replacedLoad o ins = some (expectedLoad o ins) ∨ ¬ NotMistaken o ins ∧
    Mistakes o ins

/-- The conditions on a call, by the name of what is called. -/
theorem notMistaken_iff {helper : String} (h : ConstantCall ins (.func helper) address) :
    NotMistaken o ins ↔ (helper = "__ldw_mmu" → ∀ p ∈ o.memoryPools, holds p address 2 = false) ∧
      (helper = "__lds_mmu" → ∀ p ∈ o.memoryPools, p.inside address = false) ∧
      (helper = "__ldl_mmu" → ∀ p, o.memoryPools.find? (fun p => p.inside address) = some p →
        holds p address 4 = true) := by
  obtain ⟨w, x, hop⟩ := h
  constructor
  · intro hgood
    obtain ⟨helper', heq, hcond⟩ := hgood _ w address x hop
    obtain rfl := Value.func.inj heq
    exact hcond
  · intro hcond callee w' address' x' hop'
    obtain ⟨rfl, hargs⟩ := Op.call.inj (hop.symm.trans hop')
    simp only [List.cons.injEq, Value.constInt.injEq, and_true] at hargs
    obtain ⟨⟨-, rfl⟩, -⟩ := hargs
    exact ⟨helper, rfl, hcond⟩

section Helper

variable {helper : String} {call : InstId} (hlen : ∀ p ∈ o.memoryPools, p.mp_file.length < 2 ^ 64)
include hlen

theorem outcome_ldl (h : ConstantCall ins (.func "__ldl_mmu") address)
    (hid : ins.id = some call) : Outcome o ins := by
  have hrep := replacedLoad_of_known (o := o) h rfl hid
  have hexp := expectedLoad_of_linked (o := o) h rfl hid
  have hiff := notMistaken_iff (o := o) h
  simp only [String.reduceEq, false_imp_iff, true_imp_iff, true_and] at hiff
  rcases getMemoryValue_cases hlen (by decide : 0 < 4) (by decide) address with
    ⟨hfind, hget, hpool⟩ | ⟨p, v, hfind, hholds, hget, hpool⟩ | ⟨p, hfind, hholds, hget⟩
  · refine Or.inl ⟨hiff.mpr fun q hq => ?_, ?_⟩
    · rw [hfind] at hq
      cases hq
    · rw [hrep, hexp, hget, hpool]
      rfl
  · refine Or.inl ⟨hiff.mpr fun q hq => ?_, ?_⟩
    · rw [hfind] at hq
      obtain rfl := Option.some.inj hq
      exact hholds
    · rw [hrep, hexp, hget, hpool]
      rfl
  · refine Or.inr ⟨fun hgood => ?_, Or.inl (by rw [hrep, hget]; rfl)⟩
    rw [hiff.mp hgood p hfind] at hholds
    cases hholds

/-- The only byte is the first one. -/
theorem outcome_ldb (h : ConstantCall ins (.func "__ldb_mmu") address)
    (hid : ins.id = some call) : Outcome o ins := by
  have hrep := replacedLoad_of_known (o := o) h rfl hid
  have hexp := expectedLoad_of_linked (o := o) h rfl hid
  have hgood : NotMistaken o ins := by
    rw [notMistaken_iff h]
    simp
  refine Or.inl ⟨hgood, ?_⟩
  rcases getMemoryValue_cases hlen (by decide : 0 < 1) (by decide) address with
    ⟨-, hget, hpool⟩ | ⟨p, v, -, -, hget, hpool⟩ | ⟨p, hfind, hholds, -⟩
  · rw [hrep, hexp, hget, hpool]
    rfl
  · rw [hrep, hexp, hget, hpool]
    rfl
  · have hin : p.inside address = true := by simpa using List.find?_some hfind
    have hall : holds p address 1 = true := by
      rw [holds_iff]
      intro k hk
      obtain rfl : k = 0 := by omega
      simpa using hin
    rw [hall] at hholds
    cases hholds

/-- The pass loads 16 bits under a name that no helper has. -/
theorem outcome_lds (h : ConstantCall ins (.func "__lds_mmu") address)
    (hid : ins.id = some call) : Outcome o ins := by
  have hrep := replacedLoad_of_known (o := o) h rfl hid
  have hexp := expectedLoad_of_unlinked (o := o) h (by decide)
  have hiff := notMistaken_iff (o := o) h
  simp only [String.reduceEq, false_imp_iff, true_imp_iff, and_true, true_and] at hiff
  have hbad : ∀ p, o.memoryPools.find? (fun p => p.inside address) = some p →
      ¬ NotMistaken o ins := by
    intro p hfind hgood
    have hin : p.inside address = true := by simpa using List.find?_some hfind
    rw [hiff.mp hgood p (List.mem_of_find?_eq_some hfind)] at hin
    cases hin
  rcases getMemoryValue_cases hlen (by decide : 0 < 2) (by decide) address with
    ⟨hfind, hget, -⟩ | ⟨p, v, hfind, -, hget, -⟩ | ⟨p, hfind, -, hget⟩
  · refine Or.inl ⟨hiff.mpr fun p hp => ?_, ?_⟩
    · simpa using List.find?_eq_none.mp hfind p hp
    · rw [hrep, hexp, hget]
      rfl
  · refine Or.inr ⟨hbad p hfind, Or.inr ⟨⟨call, address, 16, v⟩, hid, Or.inl ⟨?_, hexp⟩⟩⟩
    rw [hrep, hget]
    rfl
  · exact Or.inr ⟨hbad p hfind, Or.inl (by rw [hrep, hget]; rfl)⟩

/-- The pass does not know the name of the 16-bit helper. -/
theorem outcome_ldw (h : ConstantCall ins (.func "__ldw_mmu") address)
    (hid : ins.id = some call) : Outcome o ins := by
  have hrep := replacedLoad_of_unknown (o := o) h (by decide)
  have hexp := expectedLoad_of_linked (o := o) h rfl hid
  have hiff := notMistaken_iff (o := o) h
  simp only [String.reduceEq, false_imp_iff, true_imp_iff, and_true] at hiff
  unfold poolValue at hexp
  cases hfind : o.memoryPools.find? fun p => holds p address (16 / 8) with
  | none =>
    rw [hfind] at hexp
    refine Or.inl ⟨hiff.mpr fun p hp => ?_, ?_⟩
    · simpa using List.find?_eq_none.mp hfind p hp
    · rw [hrep, hexp]
      rfl
  | some p =>
    have hholds : holds p address 2 = true := by simpa using List.find?_some hfind
    have hp := List.mem_of_find?_eq_some hfind
    obtain ⟨v, hv⟩ := Option.isSome_iff_exists.mp
      ((isSome_read_iff (hlen p hp) (by decide) (by decide) o.isBigEndian).mpr hholds)
    refine Or.inr ⟨fun hgood => ?_, Or.inr ⟨⟨call, address, 16, v⟩, hid, Or.inr ⟨hrep, ?_⟩⟩⟩
    · rw [hiff.mp hgood p hp] at hholds
      cases hholds
    · rw [hexp, hfind, Option.bind_some, hv]
      rfl

end Helper

theorem outcome (hlen : ∀ p ∈ o.memoryPools, p.mp_file.length < 2 ^ 64)
    (hres : HasResult ins) : Outcome o ins := by
  by_cases hconst : ∃ callee address, ConstantCall ins callee address
  swap
  · simp only [not_exists] at hconst
    obtain ⟨hrep, hexp⟩ := replacedLoad_of_not (o := o) hconst
    refine Or.inl ⟨fun callee w address x hop => absurd ⟨w, x, hop⟩ (hconst callee address),
      by rw [hrep, hexp]⟩
  obtain ⟨callee, address, hcall⟩ := hconst
  by_cases hfunc : ∃ helper, callee = .func helper
  swap
  · refine Or.inr ⟨fun hgood => ?_, Or.inl (replacedLoad_of_pointer hcall fun helper h =>
      hfunc ⟨helper, h⟩)⟩
    obtain ⟨w, x, hop⟩ := hcall
    obtain ⟨helper, h, -⟩ := hgood callee w address x hop
    exact hfunc ⟨helper, h⟩
  obtain ⟨helper, rfl⟩ := hfunc
  have hsome : (valueType helper).isSome ∨ (linkedBits helper).isSome →
      ∃ call, ins.id = some call := by
    intro hknown
    obtain ⟨w, x, hop⟩ := hcall
    exact Option.isSome_iff_exists.mp (hres helper _ hop hknown)
  by_cases hldl : helper = "__ldl_mmu"
  · subst hldl
    obtain ⟨call, hid⟩ := hsome (by decide)
    exact outcome_ldl hlen hcall hid
  by_cases hldb : helper = "__ldb_mmu"
  · subst hldb
    obtain ⟨call, hid⟩ := hsome (by decide)
    exact outcome_ldb hlen hcall hid
  by_cases hlds : helper = "__lds_mmu"
  · subst hlds
    obtain ⟨call, hid⟩ := hsome (by decide)
    exact outcome_lds hlen hcall hid
  by_cases hldw : helper = "__ldw_mmu"
  · subst hldw
    obtain ⟨call, hid⟩ := hsome (by decide)
    exact outcome_ldw hlen hcall hid
  -- any other function: neither the pass nor the translator loads with it
  have hvalue : valueType helper = none := by simp [valueType, hldl, hlds, hldb]
  have hlinked : linkedBits helper = none := by simp [linkedBits, hldb, hldw, hldl]
  refine Or.inl ⟨(notMistaken_iff hcall).mpr ⟨fun h => absurd h hldw, fun h => absurd h hlds,
    fun h => absurd h hldl⟩, ?_⟩
  rw [replacedLoad_of_unknown hcall hvalue, expectedLoad_of_unlinked hcall hlinked]

/-! ## All instructions -/

theorem hasResult_mapValues (loads : List ConstantLoad) (h : HasResult ins) :
    HasResult (ins.mapValues (subst loads)) := by
  intro helper args hop hknown
  cases hop₀ : ins.op with
  | call callee args₀ =>
    rw [Instr.op_mapValues, hop₀] at hop
    obtain rfl := subst_eq_func (Op.call.inj hop).1
    exact h helper args₀ hop₀ hknown
  | _ =>
    rw [Instr.op_mapValues, hop₀] at hop
    cases hop

theorem mem_calls_append {k : InstId} (loads : List ConstantLoad) (c : Option ConstantLoad) :
    k ∈ calls (loads ++ c.toList) ↔ k ∈ calls loads ∨ ∃ d, c = some d ∧ d.call = k := by
  cases c <;> simp [calls, eq_comm]

theorem id_of_expectedLoad {c : ConstantLoad} (h : expectedLoad o ins = some c) :
    ins.id = some c.call := by
  unfold expectedLoad at h
  obtain ⟨load, -, h⟩ := Option.bind_eq_some_iff.mp h
  obtain ⟨value, -, h⟩ := Option.bind_eq_some_iff.mp h
  obtain ⟨call, hid, h⟩ := Option.bind_eq_some_iff.mp h
  obtain rfl := Option.some.inj h
  exact hid

/-- The instructions after it do not decide whether one is replaced. -/
theorem mem_calls_foldlM {k : InstId} (h : is.foldlM (logLoad o) loads = some loads')
    (hk : k ∉ is.filterMap Instr.id) : k ∈ calls loads' ↔ k ∈ calls loads := by
  induction is generalizing loads with
  | nil =>
    obtain rfl := Option.some.inj h
    rfl
  | cons ins is ih =>
    rw [List.foldlM_cons] at h
    obtain ⟨loads₁, hlog, h⟩ := Option.bind_eq_some_iff.mp h
    obtain ⟨c, hc, rfl⟩ := Option.map_eq_some_iff.mp hlog
    have hrest : k ∉ is.filterMap Instr.id := fun hmem => hk (by
      rw [List.filterMap_cons]
      split <;> simp [hmem])
    rw [ih h hrest, mem_calls_append, or_iff_left]
    rintro ⟨d, rfl, rfl⟩
    have hid : (ins.mapValues (subst loads)).id = some d.call := (replacedLoad_eq_some hc).1
    exact hk (List.mem_filterMap.mpr ⟨ins, List.mem_cons_self, hid⟩)

theorem mem_calls_foldl {k : InstId} (hk : k ∉ is.filterMap Instr.id) :
    k ∈ calls (is.foldl (expectLoad o) loads) ↔ k ∈ calls loads := by
  induction is generalizing loads with
  | nil => rfl
  | cons ins is ih =>
    have hrest : k ∉ is.filterMap Instr.id := fun hmem => hk (by
      rw [List.filterMap_cons]
      split <;> simp [hmem])
    rw [List.foldl_cons, ih hrest, expectLoad, mem_calls_append, or_iff_left]
    rintro ⟨d, hd, rfl⟩
    have hid : (ins.mapValues (subst loads)).id = some d.call := id_of_expectedLoad hd
    exact hk (List.mem_filterMap.mpr ⟨ins, List.mem_cons_self, hid⟩)

/-- The instructions have their own identities, and none is one of a load that is replaced
already. -/
def Fresh (loads : List ConstantLoad) (is : List Instr) : Prop :=
  (is.filterMap Instr.id).Nodup ∧ ∀ k ∈ is.filterMap Instr.id, k ∉ calls loads

theorem Fresh.notMem {k : InstId} (h : Fresh loads (ins :: is)) (hid : ins.id = some k) :
    k ∉ is.filterMap Instr.id ∧ k ∉ calls loads := by
  obtain ⟨hnodup, hnew⟩ := h
  rw [List.filterMap_cons_some hid] at hnodup hnew
  exact ⟨(List.nodup_cons.mp hnodup).1, hnew k List.mem_cons_self⟩

theorem Fresh.next (h : Fresh loads (ins :: is)) : Fresh (expectLoad o loads ins) is := by
  have hsub : (is.filterMap Instr.id).Sublist ((ins :: is).filterMap Instr.id) :=
    (List.sublist_cons_self ins is).filterMap Instr.id
  refine ⟨h.1.sublist hsub, fun k hk hmem => ?_⟩
  rcases (mem_calls_append loads _).mp hmem with hold | ⟨d, hd, rfl⟩
  · exact h.2 k (hsub.subset hk) hold
  · have hid : (ins.mapValues (subst loads)).id = some d.call := id_of_expectedLoad hd
    exact (h.notMem hid).1 hk

/-- The step at an instruction that is not mistaken. -/
theorem logLoad_eq (h : replacedLoad o (ins.mapValues (subst loads)) =
    some (expectedLoad o (ins.mapValues (subst loads)))) :
    logLoad o loads ins = some (expectLoad o loads ins) := by
  unfold logLoad expectLoad
  rw [h]
  rfl

/-- The sweep does what it should exactly when it mistakes no instruction.  An instruction that it
mistakes is in one of the two logs only, since no other has its identity. -/
theorem foldlM_logLoad_iff (hlen : ∀ p ∈ o.memoryPools, p.mp_file.length < 2 ^ 64)
    (hres : ∀ ins ∈ is, HasResult ins) (hfresh : Fresh loads is) :
    is.foldlM (logLoad o) loads = some (is.foldl (expectLoad o) loads) ↔
      ∀ before ins after, is = before ++ ins :: after →
        NotMistaken o (ins.mapValues (subst (before.foldl (expectLoad o) loads))) := by
  induction is generalizing loads with
  | nil => exact iff_of_true rfl fun before ins after h => by simp at h
  | cons ins is ih =>
    rw [List.forall_mem_cons] at hres
    have hih := ih hres.2 (hfresh.next (o := o))
    rw [List.foldlM_cons, List.foldl_cons]
    rcases outcome hlen (hasResult_mapValues loads hres.1) with ⟨hgood, hrep⟩ | ⟨hbad, hmistake⟩
    · rw [logLoad_eq hrep, Option.bind_eq_bind, Option.bind_some, hih]
      constructor
      · intro hrest before ins' after hsplit
        cases before with
        | nil =>
          obtain ⟨rfl, -⟩ := List.cons.inj hsplit
          exact hgood
        | cons first before =>
          obtain ⟨rfl, htail⟩ := List.cons.inj hsplit
          exact hrest before ins' after htail
      · intro hall before ins' after hsplit
        exact hall (ins :: before) ins' after (by rw [hsplit, List.cons_append])
    · refine iff_of_false (fun hrun => ?_) fun hall => hbad (hall [] ins is rfl)
      obtain ⟨loads₁, hlog, hrun⟩ := Option.bind_eq_some_iff.mp hrun
      obtain ⟨c', hc', rfl⟩ := Option.map_eq_some_iff.mp hlog
      rcases hmistake with habort | ⟨c, hid, hone⟩
      · rw [habort] at hc'
        cases hc'
      · have hid : ins.id = some c.call := hid
        obtain ⟨hlater, hearlier⟩ := hfresh.notMem hid
        -- the call is in one log only, and no later instruction has its identity
        have hlogs := (mem_calls_foldlM hrun hlater).symm.trans (mem_calls_foldl hlater)
        rw [expectLoad, mem_calls_append, mem_calls_append] at hlogs
        rcases hone with ⟨hrep, hexp⟩ | ⟨hrep, hexp⟩
        · obtain rfl := Option.some.inj (hc'.symm.trans hrep)
          rcases hlogs.mp (Or.inr ⟨c, rfl, rfl⟩) with hold | ⟨d, hd, -⟩
          · exact hearlier hold
          · rw [hexp] at hd
            cases hd
        · obtain rfl := Option.some.inj (hc'.symm.trans hrep)
          rcases hlogs.mpr (Or.inr ⟨c, hexp, rfl⟩) with hold | ⟨d, hd, -⟩
          · exact hearlier hold
          · cases hd

/-- **Which load calls are replaced.**  The pass replaces the calls of the load helpers that are to
be replaced, and no others, exactly when it mistakes no call, as the loads before it have left
it. -/
theorem replaces_iff (hlen : ∀ p ∈ o.memoryPools, p.mp_file.length < 2 ^ 64)
    (hf : WellFormedCalls f) :
    ReplacesLoads o f ↔ ∀ before ins after, f.instrs = before ++ ins :: after →
      NotMistaken o (ins.mapValues (subst (expected o before))) := by
  have hfresh : Fresh [] f.instrs := ⟨hf.nodup, fun k _ hk => nomatch hk⟩
  have hrun := foldlM_logLoad_iff hlen (fun ins hins => hf.result ins hins) hfresh
  unfold expected
  rw [← hrun]
  constructor
  · rintro ⟨f₁, hsweep, -, -⟩
    rw [sweep_eq] at hsweep
    obtain ⟨loads, hloads, heq⟩ := Option.map_eq_some_iff.mp hsweep
    rw [hloads, (Prod.mk.inj heq).2]
    rfl
  · intro hloads
    have hsweep : sweep o f = some (replacedIn f (expected o f.instrs)) := by
      rw [sweep_eq, hloads]
      rfl
    exact ⟨_, hsweep, isSome_runOnFunction_iff hlen hsweep, fun f' changed hrun =>
      runOnFunction_spec hsweep hrun⟩

/-! ## Pools with four bytes -/

/-- The result of a load is stored to `R0`. -/
def loadsFrom (helper : String) (address : UInt64) : Func :=
  ⟨"void-tcg-llvm-tb-0-1000",
    [⟨1, "entry", [⟨some 1, .call (.func helper) [.constInt 32 address, .constInt 32 0], []⟩,
    ⟨none, .store (.inst 1) (.global "R0"), []⟩]⟩]⟩

def littleFourBytes : Options := ⟨[fourBytes], false, []⟩

theorem wellFormedCalls_loadsFrom (helper : String) (address : UInt64) :
    WellFormedCalls (loadsFrom helper address) := by
  refine ⟨by simp [loadsFrom, Func.instrs], fun ins hins helper' args hop _ => ?_⟩
  simp only [loadsFrom, Func.instrs, List.flatMap_cons, List.flatMap_nil, List.append_nil,
    List.mem_cons, List.not_mem_nil, or_false] at hins
  rcases hins with rfl | rfl
  · rfl
  · cases hop

theorem length_fourBytes : ∀ p ∈ littleFourBytes.memoryPools, p.mp_file.length < 2 ^ 64 := by
  intro p hp
  obtain rfl := List.mem_singleton.mp hp
  decide

/-- The whole pool is loaded. -/
theorem replaces_wholePool : ReplacesLoads littleFourBytes (loadsFrom "__ldl_mmu" 0x1000) := by
  refine (replaces_iff length_fourBytes
    (wellFormedCalls_loadsFrom _ _)).mpr fun before ins after hsplit => ?_
  intro callee w address x hop
  cases before with
  | nil =>
    obtain ⟨rfl, -⟩ := List.cons.inj hsplit
    obtain ⟨rfl, hargs⟩ := Op.call.inj hop
    obtain ⟨haddr, -⟩ := List.cons.inj hargs
    obtain ⟨-, rfl⟩ := Value.constInt.inj haddr
    refine ⟨"__ldl_mmu", rfl, fun h => absurd h (by decide), fun h => absurd h (by decide),
      fun _ p hp => ?_⟩
    obtain rfl := List.mem_singleton.mp (List.mem_of_find?_eq_some hp)
    decide
  | cons load before =>
    cases before with
    | nil =>
      obtain ⟨-, hsplit⟩ := List.cons.inj hsplit
      obtain ⟨rfl, -⟩ := List.cons.inj hsplit
      cases hop
    | cons store before => simp [loadsFrom, Func.instrs] at hsplit

/-- A word of which the pool has three bytes ends the pass, and the 16-bit load is left. -/
theorem not_replaces_ldw : (∀ helper address, WellFormedCalls (loadsFrom helper address)) ∧
    sweep littleFourBytes (loadsFrom "__ldl_mmu" 0x1001) = none ∧
    ¬ ReplacesLoads littleFourBytes (loadsFrom "__ldl_mmu" 0x1001) ∧
    ¬ ReplacesLoads littleFourBytes (loadsFrom "__ldw_mmu" 0x1000) := by
  have habort : sweep littleFourBytes (loadsFrom "__ldl_mmu" 0x1001) = none := by decide
  refine ⟨wellFormedCalls_loadsFrom, habort, ?_, ?_⟩
  · rintro ⟨f₁, hsweep, -⟩
    rw [habort] at hsweep
    cases hsweep
  · rintro ⟨f₁, hsweep, -⟩
    have hleft : (sweep littleFourBytes (loadsFrom "__ldw_mmu" 0x1000)).map Prod.snd =
      some [] := by decide
    have hshould : expected littleFourBytes (loadsFrom "__ldw_mmu" 0x1000).instrs =
        [⟨1, 0x1000, 16, 0x5678⟩] := by
      decide
    rw [hsweep, hshould] at hleft
    cases hleft

end Bin2llvm.ReplaceConstantLoads
