import Bin2llvm.Lib.Cells
import Bin2llvm.S2ETransformPass

/-!
# Bin2llvm.EnvAccesses — loads and stores through the environment pointer

What the accesses at constant offsets load, before and after `S2ETransformPass` has made globals of
them.

* `Chain`, `EnvAccess`: the environment pointer after casts, additions and `getelementptr`s, and an
  access there.
* `visited_of_chain`: the pass comes to the uses of a chain, with the sum of its steps.
* `exists_replaced`: the access is there after the pass, with the global that is named after the
  offset.
* `loads_preserved`: what is loaded stays the same, if no load reads what a store at another offset
  wrote last.
-/

namespace Bin2llvm.S2ETransformPass

/-! ## Accesses at constant offsets -/

/-- A step from one address to the next, with the bytes in between. -/
inductive Step where
  | cast
  | add (c : UInt64)
  | constAdd (c : UInt64)
  | gep (total : UInt64)

def Step.offset : Step → UInt64
  | cast => 0
  | add c | constAdd c | gep c => c

/-- The address after some steps. -/
def totalOffset (steps : List Step) : UInt64 := steps.foldr (fun s total => s.offset + total) 0

theorem totalOffset_cons (s : Step) (steps : List Step) :
    totalOffset (s :: steps) = s.offset + totalOffset steps := rfl

/-- The pass looks for the constant of an addition at the second operand, and takes the total -1 for
an error. -/
def Step.Followed : Step → Prop
  | cast | add _ => True
  | constAdd _ => False
  | gep total => total.toUInt32 ≠ 0xffffffff

/-- The total of constant indices. -/
def gepTotal : List (Value × IndexType) → Option UInt64
  | [] => some 0
  | (.constInt width val, ty) :: rest =>
    (gepTotal rest).map fun total => (if val = 0 then 0 else indexOffset ty width val) + total
  | _ => none

/-- `start + k`. -/
def byteAt (start : UInt64) (k : ℕ) : UInt64 := start + UInt64.ofNat k

/-- `a - start`. -/
def index (start a : UInt64) : ℕ := (a - start).toNat

theorem index_byteAt {start : UInt64} {k : ℕ} (hk : k < 2 ^ 64) :
    index start (byteAt start k) = k := by
  rw [index, byteAt, UInt64.add_comm, UInt64.add_sub_cancel]
  exact UInt64.toNat_ofNat_of_lt' hk

theorem eq_of_toUInt32_eq {a b : UInt64} (ha : a.toNat < 2 ^ 32) (hb : b.toNat < 2 ^ 32)
    (h : a.toUInt32 = b.toUInt32) : a = b := by
  have hnat := congrArg UInt32.toNat h
  rw [UInt64.toNat_toUInt32, UInt64.toNat_toUInt32, Nat.mod_eq_of_lt ha,
    Nat.mod_eq_of_lt hb] at hnat
  exact UInt64.toNat_inj.mp hnat

section

variable {Ty : Type} (T : TypeInfo Ty) (f : Func)

/-- The argument, cast. -/
inductive ArgPtr : Value → Prop
  | arg : ArgPtr (.arg 0)
  | cast {ins : Instr} {k : InstId} {v : Value} {opcode : ℕ} (hins : ins ∈ f.instrs)
      (hid : ins.id = some k) (hop : ins.op = .other opcode [v]) (hcast : isCast opcode = true)
      (h : ArgPtr v) : ArgPtr (.inst k)
  | gep {ins : Instr} {k : InstId} {v : Value} {width : ℕ} (hins : ins ∈ f.instrs)
      (hid : ins.id = some k) (hop : ins.op = .other GetElementPtr [v, .constInt width 0])
      (h : ArgPtr v) : ArgPtr (.inst k)

/-- The environment pointer after some steps. -/
inductive Chain : Value → List Step → Prop
  | load {ins : Instr} {k : InstId} {p : Value} (hins : ins ∈ f.instrs) (hid : ins.id = some k)
      (hop : ins.op = .load p) (h : ArgPtr f p ∨ T.getName p = "env") : Chain (.inst k) []
  | cast {ins : Instr} {k : InstId} {v : Value} {opcode : ℕ} {steps : List Step}
      (hins : ins ∈ f.instrs) (hid : ins.id = some k) (hop : ins.op = .other opcode [v])
      (hcast : isCast opcode = true) (h : Chain v steps) : Chain (.inst k) (.cast :: steps)
  | add {ins : Instr} {k : InstId} {v : Value} {width : ℕ} {val : UInt64} {steps : List Step}
      (hins : ins ∈ f.instrs) (hid : ins.id = some k)
      (hop : ins.op = .binop .add v (.constInt width val)) (h : Chain v steps) :
      Chain (.inst k) (.add (getSExtValue width val) :: steps)
  | constAdd {ins : Instr} {k : InstId} {v : Value} {width : ℕ} {val : UInt64} {steps : List Step}
      (hins : ins ∈ f.instrs) (hid : ins.id = some k)
      (hop : ins.op = .binop .add (.constInt width val) v) (h : Chain v steps) :
    Chain (.inst k) (.constAdd (getSExtValue width val) :: steps)
  | gep {ins : Instr} {k : InstId} {v : Value} {indices : List Value} {total : UInt64}
      {steps : List Step} (hins : ins ∈ f.instrs) (hid : ins.id = some k)
      (hop : ins.op = .other GetElementPtr (v :: indices))
      (htotal : gepTotal (indices.zip (T.indexTypes k)) = some total) (h : Chain v steps) :
      Chain (.inst k) (.gep total :: steps)

/-- A load or a store through the environment pointer, with the bytes a store stores. -/
structure EnvAccess where
  ins : Instr
  id : InstId
  ptr : Value
  steps : List Step
  bytes : ℕ → BitVec 8
  mem : ins ∈ f.instrs
  id_eq : ins.id = some id
  access : ins.op = .load ptr ∨ ∃ v, ins.op = .store v ptr
  chain : Chain T f ptr steps

variable {T f}

namespace EnvAccess

/-- The address, from the environment pointer on. -/
def offset (e : EnvAccess T f) : UInt64 := totalOffset e.steps

def width (e : EnvAccess T f) : ℕ := (T.storeSize (T.accessType e.id)).toNat

def isStore (e : EnvAccess T f) : Bool :=
  match e.ins.op with
  | .store .. => true
  | _ => false

def toAccess (e : EnvAccess T f) : Cells.Access UInt64 (BitVec 8) :=
  ⟨e.offset, e.width, e.isStore, e.bytes⟩

end EnvAccess

end

/-! ## What the pass comes to -/

theorem getGetElementPtrOffset_of_gepTotal {indices : List (Value × IndexType)} {total : UInt64}
    (h : gepTotal indices = some total) (elementOffset : UInt32) :
    getGetElementPtrOffset elementOffset indices = some (elementOffset + total.toUInt32) := by
  induction indices generalizing total elementOffset with
  | nil =>
    obtain rfl : 0 = total := Option.some.inj h
    simp [getGetElementPtrOffset]
  | cons p rest ih =>
    obtain ⟨v, ty⟩ := p
    cases v with
    | constInt width val =>
      rw [gepTotal, Option.map_eq_some_iff] at h
      obtain ⟨total', hrest, rfl⟩ := h
      rw [getGetElementPtrOffset]
      by_cases hval : val = 0
      · rw [if_pos hval, if_pos hval, ih hrest, UInt64.zero_add]
      · rw [if_neg hval, if_neg hval, ih hrest, UInt64.toUInt32_add, UInt32.add_assoc]
    | _ => exact absurd h (by simp [gepTotal])

section

variable {Ty : Type} [DecidableEq Ty] {T : TypeInfo Ty} {f : Func} {U : UseLists f}
variable {final : PassState Ty} {use : Instr} {id : InstId} {v : Value} {currentOffset : UInt32}

omit [DecidableEq Ty] in
theorem Visited.exists_fuel (process : ℕ → Process Ty) (hzero : ∀ st, process 0 st = none)
    {fuel : ℕ} (h : Visited final (process fuel)) : ∃ n, Visited final (process (n + 1)) := by
  cases fuel with
  | zero =>
    obtain ⟨st, b, st', hrun, -, -⟩ := h
    exact absurd hrun (by simp [hzero])
  | succ n => exact ⟨n, h⟩

omit [DecidableEq Ty] in
/-- A part of the pass that goes on with the uses of an instruction comes to them. -/
theorem Visited.exists_uses (id : InstId) (process : ℕ → Process Ty)
    (processUse : ℕ → Instr → Process Ty) {uses : List Instr} (hzero : ∀ st, process 0 st = none)
    (hadds : ∀ n u, OnlyAdds (processUse n u))
    (heq : ∀ n st, process (n + 1) st = eraseAfter id (forUses (processUse n) uses) st)
    (h : ∃ fuel, Visited final (process fuel)) :
    ∀ use ∈ uses, ∃ fuel, Visited final (processUse fuel use) := by
  intro use huse
  obtain ⟨fuel, h⟩ := h
  obtain ⟨n, h⟩ := h.exists_fuel process hzero
  rw [funext (heq n)] at h
  exact ⟨n, h.of_eraseAfter.of_forUses (hadds n) huse⟩

/-- The pass comes to the uses of the argument and its casts. -/
theorem visited_of_argPtr {fuel : ℕ}
    (harg : ∀ use ∈ U.uses (.arg 0), Visited final (processArgUse T U fuel use))
    {p : Value} (hp : ArgPtr f p) :
    ∀ use ∈ U.uses p, ∃ fuel, Visited final (processArgUse T U fuel use) := by
  induction hp with
  | arg => exact fun use huse => ⟨fuel, harg use huse⟩
  | @cast ins k v opcode hins hid hop hcast _ ih =>
    refine Visited.exists_uses k (fun n => processArgUse T U n ins) (processArgUse T U)
      (fun _ => rfl)
      onlyAdds_processArgUse (fun n st =>
        ?_) (ih ins (U.mem_uses.mpr ⟨hins, by simp [hop, Op.operands]⟩))
    simp [processArgUse, hid, hop, hcast]
  | @gep ins k v width hins hid hop _ ih =>
    refine Visited.exists_uses k (fun n => processArgUse T U n ins) (processArgUse T U)
      (fun _ => rfl)
      onlyAdds_processArgUse (fun n st =>
        ?_) (ih ins (U.mem_uses.mpr ⟨hins, by simp [hop, Op.operands]⟩))
    simp [processArgUse, hid, hop, isCast, GetElementPtr]

/-- An instruction that adds to the offset, or copies it. -/
theorem Visited.envUses {ins : Instr} (k : InstId) (offset : UInt32)
    (heq : ∀ n st, processEnvUse T U (n + 1) v ins currentOffset st =
      eraseAfter k (forUses (fun u => processEnvUse T U n (.inst k) u offset)
        (U.uses (.inst k))) st)
    (h : ∃ fuel, Visited final (processEnvUse T U fuel v ins currentOffset)) :
    ∀ use ∈ U.uses (.inst k), ∃ fuel, Visited final (processEnvUse T U fuel (.inst k) use offset) :=
  Visited.exists_uses k (fun n => processEnvUse T U n v ins currentOffset)
    (fun n u => processEnvUse T U n (.inst k) u offset) (fun _ => rfl)
    (fun n u => onlyAdds_processEnvUse n (.inst k) u offset) heq h

/-- The pass comes to the uses of a chain, with the sum of its steps. -/
theorem visited_of_chain {fuel : ℕ}
    (harg : ∀ use ∈ U.uses (.arg 0), Visited final (processArgUse T U fuel use))
    (henv : ∀ use ∈ f.instrs.filter (isEnvLoad T), Visited final (processArgUse T U fuel use))
    {steps : List Step} (hv : Chain T f v steps) (hfollowed : ∀ s ∈ steps, s.Followed) :
    ∀ use ∈ U.uses v, ∃ fuel,
      Visited final (processEnvUse T U fuel v use (totalOffset steps).toUInt32) := by
  induction hv with
  | @load ins k p hins hid hop h =>
    have hvis : ∃ fuel, Visited final (processArgUse T U fuel ins) := by
      rcases h with hp | hname
      · exact visited_of_argPtr harg hp ins (U.mem_uses.mpr ⟨hins, by simp [hop, Op.operands]⟩)
      · exact ⟨fuel, henv ins (List.mem_filter.mpr ⟨hins, by simp [isEnvLoad, hop, hname]⟩)⟩
    refine Visited.exists_uses k (fun n => processArgUse T U n ins) (fun n u =>
      processEnvUse T U n (.inst k) u 0)
      (fun _ => rfl) (fun n u => onlyAdds_processEnvUse n (.inst k) u 0) (fun n st => ?_) hvis
    simp [processArgUse, hid, hop]
  | @cast ins k v opcode steps hins hid hop hcast _ ih =>
    have hvis := ih (fun s hs => hfollowed s (List.mem_cons_of_mem _ hs)) ins
      (U.mem_uses.mpr ⟨hins, by simp [hop, Op.operands]⟩)
    rw [totalOffset_cons, Step.offset, UInt64.zero_add]
    refine Visited.envUses k _ (fun n st => ?_) hvis
    simp [processEnvUse, hid, hop, hcast]
  | @add ins k v width val steps hins hid hop _ ih =>
    have hvis := ih (fun s hs => hfollowed s (List.mem_cons_of_mem _ hs)) ins
      (U.mem_uses.mpr ⟨hins, by simp [hop, Op.operands]⟩)
    rw [totalOffset_cons, Step.offset, UInt64.toUInt32_add, UInt32.add_comm]
    refine Visited.envUses k _ (fun n st => ?_) hvis
    simp [processEnvUse, hid, hop]
  | constAdd => exact absurd (hfollowed _ List.mem_cons_self) id
  | @gep ins k v indices total steps hins hid hop htotal _ ih =>
    have hvis := ih (fun s hs => hfollowed s (List.mem_cons_of_mem _ hs)) ins
      (U.mem_uses.mpr ⟨hins, by simp [hop, Op.operands]⟩)
    have htotal' := getGetElementPtrOffset_of_gepTotal htotal 0
    rw [UInt32.zero_add] at htotal'
    -- the total is not taken for the error value
    have hne : total.toUInt32 ≠ 0xffffffff := hfollowed _ List.mem_cons_self
    rw [totalOffset_cons, Step.offset, UInt64.toUInt32_add, UInt32.add_comm]
    refine Visited.envUses k _ (fun n st => ?_) hvis
    simp [processEnvUse, hid, hop, isCast, GetElementPtr, htotal', hne]

/-! ## The access after the pass -/

/-- An access that is followed is there after the pass, with the global that is named after the
offset. -/
theorem exists_replaced {fuel : ℕ} {globals globals' : List (String × Ty)} {f' : Func}
    (hids : (f.instrs.filterMap Instr.id).Nodup)
    (hrun : runOnFunction T f U fuel globals = some (f', globals'))
    (e : EnvAccess T f) (hfollowed : ∀ s ∈ e.steps, s.Followed) : ∃ ptr ty,
      (f'.instrs.find? fun ins => ins.id = some e.id) = some ⟨some e.id,
        withPointer ptr (e.ins.op.mapValues (replaceValue (.arg 0) (.inst (freshInstId f)))), []⟩ ∧
      globalOf ptr = some (getGlobalName e.offset.toUInt32) ∧
      globals'.lookup (getGlobalName e.offset.toUInt32) = some ty := by
  obtain ⟨final, hnd, hglobals, harg, henv, hnew, hold⟩ := runOnFunction_eq hrun
  have hoperand : e.ptr ∈ e.ins.op.operands := by
    rcases e.access with hop | ⟨v, hop⟩ <;> simp [hop, Op.operands]
  obtain ⟨fuel', hvis⟩ := visited_of_chain harg henv e.chain hfollowed e.ins
    (U.mem_uses.mpr ⟨e.mem, hoperand⟩)
  obtain ⟨n, hvis⟩ := Visited.exists_fuel (fun n => processEnvUse T U n e.ptr e.ins _)
    (fun _ => rfl) hvis
  have heq : ∀ st, processEnvUse T U (n + 1) e.ptr e.ins (totalOffset e.steps).toUInt32 st =
      replaceAccess T e.id e.offset.toUInt32 st := by
    intro st
    rcases e.access with hop | ⟨v, hop⟩ <;> simp [processEnvUse, e.id_eq, hop, EnvAccess.offset]
  rw [funext heq] at hvis
  obtain ⟨ptr, ty, hptr, hname, hty⟩ := hvis.replaced hnd
  have hnewIns : newIns final (freshInstId f) e.ins = some ⟨some e.id,
      withPointer ptr (e.ins.op.mapValues (replaceValue (.arg 0) (.inst (freshInstId f)))),
        []⟩ := by
    simp [newIns, e.id_eq, hptr]
  refine ⟨ptr, ty, ?_, hname, hglobals.lookup_eq_some hty⟩
  -- no other instruction of the function has this identity
  cases hfind : f'.instrs.find? fun ins => ins.id = some e.id with
  | none => exact absurd (List.find?_eq_none.mp hfind _ (hnew e.ins e.mem _ hnewIns)) (by simp)
  | some ins' =>
    have hid' : ins'.id = some e.id := by simpa using List.find?_some hfind
    rcases hold ins' (List.mem_of_find?_eq_some hfind) with hfresh | ⟨ins, hins, hins'⟩
    · have hlt := lt_freshInstId e.mem e.id_eq
      rw [hid', Option.some.injEq] at hfresh
      exact absurd hfresh hlt.ne
    · have hid : ins.id = some e.id := by rw [← id_of_newIns hins', hid']
      obtain rfl := Lists.eq_of_key hids hins e.mem hid e.id_eq
      rw [← hins', hnewIns]

end

/-! ## What is loaded -/

/-- `getPointerOperand()` of a store, or of a load. -/
def getPointerOperand (isStore : Bool) (ins : Instr) : Option Value :=
  match isStore, ins.op with
  | true, .store _ ptr | false, .load ptr => some ptr
  | _, _ => none

section

variable {Ty : Type} {T : TypeInfo Ty} {f : Func}

/-- What the accesses load from the CPU state. -/
def loadsBefore (mem : UInt64 → BitVec 8) (es : List (EnvAccess T f)) : List (List (BitVec 8)) :=
  Cells.loads byteAt index mem (es.map EnvAccess.toAccess)

/-- The global an access goes to after the pass, or none, if it still goes through `CPUSTATE`.  It
fails if the access is gone, or goes beyond the end of the global. -/
def EnvAccess.globalAfter (f' : Func) (globals : List (String × Ty)) (e : EnvAccess T f) :
    Option (Option String) := do
  let ins ← f'.instrs.find? fun ins => ins.id = some e.id
  let ptr ← getPointerOperand e.isStore ins
  match globalOf ptr with
  | none => some none
  | some name => do
    let ty ← globals.lookup name
    if e.width ≤ (T.storeSize ty).toNat then some (some name) else none

/-- What the accesses load after the pass, from the globals and from the CPU state. -/
def loadsAfter (f' : Func) (globals : List (String × Ty)) (cells : String → ℕ → BitVec 8)
    (mem : UInt64 → BitVec 8) : List (EnvAccess T f) → Option (List (List (BitVec 8)))
  | [] => some []
  | e :: es => do
    match ← e.globalAfter f' globals with
    | some name => do
      let rest ← loadsAfter f' globals
        (Cells.storeCell id cells { e.toAccess with start := name }) mem es
      some ((if e.isStore then [] else [(List.range e.width).map (cells name)]) ++ rest)
    | none => do
      let rest ← loadsAfter f' globals cells (Cells.store index mem e.toAccess) es
      some ((if e.isStore then [] else [(List.range e.width).map fun k =>
        mem (byteAt e.offset k)]) ++ rest)

/-- The steps are followed, the offset is one of an `unsigned int`, and the access fits the
global. -/
structure EnvAccess.Supported (globals : List (String × Ty)) (e : EnvAccess T f) : Prop where
  followed : ∀ s ∈ e.steps, s.Followed
  offset_lt : e.offset.toNat < 2 ^ 32
  fits : ∀ ty, globals.lookup (getGlobalName e.offset.toUInt32) = some ty →
    e.width ≤ (T.storeSize ty).toNat

theorem getPointerOperand_withPointer (e : EnvAccess T f) (σ : Value → Value) (ptr : Value)
    (k : Option InstId) (md : Metadata) :
    getPointerOperand e.isStore ⟨k, withPointer ptr (e.ins.op.mapValues σ), md⟩ = some ptr := by
  rcases e.access with hop | ⟨v, hop⟩ <;>
    simp [EnvAccess.isStore, getPointerOperand, hop, Op.mapValues, withPointer]

variable [DecidableEq Ty] {U : UseLists f}

theorem globalAfter_eq {fuel : ℕ} {globals globals' : List (String × Ty)} {f' : Func}
    (hids : (f.instrs.filterMap Instr.id).Nodup)
    (hrun : runOnFunction T f U fuel globals = some (f', globals'))
    {e : EnvAccess T f} (he : e.Supported globals') :
    e.globalAfter f' globals' = some (some (getGlobalName e.offset.toUInt32)) := by
  obtain ⟨ptr, ty, hfind, hname, hty⟩ := exists_replaced hids hrun e he.followed
  simp only [EnvAccess.globalAfter, hfind, getPointerOperand_withPointer, hname, hty,
    if_pos (he.fits ty hty), Option.bind_eq_bind, Option.bind_some]

omit [DecidableEq Ty] in
/-- Accesses that have all become accesses to globals. -/
theorem loadsAfter_eq_cellLoads {f' : Func} {globals : List (String × Ty)} {mem : UInt64 → BitVec 8}
    {es : List (EnvAccess T f)}
    (h : ∀ e ∈ es, e.globalAfter f' globals = some (some (getGlobalName e.offset.toUInt32)))
    (cells : String → ℕ → BitVec 8) : loadsAfter f' globals cells mem es =
      some (Cells.cellLoads (fun offset => getGlobalName offset.toUInt32) cells
        (es.map EnvAccess.toAccess)) := by
  induction es generalizing cells with
  | nil => rfl
  | cons e es ih =>
    have ⟨he, hes⟩ := List.forall_mem_cons.mp h
    simp only [loadsAfter, he, ih hes, Option.bind_eq_bind, Option.bind_some, List.map_cons,
      Cells.cellLoads]
    rfl

end

/-- **The loads return the same after the pass.**  The globals start with what is in the CPU state,
and no load reads a byte that a store at another offset wrote last. -/
theorem loads_preserved : Function.Injective getGlobalName ∧
    ∀ {Ty : Type} [DecidableEq Ty] {T : TypeInfo Ty} {f : Func}
    {U : UseLists f} {fuel : ℕ} {globals globals' : List (String × Ty)} {f' : Func}
    {es : List (EnvAccess T f)} {mem : UInt64 → BitVec 8} {cells : String → ℕ → BitVec 8},
    (f.instrs.filterMap Instr.id).Nodup →
    runOnFunction T f U fuel globals = some (f', globals') → (∀ e ∈ es, e.Supported globals') →
    (∀ e ∈ es, ∀ k < e.width, cells (getGlobalName e.offset.toUInt32) k = mem (byteAt e.offset k)) →
    Cells.KeepsStarts byteAt index (es.map EnvAccess.toAccess) →
    loadsAfter f' globals' cells mem es = some (loadsBefore mem es) := by
  refine ⟨getGlobalName_injective, fun hids hrun hsupp hinit hkeep => ?_⟩
  rw [loadsAfter_eq_cellLoads fun e he => globalAfter_eq hids hrun (hsupp e he), loadsBefore,
    Cells.cellLoads_eq_loads ?_ ?_ ?_ hkeep]
  · intro a ha k hk
    obtain ⟨e, he, rfl⟩ := List.mem_map.mp ha
    exact index_byteAt (hk.trans (UInt64.toNat_lt _))
  · intro a ha k hk
    obtain ⟨e, he, rfl⟩ := List.mem_map.mp ha
    exact hinit e he k hk
  · intro a ha s hs hname
    obtain ⟨e, he, rfl⟩ := List.mem_map.mp ha
    obtain ⟨e', he', rfl⟩ := List.mem_map.mp hs
    exact eq_of_toUInt32_eq (hsupp e' he').offset_lt (hsupp e he).offset_lt
      (getGlobalName_injective hname)

/-! ## Accesses to R0 and R1 -/

/-- The operands of each instruction, in the order of the function. -/
def useList (f : Func) : UseLists f := ⟨_, fun _ => List.Perm.refl _⟩

def typeInfo : TypeInfo ℕ where
  getName _ := ""
  indexTypes _ := [.sequential 1]
  accessType id := if id = 7 then 4 else 8
  argType := 8
  storeSize ty := UInt64.ofNat ty

/-- R0 and R1 are at 0x84 and 0x88, four bytes each; all accesses but the load 7 are of eight. -/
def accesses : Func := ⟨"tcg-llvm-tb-0-8000", [⟨0, "entry", [
  ⟨some 0, .load (.arg 0), []⟩,
  ⟨some 1, .binop .add (.inst 0) (.constInt 64 0x84), []⟩,
  ⟨some 2, .other 43 [.inst 1], []⟩,
  ⟨some 3, .store (.constInt 64 0x0101010101010101) (.inst 2), []⟩,
  ⟨some 4, .load (.inst 2), []⟩,
  -- `inttoptr` to a pointer to four bytes, and to one to eight
  ⟨some 5, .binop .add (.inst 0) (.constInt 64 0x88), []⟩,
  ⟨some 6, .other 43 [.inst 5], []⟩,
  ⟨some 7, .load (.inst 6), []⟩,
  ⟨some 8, .other 43 [.inst 5], []⟩,
  ⟨some 9, .load (.inst 8), []⟩,
  ⟨some 10, .binop .add (.inst 0) (.constInt 64 0x100000084), []⟩,
  ⟨some 11, .other 43 [.inst 10], []⟩,
  ⟨some 12, .load (.inst 11), []⟩,
  ⟨some 13, .binop .add (.constInt 64 0x84) (.inst 0), []⟩,
  ⟨some 14, .other 43 [.inst 13], []⟩,
  ⟨some 15, .load (.inst 14), []⟩,
  -- `inttoptr` to a pointer to bytes, two steps, and a `bitcast`
  ⟨some 16, .other 43 [.inst 0], []⟩,
  ⟨some 17, .other 29 [.inst 16, .constInt 64 0xffffffffffffffff], []⟩,
  ⟨some 18, .other 29 [.inst 17, .constInt 64 0x85], []⟩,
  ⟨some 19, .other 44 [.inst 18], []⟩,
  ⟨some 20, .load (.inst 19), []⟩,
  ⟨none, .ret none, []⟩]⟩]⟩

theorem chain_env : Chain typeInfo accesses (.inst 0) [] :=
  @Chain.load _ typeInfo accesses ⟨some 0, .load (.arg 0), []⟩ 0 (.arg 0) (by decide) rfl
    rfl (Or.inl .arg)

/-- `add` and `inttoptr`. -/
theorem chain_add (k k' : InstId) (c : UInt64)
    (hadd : ⟨some k, .binop .add (.inst 0) (.constInt 64 c), []⟩ ∈ accesses.instrs)
    (hcast : ⟨some k', .other 43 [.inst k], []⟩ ∈ accesses.instrs) :
    Chain typeInfo accesses (.inst k') [.cast, .add (getSExtValue 64 c)] :=
  .cast hcast rfl rfl rfl (.add hadd rfl rfl chain_env)

theorem chain_constFirst : Chain typeInfo accesses (.inst 14)
    [.cast, .constAdd (getSExtValue 64 0x84)] :=
  @Chain.cast _ typeInfo accesses ⟨some 14, .other 43 [.inst 13], []⟩ 14 (.inst 13) 43 _
    (by decide) rfl rfl rfl
    (@Chain.constAdd _ typeInfo accesses ⟨some 13, .binop .add (.constInt 64 0x84) (.inst 0),
      []⟩ 13 (.inst 0) 64 0x84 _ (by decide) rfl rfl chain_env)

theorem chain_bytes : Chain typeInfo accesses (.inst 16) [.cast] :=
  @Chain.cast _ typeInfo accesses ⟨some 16, .other 43 [.inst 0], []⟩ 16 (.inst 0) 43 _ (by decide)
    rfl rfl rfl chain_env

theorem chain_minusOne : Chain typeInfo accesses (.inst 19)
    [.cast, .gep 0x85, .gep 0xffffffffffffffff, .cast] :=
  @Chain.cast _ typeInfo accesses ⟨some 19, .other 44 [.inst 18], []⟩ 19 (.inst 18) 44 _
    (by decide) rfl rfl rfl
    (@Chain.gep _ typeInfo accesses ⟨some 18, .other 29 [.inst 17, .constInt 64 0x85],
      []⟩ 18 (.inst 17) [.constInt 64 0x85] 0x85 _ (by decide) rfl rfl (by decide)
      (@Chain.gep _ typeInfo accesses ⟨some 17,
        .other 29 [.inst 16, .constInt 64 0xffffffffffffffff], []⟩ 17 (.inst 16)
        [.constInt 64 0xffffffffffffffff] 0xffffffffffffffff _ (by decide) rfl rfl
          (by decide) chain_bytes))

def loadOf (k : InstId) {ptr : Value} {steps : List Step}
    (hmem : ⟨some k, .load ptr, []⟩ ∈ accesses.instrs)
    (hchain : Chain typeInfo accesses ptr steps) : EnvAccess typeInfo accesses :=
  ⟨⟨some k, .load ptr, []⟩, k, ptr, steps, fun _ => 0, hmem, rfl, Or.inl rfl, hchain⟩

def storeR0 : EnvAccess typeInfo accesses :=
  ⟨⟨some 3, .store (.constInt 64 0x0101010101010101) (.inst 2), []⟩, 3, .inst 2, _, fun _ => 1,
    by decide, rfl, Or.inr ⟨_, rfl⟩, chain_add 1 2 0x84 (by decide) (by decide)⟩

def loadR0 : EnvAccess typeInfo accesses :=
  loadOf 4 (by decide) (chain_add 1 2 0x84 (by decide) (by decide))

def loadR1 : EnvAccess typeInfo accesses :=
  loadOf 7 (by decide) (chain_add 5 6 0x88 (by decide) (by decide))

def loadWide : EnvAccess typeInfo accesses :=
  loadOf 9 (by decide) (chain_add 5 8 0x88 (by decide) (by decide))

def loadAbove : EnvAccess typeInfo accesses :=
  loadOf 12 (by decide) (chain_add 10 11 0x100000084 (by decide) (by decide))

def loadConstFirst : EnvAccess typeInfo accesses := loadOf 15 (by decide) chain_constFirst

def loadMinusOne : EnvAccess typeInfo accesses := loadOf 20 (by decide) chain_minusOne

theorem loads_preserved_R0 : ∃ r ∈ runOnFunction typeInfo accesses (useList accesses) 4 [],
    loadsAfter r.1 r.2 (fun _ _ => 0) (fun _ => 0) [storeR0, loadR0] =
      some (loadsBefore (fun _ => 0) [storeR0, loadR0]) := by
  have hsome : (runOnFunction typeInfo accesses (useList accesses) 4 []).isSome = true := by
    decide +kernel
  have hfits : ∀ r ∈ runOnFunction typeInfo accesses (useList accesses) 4 [],
      ∀ e ∈ [storeR0, loadR0], ∀ ty ∈ r.2.lookup (getGlobalName e.offset.toUInt32),
      e.width ≤ (typeInfo.storeSize ty).toNat := by
    decide +kernel
  have hsteps : ∀ e ∈ [storeR0, loadR0], e.steps = [.cast, .add (getSExtValue 64 0x84)] := by
    simp [storeR0, loadR0, loadOf]
  have hlt : ∀ e ∈ [storeR0, loadR0], e.offset.toNat < 2 ^ 32 := by decide +kernel
  obtain ⟨r, hr⟩ := Option.isSome_iff_exists.mp hsome
  refine ⟨r, hr, loads_preserved.2 (by decide) hr (fun e he => ⟨?_, hlt e he, hfits r hr e he⟩)
    (fun _ _ _ _ => rfl) (Cells.keepsStarts_of_disjoint (by decide +kernel))⟩
  rw [hsteps e he]
  simp [Step.Followed]

/-- A load that overlaps, one beyond the end of R1, one 4 GiB above, one behind an addition to the
constant, and one behind an index of -1. -/
theorem loads_differ : ∃ r ∈ runOnFunction typeInfo accesses (useList accesses) 4 [],
    ∀ es ∈ [[storeR0, loadR1], [loadWide], [storeR0, loadAbove], [storeR0, loadConstFirst], [storeR0, loadMinusOne]],
      loadsAfter r.1 r.2 (fun _ _ => 0) (fun _ => 0) es ≠ some (loadsBefore (fun _ => 0) es) := by
  decide +kernel

end Bin2llvm.S2ETransformPass
