import Bin2llvm.BuildFunctions.Linking
import Bin2llvm.ErasedInstrs

/-!
# Bin2llvm.BuildFunctions.Dispatch — running block-functions one after the other

Translated blocks can be run one after the other by a dispatcher: a block-function runs until its
fake return, and then the dispatcher goes to the block-function that starts at the program counter
the exit has stored, or, behind a call, at the one the callee returns to.  `BuildFunctions` replaces
the dispatcher by branches and switches.

* `dispatch`: the dispatcher on a module.
* `Guest`, `ExitsTrue`, `Followed`: what is expected of helpers, of the tags, and of a run.
* `AgreesOffPC`: two points that are the same apart from `PC`, which is not stored any more where it
  is known.
* `ClonedCode`, `clonedCode_finalBlock`: the code of a clone against the code of its block.
-/

namespace Bin2llvm.BuildFunctions

open FixOverlappedBBs Execution

/-! ## The dispatcher -/

/-- A block-function, and where it stands. -/
structure Place (W E : Type) where
  func : Func
  cfg : Config W E

/-- The store to `PC` with which a block leaves its block-function. -/
def exitStore (b : BasicBlock) : Option Instr := (b.instrs.filter (·.isStoreTo "PC")).getLast?

section

variable {W E : Type} (I : Interp W E) (K : Control W) (addr : W → UInt64)

/-- The program counter behind an exit.  A call comes back to its return address; a return leaves
the function. -/
def exitPC (p : Point W E) (s : Instr) : Option UInt64 :=
  if isCall s then getHexMetadataFromIns s .INS_callReturn
  else if s.has .INS_return then none
  else (s.storeTo? "PC").bind fun v => (p.read I v).map addr

/-- The block in which a block-function stands. -/
def Place.block (x : Place W E) : Option BasicBlock := x.func.blocks.find? fun b => b.id = x.cfg.bb

/-- The block-function is at its fake return. -/
def Place.atExit (x : Place W E) : Bool := x.cfg.code.head?.any (·.has .INS_fakeReturn)

/-- The dispatcher starts the next block-function. -/
def leave (M : Module) (x : Place W E) : Option (Place W E) := do
  let b ← x.block
  let s ← exitStore b
  let pc ← exitPC I addr x.cfg.now s
  let h ← M.blockFunctions.find? fun h => getPCStartOfFunc h = some pc
  let c ← start h x.cfg.now.st
  pure ⟨h, c⟩

def dispatch [DecidableEq W] (M : Module) (x : Place W E) : Option (Place W E) :=
  if x.atExit then leave I addr M x else (step I K x.func x.cfg).map fun c => ⟨x.func, c⟩

/-- The address of `PC`. -/
abbrev AtPC (a : W) : Prop := a = I.leaf (.global "PC")

/-! ## What the tags promise -/

/-- The program counter the table of an indirect jump has for a value. -/
def tableTarget (s : Instr) (w : W) : Option UInt64 := do
  let default_pc ← getHexMetadataFromIns s .INS_switch_default
  let cnt ← getHexMetadataFromIns s .INS_switch_cnt
  let idx_start ← getHexMetadataFromIns s .INS_switch_idx_start
  let casePCs ← switchCasePCs s cnt
  let entry := casePCs.zipIdx.find? fun p =>
    K.isCase w ((idx_start + UInt64.ofNat p.2) % 0x100000000)
  pure ((entry.map Prod.fst).getD default_pc)

/-- Program counters and words, and helpers that do not look at `PC`. -/
structure Guest : Prop where
  addr_const : ∀ w n, addr (I.leaf (.constInt w n)) = n
  calls : CallsIgnore I (AtPC I)

/-- The table of an indirect jump is right at a place, and its entry is connected. -/
structure TableHolds (M : Module) (bbs : List Func) (x : Place W E) (b : BasicBlock)
    (s : Instr) : Prop where
  complete : switchComplete s = true
  goes : ∃ v w, getValueSwitchedOn b.instrs s = some (some v) ∧ x.cfg.now.read I v = some w ∧
    exitPC I addr x.cfg.now s = tableTarget K s w
  keeps : ∀ y, leave I addr M x = some y → ¬ LosesStart bbs y.func

/-- What a run has to keep to: no load reads `PC`, and indirect jumps go where their tables say. -/
structure Followed (M : Module) (bbs : List Func) (x : Place W E) : Prop where
  loads : LoadsAvoid I (AtPC I) x.cfg
  tables : x.atExit = true → ∀ b s, x.block = some b → exitStore b = some s →
    s.has .INS_indirectJump = true → TableHolds I K addr M bbs x b s

end

theorem Followed.of_direct {W E : Type} {I : Interp W E} {K : Control W}
    {addr : W → UInt64} {M : Module} {bbs : List Func} {x : Place W E}
    (hno : ∀ i ∈ x.func.instrs, i.has .INS_indirectJump = false)
    (hloads : LoadsAvoid I (AtPC I) x.cfg) : Followed I K addr M bbs x where
  loads := hloads
  tables _ b s hb hs hind := by
    have hmem : s ∈ b.instrs := (List.mem_filter.mp (List.mem_of_getLast? hs)).1
    rw [hno s (mem_instrs.mpr ⟨b, List.mem_of_find?_eq_some hb, hmem⟩)] at hind
    cases hind

/-- The identity of a store to `PC`. -/
def ExitId (M : Module) (k : InstId) : Prop :=
  ∃ g ∈ M.blockFunctions, ∃ s ∈ g.instrs, s.isStoreTo "PC" = true ∧ s.id = some k

/-- A store to `PC` with the tag `k` stores the constant that the tag holds. -/
def TagsStored (M : Module) (k : MDKind) : Prop :=
  ∀ g ∈ M.blockFunctions, ∀ s ∈ g.instrs, s.has k = true → ∀ v, s.storeTo? "PC" = some v →
    ∃ w c, v = .constInt w c ∧ getHexMetadataFromIns s k = some c

/-- The stores to `PC` of a module: nothing uses them, and the tags of direct jumps are the
constants they store. -/
structure ExitsTrue (M : Module) : Prop where
  unused : ∀ g ∈ M.blockFunctions, ∀ i ∈ g.instrs, ∀ v ∈ i.op.operands, ∀ k,
    v = .inst k → ¬ ExitId M k
  direct : TagsStored M .INS_directJump

/-- The same results, apart from those of stores to `PC`, the same memory, apart from `PC`, and the
same world. -/
abbrev AgreesOffPC {W E : Type} (I : Interp W E) (M : Module) : Point W E → Point W E → Prop :=
  Agrees (AtPC I) (ExitId M)

/-- A store to `PC` changes `PC` only. -/
theorem silent_of_isStoreTo {W E : Type} [DecidableEq W] {I : Interp W E} {i : Instr}
    (h : i.isStoreTo "PC" = true) : Silent I (AtPC I) i := by
  obtain ⟨v, hop⟩ := Instr.op_of_isStoreTo h
  refine ⟨by rw [hop]; rfl, fun st a ha => ?_, fun st => ?_⟩
  · unfold exec usesOf
    rw [hop]
    exact Function.update_of_ne ha _ _
  · unfold exec usesOf
    rw [hop]
    rfl

/-! ## Code -/

/-- The code of a clone, against that of its block; `ts` takes the place of the fake return. -/
inductive ClonedCode (ts : List Instr) : List Instr → List Instr → Prop
  | nil : ClonedCode ts [] []
  | keep {i i' : Instr} {is is' : List Instr} (hid : i'.id = i.id) (hop : i'.op = i.op)
      (hcall : getHexMetadataFromIns i' .INS_directCall = getHexMetadataFromIns i .INS_directCall)
      (hfake : i.has .INS_fakeReturn = false) (h : ClonedCode ts is is') :
    ClonedCode ts (i :: is) (i' :: is')
  | erase {i : Instr} {is is' : List Instr} (hstore : i.isStoreTo "PC" = true)
      (hcall : isCall i = false) (hfake : i.has .INS_fakeReturn = false)
      (h : ClonedCode ts is is') : ClonedCode ts (i :: is) is'
  | exit {r : Instr} (hfake : r.has .INS_fakeReturn = true) : ClonedCode ts [r] ts

/-- What takes the place of the fake return of a block. -/
inductive ExitTerms (m₀ m₁ m₂ : BBMap) (fakeBB : BlockId) (b : BasicBlock) : List Instr → Prop
  | inner {pre : List Instr} {t : Instr} (h : InnerShape b pre t) : ExitTerms m₀ m₁ m₂ fakeBB b []
  | call {pre mid : List Instr} {s r : Instr} (h : ExitShape .call b pre s mid r) :
      ExitTerms m₀ m₁ m₂ fakeBB b [(callTarget m₀ s).elim r fun bb => Instr.fresh (.br bb)]
  | directJump {pre mid : List Instr} {s r : Instr} (h : ExitShape .directJump b pre s mid r) :
      ExitTerms m₀ m₁ m₂ fakeBB b [(jumpTarget m₁ s).elim r fun u => Instr.fresh (.br u.2)]
  | indirectJump {pre mid : List Instr} {s r : Instr} (h : ExitShape .indirectJump b pre s mid r) :
      ExitTerms m₀ m₁ m₂ fakeBB b ((indirectTerms m₂ fakeBB b.instrs s).map Instr.fresh)
  | ret {pre mid : List Instr} {s r : Instr} (h : ExitShape .ret b pre s mid r) :
      ExitTerms m₀ m₁ m₂ fakeBB b [Instr.fresh (.ret none)]

section

variable {m₀ m₁ m₂ : BBMap} {fakeBB : BlockId} {b : BasicBlock} {ts is is' pre mid : List Instr}
variable {s s' r : Instr} {k : ExitKind}

theorem ClonedCode.append (hpre : ∀ i ∈ pre, Plain i) (h : ClonedCode ts is is') :
    ClonedCode ts (pre ++ is) (pre ++ is') := by
  induction pre with
  | nil => exact h
  | cons i pre ih =>
    have ⟨hi, hrest⟩ := List.forall_mem_cons.mp hpre
    exact .keep rfl rfl rfl hi.notFake (ih hrest)

/-- The store is kept, maybe with another tag. -/
theorem ExitShape.clonedCode (e : ExitShape k b pre s mid r) (hid : s'.id = s.id)
    (hop : s'.op = s.op) (hcall : getHexMetadataFromIns s' .INS_directCall =
      getHexMetadataFromIns s .INS_directCall) :
    ClonedCode ts b.instrs (pre ++ s' :: (mid ++ ts)) := by
  rw [e.instrs]
  exact .append e.pre_plain (.keep hid hop hcall e.store.notFake
    (.append e.mid_plain (.exit e.ret.fake)))

/-- The store of a jump or a return is erased. -/
theorem ExitShape.clonedCode_erase (e : ExitShape k b pre s mid r) (hk : ExitKind.call ≠ k) :
    ClonedCode ts b.instrs (pre ++ (mid ++ ts)) := by
  have hcall : isCall s = false := e.store.hasTag_ne hk
  rw [e.instrs]
  exact .append e.pre_plain (.erase e.store.toPC hcall e.store.notFake
    (.append e.mid_plain (.exit e.ret.fake)))

theorem InnerShape.clonedCode {t : Instr} (h : InnerShape b pre t) :
    ClonedCode [] b.instrs b.instrs := by
  rw [h.instrs]
  exact .append h.pre_plain (.keep rfl rfl rfl h.term.notFake .nil)

/-- A clone goes with its block. -/
theorem clonedCode_finalBlock (h : (∃ pre t, InnerShape b pre t) ∨ ∃ k pre s mid r,
    ExitShape k b pre s mid r) :
    ∃ ts, ExitTerms m₀ m₁ m₂ fakeBB b ts ∧
      ClonedCode ts b.instrs (finalBlock m₀ m₁ m₂ fakeBB b).instrs := by
  rcases h with ⟨pre, t, h⟩ | ⟨k, pre, s, mid, r, e⟩
  · exact ⟨[], .inner h, by rw [h.finalBlock_eq]; exact h.clonedCode⟩
  · cases k with
    | call =>
      refine ⟨_, .call e, ?_⟩
      rw [e.finalBlock_call]
      cases hc : callTarget m₀ s with
      | some bb =>
        rw [e.callsBlock_of_some hc]
        exact e.clonedCode rfl rfl rfl
      | none =>
        rw [e.callsBlock_of_none hc]
        -- the call is marked, and otherwise as it was
        refine e.clonedCode ?_ (op_markUnresolved m₀ s) ?_
        · unfold markUnresolved
          split_ifs <;> rfl
        · unfold markUnresolved getHexMetadataFromIns
          split_ifs
          · rw [Instr.getMetadata_setMetadata_of_ne s (by simp)]
          · rfl
    | directJump =>
      refine ⟨_, .directJump e, ?_⟩
      rw [e.finalBlock_directJump]
      cases hj : jumpTarget m₁ s with
      | some u =>
        obtain ⟨s', bb⟩ := u
        obtain ⟨rfl, -⟩ := jumpTarget_eq_some hj
        rw [e.jumpsBlock_of_some hj]
        exact e.clonedCode_erase (by simp)
      | none =>
        have hkeep : ClonedCode [r] b.instrs (pre ++ s :: (mid ++ [r])) := e.clonedCode rfl rfl rfl
        rw [e.jumpsBlock_of_none hj]
        rwa [← e.instrs] at hkeep
    | indirectJump =>
      refine ⟨_, .indirectJump e, ?_⟩
      rw [e.finalBlock_indirectJump]
      exact e.clonedCode rfl rfl rfl
    | ret =>
      refine ⟨_, .ret e, ?_⟩
      rw [e.finalBlock_ret]
      exact e.clonedCode_erase (by simp)

theorem isTerminator_indirectTerms {is : List Instr} {o : Op}
    (ho : o ∈ indirectTerms m₂ fakeBB is s) : o.isTerminator = true := by
  unfold indirectTerms switchTerms at ho
  split_ifs at ho
  · obtain ⟨v, -, hsw⟩ := Option.bind_eq_some_iff.mp (Option.mem_toList.mp ho)
    unfold switchOp at hsw
    simp only [Option.bind_eq_bind, Option.bind_eq_some_iff, Option.pure_def,
      Option.some.injEq] at hsw
    obtain ⟨-, -, -, -, -, -, -, -, rfl⟩ := hsw
    rfl
  · rw [List.mem_singleton.mp ho]
    rfl

theorem ExitTerms.isTerminator (h : ExitTerms m₀ m₁ m₂ fakeBB b ts) :
    ∀ i ∈ ts, i.op.isTerminator = true := by
  have hret : ∀ r, FakeReturn r → r.op.isTerminator = true := by
    rintro r ⟨⟨v, hv⟩, -, -⟩
    rw [hv]
    rfl
  cases h with
  | inner _ => exact fun i hi => nomatch hi
  | @call pre mid s r e =>
    intro i hi
    rw [List.mem_singleton.mp hi]
    cases callTarget m₀ s with
    | none => exact hret r e.ret
    | some bb => rfl
  | @directJump pre mid s r e =>
    intro i hi
    rw [List.mem_singleton.mp hi]
    cases jumpTarget m₁ s with
    | none => exact hret r e.ret
    | some u => rfl
  | indirectJump _ =>
    intro i hi
    obtain ⟨op, hop, rfl⟩ := List.mem_map.mp hi
    exact isTerminator_indirectTerms hop
  | ret _ =>
    intro i hi
    rw [List.mem_singleton.mp hi]
    rfl

theorem InnerShape.notFake {t : Instr} (h : InnerShape b pre t) :
    ∀ i ∈ b.instrs, i.has .INS_fakeReturn = false := by
  intro i hi
  rw [h.instrs] at hi
  rcases List.mem_append.mp hi with hi | hi
  · exact (h.pre_plain i hi).notFake
  · exact List.mem_singleton.mp hi ▸ h.term.notFake

/-! ## Exits -/

theorem nextPCList_of_untagged {i : Instr} (h : Untagged i) : nextPCList i = none := by
  have h₁ : isCall i = false := h .call
  have h₂ : i.has .INS_directJump = false := h .directJump
  have h₃ : i.has .INS_indirectJump = false := h .indirectJump
  have h₄ : i.has .INS_return = false := h .ret
  simp [nextPCList, h₁, h₂, h₃, h₄]

/-- The tagged store is the only store to `PC` of the block. -/
theorem ExitShape.exitStore_eq (e : ExitShape k b pre s mid r)
    (hread : ∀ i ∈ b.instrs, i.isStoreTo "PC" = true → (nextPCList i).isSome) :
    exitStore b = some s := by
  have hplain : ∀ is : List Instr, (∀ i ∈ is, i ∈ b.instrs ∧ Untagged i) →
      is.filter (·.isStoreTo "PC") = [] := by
    refine fun is his => List.filter_eq_nil_iff.mpr fun i hi hstore => ?_
    have hsome := hread i (his i hi).1 hstore
    rw [nextPCList_of_untagged (his i hi).2] at hsome
    cases hsome
  have hpre := hplain pre fun i hi => ⟨by rw [e.instrs]; simp [hi], (e.pre_plain i hi).untagged⟩
  have hpost := hplain (mid ++ [r]) fun i hi =>
    ⟨by rw [e.instrs]; exact List.mem_append_right _ (List.mem_cons_of_mem _ hi),
      e.post_untagged i hi⟩
  unfold exitStore
  rw [e.instrs, List.filter_append, hpre, List.filter_cons, if_pos e.store.toPC, hpost]
  rfl

/-! ## Tables -/

theorem casesFrom_eq_map (bbMap : BBMap) (idx : UInt64) (pcs : List UInt64) (i : ℕ) :
    casesFrom bbMap fakeBB idx i pcs =
      (pcs.zipIdx i).map fun p => ((idx + UInt64.ofNat p.2) % 0x100000000,
        blockOr bbMap fakeBB p.1) := by
  induction pcs generalizing i with
  | nil => rfl
  | cons pc pcs ih => rw [casesFrom, ih, List.zipIdx_cons, List.map_cons]

variable {W : Type} {K : Control W} {w : W}

/-- A switch selects the block of the program counter its table has. -/
theorem select_casesFrom (bbMap : BBMap) (idx default_pc : UInt64) (pcs : List UInt64) :
    K.select w (blockOr bbMap fakeBB default_pc) (casesFrom bbMap fakeBB idx 0 pcs) =
      blockOr bbMap fakeBB
      (((pcs.zipIdx.find? fun p => K.isCase w ((idx + UInt64.ofNat p.2) % 0x100000000)).map
        Prod.fst).getD default_pc) := by
  rw [Control.select, casesFrom_eq_map, List.find?_map, Option.map_map]
  simp only [Function.comp_def]
  cases pcs.zipIdx.find? fun p => K.isCase w ((idx + UInt64.ofNat p.2) % 0x100000000) <;> rfl

end

end Bin2llvm.BuildFunctions
