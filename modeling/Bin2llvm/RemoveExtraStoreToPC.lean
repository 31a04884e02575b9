import Bin2llvm.Lib.Lists
import Bin2llvm.Metadata
import Bin2llvm.Semantics

/-!
# Bin2llvm.RemoveExtraStoreToPC — which stores to PC stay

The pass tags every instruction with the program counter before it and erases the constant stores to
`PC`, up to the last store to `PC` of a basic block that returns.  A failed assert is `none`.

* `runOnFunction`: the pass.
* `runPath`: the execution of the basic blocks of a path.
* `runBlock_erase`: a basic block and what is left of it go to states that differ in `PC` at most.
* `pcOf_runPath`: a path returns with the same `PC` if its last store to `PC` stays and nothing else
  looks at `PC`.
-/

namespace Bin2llvm.RemoveExtraStoreToPC

open FixOverlappedBBs (hex getPCStartOfFunc getPCEndOfFunc)

/-! ## The pass -/

/-- The values stored to `PC`, in order. -/
def pcStores (is : List Instr) : List Value := is.filterMap fun ins => ins.storeTo? "PC"

/-- The constant a store to `PC` stores. -/
def pcValue (ins : Instr) : Option UInt64 := (ins.storeTo? "PC").bind Value.constInt?

/-- The program counter of the next instruction. -/
def nextPC (pc : UInt64) (ins : Instr) : UInt64 := (pcValue ins).getD pc

/-- `setMetadata("INS_currPC", pcMeta)` at the instructions of a basic block. -/
def setCurrPC (pc : UInt64) : List Instr → List Instr
  | [] => []
  | ins :: is => ins.setMetadata .INS_currPC (.str (hex pc)) :: setCurrPC (nextPC pc ins) is

/-- The basic blocks one after the other: control flow is not tracked. -/
def setCurrPCs (pc : UInt64) : List BasicBlock → List BasicBlock
  | [] => []
  | bb :: bbs =>
    { bb with instrs := setCurrPC pc bb.instrs } :: setCurrPCs (bb.instrs.foldl nextPC pc) bbs

/-- Whether an instruction with `is` after it goes: a constant store to `PC` that is not the last
one, or any constant one of a basic block that is not an exit. -/
def isExtra (isExitBB : Bool) (ins : Instr) (is : List Instr) : Bool :=
  (pcValue ins).isSome && (!(pcStores is).isEmpty || !isExitBB)

def eraseExtra (isExitBB : Bool) : List Instr → List Instr
  | [] => []
  | ins :: is =>
    if isExtra isExitBB ins is then eraseExtra isExitBB is else ins :: eraseExtra isExitBB is

/-- The constants of the stores on `eraseIns`. -/
def erasedPCs (isExitBB : Bool) : List Instr → List UInt64
  | [] => []
  | ins :: is =>
    (if isExtra isExitBB ins is then (pcValue ins).toList else []) ++ erasedPCs isExitBB is

/-- The second component says whether something was erased. -/
def runOnFunction (f : Func) : Option (Func × Bool) := do
  let pcStart ← getPCStartOfFunc f
  let pcEnd ← getPCEndOfFunc f
  let bbs := setCurrPCs pcStart f.blocks
  let erased := bbs.flatMap fun bb => erasedPCs bb.returns bb.instrs
  if erased.all fun pc => pcStart ≤ pc && pc ≤ pcEnd then
    some (⟨f.name, bbs.map fun bb => { bb with instrs := eraseExtra bb.returns bb.instrs }⟩,
      !erased.isEmpty)
  else none

/-! ## Paths -/

/-- The basic blocks of a path from the entry block to one that returns. -/
structure IsPath (f : Func) (path : List BlockId) (bbs : List BasicBlock) : Prop where
  blocks : List.Forall₂ (fun id bb => f.blocks.find? (·.id = id) = some bb) path bbs
  entry : bbs.head? = f.blocks.head?
  edges : bbs.IsChain fun bb next => next.id ∈ bb.successors
  exit : ∃ bb, bbs.getLast? = some bb ∧ bb.returns = true

section

variable {W E : Type} (I : Interp W E)

def pcOf (st : State W E) : W := st.mem (I.leaf (.global "PC"))

variable [DecidableEq W]

def setPC (st : State W E) (w : W) : State W E :=
  { st with mem := Function.update st.mem (I.leaf (.global "PC")) w }

/-- An instruction of a basic block entered from the block `edge` in the state `entry`.  Phis read
that state. -/
def execIn (edge : Option BlockId) (entry st : State W E) (ins : Instr) : State W E :=
  match ins.op with
  | .phi inc =>
    match edge.bind fun bb => inc.lookup bb with
    | some v => { st with env := setResult st.env ins.id (some (eval I entry v)) }
    | none => st
  | _ => exec I st ins

def runPath : Option BlockId → State W E → List BasicBlock → State W E
  | _, st, [] => st
  | edge, st, bb :: bbs => runPath (some bb.id) (bb.instrs.foldl (execIn I edge st) st) bbs

/-- What the instruction does depends on `PC` in nothing, and it leaves `PC` alone. -/
def IgnoresPC (st : State W E) (ins : Instr) : Prop :=
  ∀ w, exec I (setPC I st w) ins = setPC I (exec I st ins) w

/-- The instructions of a basic block ignore `PC` where they are executed, stores to `PC` aside. -/
def RestIgnoresPC (edge : Option BlockId) (entry : State W E) : State W E → List Instr → Prop
  | _, [] => True
  | st, ins :: is =>
    (ins.storeTo? "PC" = none → IgnoresPC I st ins) ∧
    RestIgnoresPC edge entry (execIn I edge entry st ins) is

def PathIgnoresPC : Option BlockId → State W E → List BasicBlock → Prop
  | _, _, [] => True
  | edge, st, bb :: bbs => RestIgnoresPC I edge st st bb.instrs ∧
    PathIgnoresPC (some bb.id) (bb.instrs.foldl (execIn I edge st) st) bbs

end

/-- The stores to `PC` on a path. -/
def pcStoresOn (bbs : List BasicBlock) : List Value := bbs.flatMap fun bb => pcStores bb.instrs

/-- The block that returns stores to `PC`, or the last store to `PC` before it is not constant. -/
def LastStoreKept (bbs : List BasicBlock) : Prop :=
  (∃ bb, bbs.getLast? = some bb ∧ pcStores bb.instrs ≠ []) ∨
    ∀ v, (pcStoresOn bbs).getLast? = some v → v.constInt? = none

/-! ## What the pass leaves -/

variable {f f' : Func} {ins : Instr} {is : List Instr} {bb bb' : BasicBlock}
variable {bbs bbs' : List BasicBlock} {isExitBB changed : Bool} {pc : UInt64} {path : List BlockId}

@[simp] theorem pcValue_setMetadata (ins : Instr) (k : MDKind) (n : MDNode) :
    pcValue (ins.setMetadata k n) = pcValue ins := rfl

@[simp] theorem pcStores_setCurrPC (pc : UInt64) (is : List Instr) :
    pcStores (setCurrPC pc is) = pcStores is := by
  induction is generalizing pc with
  | nil => rfl
  | cons ins is ih =>
    have ih' : List.filterMap (fun ins => ins.storeTo? "PC") (setCurrPC (nextPC pc ins) is) = _ :=
      ih (nextPC pc ins)
    unfold pcStores
    rw [setCurrPC, List.filterMap_cons, List.filterMap_cons, ih', Instr.storeTo?_setMetadata]
    rfl

theorem isExtra_setCurrPC (n : MDNode) : isExtra isExitBB (ins.setMetadata .INS_currPC n)
    (setCurrPC pc is) = isExtra isExitBB ins is := by
  unfold isExtra
  rw [pcValue_setMetadata, pcStores_setCurrPC]

/-- What becomes of a basic block. -/
def Processed (bb bb' : BasicBlock) : Prop :=
  ∃ pc, bb' = { bb with instrs := eraseExtra bb.returns (setCurrPC pc bb.instrs) }

theorem getLast?_setCurrPC (pc : UInt64) (is : List Instr) :
    ∃ n, (setCurrPC pc is).getLast? = is.getLast?.map fun ins => ins.setMetadata .INS_currPC n := by
  induction is generalizing pc with
  | nil => exact ⟨.empty, rfl⟩
  | cons i is ih =>
    cases is with
    | nil => exact ⟨_, rfl⟩
    | cons j is =>
      obtain ⟨n, hn⟩ := ih (nextPC pc i)
      refine ⟨n, ?_⟩
      rw [List.getLast?_cons_cons, ← hn]
      exact List.getLast?_cons_cons

theorem returns_setCurrPC (pc : UInt64) (bb : BasicBlock) :
    BasicBlock.returns { bb with instrs := setCurrPC pc bb.instrs } = bb.returns := by
  obtain ⟨n, hn⟩ := getLast?_setCurrPC pc bb.instrs
  unfold BasicBlock.returns BasicBlock.terminator?
  rw [hn]
  cases hlast : bb.instrs.getLast? with
  | none => rfl
  | some t => by_cases ht : t.op.isTerminator = true <;> simp [Instr.isTerminator, ht]

theorem getLast?_eraseExtra (h : is.getLast? = some ins) (hins : pcValue ins = none) :
    (eraseExtra isExitBB is).getLast? = some ins := by
  induction is with
  | nil => cases h
  | cons i is ih =>
    cases is with
    | nil =>
      obtain rfl : i = ins := Option.some.inj h
      simp [eraseExtra, isExtra, hins]
    | cons j is =>
      rw [List.getLast?_cons_cons] at h
      rw [eraseExtra]
      split_ifs with hextra
      · exact ih h
      · rw [List.getLast?_cons, ih h]
        rfl

theorem pcValue_of_isTerminator (h : ins.isTerminator = true) : pcValue ins = none := by
  obtain ⟨id, op, md⟩ := ins
  cases op with
  | store v p => cases h
  | _ => rfl

/-- Terminators stay. -/
theorem Processed.terminator? {t : Instr} (h : Processed bb bb') (ht : bb.terminator? = some t) :
    ∃ n, bb'.terminator? = some (t.setMetadata .INS_currPC n) := by
  obtain ⟨pc, rfl⟩ := h
  obtain ⟨hlast, hterm⟩ := Option.filter_eq_some_iff.mp ht
  obtain ⟨n, hn⟩ := getLast?_setCurrPC pc bb.instrs
  rw [hlast] at hn
  have hkept : (eraseExtra bb.returns (setCurrPC pc bb.instrs)).getLast? =
      some (t.setMetadata .INS_currPC n) :=
    getLast?_eraseExtra hn (pcValue_of_isTerminator hterm)
  exact ⟨n, Option.filter_eq_some_iff.mpr ⟨hkept, hterm⟩⟩

theorem Processed.id_eq (h : Processed bb bb') : bb'.id = bb.id := by
  obtain ⟨pc, rfl⟩ := h
  rfl

theorem Processed.successors (h : Processed bb bb') {id : BlockId} (hid : id ∈ bb.successors) :
    id ∈ bb'.successors := by
  unfold BasicBlock.successors at hid ⊢
  cases ht : bb.terminator? with
  | none => simp [ht] at hid
  | some t =>
    obtain ⟨n, hn⟩ := h.terminator? ht
    rw [ht] at hid
    rw [hn]
    exact hid

theorem Processed.returns (h : Processed bb bb') (hret : bb.returns = true) :
    bb'.returns = true := by
  unfold BasicBlock.returns at hret ⊢
  cases ht : bb.terminator? with
  | none => simp [ht] at hret
  | some t =>
    obtain ⟨n, hn⟩ := h.terminator? ht
    rw [ht] at hret
    rw [hn]
    exact hret

theorem forall₂_setCurrPCs (pc : UInt64) (bbs : List BasicBlock) : List.Forall₂ Processed bbs
    ((setCurrPCs pc bbs).map fun bb => { bb with instrs := eraseExtra bb.returns bb.instrs }) := by
  induction bbs generalizing pc with
  | nil => exact .nil
  | cons bb bbs ih =>
    refine .cons ⟨pc, ?_⟩ (ih _)
    dsimp only
    rw [returns_setCurrPC]

theorem processed (h : runOnFunction f = some (f', changed)) :
    List.Forall₂ Processed f.blocks f'.blocks := by
  unfold runOnFunction at h
  obtain ⟨pcStart, -, h⟩ := Option.bind_eq_some_iff.mp h
  obtain ⟨pcEnd, -, h⟩ := Option.bind_eq_some_iff.mp h
  dsimp only at h
  split_ifs at h
  obtain ⟨rfl, -⟩ := Prod.mk.inj (Option.some.inj h)
  exact forall₂_setCurrPCs pcStart f.blocks

theorem exists_blocks (h : List.Forall₂ Processed f.blocks f'.blocks)
    (hbbs : List.Forall₂ (fun id bb => f.blocks.find? (·.id = id) = some bb) path bbs) :
    ∃ bbs', List.Forall₂ (fun id bb => f'.blocks.find? (·.id = id) = some bb) path bbs' ∧
      List.Forall₂ Processed bbs bbs' := by
  induction hbbs with
  | nil => exact ⟨[], .nil, .nil⟩
  | @cons id bb _ _ hbb _ ih =>
    obtain ⟨bb', hbb', hproc⟩ := Lists.exists_find? (q := (·.id = id)) h (fun _ _ hb =>
      by rw [hb.id_eq]) hbb
    obtain ⟨bbs', hfound, hprocs⟩ := ih
    exact ⟨bb' :: bbs', .cons hbb' hfound, .cons hproc hprocs⟩

/-- Where the entry block is found by its identity, so is the new one. -/
theorem head?_of_find? {id : BlockId} (h : List.Forall₂ Processed f.blocks f'.blocks)
    (hhead : some bb = f.blocks.head?) (hbb : f.blocks.find? (·.id = id) = some bb)
    (hbb' : f'.blocks.find? (·.id = id) = some bb') : some bb' = f'.blocks.head? := by
  have hid : bb.id = id := by simpa using List.find?_some hbb
  obtain ⟨rest, hrest⟩ := List.head?_eq_some_iff.mp hhead.symm
  rw [hrest] at h
  obtain ⟨b₀, rest', hproc, -, hblocks'⟩ := List.forall₂_cons_left_iff.mp h
  rw [hblocks', List.find?_cons_of_pos (by simp [hproc.id_eq, hid])] at hbb'
  rw [hblocks', ← hbb']
  rfl

/-- The path is still there. -/
theorem IsPath.processed (hpath : IsPath f path bbs)
    (h : List.Forall₂ Processed f.blocks f'.blocks) :
    ∃ bbs', IsPath f' path bbs' ∧ List.Forall₂ Processed bbs bbs' := by
  obtain ⟨bbs', hblocks, hprocs⟩ := exists_blocks h hpath.blocks
  obtain ⟨last, hlast, hret⟩ := hpath.exit
  refine ⟨bbs', ⟨hblocks, ?_, ?_, ?_⟩, hprocs⟩
  · have hentry := hpath.entry
    cases hpath.blocks with
    | nil => cases hlast
    | cons hbb _ =>
      cases hblocks with
      | cons hbb' _ => exact head?_of_find? h hentry hbb hbb'
  · refine Lists.isChain_of_forall₂ (fun bb next bb' next' hbb hnext hid => ?_) hprocs hpath.edges
    rw [hnext.id_eq]
    exact hbb.successors hid
  · obtain ⟨last', hlast', hproc⟩ := Lists.exists_getLast? hprocs hlast
    exact ⟨last', hlast', hproc.returns hret⟩

/-! ## Executions that differ in PC -/

section

variable {W E : Type} {I : Interp W E} [DecidableEq W] {st entry : State W E}
variable {edge : Option BlockId} {w : W}

@[simp] theorem pcOf_setPC (st : State W E) (w : W) : pcOf I (setPC I st w) = w :=
  Function.update_self ..

@[simp] theorem setPC_setPC (st : State W E) (w w' : W) :
    setPC I (setPC I st w) w' = setPC I st w' := by
  simp [setPC]

@[simp] theorem setPC_pcOf (st : State W E) : setPC I st (pcOf I st) = st := by
  simp [setPC, pcOf]

@[simp] theorem eval_setPC (st : State W E) (w : W) (v : Value) :
    eval I (setPC I st w) v = eval I st v :=
  eval_congr fun _ _ => rfl

theorem execIn_setMetadata (k : MDKind) (n : MDNode) :
    execIn I edge entry st (ins.setMetadata k n) = execIn I edge entry st ins := rfl

/-- A store to `PC` sets it. -/
theorem execIn_storeTo {v : Value} (h : ins.storeTo? "PC" = some v) :
    execIn I edge entry st ins = setPC I st (eval I st v) := by
  obtain ⟨id, op, md⟩ := ins
  have hop : op = .store v (.global "PC") := by
    have hglobal := Instr.storeTo?_eq_some.mp h
    cases op with
    | store val ptr =>
      cases ptr with
      | global g =>
        obtain ⟨rfl, rfl⟩ := Prod.mk.inj (Option.some.inj hglobal)
        rfl
      | _ => cases hglobal
    | _ => cases hglobal
  subst hop
  cases id <;> rfl

/-- What ignores `PC` keeps a difference in `PC` as it is. -/
theorem execIn_setPC (w₀ w : W) (h : IgnoresPC I st ins) :
    execIn I edge (setPC I entry w₀)
      (setPC I st w) ins = setPC I (execIn I edge entry st ins) w := by
  unfold execIn
  cases hop : ins.op with
  | phi inc =>
    simp only [eval_setPC]
    cases edge.bind fun bb => inc.lookup bb <;> rfl
  | _ => exact h w

theorem pcOf_execIn (h : IgnoresPC I st ins) : pcOf I (execIn I edge entry st ins) = pcOf I st := by
  have hsame : execIn I edge (setPC I entry (pcOf I entry)) (setPC I st (pcOf I st)) ins = _ :=
    execIn_setPC _ _ h
  rw [setPC_pcOf, setPC_pcOf] at hsame
  rw [hsame, pcOf_setPC]

/-- Loads of other globals. -/
theorem ignoresPC_load {g : String} (hop : ins.op = .load (.global g)) (hg : g ≠ "PC") :
    IgnoresPC I st ins := by
  intro w
  have hne : I.leaf (.global g) ≠ I.leaf (.global "PC") := fun h => hg (I.global_inj g "PC" h)
  simp [exec, usesOf, hop, Op.operands, effect, eval, setPC, Function.update_of_ne hne]

theorem ignoresPC_terminator (h : ins.isTerminator = true) : IgnoresPC I st ins := by
  intro w
  obtain ⟨id, op, md⟩ := ins
  cases op <;> cases h <;> cases id <;> rfl

/-- The two executions of a basic block differ in `PC` at most.  They do not differ in it either if
the last store to `PC` stays, or if there is none and they did not differ before. -/
theorem runBlock_erase (isExitBB : Bool) (pc : UInt64) (w₀ w : W)
    (hignore : RestIgnoresPC I edge entry st is) :
    ∃ w', (eraseExtra isExitBB (setCurrPC pc is)).foldl (execIn I edge (setPC I entry w₀))
    (setPC I st w) =
        setPC I (is.foldl (execIn I edge entry) st) w' ∧
      ((∀ v, (pcStores is).getLast? = some v → isExitBB = true ∨ v.constInt? = none) →
        (pcStores is = [] → w = pcOf I st) → w' = pcOf I (is.foldl (execIn I edge entry) st)) := by
  induction is generalizing pc st w with
  | nil => exact ⟨w, rfl, fun _ h => h rfl⟩
  | cons ins is ih =>
    obtain ⟨hins, hrest⟩ := hignore
    rw [setCurrPC, eraseExtra, isExtra_setCurrPC, List.foldl_cons]
    cases hstore : ins.storeTo? "PC" with
    | none =>
      have hkeep : isExtra isExitBB ins is = false := by simp [isExtra, pcValue, hstore]
      have hstores : pcStores (ins :: is) = pcStores is := List.filterMap_cons_none hstore
      rw [hkeep, if_neg Bool.false_ne_true, List.foldl_cons, execIn_setMetadata,
        execIn_setPC w₀ w (hins hstore), hstores]
      obtain ⟨w', heq, hagree⟩ := ih (nextPC pc ins) w hrest
      refine ⟨w', heq, fun hlast hempty => hagree hlast fun h => ?_⟩
      rw [pcOf_execIn (hins hstore)]
      exact hempty h
    | some v =>
      have hstores : pcStores (ins :: is) = v :: pcStores is := List.filterMap_cons_some hstore
      rw [execIn_storeTo hstore] at hrest ⊢
      rw [hstores]
      by_cases hextra : isExtra isExitBB ins is = true
      · -- the store is erased, so `PC` still differs, and a later store has to make up for it
        rw [if_pos hextra]
        obtain ⟨w', heq, hagree⟩ := ih (nextPC pc ins) w hrest
        rw [setPC_setPC] at heq
        refine ⟨w', heq, fun hlast _ => hagree (fun u hu => hlast u ?_) fun hempty => ?_⟩
        · rw [List.getLast?_cons, hu]
          rfl
        · rcases hlast v (by rw [hempty]; rfl) with hexit | hconst
          · simp [isExtra, hempty, hexit] at hextra
          · simp [isExtra, pcValue, hstore, hconst] at hextra
      -- the store is kept, and `PC` is the same from here on
      · rw [if_neg hextra, List.foldl_cons, execIn_setMetadata, execIn_storeTo hstore,
          setPC_setPC, eval_setPC]
        obtain ⟨w', heq, hagree⟩ := ih (nextPC pc ins) (eval I st v) hrest
        rw [setPC_setPC] at heq
        refine ⟨w', heq, fun hlast _ => hagree (fun u hu => hlast u ?_) fun _ =>
          (pcOf_setPC _ _).symm⟩
        rw [List.getLast?_cons, hu]
        rfl

theorem LastStoreKept.tail {next : BasicBlock} (h : LastStoreKept (bb :: next :: bbs)) :
    LastStoreKept (next :: bbs) := by
  rcases h with ⟨b, hb, hne⟩ | hconst
  · exact .inl ⟨b, by rwa [List.getLast?_cons_cons] at hb, hne⟩
  · refine .inr fun v hv => hconst v ?_
    unfold pcStoresOn at hv ⊢
    rw [List.flatMap_cons, List.getLast?_append, hv]
    rfl

/-- If nothing is stored on the rest of the path, the last store of its first block has to be a
computed one. -/
theorem LastStoreKept.head {next : BasicBlock} (h : LastStoreKept (bb :: next :: bbs))
    (hempty : pcStoresOn (next :: bbs) = []) {v : Value}
    (hv : (pcStores bb.instrs).getLast? = some v) : v.constInt? = none := by
  rcases h with ⟨b, hb, hne⟩ | hconst
  · rw [List.getLast?_cons_cons] at hb
    exact absurd (List.flatMap_eq_nil_iff.mp hempty b (List.mem_of_getLast? hb)) hne
  · apply hconst
    unfold pcStoresOn at hempty ⊢
    rw [List.flatMap_cons, hempty, List.append_nil, hv]

/-- What a path and what is left of it go to. -/
theorem runPath_erase (h : List.Forall₂ Processed bbs bbs') (hignore : PathIgnoresPC I edge st bbs)
    (hexit : ∀ bb, bbs.getLast? = some bb → bb.returns = true) :
    ∃ w', runPath I edge (setPC I st w) bbs' = setPC I (runPath I edge st bbs) w' ∧
      (LastStoreKept bbs → (pcStoresOn bbs = [] → w = pcOf I st) →
        w' = pcOf I (runPath I edge st bbs)) := by
  induction h generalizing edge st w with
  | nil => exact ⟨w, rfl, fun _ h => h rfl⟩
  | @cons bb bb' bbs bbs' hbb hbbs ih =>
    obtain ⟨pc, rfl⟩ := hbb
    obtain ⟨hblock, hrest⟩ := hignore
    obtain ⟨w₁, heq₁, hagree₁⟩ := runBlock_erase bb.returns pc w w hblock
    rw [runPath, heq₁]
    cases bbs with
    | nil =>
      cases hbbs
      refine ⟨w₁, rfl, fun _ hempty => hagree₁ (fun _ _ => .inl (hexit bb rfl)) fun h => hempty ?_⟩
      unfold pcStoresOn
      rw [List.flatMap_cons, h]
      rfl
    | cons next bbs =>
      obtain ⟨w₂, heq₂, hagree₂⟩ := ih (w := w₁) hrest fun b hb =>
        hexit b (by rwa [List.getLast?_cons_cons])
      refine ⟨w₂, heq₂, fun hkept hempty => hagree₂ hkept.tail fun hnext =>
          hagree₁ (fun v hv => .inr ?_) fun h =>
        hempty ?_⟩
      · exact hkept.head hnext hv
      · unfold pcStoresOn at hnext ⊢
        rw [List.flatMap_cons, h, hnext]
        rfl

/-- A path on which the last store to `PC` stays, and on which nothing else looks at `PC`, returns
with the same `PC`. -/
theorem pcOf_runPath (h : runOnFunction f = some (f', changed)) (hpath : IsPath f path bbs)
    (hignore : PathIgnoresPC I none st bbs) (hkept : LastStoreKept bbs) :
    ∃ bbs', IsPath f' path bbs' ∧ pcOf I (runPath I none st bbs') =
      pcOf I (runPath I none st bbs) := by
  obtain ⟨bbs', hpath', hbbs⟩ := hpath.processed (processed h)
  obtain ⟨b, hb, hret⟩ := hpath.exit
  have hexit : ∀ bb, bbs.getLast? = some bb → bb.returns = true := by
    intro bb hbb
    obtain rfl := Option.some.inj (hb.symm.trans hbb)
    exact hret
  obtain ⟨w', heq, hagree⟩ := runPath_erase (w := pcOf I st) hbbs hignore hexit
  rw [setPC_pcOf] at heq
  exact ⟨bbs', hpath', by rw [heq, pcOf_setPC, hagree hkept fun _ => rfl]⟩

end

/-- Words are values, and addresses are the globals themselves. -/
def valueInterp : Interp Value Unit where
  leaf := id
  binop _ a _ := a
  other _ vs := vs.headD .undef
  call _ mem ext := (.undef, mem, ext)
  global_inj _ _ h := Value.global.inj h

def cleared : State Value Unit := ⟨fun _ => .undef, fun _ => .constInt 32 0, ()⟩

/-- An instruction of the block at `0x1000`. -/
def atBlock (op : Op) (id : Option InstId) : Instr :=
  ⟨id, op, [(.BB_pcStart, .str "0x00001000"), (.BB_pcEnd, .str "0x00001000")]⟩

/-- `PC` gets a constant, then a value that was loaded in another basic block. -/
def loadsFirst : Func :=
  ⟨"void-tcg-llvm-tb",
    [⟨0, "entry", [atBlock (.store (.constInt 32 0x1000) (.global "PC")) none,
      atBlock (.load (.global "R14")) (some 0), atBlock (.br 1) none]⟩,
    ⟨1, "exit", [atBlock (.store (.inst 0) (.global "PC")) none, atBlock (.ret none) none]⟩]⟩

theorem pcOf_runPath_loadsFirst :
    ∃ f', runOnFunction loadsFirst = some (f', true) ∧ ∃ bbs', IsPath f' [0, 1] bbs' ∧
      pcOf valueInterp (runPath valueInterp none cleared bbs') =
        pcOf valueInterp (runPath valueInterp none cleared loadsFirst.blocks) := by
  have hpath : IsPath loadsFirst [0, 1] loadsFirst.blocks :=
    ⟨.cons rfl (.cons rfl .nil), rfl, by decide, _, rfl, rfl⟩
  have hignore : PathIgnoresPC valueInterp none cleared loadsFirst.blocks :=
    ⟨⟨nofun, fun _ => ignoresPC_load rfl (by decide), fun _ => ignoresPC_terminator rfl, trivial⟩,
      ⟨nofun, fun _ => ignoresPC_terminator rfl, trivial⟩, trivial⟩
  exact ⟨_, rfl, pcOf_runPath rfl hpath hignore (.inl ⟨_, rfl, by decide⟩)⟩

/-- The only store is in a basic block that does not return. -/
def storesBefore : Func :=
  ⟨"void-tcg-llvm-tb",
    [⟨0, "entry", [atBlock (.store (.constInt 32 0x1000) (.global "PC")) none,
      atBlock (.br 1) none]⟩,
    ⟨1, "exit", [atBlock (.ret none) none]⟩]⟩

/-- `PC` is loaded between two stores. -/
def readsBetween : Func :=
  ⟨"void-tcg-llvm-tb",
    [⟨0, "entry", [atBlock (.store (.constInt 32 0x1000) (.global "PC")) none,
      atBlock (.load (.global "PC")) (some 0), atBlock (.store (.inst 0) (.global "PC")) none,
        atBlock (.ret none) none]⟩]⟩

/-- A path through all basic blocks returns with another `PC`. -/
def ReturnsOtherPC (f : Func) (path : List BlockId) : Prop :=
  IsPath f path f.blocks ∧ ∃ f', runOnFunction f = some (f', true) ∧ IsPath f' path f'.blocks ∧
    pcOf valueInterp (runPath valueInterp none cleared f'.blocks) ≠
      pcOf valueInterp (runPath valueInterp none cleared f.blocks)

/-- Stores before the block that returns go, and so do stores that are read. -/
theorem returnsOtherPC : ReturnsOtherPC storesBefore [0, 1] ∧ ReturnsOtherPC readsBetween [0] := by
  constructor
  · have hpath : IsPath storesBefore [0, 1] storesBefore.blocks :=
      ⟨.cons rfl (.cons rfl .nil), rfl, by decide, _, rfl, rfl⟩
    exact ⟨hpath, _, rfl, ⟨.cons rfl (.cons rfl .nil), rfl, by decide, _, rfl, rfl⟩, by decide⟩
  · have hpath : IsPath readsBetween [0] readsBetween.blocks :=
      ⟨.cons rfl .nil, rfl, .singleton _, _, rfl, rfl⟩
    exact ⟨hpath, _, rfl, ⟨.cons rfl .nil, rfl, .singleton _, _, rfl, rfl⟩, by decide⟩

end Bin2llvm.RemoveExtraStoreToPC
