import Bin2llvm.FixOverlappedBBs
import Bin2llvm.RemoveExtraStoreToPC

/-!
# Bin2llvm.BlockPasses — the small passes that run before overlaps are fixed

`TransformBBToVoid` turns the translated blocks into functions without argument and result,
`TagInstPc` marks the stores to `PC` at instruction boundaries, and `S2EDeleteInstructionCount`
removes the bookkeeping of the emulator.  A failed assert, a null dereference and a loop that does
not end are `none`.

* `EntryShape`: all instructions of a block but its terminator are tagged with the bounds of the
  translated block.
* `Leaves`: what the passes leave of the instructions of a block.
-/

namespace Bin2llvm

/-! ## The passes -/

namespace TransformBBToVoid

/-- Whether the function is cloned: other functions are external, or already rewritten. -/
def isOldFunc (f : Func) : Bool := strstr f.name "tcg-llvm-tb" && !strstr f.name "void-tcg-llvm-tb"

/-- `ConstantPointerNull`, which stands for the argument. -/
def paramType : Value := .constCast (.constInt 64 0)

def mapArg : Value → Value
  | .arg _ => paramType
  | v => v

/-- The clone of an instruction.  The new return gets its metadata only. -/
def cloneIns (ins : Instr) : Instr :=
  match ins.op with
  | .ret _ => ⟨none, .ret none, [(.INS_fakeReturn, .str "true")]⟩
  | _ => ins.mapValues mapArg

def newFunc (oldFunc : Func) : Func :=
  ⟨"void-" ++ oldFunc.name, (oldFunc.mapInstrs cloneIns).blocks⟩

/-- `getOrInsertFunction` and `CloneFunctionInto`. -/
def cloneFunctionInto (funcs : List Func) (oldFunc : Func) : List Func :=
  let new := newFunc oldFunc
  if funcs.any (·.name = new.name) then
    funcs.map fun f => if f.name = new.name then { f with blocks := f.blocks ++ new.blocks } else f
  else funcs ++ [new]

/-- The loop also comes to the clones.  It does not end if one of them is not skipped. -/
def runOnModule (M : Module) : Option (Module × Bool) :=
  let oldFuncs := M.funcs.filter isOldFunc
  if oldFuncs.any fun f => isOldFunc (newFunc f) then none
  else some (⟨(oldFuncs.foldl cloneFunctionInto M.funcs).filter fun f => !isOldFunc f⟩,
    !oldFuncs.isEmpty)

end TransformBBToVoid

namespace TagInstPc

open RemoveExtraStoreToPC (pcValue)

/-- A use of `s2e_icount` by a store. -/
def isIcountStore (ins : Instr) : Bool :=
  ins.isStore && decide (.global "s2e_icount" ∈ ins.op.operands)

/-- Marks the last store before every store to `s2e_icount`, which must be one of a constant to
`PC`, and collects the constants. -/
def tagStores : List Instr → Option (List Instr × List UInt32)
  | [] => some ([], [])
  | ins :: is => do
    let (is', pcs) ← tagStores is
    if ins.isStore && (is.find? Instr.isStore).any isIcountStore then
      (pcValue ins).map fun pc => (ins.setMetadata .inststart .empty :: is', pc.toUInt32 :: pcs)
    else some (ins :: is', pcs)

/-- The search for a store to `PC` must not run out of the block. -/
def tagBlock (bb : BasicBlock) : Option (BasicBlock × List UInt32) :=
  if (bb.instrs.find? Instr.isStore).any isIcountStore then none
  else (tagStores bb.instrs).map fun r => ({ bb with instrs := r.1 }, r.2)

/-- The update of `lastpc` at the terminator of the entry block. -/
def updateLastPc (entry : BasicBlock) (pc : UInt32) : Option BasicBlock := do
  let term ← entry.terminator?
  let new : BasicBlock :=
    { entry with instrs := entry.instrs.dropLast ++ [term.setMetadata .lastpc (.int pc.toUInt64)] }
  match term.getMetadata .lastpc with
  | some (.int curlastpc) => some (if curlastpc.toUInt32 ≥ pc then entry else new)
  | some _ => none
  | none => some new

/-- The order of the uses does not matter to what they leave. -/
def runOnFunction (f : Func) : Option Func := do
  let tagged ← f.blocks.mapM tagBlock
  match tagged.map Prod.fst with
  | [] => some f
  | entry :: bbs =>
    (tagged.flatMap Prod.snd |>.foldlM updateLastPc entry).map fun e =>
      { f with blocks := e :: bbs }

def runOnModule (M : Module) : Option Module := (M.funcs.mapM runOnFunction).map Module.mk

end TagInstPc

namespace S2EDeleteInstructionCount

/-- Whether an instruction is on `eraseList`.  A call must have a known callee. -/
def isErased (ins : Instr) : Option Bool :=
  match ins.op with
  | .store _ (.global var) => some (var ∈ ["s2e_icount", "s2e_current_tb", "s2e_icount_before_tb"])
  | .call (.func name) _ => some (name = "helper_s2e_tcg_execution_handler")
  | .call _ _ => none
  | _ => some false

def runOnFunction (f : Func) : Option Func :=
  if f.instrs.all fun ins => (isErased ins).isSome then
    some (f.mapBlocks fun bb => { bb with instrs := bb.instrs.filter fun ins => isErased ins = some false })
  else none

end S2EDeleteInstructionCount

/-- A function pass on the functions that have a body. -/
def runOnFunctions (pass : Func → Option Func) (M : Module) : Option Module :=
  (M.funcs.mapM fun f : Func => if f.blocks.isEmpty then some f else pass f).map Module.mk

/-! ## The bounds of blocks -/

open FixOverlappedBBs (getHexMetadataFromIns getHexMetadataFromFunc getPCStartOfFunc getPCEndOfFunc)

/-- The bounds of the translated block can be read. -/
def Instr.HasBounds (i : Instr) : Prop :=
  (getHexMetadataFromIns i .BB_pcStart).isSome = true ∧
    (getHexMetadataFromIns i .BB_pcEnd).isSome = true

/-- An instruction before the terminator. -/
structure Instr.Inner (i : Instr) : Prop where
  bounds : i.HasBounds
  notTerminator : i.isTerminator = false
  notPhi : i.isPhi = false

inductive EntryShape : List Instr → Prop
  | last {t : Instr} (ht : t.isTerminator = true) : EntryShape [t]
  | cons {i : Instr} {is : List Instr} (hi : i.Inner) (h : EntryShape is) : EntryShape (i :: is)

/-- What a pass makes of an instruction it keeps. -/
structure Instr.Keeps (i i' : Instr) : Prop where
  isTerminator_eq : i'.isTerminator = i.isTerminator
  inner : i.Inner → i'.Inner

/-- Instructions are kept, or erased if they are no terminators. -/
inductive Leaves : List Instr → List Instr → Prop
  | nil : Leaves [] []
  | keep {i i' : Instr} {is is' : List Instr} (hi : i.Keeps i') (h : Leaves is is') :
    Leaves (i :: is) (i' :: is')
  | erase {i : Instr} {is is' : List Instr} (hi : i.isTerminator = false)
    (h : Leaves is is') : Leaves (i :: is) is'

variable {i i' : Instr} {is is' js : List Instr} {k : MDKind}

theorem Instr.isStore_outline (i : Instr) : i.outline.isStore = i.isStore := by
  obtain ⟨id, op, md⟩ := i
  cases op <;> rfl

theorem Instr.isTerminator_of_isStore (h : i.isStore = true) : i.isTerminator = false := by
  obtain ⟨id, op, md⟩ := i
  cases op <;> first | rfl | cases h

theorem getHexMetadataFromIns_congr (h : i'.getMetadata k = i.getMetadata k) :
    getHexMetadataFromIns i' k = getHexMetadataFromIns i k := by
  unfold getHexMetadataFromIns
  rw [h]

theorem Instr.Keeps.refl (i : Instr) : i.Keeps i := ⟨rfl, fun h => h⟩

theorem Instr.keeps_setMetadata (i : Instr) (n : MDNode) (h₁ : k ≠ .BB_pcStart)
    (h₂ : k ≠ .BB_pcEnd) : i.Keeps (i.setMetadata k n) := by
  refine ⟨rfl, fun h => ⟨⟨?_, ?_⟩, h.notTerminator, h.notPhi⟩⟩
  · rw [getHexMetadataFromIns_congr (i.getMetadata_setMetadata_of_ne h₁.symm n)]
    exact h.bounds.1
  · rw [getHexMetadataFromIns_congr (i.getMetadata_setMetadata_of_ne h₂.symm n)]
    exact h.bounds.2

theorem Leaves.entryShape (h : Leaves is is') (hs : EntryShape is) : EntryShape is' := by
  induction hs generalizing is' with
  | last ht =>
    cases h with
    | keep hi h =>
      cases h
      exact .last (hi.isTerminator_eq.trans ht)
    | erase hi _ => rw [ht] at hi; cases hi
  | cons hi _ ih =>
    cases h with
    | keep hkeep h => exact .cons (hkeep.inner hi) (ih h)
    | erase _ h => exact ih h

theorem Leaves.filter (p : Instr → Bool) (h : ∀ i ∈ is, i.isTerminator = true → p i = true) :
    Leaves is (is.filter p) := by
  induction is with
  | nil => exact .nil
  | cons i is ih =>
    have ⟨hi, his⟩ := List.forall_mem_cons.mp h
    by_cases hp : p i = true
    · rw [List.filter_cons_of_pos hp]
      exact .keep (.refl i) (ih his)
    · rw [List.filter_cons_of_neg hp]
      exact .erase (Bool.eq_false_iff.mpr fun ht => hp (hi ht)) (ih his)

theorem Leaves.map {g : Instr → Instr} (h : ∀ i : Instr, i.Keeps (g i)) (is : List Instr) :
    Leaves is (is.map g) := by
  induction is with
  | nil => exact .nil
  | cons i is ih => exact .keep (h i) ih

/-- Before a store there is nothing but instructions with bounds. -/
theorem EntryShape.head_bounds (h : EntryShape is) (hstore : ∃ i ∈ is, i.isStore = true) :
    ∃ first, is.head? = some first ∧ first.HasBounds := by
  cases h with
  | cons hi _ => exact ⟨_, rfl, hi.bounds⟩
  | last ht =>
    obtain ⟨i, hi, hstore⟩ := hstore
    obtain rfl := List.mem_singleton.mp hi
    rw [Instr.isTerminator_of_isStore hstore] at ht
    cases ht

theorem EntryShape.of_cons (h : EntryShape (i :: is)) (hne : is ≠ []) :
    i.Inner ∧ EntryShape is := by
  cases h with
  | last _ => exact absurd rfl hne
  | cons hi h => exact ⟨hi, h⟩

/-- What is cut off at the end has the terminator. -/
theorem EntryShape.inner_of_append (h : EntryShape (is ++ js))
    (hne : js ≠ []) : ∀ i ∈ is, i.Inner := by
  induction is with
  | nil => simp
  | cons i is ih =>
    obtain ⟨hi, h⟩ := EntryShape.of_cons h (List.append_ne_nil_of_right_ne_nil is hne)
    exact List.forall_mem_cons.mpr ⟨hi, ih h⟩

/-- A new terminator. -/
theorem EntryShape.setLast (h : EntryShape is) (hi : i.isTerminator = true) :
    EntryShape (is.dropLast ++ [i]) := by
  induction h with
  | last _ => exact .last hi
  | @cons j is hj h ih =>
    cases h with
    | last ht => exact .cons hj (.last hi)
    | cons hk h => exact .cons hj ih

def Func.Shaped (f : Func) : Prop := ∀ e, f.blocks.head? = some e → EntryShape e.instrs

variable {f f' : Func} {M M' : Module}

/-! ## Every pass keeps the shape -/

theorem Instr.keeps_mapValues (σ : Value → Value) (i : Instr) : i.Keeps (i.mapValues σ) :=
  ⟨Instr.isTerminator_mapValues σ i, fun h =>
    ⟨h.bounds, (Instr.isTerminator_mapValues σ i).trans h.notTerminator,
      (Instr.isPhi_mapValues σ i).trans h.notPhi⟩⟩

theorem shaped_runOnFunctions {pass : Func → Option Func} (hM : ∀ f ∈ M.funcs, f.Shaped)
    (hpass : ∀ f f', f.Shaped → pass f = some f' → f'.Shaped)
    (h : runOnFunctions pass M = some M') : ∀ f ∈ M'.funcs, f.Shaped := by
  obtain ⟨funcs, hfuncs, rfl⟩ := Option.map_eq_some_iff.mp h
  intro f' hf'
  obtain ⟨f, hf, hpf⟩ := OptionMapM.exists_of_mem_result hfuncs hf'
  split_ifs at hpf
  · obtain rfl := Option.some.inj hpf
    exact hM f hf
  · exact hpass f f' (hM f hf) hpf

namespace TransformBBToVoid

theorem keeps_cloneIns (i : Instr) : i.Keeps (cloneIns i) := by
  unfold cloneIns
  split
  · next v hop =>
    have ht : i.isTerminator = true := by rw [Instr.isTerminator, hop]; rfl
    refine ⟨ht.symm, fun h => ?_⟩
    rw [h.notTerminator] at ht
    cases ht
  · exact i.keeps_mapValues mapArg

theorem shaped_newFunc (h : f.Shaped) : (newFunc f).Shaped := by
  intro e' he'
  rw [newFunc, Func.mapInstrs, List.head?_map] at he'
  obtain ⟨e, he, rfl⟩ := Option.map_eq_some_iff.mp he'
  exact (Leaves.map keeps_cloneIns e.instrs).entryShape (h e he)

theorem shaped_cloneFunctionInto {funcs : List Func} (hfuncs : ∀ f ∈ funcs, f.Shaped)
    (h : f.Shaped) : ∀ g ∈ cloneFunctionInto funcs f, g.Shaped := by
  intro g hg
  unfold cloneFunctionInto at hg
  dsimp only at hg
  split_ifs at hg
  · obtain ⟨g₀, hg₀, rfl⟩ := List.mem_map.mp hg
    split_ifs
    · intro e he
      rw [List.head?_append, Option.or_eq_some_iff] at he
      rcases he with he | ⟨-, he⟩
      · exact hfuncs g₀ hg₀ e he
      · exact shaped_newFunc h e he
    · exact hfuncs g₀ hg₀
  · rcases List.mem_append.mp hg with hg | hg
    · exact hfuncs g hg
    · obtain rfl := List.mem_singleton.mp hg
      exact shaped_newFunc h

theorem shaped {c : Bool} (hM : ∀ f ∈ M.funcs, f.Shaped) (h : runOnModule M = some (M', c)) :
    ∀ f ∈ M'.funcs, f.Shaped := by
  have hfold : ∀ (olds funcs : List Func), (∀ f ∈ olds, f.Shaped) → (∀ f ∈ funcs, f.Shaped) →
      ∀ f ∈ olds.foldl cloneFunctionInto funcs, f.Shaped := by
    intro olds
    induction olds with
    | nil => exact fun _ _ h => h
    | cons f olds ih =>
      intro funcs holds hfuncs
      have ⟨hf, holds⟩ := List.forall_mem_cons.mp holds
      exact ih _ holds (shaped_cloneFunctionInto hfuncs hf)
  unfold runOnModule at h
  dsimp only at h
  split_ifs at h
  obtain ⟨rfl, -⟩ := Prod.mk.inj (Option.some.inj h)
  intro f hf
  exact hfold _ _ (fun f hf => hM f (List.mem_of_mem_filter hf)) hM f (List.mem_of_mem_filter hf)

end TransformBBToVoid

namespace TagInstPc

theorem leaves_tagStores {pcs : List UInt32}
    (h : tagStores is = some (is', pcs)) : Leaves is is' := by
  induction is generalizing is' pcs with
  | nil =>
    obtain ⟨rfl, -⟩ := Prod.mk.inj (Option.some.inj h)
    exact .nil
  | cons i is ih =>
    rw [tagStores] at h
    obtain ⟨⟨rest, pcs'⟩, hrest, h⟩ := Option.bind_eq_some_iff.mp h
    split_ifs at h
    · obtain ⟨pc, -, h⟩ := Option.map_eq_some_iff.mp h
      obtain ⟨rfl, -⟩ := Prod.mk.inj h
      exact .keep (i.keeps_setMetadata _ (by decide) (by decide)) (ih hrest)
    · obtain ⟨rfl, -⟩ := Prod.mk.inj (Option.some.inj h)
      exact .keep (.refl i) (ih hrest)

theorem entryShape_updateLastPc {entry e : BasicBlock} {pc : UInt32} (h : EntryShape entry.instrs)
    (he : updateLastPc entry pc = some e) : EntryShape e.instrs := by
  unfold updateLastPc at he
  obtain ⟨term, hterm, he⟩ := Option.bind_eq_some_iff.mp he
  have hnew := h.setLast (i := term.setMetadata .lastpc (.int pc.toUInt64))
    (Option.filter_eq_some_iff.mp hterm).2
  dsimp only at he
  split at he
  · obtain rfl := Option.some.inj he
    split_ifs
    · exact h
    · exact hnew
  · cases he
  · obtain rfl := Option.some.inj he
    exact hnew

theorem shape_tagBlock {bb : BasicBlock} {r : BasicBlock × List UInt32} (h : EntryShape bb.instrs)
    (hr : tagBlock bb = some r) : EntryShape r.1.instrs := by
  unfold tagBlock at hr
  split_ifs at hr
  obtain ⟨⟨is, pcs⟩, his, rfl⟩ := Option.map_eq_some_iff.mp hr
  exact (leaves_tagStores his).entryShape h

theorem shaped_runOnFunction (h : f.Shaped) (hf : runOnFunction f = some f') : f'.Shaped := by
  obtain ⟨tagged, htagged, hf⟩ := Option.bind_eq_some_iff.mp hf
  cases tagged with
  | nil =>
    obtain rfl := Option.some.inj hf
    exact h
  | cons r tagged =>
    obtain ⟨e, he, rfl⟩ := Option.map_eq_some_iff.mp hf
    obtain ⟨entry, bbs, hentry, -, hblocks⟩ :=
      List.forall₂_cons_right_iff.mp (OptionMapM.mapM_eq_some_iff.mp htagged)
    have hr := shape_tagBlock (h entry (by rw [hblocks]; rfl)) hentry
    intro e' he'
    obtain rfl := Option.some.inj he'
    exact OptionMapM.foldlM_preserves (P := fun _ e => EntryShape e.instrs)
      (fun _ _ _ _ he hstep => entryShape_updateLastPc he hstep) hr he

theorem shaped (hM : ∀ f ∈ M.funcs, f.Shaped) (h : runOnModule M = some M') :
    ∀ f ∈ M'.funcs, f.Shaped := by
  obtain ⟨funcs, hfuncs, rfl⟩ := Option.map_eq_some_iff.mp h
  intro f' hf'
  obtain ⟨f, hf, hff'⟩ := OptionMapM.exists_of_mem_result hfuncs hf'
  exact shaped_runOnFunction (hM f hf) hff'

end TagInstPc

namespace RemoveExtraStoreToPC

theorem leaves_eraseExtra {isExitBB : Bool} {pc : UInt64} (is : List Instr) :
    Leaves is (eraseExtra isExitBB (setCurrPC pc is)) := by
  induction is generalizing pc with
  | nil => exact .nil
  | cons i is ih =>
    rw [setCurrPC, eraseExtra]
    split_ifs with hextra
    · have hval : (pcValue i).isSome = true := (Bool.and_eq_true_iff.mp hextra).1
      refine .erase (Bool.eq_false_iff.mpr fun ht => ?_) ih
      rw [pcValue_of_isTerminator ht] at hval
      cases hval
    · exact .keep (i.keeps_setMetadata _ (by decide) (by decide)) ih

theorem shaped {c : Bool} (h : f.Shaped) (hf : runOnFunction f = some (f', c)) : f'.Shaped := by
  intro e' he'
  cases hblocks : f'.blocks with
  | nil => simp [hblocks] at he'
  | cons _ _ =>
    obtain ⟨e, bbs, ⟨pc, rfl⟩, -, hf⟩ := List.forall₂_cons_right_iff.mp (hblocks ▸ processed hf)
    rw [hblocks] at he'
    obtain rfl := Option.some.inj he'
    exact (leaves_eraseExtra e.instrs).entryShape (h e (by rw [hf]; rfl))

end RemoveExtraStoreToPC

namespace S2EDeleteInstructionCount

theorem isErased_of_isTerminator (h : i.isTerminator = true) : isErased i = some false := by
  obtain ⟨id, op, md⟩ := i
  cases op <;> first | rfl | cases h

theorem shaped (h : f.Shaped) (hf : runOnFunction f = some f') : f'.Shaped := by
  unfold runOnFunction at hf
  split_ifs at hf
  obtain rfl := Option.some.inj hf
  intro e' he'
  rw [Func.mapBlocks, List.head?_map] at he'
  obtain ⟨e, he, rfl⟩ := Option.map_eq_some_iff.mp he'
  refine (Leaves.filter _ fun i _ ht => ?_).entryShape (h e he)
  exact decide_eq_true (isErased_of_isTerminator ht)

end S2EDeleteInstructionCount

end Bin2llvm
