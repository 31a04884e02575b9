import Bin2llvm.IR

/-!
# Bin2llvm.DeadBlocks — splitting a block and deleting what was cut off

`splitBasicBlock`, `removePredecessor` and `DeleteDeadBlock` as LLVM does them.  A phi node loses
the entry of the deleted block, and goes when one value is left; every other instruction stays where
it is, up to its operands.

* `operations`: the instructions of a list that are no phi nodes, by identity and metadata.
* `layout`: the blocks of a function with their operations.
* `layout_removePredecessor`, `layout_deleteDeadBlock`: what the deletion leaves.
* `entryOutline`, `entryOutline_deleteDeadBlock`: of the entry block it leaves everything, up to
  operands.
-/

namespace Bin2llvm

/-! ## Phi nodes -/

namespace Instr

def isPhi (i : Instr) : Bool :=
  match i.op with
  | .phi _ => true
  | _ => false

/-- The blocks and values of a phi node. -/
def incoming (i : Instr) : List (BlockId × Value) :=
  match i.op with
  | .phi inc => inc
  | _ => []

/-- `setIncomingBlock(…, new)` at the entries of the block `old`. -/
def setIncomingBlock (old new : BlockId) (i : Instr) : Instr :=
  match i.op with
  | .phi inc => { i with op := .phi (inc.map fun p => if p.1 = old then (new, p.2) else p) }
  | _ => i

theorem isPhi_iff {i : Instr} : i.isPhi = true ↔ ∃ inc, i.op = .phi inc := by
  unfold isPhi
  cases i.op <;> simp

@[simp] theorem isPhi_mapValues (σ : Value → Value) (i : Instr) :
    (i.mapValues σ).isPhi = i.isPhi := by
  obtain ⟨id, op, md⟩ := i
  cases op <;> rfl

@[simp] theorem isPhi_setIncomingBlock (old new : BlockId) (i : Instr) :
    (i.setIncomingBlock old new).isPhi = i.isPhi := by
  obtain ⟨id, op, md⟩ := i
  cases op <;> rfl

@[simp] theorem id_setIncomingBlock (old new : BlockId) (i : Instr) :
    (i.setIncomingBlock old new).id = i.id := by
  obtain ⟨id, op, md⟩ := i
  cases op <;> rfl

@[simp] theorem md_setIncomingBlock (old new : BlockId) (i : Instr) :
    (i.setIncomingBlock old new).md = i.md := by
  obtain ⟨id, op, md⟩ := i
  cases op <;> rfl

end Instr

namespace Func

/-- The phi node `p`. -/
def phi? (f : Func) (p : InstId) : Option Instr := f.instrs.find? fun i => i.isPhi && i.id == some p

def setIncoming (f : Func) (p : InstId) (inc : List (BlockId × Value)) : Func :=
  f.mapInstrs fun i => if i.isPhi ∧ i.id = some p then { i with op := .phi inc } else i

/-- `eraseFromParent()` of the phi node `p`. -/
def erasePhi (f : Func) (p : InstId) : Func :=
  f.mapBlocks fun b => { b with instrs := b.instrs.filter fun i => !(i.isPhi && i.id == some p) }

/-- `hasConstantValue()` of a phi node with these entries. -/
def hasConstantValue : List (BlockId × Value) → Option Value
  | [] => none
  | (_, v) :: rest => if rest.all (fun p => p.2 = v) then some v else none

/-- The phi nodes at the front of the block. -/
def frontPhis (f : Func) (bb : BlockId) : List Instr :=
  ((f.blocks.find? fun b => b.id = bb).map fun b => b.instrs.takeWhile Instr.isPhi).getD []

/-- A block of at most two predecessors, this one among them, keeps no phi nodes; a loop of one
block does. -/
def nukesPhis (bb pred : BlockId) (first : Instr) : Bool :=
  match first.incoming with
  | [_] => true
  | [p, q] => decide ((if p.1 = pred then q.1 else p.1) ≠ bb)
  | _ => false

/-- What stands for the phi node `p` when the entries `inc` are left, if it goes. -/
def phiValue (nuke : Bool) (p : InstId) (inc : List (BlockId × Value)) : Option Value :=
  if nuke then
    match inc with
    | [] => some .undef
    | (_, v) :: _ => some (if v = .inst p then .undef else v)
  else (hasConstantValue inc).filter fun v => decide (v ≠ .inst p)

/-- The entry of `pred` is taken from the phi node `p`. -/
def removeIncomingValue (pred : BlockId) (nuke : Bool) (f : Func) (p : InstId) : Func :=
  match f.phi? p with
  | none => f
  | some i =>
    let inc := i.incoming.eraseP fun e => e.1 = pred
    match phiValue nuke p inc with
    | some v => ((f.setIncoming p inc).replaceAllUsesWith (.inst p) v).erasePhi p
    | none => f.setIncoming p inc

/-- `bb->removePredecessor(pred)`. -/
def removePredecessor (pred : BlockId) (f : Func) (bb : BlockId) : Func :=
  match f.frontPhis bb with
  | [] => f
  | first :: phis =>
    ((first :: phis).filterMap Instr.id).foldl (removeIncomingValue pred (nukesPhis bb pred first))
      f

/-- The results of the block become undefined, and the block goes. -/
def zap (f : Func) (bb : BasicBlock) : Func :=
  let f := (bb.instrs.filterMap Instr.id).foldl (fun f p => f.replaceAllUsesWith (.inst p) .undef) f
  { f with blocks := f.blocks.filter fun b => b.id ≠ bb.id }

/-- `DeleteDeadBlock(bb)`. -/
def deleteDeadBlock (f : Func) (bb : BasicBlock) : Func :=
  let succs := ((bb.instrs.getLast?).map fun i => i.op.successors).getD []
  (succs.foldl (removePredecessor bb.id) f).zap bb

end Func

/-! ## What stays -/

/-- The instructions that are no phi nodes, by identity and metadata. -/
def operations (is : List Instr) : List (Option InstId × Metadata) :=
  (is.filter fun i => !i.isPhi).map fun i => (i.id, i.md)

@[simp] theorem operations_nil : operations [] = [] := rfl

@[simp] theorem operations_append (is js : List Instr) :
    operations (is ++ js) = operations is ++ operations js := by
  simp [operations]

theorem operations_map {g : Instr → Instr} (hphi : ∀ i, (g i).isPhi = i.isPhi)
    (hid : ∀ i, (g i).id = i.id) (hmd : ∀ i, (g i).md = i.md) (is : List Instr) :
    operations (is.map g) = operations is := by
  simp [operations, List.filter_map, Function.comp_def, hphi, hid, hmd]

theorem operations_filter_phi (p : Instr → Bool) (is : List Instr) :
    operations (is.filter fun i => !(i.isPhi && p i)) = operations is := by
  rw [operations, operations, List.filter_filter]
  congr 2
  funext i
  cases i.isPhi <;> rfl

theorem mem_operations {is : List Instr} {x : Option InstId × Metadata} :
    x ∈ operations is ↔ ∃ i ∈ is, i.isPhi = false ∧ (i.id, i.md) = x := by
  simp [operations, and_assoc]

namespace BasicBlock

/-- A block with its operations. -/
def layout (b : BasicBlock) : BlockId × List (Option InstId × Metadata) :=
  (b.id, operations b.instrs)

end BasicBlock

namespace Func

/-- The blocks with their operations. -/
def layout (f : Func) : List (BlockId × List (Option InstId × Metadata)) :=
  f.blocks.map BasicBlock.layout

theorem layout_mapBlocks {g : BasicBlock → BasicBlock} (hg : ∀ b, (g b).layout = b.layout)
    (f : Func) : (f.mapBlocks g).layout = f.layout := by simp [layout, mapBlocks, hg]

theorem layout_mapInstrs {g : Instr → Instr} (hphi : ∀ i, (g i).isPhi = i.isPhi)
    (hid : ∀ i, (g i).id = i.id) (hmd : ∀ i, (g i).md = i.md) (f : Func) :
    (f.mapInstrs g).layout = f.layout :=
  layout_mapBlocks (g := BasicBlock.mapInstrs g) (fun b =>
    Prod.ext rfl (operations_map hphi hid hmd b.instrs)) f

@[simp] theorem layout_replaceAllUsesWith (f : Func) (v w : Value) :
    (f.replaceAllUsesWith v w).layout = f.layout :=
  layout_mapInstrs (Instr.isPhi_mapValues _) (fun _ => rfl) (fun _ => rfl) f

@[simp] theorem layout_erasePhi (f : Func) (p : InstId) : (f.erasePhi p).layout = f.layout := by
  apply layout_mapBlocks
  intro b
  exact Prod.ext rfl (operations_filter_phi (fun i => i.id == some p) b.instrs)

@[simp] theorem layout_setIncoming (f : Func) (p : InstId) (inc : List (BlockId × Value)) :
    (f.setIncoming p inc).layout = f.layout := by
  apply layout_mapInstrs <;> intro i <;> split_ifs with h
  · exact h.1.symm
  all_goals rfl

theorem layout_removeIncomingValue (pred : BlockId) (nuke : Bool) (f : Func) (p : InstId) :
    (removeIncomingValue pred nuke f p).layout = f.layout := by
  unfold removeIncomingValue
  cases f.phi? p with
  | none => rfl
  | some i => cases h : phiValue nuke p (i.incoming.eraseP fun e => e.1 = pred) <;> simp [h]

/-- Steps that keep the layout keep it together. -/
theorem layout_foldl {α : Type} {g : Func → α → Func} (hg : ∀ f a, (g f a).layout = f.layout)
    (as : List α) (f : Func) : (as.foldl g f).layout = f.layout := by
  induction as generalizing f with
  | nil => rfl
  | cons a as ih =>
    rw [List.foldl_cons, ih]
    exact hg f a

theorem layout_removePredecessor (pred : BlockId) (f : Func) (bb : BlockId) :
    (removePredecessor pred f bb).layout = f.layout := by
  unfold removePredecessor
  split
  · rfl
  · exact layout_foldl (layout_removeIncomingValue pred _) _ f

theorem layout_zap (f : Func) (bb : BasicBlock) : (f.zap bb).layout = f.layout.filter fun b =>
    b.1 ≠ bb.id := by
  rw [← layout_foldl (fun f p => layout_replaceAllUsesWith f (.inst p) .undef)
    (bb.instrs.filterMap Instr.id) f]
  simp only [zap, layout, List.filter_map]
  rfl

theorem layout_deleteDeadBlock (f : Func) (bb : BasicBlock) :
    (f.deleteDeadBlock bb).layout = f.layout.filter fun b => b.1 ≠ bb.id := by
  rw [deleteDeadBlock, layout_zap, layout_foldl (layout_removePredecessor bb.id)]

end Func

/-! ## The entry block -/

/-- An instruction up to its operands. -/
def Instr.outline (i : Instr) : Instr :=
  match i.op with
  | .phi _ => { i with op := .phi [] }
  | _ => i.mapValues fun _ => .undef

namespace Instr

@[simp] theorem md_outline (i : Instr) : i.outline.md = i.md := by
  obtain ⟨id, op, md⟩ := i
  cases op <;> rfl

@[simp] theorem isPhi_outline (i : Instr) : i.outline.isPhi = i.isPhi := by
  obtain ⟨id, op, md⟩ := i
  cases op <;> rfl

@[simp] theorem isTerminator_outline (i : Instr) : i.outline.isTerminator = i.isTerminator := by
  obtain ⟨id, op, md⟩ := i
  cases op <;> rfl

theorem outline_mapValues (σ : Value → Value) (i : Instr) :
    (i.mapValues σ).outline = i.outline := by
  obtain ⟨id, op, md⟩ := i
  cases op <;> simp [outline, mapValues, Op.mapValues, Function.comp_def]

theorem outline_setIncomingBlock (old new : BlockId) (i : Instr) :
    (i.setIncomingBlock old new).outline = i.outline := by
  obtain ⟨id, op, md⟩ := i
  cases op <;> rfl

theorem outline_setPhi {i : Instr} (h : i.isPhi = true) (inc : List (BlockId × Value)) :
    outline { i with op := .phi inc } = i.outline := by
  obtain ⟨id, op, md⟩ := i
  cases op <;> first | rfl | cases h

end Instr

namespace Func

def entryOutline (f : Func) : Option (BlockId × List Instr) :=
  f.blocks.head?.map fun b => (b.id, b.instrs.map Instr.outline)

/-- The entry block has no predecessors, so there are no phi nodes in it. -/
def EntryPlain (f : Func) : Prop := ∀ b, f.blocks.head? = some b → ∀ i ∈ b.instrs, i.isPhi = false

variable {f f' : Func}

theorem exists_entry {b' : BasicBlock} (heq : f'.entryOutline = f.entryOutline)
    (hb' : f'.blocks.head? = some b') :
    ∃ b, f.blocks.head? = some b ∧ b.id = b'.id ∧ b.instrs.map Instr.outline =
      b'.instrs.map Instr.outline := by
  unfold entryOutline at heq
  rw [hb'] at heq
  obtain ⟨b, hb, hout⟩ := Option.map_eq_some_iff.mp heq.symm
  exact ⟨b, hb, Prod.mk.inj hout⟩

theorem EntryPlain.congr (h : f.EntryPlain) (heq : f'.entryOutline = f.entryOutline) :
    f'.EntryPlain := by
  intro b' hb' i hi
  obtain ⟨b, hb, -, hout⟩ := exists_entry heq hb'
  have hmem : i.outline ∈ b.instrs.map Instr.outline := hout ▸ List.mem_map_of_mem hi
  obtain ⟨j, hj, hji⟩ := List.mem_map.mp hmem
  rw [← Instr.isPhi_outline, ← hji, Instr.isPhi_outline]
  exact h b hb j hj

theorem entryPlain_of_outline {o : BlockId × List Instr} (h : f.entryOutline = some o)
    (ho : ∀ i ∈ o.2, i.isPhi = false) : f.EntryPlain := by
  intro b hb i hi
  unfold entryOutline at h
  rw [hb] at h
  obtain rfl := Option.some.inj h
  rw [← Instr.isPhi_outline]
  exact ho _ (List.mem_map_of_mem hi)

theorem entryOutline_mapInstrs {g : Instr → Instr} (hg : ∀ i, (g i).outline = i.outline)
    (f : Func) : (f.mapInstrs g).entryOutline = f.entryOutline := by
  simp [entryOutline, mapInstrs, BasicBlock.mapInstrs, Function.comp_def, hg]

@[simp] theorem entryOutline_replaceAllUsesWith (f : Func) (v w : Value) :
    (f.replaceAllUsesWith v w).entryOutline = f.entryOutline :=
  entryOutline_mapInstrs (Instr.outline_mapValues _) f

@[simp] theorem entryOutline_setIncoming (f : Func) (p : InstId) (inc : List (BlockId × Value)) :
    (f.setIncoming p inc).entryOutline = f.entryOutline := by
  refine entryOutline_mapInstrs (fun i => ?_) f
  split_ifs with h
  · exact Instr.outline_setPhi h.1 inc
  · rfl

theorem entryOutline_erasePhi (h : f.EntryPlain) (p : InstId) :
    (f.erasePhi p).entryOutline = f.entryOutline := by
  unfold entryOutline erasePhi mapBlocks
  rw [List.head?_map, Option.map_map]
  refine Option.map_congr fun b hb => ?_
  have hall : b.instrs.filter (fun i => !(i.isPhi && i.id == some p)) = b.instrs :=
    List.filter_eq_self.mpr fun i hi => by rw [h b hb i hi]; rfl
  dsimp only [Function.comp_apply]
  rw [hall]

theorem entryOutline_removeIncomingValue (h : f.EntryPlain) (pred : BlockId) (nuke : Bool)
    (p : InstId) : (removeIncomingValue pred nuke f p).entryOutline = f.entryOutline := by
  unfold removeIncomingValue
  cases f.phi? p with
  | none => rfl
  | some i =>
    cases hv : phiValue nuke p (i.incoming.eraseP fun e => e.1 = pred) with
    | none => simp [hv]
    | some v =>
      have hsame : ((f.setIncoming p (i.incoming.eraseP fun e => e.1 = pred)).replaceAllUsesWith
        (.inst p) v).entryOutline =
          f.entryOutline := by simp
      simp only [hv]
      rw [entryOutline_erasePhi (h.congr hsame), hsame]

/-- Steps that keep the entry block keep it together. -/
theorem entryOutline_foldl {α : Type} {g : Func → α → Func}
    (hg : ∀ f a, f.EntryPlain → (g f a).entryOutline = f.entryOutline) (as : List α)
    (h : f.EntryPlain) : (as.foldl g f).entryOutline = f.entryOutline := by
  induction as generalizing f with
  | nil => rfl
  | cons a as ih =>
    rw [List.foldl_cons, ih (h.congr (hg f a h))]
    exact hg f a h

theorem entryOutline_removePredecessor (h : f.EntryPlain) (pred bb : BlockId) :
    (removePredecessor pred f bb).entryOutline = f.entryOutline := by
  unfold removePredecessor
  split
  · rfl
  · exact entryOutline_foldl (fun f p h => entryOutline_removeIncomingValue h pred _ p) _ h

theorem entryOutline_zap {bb : BasicBlock} (h : f.EntryPlain) (hne : ∀ b, f.blocks.head? = some b →
    b.id ≠ bb.id) : (f.zap bb).entryOutline = f.entryOutline := by
  have hsame := entryOutline_foldl (fun f p _ => entryOutline_replaceAllUsesWith f (.inst p) .undef)
    (bb.instrs.filterMap Instr.id) h
  rw [← hsame]
  unfold zap
  cases hblocks : ((bb.instrs.filterMap Instr.id).foldl
    (fun f p => f.replaceAllUsesWith (.inst p) .undef) f).blocks with
  | nil => simp [entryOutline, hblocks]
  | cons b' bs =>
    obtain ⟨b, hb, hid, -⟩ := exists_entry hsame (by rw [hblocks]; rfl)
    have hkeep : b'.id ≠ bb.id := hid ▸ hne b hb
    simp [entryOutline, hblocks, hkeep]

/-- Deleting a block behind the entry block. -/
theorem entryOutline_deleteDeadBlock {bb : BasicBlock} (h : f.EntryPlain)
    (hne : ∀ b, f.blocks.head? = some b → b.id ≠ bb.id) :
    (f.deleteDeadBlock bb).entryOutline = f.entryOutline := by
  have hsame := entryOutline_foldl (fun f b h => entryOutline_removePredecessor h bb.id b)
    (((bb.instrs.getLast?).map fun i => i.op.successors).getD []) h
  rw [deleteDeadBlock, entryOutline_zap (h.congr hsame), hsame]
  intro b' hb'
  obtain ⟨b, hb, hid, -⟩ := exists_entry hsame hb'
  exact hid ▸ hne b hb

end Func

end Bin2llvm
