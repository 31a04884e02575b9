import Bin2llvm.Lib.Lists
import Bin2llvm.Lib.Terms
import Bin2llvm.MarkFuncEntry

/-!
# Bin2llvm.GlobalReferences — cloning functions into another module

A function is cloned into another module in two steps: `copyGlobalReferences` enters its operands
that are global variables or functions into a value map, `CloneFunctionInto` maps its operands.  One
map serves for all functions that are cloned one after the other.

* `mapValue`: constant expressions are mapped operand by operand, and what the map does not have
  stays.
* `cloneAll`: the loop of `inlineBBs`, `cloneFuncs` and
  `createAndSaveTranslatedBasicBlocksAsAModule`.
* `references_iff`: the clones refer to the new module alone exactly when everything in a constant
  expression has been an operand by itself by then.
-/

namespace Bin2llvm.GlobalReferences

/-! ## Operands -/

inductive ObjectKind where
  | globalVariable | function
  deriving DecidableEq, Repr

/-- A global variable or a function of a module. -/
structure Object where
  module : ℕ
  kind : ObjectKind
  name : String
  deriving DecidableEq, Repr

inductive Leaf where
  | inst (id : InstId)
  | const (width : ℕ) (val : UInt64)
  | object (o : Object)
  deriving DecidableEq, Repr

/-- The nodes are constant expressions. -/
abbrev Operand := Term Leaf

def Leaf.object? : Leaf → Option Object
  | object o => some o
  | _ => none

/-- An instruction with its operands, basic blocks left out. -/
structure User where
  opcode : ℕ
  operands : List Operand

/-- A function: its name, and the instructions of its basic blocks. -/
structure SourceFunc where
  name : String
  blocks : List (List User)

/-- The objects a list of operands refers to. -/
def objects (ops : List Operand) : List Object :=
  ops.flatMap fun v => v.leaves.filterMap Leaf.object?

/-- The operands that are objects. -/
def directObjects (ops : List Operand) : List Object :=
  ops.filterMap fun v => v.leaf?.bind Leaf.object?

/-- The objects in constant expressions. -/
def nestedObjects (ops : List Operand) : List Object :=
  ops.flatMap fun v => v.inner.filterMap Leaf.object?

def operands (blocks : List (List User)) : List Operand := blocks.flatten.flatMap User.operands

/-! ## The new module -/

/-- `llvm::Module`: its symbols, each the name of one object. -/
structure SymbolTable where
  id : ℕ
  symbols : List (String × ObjectKind)

namespace SymbolTable

def insert (M : SymbolTable) (name : String) (kind : ObjectKind) : SymbolTable × Object :=
  (⟨M.id, M.symbols ++ [(name, kind)]⟩, ⟨M.id, kind, name⟩)

/-- `getOrInsertGlobal`: the variable of this name, or a new one.  A cast of it stands for it. -/
def getOrInsertGlobal (M : SymbolTable) (name : String) : SymbolTable × Object :=
  if M.symbols.lookup name = some .globalVariable then (M, ⟨M.id, .globalVariable, name⟩)
  else M.insert (MarkFuncEntry.uniqueName (M.symbols.map Prod.fst) name) .globalVariable

/-- `getOrInsertFunction`: the object of this name, or a new function. -/
def getOrInsertFunction (M : SymbolTable) (name : String) : SymbolTable × Object :=
  match M.symbols.lookup name with
  | some kind => (M, ⟨M.id, kind, name⟩)
  | none => M.insert name .function

def getOrInsert (M : SymbolTable) (o : Object) : SymbolTable × Object :=
  match o.kind with
  | .globalVariable => M.getOrInsertGlobal o.name
  | .function => M.getOrInsertFunction o.name

/-- The object is one of the module. -/
structure Has (M : SymbolTable) (o : Object) : Prop where
  module : o.module = M.id
  symbol : (o.name, o.kind) ∈ M.symbols

end SymbolTable

/-! ## Cloning -/

/-- `ValueToValueMapTy`, its entries for global variables and functions; the newest counts. -/
abbrev ValueMap := List (Object × Object)

def mapLeaf (valueMap : ValueMap) : Leaf → Leaf
  | .object o => .object ((valueMap.lookup o).getD o)
  | l => l

/-- `MapValue`: operand by operand; an object the map does not have stays. -/
def mapValue (valueMap : ValueMap) : Operand → Operand := Term.map (mapLeaf valueMap)

/-- One operand in `copyGlobalReferences`. -/
def copyReference (s : SymbolTable × ValueMap) (v : Operand) : SymbolTable × ValueMap :=
  match v.leaf?.bind Leaf.object? with
  | some o =>
    let (module, newGlobal) := s.1.getOrInsert o
    (module, (o, newGlobal) :: s.2)
  | none => s

def copyGlobalReferences (module : SymbolTable) (func : SourceFunc) (valueMap : ValueMap) :
    SymbolTable × ValueMap :=
  (operands func.blocks).foldl copyReference (module, valueMap)

/-- `CloneFunctionInto`: the basic blocks that are appended. -/
def cloneFunctionInto (func : SourceFunc) (valueMap : ValueMap) : List (List User) :=
  func.blocks.map (List.map fun ins => { ins with operands := ins.operands.map (mapValue valueMap) })

/-- The new module, the map, and the clones so far. -/
structure Cloned where
  module : SymbolTable
  valueMap : ValueMap
  clones : List (List (List User))

/-- The function for the clone is created first, if it gets one of its own. -/
def create (newFunc : SourceFunc → Option String) (module : SymbolTable)
    (func : SourceFunc) : SymbolTable :=
  match newFunc func with
  | some name => (module.getOrInsertFunction name).1
  | none => module

/-- One function of the loop.  `newFunc` names the function that is created for the clone. -/
def cloneNext (newFunc : SourceFunc → Option String) (s : Cloned) (func : SourceFunc) : Cloned :=
  let r := copyGlobalReferences (create newFunc s.module func) func s.valueMap
  ⟨r.1, r.2, s.clones ++ [cloneFunctionInto func r.2]⟩

def cloneAll (newFunc : SourceFunc → Option String) (module : SymbolTable)
    (funcs : List SourceFunc) : Cloned :=
  funcs.foldl (cloneNext newFunc) ⟨module, [], []⟩

/-- `BuildFunctions::inlineBBs`: all clones go into one function that is there already. -/
def inlineBBs (module : SymbolTable) (BBsForThisFunction : List SourceFunc) : Cloned :=
  cloneAll (fun _ => none) module BBsForThisFunction

/-- `cloneFuncs` of the linker. -/
def cloneFuncs (newModule : SymbolTable) (allFuncsList : List SourceFunc) : Cloned :=
  cloneAll (fun func => some ("linked-final-func-" ++ func.name)) newModule allFuncsList

/-- `SaveTranslatedBBs::createAndSaveTranslatedBasicBlocksAsAModule`. -/
def createAndSaveTranslatedBasicBlocksAsAModule (newModule : SymbolTable)
    (allBBs : List SourceFunc) : Cloned :=
  cloneAll (fun func => some func.name) newModule allBBs

/-- Every object a clone refers to belongs to the new module. -/
def ReferOnlyTo (M : SymbolTable) (clones : List (List (List User))) : Prop :=
  ∀ c ∈ clones, ∀ o ∈ objects (operands c), o.module = M.id

variable {M M' : SymbolTable} {o o' : Object} {func f : SourceFunc} {funcs : List SourceFunc}
variable {vm : ValueMap} {newFunc : SourceFunc → Option String}

/-! ## What the map has -/

theorem has_insert (M : SymbolTable) (name : String) (kind : ObjectKind) :
    (M.insert name kind).1.Has (M.insert name kind).2 := ⟨rfl, by simp [SymbolTable.insert]⟩

/-- The module only grows. -/
structure SymbolTable.Grows (M M' : SymbolTable) : Prop where
  id : M'.id = M.id
  symbols : M.symbols ⊆ M'.symbols

theorem SymbolTable.Grows.refl (M : SymbolTable) : M.Grows M := ⟨rfl, List.Subset.refl _⟩

theorem SymbolTable.Grows.trans {M₁ M₂ M₃ : SymbolTable} (h : M₁.Grows M₂)
    (h' : M₂.Grows M₃) : M₁.Grows M₃ :=
  ⟨h'.id.trans h.id, List.Subset.trans h.symbols h'.symbols⟩

theorem SymbolTable.Has.mono (h : M.Has o) (hg : M.Grows M') : M'.Has o :=
  ⟨h.module.trans hg.id.symm, hg.symbols h.symbol⟩

theorem grows_insert (M : SymbolTable) (name : String) (kind : ObjectKind) :
    M.Grows (M.insert name kind).1 :=
  ⟨rfl, List.subset_append_left _ _⟩

theorem getOrInsertFunction_spec (M : SymbolTable) (name : String) :
    M.Grows (M.getOrInsertFunction name).1 ∧
      (M.getOrInsertFunction name).1.Has (M.getOrInsertFunction name).2 := by
  unfold SymbolTable.getOrInsertFunction
  cases hl : M.symbols.lookup name with
  | none => exact ⟨grows_insert M name .function, has_insert M name .function⟩
  | some kind => exact ⟨SymbolTable.Grows.refl M, rfl, Lists.mem_of_lookup hl⟩

theorem getOrInsert_spec (M : SymbolTable) (o : Object) :
    M.Grows (M.getOrInsert o).1 ∧ (M.getOrInsert o).1.Has (M.getOrInsert o).2 := by
  unfold SymbolTable.getOrInsert
  cases o.kind with
  | function => exact getOrInsertFunction_spec M o.name
  | globalVariable =>
    show M.Grows (M.getOrInsertGlobal o.name).1 ∧
      (M.getOrInsertGlobal o.name).1.Has (M.getOrInsertGlobal o.name).2
    unfold SymbolTable.getOrInsertGlobal
    split_ifs with hl
    · exact ⟨SymbolTable.Grows.refl M, rfl, Lists.mem_of_lookup hl⟩
    · exact ⟨grows_insert M _ .globalVariable, has_insert M _ .globalVariable⟩

/-- A map with entries for the objects in `copied`, all of them to objects of the module. -/
structure Registers (M : SymbolTable) (vm : ValueMap) (copied : List Object) : Prop where
  known : ∀ o, (vm.lookup o).isSome ↔ o ∈ copied
  has : ∀ o o', vm.lookup o = some o' → M.Has o'

theorem registers_nil (M : SymbolTable) : Registers M [] [] := ⟨by simp, by simp⟩

theorem Registers.mono {copied : List Object} (h : Registers M vm copied) (hg : M.Grows M') :
    Registers M' vm copied :=
  ⟨h.known, fun o o' ho => (h.has o o' ho).mono hg⟩

theorem Registers.cons {copied : List Object} (h : Registers M vm copied) (o : Object) :
    Registers (M.getOrInsert o).1 ((o, (M.getOrInsert o).2) :: vm) (copied ++ [o]) where
  known o' := by
    by_cases ho : o' = o
    · subst ho
      simp
    · rw [List.lookup_cons, beq_eq_false_iff_ne.mpr ho]
      simp [h.known, ho]
  has o' new ho' := by
    by_cases ho : o' = o
    · subst ho
      rw [List.lookup_cons, beq_self_eq_true] at ho'
      obtain rfl := Option.some.inj ho'
      exact (getOrInsert_spec M o').2
    · rw [List.lookup_cons, beq_eq_false_iff_ne.mpr ho] at ho'
      exact (h.has o' new ho').mono (getOrInsert_spec M o).1

/-- The operands of one function. -/
theorem foldl_copyReference {copied : List Object} (h : Registers M vm copied)
    (ops : List Operand) :
    M.Grows (ops.foldl copyReference (M, vm)).1 ∧ Registers (ops.foldl copyReference (M, vm)).1
      (ops.foldl copyReference (M, vm)).2 (copied ++ directObjects ops) := by
  induction ops generalizing M vm copied with
  | nil => exact ⟨SymbolTable.Grows.refl M, by simpa [directObjects] using h⟩
  | cons v ops ih =>
    rw [List.foldl_cons]
    unfold copyReference
    cases hv : v.leaf?.bind Leaf.object? with
    | none =>
      have hdirect : directObjects (v :: ops) = directObjects ops := List.filterMap_cons_none hv
      rw [hdirect]
      exact ih h
    | some o =>
      have hdirect : directObjects (v :: ops) = o :: directObjects ops :=
        List.filterMap_cons_some hv
      obtain ⟨hgrows, hreg⟩ := ih (h.cons o)
      rw [hdirect, ← List.singleton_append, ← List.append_assoc]
      exact ⟨(getOrInsert_spec M o).1.trans hgrows, hreg⟩

theorem copyGlobalReferences_spec {copied : List Object} (h : Registers M vm copied)
    (func : SourceFunc) :
    M.Grows (copyGlobalReferences M func vm).1 ∧ Registers (copyGlobalReferences M func vm).1
      (copyGlobalReferences M func vm).2 (copied ++ directObjects (operands func.blocks)) :=
  foldl_copyReference h (operands func.blocks)

/-! ## What becomes of a reference -/

/-- What a reference becomes. -/
def mapObject (vm : ValueMap) (o : Object) : Object := (vm.lookup o).getD o

theorem objects_mapValue (vm : ValueMap) (v : Operand) :
    (mapValue vm v).leaves.filterMap Leaf.object? =
      (v.leaves.filterMap Leaf.object?).map (mapObject vm) := by
  have hleaf : ∀ l : Leaf, (mapLeaf vm l).object? = l.object?.map (mapObject vm) :=
    fun l => by cases l <;> rfl
  unfold mapValue
  rw [Term.leaves_map, List.filterMap_map, List.map_filterMap]
  exact List.filterMap_congr fun l _ => hleaf l

theorem objects_cloneFunctionInto (func : SourceFunc) (vm : ValueMap) :
    objects (operands (cloneFunctionInto func vm)) = (objects (operands func.blocks)).map (mapObject vm) := by
  have hops : operands (cloneFunctionInto func vm) = (operands func.blocks).map (mapValue vm) := by
    unfold operands cloneFunctionInto
    rw [← List.map_flatten, List.flatMap_map, List.map_flatMap]
  rw [hops]
  unfold objects
  rw [List.flatMap_map, List.map_flatMap]
  exact List.flatMap_congr fun v _ => objects_mapValue vm v

theorem mem_objects {ops : List Operand} : o ∈ objects ops ↔ o ∈ directObjects ops ∨
    o ∈ nestedObjects ops := by
  unfold objects directObjects nestedObjects
  simp only [List.mem_flatMap, List.mem_filterMap, Term.mem_leaves, Option.bind_eq_some_iff]
  constructor
  · rintro ⟨v, hv, l, hl | hl, ho⟩
    · exact Or.inl ⟨v, hv, l, hl, ho⟩
    · exact Or.inr ⟨v, hv, l, hl, ho⟩
  · rintro (⟨v, hv, l, hl, ho⟩ | ⟨v, hv, l, hl, ho⟩)
    · exact ⟨v, hv, l, Or.inl hl, ho⟩
    · exact ⟨v, hv, l, Or.inr hl, ho⟩

/-- A reference leads into the module if the map has it, or if it did before. -/
theorem Registers.mapObject_iff {copied : List Object} (h : Registers M vm copied) (o : Object) :
    (mapObject vm o).module = M.id ↔ o ∈ copied ∨ o.module = M.id := by
  unfold mapObject
  rw [← h.known]
  cases hl : vm.lookup o with
  | none => simp
  | some o' => simp [(h.has o o' hl).module]

/-! ## The loop -/

/-- The objects that are operands of one of the functions. -/
def copiedBy (funcs : List SourceFunc) : List Object :=
  funcs.flatMap fun f => directObjects (operands f.blocks)

/-- The loop after `funcs`. -/
structure CopiedTo (M : SymbolTable) (funcs : List SourceFunc) (s : Cloned) : Prop where
  grows : M.Grows s.module
  registers : Registers s.module s.valueMap (copiedBy funcs)

theorem grows_create (newFunc : SourceFunc → Option String) (M : SymbolTable) (func : SourceFunc) :
    M.Grows (create newFunc M func) := by
  unfold create
  cases newFunc func with
  | some name => exact (getOrInsertFunction_spec M name).1
  | none => exact SymbolTable.Grows.refl M

/-- One more function: what its clone refers to. -/
theorem CopiedTo.step {s : Cloned} (h : CopiedTo M funcs s) (func : SourceFunc) :
    CopiedTo M (funcs ++ [func]) (cloneNext newFunc s func) ∧
      (ReferOnlyTo M (cloneNext newFunc s func).clones ↔ ReferOnlyTo M s.clones ∧
        ∀ o ∈ nestedObjects (operands func.blocks), o.module = M.id ∨
          o ∈ copiedBy (funcs ++ [func])) := by
  have hcreated := grows_create newFunc s.module func
  obtain ⟨hgrows, hreg⟩ := copyGlobalReferences_spec (h.registers.mono hcreated) func
  have hcopied : copiedBy (funcs ++ [func]) = copiedBy funcs ++ directObjects
      (operands func.blocks) := by
    simp [copiedBy]
  have hM := h.grows.trans (hcreated.trans hgrows)
  rw [← hcopied] at hreg
  refine ⟨⟨hM, hreg⟩, ?_⟩
  show (∀ c ∈ s.clones ++ [_], ∀ o ∈ _, _) ↔ _
  rw [List.forall_mem_append, List.forall_mem_singleton, objects_cloneFunctionInto,
    List.forall_mem_map]
  refine and_congr Iff.rfl ⟨fun hall o ho => ?_, fun hall o ho => ?_⟩
  · have hnew := hall o (mem_objects.mpr (Or.inr ho))
    rw [← hM.id] at hnew ⊢
    exact ((hreg.mapObject_iff o).mp hnew).symm
  · rw [← hM.id, hreg.mapObject_iff o, hM.id]
    rcases mem_objects.mp ho with ho | ho
    · exact Or.inl (by rw [hcopied]; exact List.mem_append_right _ ho)
    · exact (hall o ho).symm

theorem cloneAll_concat (newFunc : SourceFunc → Option String) (M : SymbolTable)
    (funcs : List SourceFunc) (func : SourceFunc) :
    cloneAll newFunc M (funcs ++ [func]) = cloneNext newFunc (cloneAll newFunc M funcs) func := by
  simp [cloneAll, List.foldl_append]

/-- What the map has after the loop are the operands of all functions. -/
theorem copiedTo_cloneAll (newFunc : SourceFunc → Option String) (M : SymbolTable)
    (funcs : List SourceFunc) : CopiedTo M funcs (cloneAll newFunc M funcs) := by
  induction funcs using List.reverseRecOn with
  | nil => exact ⟨SymbolTable.Grows.refl M, registers_nil M⟩
  | append_singleton funcs func ih =>
    rw [cloneAll_concat]
    exact (ih.step func).1

/-- **Every reference of every clone leads into the new module exactly when each object in a
constant expression of a function belongs to the new module or is an operand by itself, in that
function or in one cloned before.** -/
theorem references_iff (newFunc : SourceFunc → Option String) (M : SymbolTable)
    (funcs : List SourceFunc) : ReferOnlyTo M (cloneAll newFunc M funcs).clones ↔
      ∀ (i : ℕ) (f : SourceFunc), funcs[i]? = some f → ∀ o ∈ nestedObjects (operands f.blocks),
        o.module = M.id ∨ ∃ (j : ℕ) (g : SourceFunc), j ≤ i ∧ funcs[j]? = some g ∧
          o ∈ directObjects (operands g.blocks) := by
  -- the functions up to the `i`-th have copied the objects
  have hcopied : ∀ (fs : List SourceFunc) (i : ℕ) (o : Object),
      (∃ (j : ℕ) (g : SourceFunc), j ≤ i ∧ fs[j]? = some g ∧
        o ∈ directObjects (operands g.blocks)) ↔ o ∈ copiedBy (fs.take (i + 1)) := by
    intro fs i o
    unfold copiedBy
    rw [List.mem_flatMap]
    constructor
    · rintro ⟨j, g, hj, hg, ho⟩
      exact ⟨g, List.mem_of_getElem? ((List.getElem?_take_of_lt (by omega)).trans hg), ho⟩
    · rintro ⟨g, hg, ho⟩
      obtain ⟨j, hj⟩ := List.mem_iff_getElem?.mp hg
      have hlt : j < i + 1 := by
        by_contra hge
        rw [List.getElem?_take_eq_none (by omega)] at hj
        cases hj
      exact ⟨j, g, by omega, (List.getElem?_take_of_lt hlt).symm.trans hj, ho⟩
  simp only [hcopied]
  induction funcs using List.reverseRecOn with
  | nil => simp [cloneAll, ReferOnlyTo]
  | append_singleton funcs func ih =>
    rw [cloneAll_concat]
    refine (((copiedTo_cloneAll newFunc M funcs).step func).2.trans (and_congr_left' ih)).trans ?_
    have hlast : (funcs ++ [func]).take (funcs.length + 1) = funcs ++ [func] :=
      List.take_of_length_le (by simp)
    constructor
    · rintro ⟨hfuncs, hfunc⟩ i f hf o ho
      -- the last function, or one before it
      rcases Nat.lt_trichotomy i funcs.length with hi | rfl | hi
      · rw [List.take_append_of_le_length (by omega)]
        exact hfuncs i f ((List.getElem?_append_left hi).symm.trans hf) o ho
      · rw [List.getElem?_concat_length] at hf
        obtain rfl := Option.some.inj hf
        rw [hlast]
        exact hfunc o ho
      · rw [List.getElem?_eq_none (by simp; omega)] at hf
        cases hf
    · intro hall
      refine ⟨fun i f hf o ho => ?_, fun o ho => ?_⟩
      · have hi : i < funcs.length := (List.getElem?_eq_some_iff.mp hf).1
        have := hall i f ((List.getElem?_append_left hi).trans hf) o ho
        rwa [List.take_append_of_le_length (by omega)] at this
      · have := hall funcs.length func List.getElem?_concat_length o ho
        rwa [hlast] at this

/-- A load from a field of the global variable `env`, the address a constant expression. -/
def loadsField : SourceFunc :=
  ⟨"void-tcg-llvm-tb-0-8000", [[
    ⟨0, [.node 1 [.leaf (.object ⟨0, .globalVariable, "env"⟩), .leaf (.const 32 0),
      .leaf (.const 32 4)]]⟩,
    ⟨2, []⟩]]⟩

/-- The clone still refers to the variable of the old module. -/
theorem not_referOnlyTo_loadsField : ¬ ReferOnlyTo ⟨1, []⟩ (inlineBBs ⟨1, []⟩ [loadsField]).clones ∧
    ¬ ReferOnlyTo ⟨1, []⟩ (cloneFuncs ⟨1, []⟩ [loadsField]).clones ∧
    ¬ ReferOnlyTo ⟨1, []⟩ (createAndSaveTranslatedBasicBlocksAsAModule ⟨1, []⟩ [loadsField]).clones := by
  have hno : ∀ c, (⟨0, .globalVariable, "env"⟩ : Object) ∈ objects (operands c) → ¬ ReferOnlyTo ⟨1, []⟩ [c] := by
    intro c hc h
    have hid : 0 = 1 := h c List.mem_cons_self _ hc
    omega
  exact ⟨hno _ (by decide), hno _ (by decide), hno _ (by decide)⟩

end Bin2llvm.GlobalReferences
