import Bin2llvm.BuildFunctions.Tagged

/-!
# Bin2llvm.MarkFuncEntry — naming the entry points

The pass collects the targets of the direct calls and renames the entry block of every
block-function that starts at one of them to `func_entry_point`.  The calls are collected from entry
blocks only.

* `isEntryPoint_mark_iff`: which entry blocks carry the name afterwards.
* `TaggedModule.mark`: tagged modules stay tagged.
-/

namespace Bin2llvm.MarkFuncEntry

open FixOverlappedBBs BuildFunctions

/-- `setName`: a name that is taken gets a number.  LLVM counts on for each symbol table; the number
stands for whatever it appends, and all that is used of it is `uniqueName_cases`, that something is
appended. -/
def uniqueName (taken : List String) (name : String) : String :=
  if name ∈ taken then
    (((List.range (taken.length + 1)).map fun n => name ++ toString (n + 1)).find?
      (· ∉ taken)).getD (name ++ "0")
  else name

/-- `b.setName("func_entry_point")` on the front block `b`. -/
def setEntryName (func : Func) : Func :=
  match func.blocks with
  | [] => func
  | b :: bs =>
    if b.name = "func_entry_point" then func
    else { func with blocks := { b with name := uniqueName (bs.map BasicBlock.name) "func_entry_point" } :: bs }

/-- The direct calls of the front block. -/
def directCallTargetsOf (func : Func) : Option (List UInt64) := do
  let b ← func.blocks.head?
  (b.instrs.filter (·.has .INS_directCall)).mapM fun ins =>
    getHexMetadataFromIns ins .INS_directCall

def directCallTargets (M : Module) : Option (List UInt64) :=
  (M.blockFunctions.mapM directCallTargetsOf).map List.flatten

/-- A function in the second loop. -/
def markFunc (directCallTargets : List UInt64) (func : Func) : Option Func :=
  if func.isBlockFunction then do
    let pcStart ← getPCStartOfFunc func
    pure (if pcStart ∈ directCallTargets then setEntryName func else func)
  else some func

def runOnModule (M : Module) : Option Module := do
  let targets ← directCallTargets M
  let funcs ← M.funcs.mapM (markFunc targets)
  pure ⟨funcs⟩

/-! ## The name -/

/-- The module holds a direct call to `pc`. -/
def Called (M : Module) (pc : UInt64) : Prop :=
  ∃ g ∈ M.blockFunctions, ∃ i ∈ g.instrs, getHexMetadataFromIns i .INS_directCall = some pc

/-- An entry block of the module holds a direct call to `pc`. -/
def CalledFromEntry (M : Module) (pc : UInt64) : Prop :=
  ∃ g ∈ M.blockFunctions, ∃ b, g.blocks.head? = some b ∧ ∃ i ∈ b.instrs,
    getHexMetadataFromIns i .INS_directCall = some pc

/-- No block but the entry has the name. -/
def NameFree (func : Func) : Prop := ∀ b ∈ func.blocks.tail, b.name ≠ "func_entry_point"

instance (func : Func) : Decidable (NameFree func) :=
  inferInstanceAs (Decidable (∀ b ∈ func.blocks.tail, b.name ≠ "func_entry_point"))

variable {M M' : Module} {targets : List UInt64} {func : Func} {pc : UInt64}

theorem append_ne_self {name s : String} (h : s ≠ "") : name ++ s ≠ name := by
  intro heq
  refine h (String.toList_inj.mp ?_)
  simpa using congrArg String.toList heq

/-- A name that is free stays, and one that is taken gets something behind it. -/
theorem uniqueName_cases (taken : List String) (name : String) :
    uniqueName taken name = name ∧ name ∉ taken ∨ name ∈ taken ∧ ∃ s, s ≠ "" ∧
      uniqueName taken name = name ++ s := by
  unfold uniqueName
  split_ifs with h
  · refine Or.inr ⟨h, ?_⟩
    cases hf : ((List.range (taken.length + 1)).map fun n => name ++ toString (n + 1)).find?
      (· ∉ taken) with
    | none => exact ⟨"0", by decide, rfl⟩
    | some u =>
      obtain ⟨n, -, hn⟩ := List.mem_map.mp (List.mem_of_find?_eq_some hf)
      exact ⟨toString (n + 1), Nat.repr_ne_empty, hn.symm⟩
  · exact Or.inl ⟨rfl, h⟩

theorem uniqueName_eq_iff {taken : List String} {name : String} : uniqueName taken name = name ↔
    name ∉ taken := by
  rcases uniqueName_cases taken name with ⟨h, hn⟩ | ⟨hn, s, hs, h⟩
  · simp [h, hn]
  · rw [h]
    simp [hn, append_ne_self hs]

/-- Renaming makes a block-function an entry point unless another block has the name. -/
theorem isEntryPoint_setEntryName {b : BasicBlock} (hb : func.blocks.head? = some b) :
    isEntryPoint (setEntryName func) = true ↔ isEntryPoint func = true ∨ NameFree func := by
  unfold setEntryName isEntryPoint NameFree
  cases hbs : func.blocks with
  | nil => rw [hbs] at hb; simp at hb
  | cons c bs =>
    by_cases hc : c.name = "func_entry_point"
    · simp [hbs, hc]
    · have : uniqueName (bs.map BasicBlock.name) "func_entry_point" = "func_entry_point" ↔
          "func_entry_point" ∉ bs.map BasicBlock.name := uniqueName_eq_iff
      simp [hc, this]

/-! ## The rest stays -/

/-- What the pass makes of a function. -/
def mark (targets : List UInt64) (func : Func) : Func :=
  if func.isBlockFunction ∧ (getPCStartOfFunc func).any (· ∈ targets) then
    setEntryName func else func

/-- Only the name of the front block changes. -/
theorem blocks_setEntryName (func : Func) : setEntryName func = func ∨ ∃ b bs s, func.blocks = b :: bs ∧
    setEntryName func = { func with blocks := { b with name := "func_entry_point" ++ s } :: bs } := by
  unfold setEntryName
  cases hb : func.blocks with
  | nil => exact Or.inl rfl
  | cons b bs =>
    by_cases hn : b.name = "func_entry_point"
    · exact Or.inl (if_pos hn)
    · refine Or.inr ?_
      rcases uniqueName_cases (bs.map BasicBlock.name) "func_entry_point" with ⟨h, -⟩ | ⟨-, s, -, h⟩
      · exact ⟨b, bs, "", rfl, by simp only [if_neg hn, h, String.append_empty]⟩
      · exact ⟨b, bs, s, rfl, by simp only [if_neg hn, h]⟩

@[simp] theorem name_setEntryName (func : Func) : (setEntryName func).name = func.name := by
  rcases blocks_setEntryName func with h | ⟨b, bs, s, -, h⟩ <;> rw [h]

/-- Only a name changes. -/
theorem map_setEntryName {β : Type} {g : BasicBlock → β}
    (hg : ∀ b name, g { b with name := name } = g b) (func : Func) :
    (setEntryName func).blocks.map g = func.blocks.map g := by
  rcases blocks_setEntryName func with h | ⟨b, bs, s, hb, h⟩
  · rw [h]
  · rw [h, hb, List.map_cons, List.map_cons, hg]

theorem instrs_setEntryName (func : Func) :
    (setEntryName func).blocks.map BasicBlock.instrs = func.blocks.map BasicBlock.instrs :=
  map_setEntryName (fun _ _ => rfl) func

theorem blockIds_setEntryName (func : Func) : (setEntryName func).blockIds = func.blockIds :=
  map_setEntryName (fun _ _ => rfl) func

theorem exists_block_setEntryName {b : BasicBlock}
    (h : b ∈ (setEntryName func).blocks) : ∃ c ∈ func.blocks,
    b.instrs = c.instrs ∧ (b.name = c.name ∨ ∃ s, b.name = "func_entry_point" ++ s) := by
  rcases blocks_setEntryName func with heq | ⟨c, cs, s, hb, heq⟩
  · rw [heq] at h
    exact ⟨b, h, rfl, Or.inl rfl⟩
  · rw [heq] at h
    rcases List.mem_cons.mp h with rfl | h
    · exact ⟨c, by rw [hb]; exact List.mem_cons_self, rfl, Or.inr ⟨s, rfl⟩⟩
    · exact ⟨b, by rw [hb]; exact List.mem_cons_of_mem _ h, rfl, Or.inl rfl⟩

@[simp] theorem name_mark (targets : List UInt64) (func : Func) :
    (mark targets func).name = func.name := by
  unfold mark
  split_ifs
  · exact name_setEntryName func
  · rfl

@[simp] theorem isBlockFunction_mark (targets : List UInt64) (func : Func) :
    (mark targets func).isBlockFunction = func.isBlockFunction := by
  unfold Func.isBlockFunction
  rw [name_mark]

theorem getPCStartOfFunc_setEntryName (func : Func) :
    getPCStartOfFunc (setEntryName func) = getPCStartOfFunc func := by
  have h := congrArg List.head? (instrs_setEntryName func)
  rw [List.head?_map, List.head?_map] at h
  unfold getPCStartOfFunc getHexMetadataFromFunc
  cases h1 : (setEntryName func).blocks.head? with
  | none =>
    rw [h1] at h
    cases h2 : func.blocks.head? with
    | none => rfl
    | some c => rw [h2] at h; simp at h
  | some b =>
    rw [h1] at h
    cases h2 : func.blocks.head? with
    | none => rw [h2] at h; simp at h
    | some c =>
      rw [h2] at h
      have hbc : b.instrs = c.instrs := by simpa using h
      simp [hbc]

@[simp] theorem getPCStartOfFunc_mark (targets : List UInt64) (func : Func) :
    getPCStartOfFunc (mark targets func) = getPCStartOfFunc func := by
  unfold mark
  split_ifs
  · exact getPCStartOfFunc_setEntryName func
  · rfl

theorem instrs_func_setEntryName (func : Func) : (setEntryName func).instrs = func.instrs := by
  unfold Func.instrs
  rw [List.flatMap_def, instrs_setEntryName, List.flatMap_def]

/-- A tagged block-function stays one. -/
theorem taggedFunc_setEntryName (h : TaggedFunc func) : TaggedFunc (setEntryName func) where
  start := by
    rw [getPCStartOfFunc_setEntryName]
    exact h.start
  shape b hb := by
    obtain ⟨c, hc, hi, -⟩ := exists_block_setEntryName hb
    rcases h.shape c hc with ⟨pre, t, e⟩ | ⟨k, pre, s, mid, r, e⟩
    · exact Or.inl ⟨pre, t, hi.trans e.instrs, e.pre_plain, e.term⟩
    · exact Or.inr ⟨k, pre, s, mid, r, hi.trans e.instrs, e.pre_plain, e.mid_plain, e.store, e.ret⟩
  pcStart i hi := by
    rw [getPCStartOfFunc_setEntryName]
    exact h.pcStart i (by rwa [instrs_func_setEntryName] at hi)
  idxStart i hi := h.idxStart i (by rwa [instrs_func_setEntryName] at hi)
  names b hb := by
    obtain ⟨c, hc, -, hn | ⟨s, hn⟩⟩ := exists_block_setEntryName hb
    · rw [hn]
      exact h.names c hc
    · rw [hn]
      intro heq
      have := congrArg (fun s => s.toList.take 2) heq
      simp at this
  successors i hi bb hbb := by
    rw [blockIds_setEntryName]
    exact h.successors i (by rwa [instrs_func_setEntryName] at hi) bb hbb

theorem taggedFunc_mark (h : TaggedFunc func) : TaggedFunc (mark targets func) := by
  unfold mark
  split_ifs
  · exact taggedFunc_setEntryName h
  · exact h

theorem blockIds_mark (targets : List UInt64) (func : Func) :
    (mark targets func).blockIds = func.blockIds := by
  unfold mark
  split_ifs
  · exact blockIds_setEntryName func
  · rfl

/-! ## The module -/

theorem runOnModule_eq (h : runOnModule M = some M') :
    ∃ targets, directCallTargets M = some targets ∧ M' = ⟨M.funcs.map (mark targets)⟩ := by
  unfold runOnModule at h
  obtain ⟨targets, ht, h⟩ := Option.bind_eq_some_iff.mp h
  obtain ⟨funcs, hf, h⟩ := Option.bind_eq_some_iff.mp h
  obtain rfl : ⟨funcs⟩ = M' := Option.some.inj h
  have hmark : ∀ func func', markFunc targets func = some func' → mark targets func = func' := by
    intro func func' h
    unfold markFunc at h
    unfold mark
    by_cases hb : func.isBlockFunction = true
    · rw [if_pos hb] at h
      obtain ⟨pc, hpc, h⟩ := Option.bind_eq_some_iff.mp h
      rw [← Option.some.inj h]
      simp [hb, hpc]
    · rw [if_neg hb] at h
      rw [← Option.some.inj h, if_neg (fun hc => hb hc.1)]
  refine ⟨targets, ht, congrArg Module.mk (List.ext_getElem? fun n => ?_)⟩
  have hn := OptionMapM.mapM_getElem? hf n
  rw [List.getElem?_map]
  cases hfn : M.funcs[n]? with
  | none => rw [hn, hfn]; rfl
  | some func =>
    obtain ⟨func', hfunc'⟩ := Option.isSome_iff_exists.mp
      (OptionMapM.isSome_mapM.mp (by rw [hf]; rfl) func (List.mem_of_getElem? hfn))
    rw [hn, hfn, Option.bind_some, hfunc', Option.map_some, hmark func func' hfunc']

theorem mem_directCallTargets (h : directCallTargets M = some targets) : pc ∈ targets ↔
    CalledFromEntry M pc := by
  obtain ⟨tss, htss, rfl⟩ := Option.map_eq_some_iff.mp h
  rw [List.mem_flatten]
  constructor
  · rintro ⟨ts, hts, hpc⟩
    obtain ⟨g, hg, hgts⟩ := OptionMapM.exists_of_mem_result htss hts
    obtain ⟨b, hb, hmap⟩ := Option.bind_eq_some_iff.mp hgts
    obtain ⟨i, hi, hipc⟩ := OptionMapM.exists_of_mem_result hmap hpc
    exact ⟨g, hg, b, hb, i, List.mem_of_mem_filter hi, hipc⟩
  · rintro ⟨g, hg, b, hb, i, hi, hipc⟩
    obtain ⟨ts, hts, hgts⟩ := OptionMapM.exists_of_mem htss hg
    obtain ⟨c, hc, hmap⟩ := Option.bind_eq_some_iff.mp hgts
    obtain rfl : b = c := Option.some.inj (hb.symm.trans hc)
    obtain ⟨pc', hpc', hi'⟩ :=
      OptionMapM.exists_of_mem hmap (List.mem_filter.mpr ⟨hi, has_of_getHexMetadata hipc⟩)
    obtain rfl : pc = pc' := Option.some.inj (hipc.symm.trans hi')
    exact ⟨ts, hts, hpc'⟩

/-- **Which block-functions are entry points afterwards.** -/
theorem isEntryPoint_mark_iff (h : directCallTargets M = some targets)
    (hb : func.isBlockFunction = true) (hpc : getPCStartOfFunc func = some pc) :
    isEntryPoint (mark targets func) = true ↔
      isEntryPoint func = true ∨ CalledFromEntry M pc ∧ NameFree func := by
  obtain ⟨b, hhead⟩ : ∃ b, func.blocks.head? = some b := by
    unfold getPCStartOfFunc getHexMetadataFromFunc at hpc
    obtain ⟨b, hb, -⟩ := Option.bind_eq_some_iff.mp hpc
    exact ⟨b, hb⟩
  rw [← mem_directCallTargets h]
  unfold mark
  rw [hpc]
  by_cases hmem : pc ∈ targets
  · simp [hb, hmem, isEntryPoint_setEntryName hhead]
  · simp [hmem]

/-- A tagged module stays one. -/
def TaggedModule.mark (T : TaggedModule) (targets : List UInt64) : TaggedModule where
  module := ⟨T.module.funcs.map (MarkFuncEntry.mark targets)⟩
  tagged func hf := by
    obtain ⟨hmem, hb⟩ := List.mem_filter.mp hf
    obtain ⟨g, hg, rfl⟩ := List.mem_map.mp hmem
    exact taggedFunc_mark (T.tagged g (List.mem_filter.mpr ⟨hg,
      by rwa [isBlockFunction_mark] at hb⟩))
  start_inj f hf g hg h := by
    obtain ⟨hf, hfb⟩ := List.mem_filter.mp hf
    obtain ⟨hg, hgb⟩ := List.mem_filter.mp hg
    obtain ⟨f, hf', rfl⟩ := List.mem_map.mp hf
    obtain ⟨g, hg', rfl⟩ := List.mem_map.mp hg
    rw [isBlockFunction_mark] at hfb hgb
    rw [getPCStartOfFunc_mark, getPCStartOfFunc_mark] at h
    rw [T.start_inj f (List.mem_filter.mpr ⟨hf', hfb⟩) g (List.mem_filter.mpr ⟨hg', hgb⟩) h]
  ids_nodup := by
    have heq : (Module.mk (T.module.funcs.map (MarkFuncEntry.mark targets))).blockFunctions.flatMap
        Func.blockIds = T.module.blockFunctions.flatMap Func.blockIds := by
      unfold Module.blockFunctions
      simp only [List.filter_map, Function.comp_def, isBlockFunction_mark, List.flatMap_map,
        blockIds_mark]
    rw [heq]
    exact T.ids_nodup

end Bin2llvm.MarkFuncEntry
