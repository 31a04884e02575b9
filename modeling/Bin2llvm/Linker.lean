import Bin2llvm.BuildFunctions.Fixups
import Bin2llvm.Lib.OptionMapM

/-!
# Bin2llvm.Linker — collecting functions and linking calls

`linky` collects the functions of all files by their start, clones one for each start into a new
module, and replaces the stores tagged as direct calls by calls.

* `allFuncs_spec`: the map the calls are looked up in has exactly the starts of the functions of the
  files.
-/

namespace Bin2llvm.Linker

open FixOverlappedBBs BuildFunctions

/-- `allFuncsMap`, in the order of `allFuncsList`. -/
abbrev FuncsMap := List (UInt64 × Func)

/-- One function of `gatherFuncsFromModule`: the first function with a start counts. -/
def gatherFunc (all : FuncsMap) (func : Func) : Option FuncsMap :=
  if func.isBlockFunction then do
    let bb ← func.blocks.head?
    let ins ← bb.instrs.head?
    if ins.has .BB_pcStart then do
      let startPC ← getPCStartOfFunc func
      pure (if (all.lookup startPC).isSome then all else all ++ [(startPC, func)])
    else pure all
  else some all

def gatherFuncsFromModule (all : FuncsMap) (m : Module) : Option FuncsMap :=
  m.funcs.foldlM gatherFunc all

def gatherFuncs (files : List Module) : Option FuncsMap := files.foldlM gatherFuncsFromModule []

/-- A function is cloned into the function of its new name, which is created unless it exists. -/
def cloneFunc (newModule : Module) (func : Func) : Module :=
  let name := "linked-final-func-" ++ func.name
  if newModule.funcs.any (·.name = name) then
    ⟨newModule.funcs.map fun f => if f.name = name then
      { f with blocks := f.blocks ++ func.blocks } else f⟩
  else ⟨newModule.funcs ++ [{ func with name := name }]⟩

def cloneFuncs (allFuncsList : List Func) : Module := allFuncsList.foldl cloneFunc ⟨[]⟩

/-- The new module, and the map its calls are looked up in. -/
def allFuncs (files : List Module) : Option (Module × FuncsMap) := do
  let all ← gatherFuncs files
  let newModule := cloneFuncs (all.map Prod.snd)
  let allFuncsMap ← gatherFuncsFromModule [] newModule
  pure (newModule, allFuncsMap)

/-- One instruction of `linkFuncs`: a call to an unknown function stays as it is. -/
def linkCall (allFuncsMap : FuncsMap) (ins : Instr) : Option Instr :=
  match ins.op with
  | .store _ _ =>
    if ins.has .INS_directCall then do
      let targetPC ← getHexMetadataFromIns ins .INS_directCall
      match allFuncsMap.lookup targetPC with
      | none => pure ins
      | some targetFunc => pure ⟨ins.id, .call (.func targetFunc.name) [], []⟩
    else some ins
  | _ => some ins

def linkFuncs (newModule : Module) (allFuncsMap : FuncsMap) : Option Module := do
  let funcs ← newModule.funcs.mapM fun func => do
    let blocks ← func.blocks.mapM fun b => do
      let instrs ← b.instrs.mapM (linkCall allFuncsMap)
      pure { b with instrs := instrs }
    pure { func with blocks := blocks }
  pure ⟨funcs⟩

/-- `main`, on the files that could be loaded. -/
def link (files : List Module) : Option Module := do
  let (newModule, allFuncsMap) ← allFuncs files
  linkFuncs newModule allFuncsMap

/-! ## The map -/

/-- The function has a first instruction, and its start can be read if it is there. -/
def Gatherable (func : Func) : Prop :=
  func.isBlockFunction = true → ∃ b i, func.blocks.head? = some b ∧ b.instrs.head? = some i ∧
    (i.has .BB_pcStart = true → (getBBStart i).isSome)

/-- The function is found under `pc`. -/
def StartsAt (func : Func) (pc : UInt64) : Prop :=
  func.isBlockFunction = true ∧ getPCStartOfFunc func = some pc

variable {all all' : FuncsMap} {func : Func} {funcs : List Func} {pc : UInt64}

theorem getPCStartOfFunc_eq {b : BasicBlock} {i : Instr} (hb : func.blocks.head? = some b)
    (hi : b.instrs.head? = some i) : getPCStartOfFunc func = getBBStart i := by
  unfold getPCStartOfFunc getHexMetadataFromFunc
  rw [hb]
  show (b.instrs.head?.bind fun ins => getHexMetadataFromIns ins .BB_pcStart) = _
  rw [hi]
  rfl

theorem isSome_lookup_append (l : FuncsMap) (p : UInt64 × Func) (pc : UInt64) :
    ((l ++ [p]).lookup pc).isSome ↔ (l.lookup pc).isSome ∨ p.1 = pc := by
  rw [List.lookup_append]
  cases l.lookup pc with
  | some f => simp
  | none =>
    obtain ⟨q, f⟩ := p
    by_cases h : pc = q
    · simp [h]
    · simp [List.lookup_cons, beq_eq_false_iff_ne.mpr h, Ne.symm h]

/-- What one function adds. -/
theorem gatherFunc_spec (h : gatherFunc all func = some all') :
    (∀ pc, (all'.lookup pc).isSome ↔ (all.lookup pc).isSome ∨ StartsAt func pc) ∧
      (all' = all ∨ ∃ pc, StartsAt func pc ∧ all' = all ++ [(pc, func)]) := by
  unfold gatherFunc at h
  by_cases hb : func.isBlockFunction = true
  · rw [if_pos hb] at h
    obtain ⟨bb, hbb, h⟩ := Option.bind_eq_some_iff.mp h
    obtain ⟨ins, hins, h⟩ := Option.bind_eq_some_iff.mp h
    have hstart := getPCStartOfFunc_eq hbb hins
    by_cases hhas : ins.has .BB_pcStart = true
    · rw [if_pos hhas] at h
      obtain ⟨startPC, hpc, h⟩ := Option.bind_eq_some_iff.mp h
      have hat : ∀ pc, StartsAt func pc ↔ startPC = pc := fun pc => by simp [StartsAt, hb, hpc]
      -- the start is known already, or it is new
      split_ifs at h with hl
      · obtain rfl : all = all' := Option.some.inj h
        refine ⟨fun pc => ?_, Or.inl rfl⟩
        rw [hat]
        refine ⟨Or.inl, ?_⟩
        rintro (h | rfl)
        · exact h
        · exact hl
      · obtain rfl : all ++ [(startPC, func)] = all' := Option.some.inj h
        refine ⟨fun pc => ?_, Or.inr ⟨startPC, (hat _).mpr rfl, rfl⟩⟩
        rw [isSome_lookup_append, hat]
    · rw [if_neg hhas] at h
      obtain rfl : all = all' := Option.some.inj h
      refine ⟨fun pc => ?_, Or.inl rfl⟩
      have hno : ¬ StartsAt func pc := by
        rintro ⟨-, hpc⟩
        rw [hstart] at hpc
        exact hhas (has_of_getHexMetadata hpc)
      simp [hno]
  · rw [if_neg hb] at h
    obtain rfl : all = all' := Option.some.inj h
    exact ⟨fun pc => by simp [StartsAt, hb], Or.inl rfl⟩

theorem gatherFunc_isSome (h : Gatherable func) (all : FuncsMap) :
    (gatherFunc all func).isSome := by
  unfold gatherFunc
  by_cases hb : func.isBlockFunction = true
  · obtain ⟨b, i, hb', hi, hread⟩ := h hb
    rw [if_pos hb, hb']
    simp only [Option.bind_eq_bind, Option.bind_some, hi, getPCStartOfFunc_eq hb' hi]
    by_cases hhas : i.has .BB_pcStart = true
    · obtain ⟨pc, hpc⟩ := Option.isSome_iff_exists.mp (hread hhas)
      simp [hhas, hpc]
    · simp [hhas]
  · simp [hb]

/-- A map of functions found under their starts, each taken once. -/
structure Gathered (funcs : List Func) (all : FuncsMap) : Prop where
  lookup : ∀ pc, (all.lookup pc).isSome ↔ ∃ f ∈ funcs, StartsAt f pc
  startsAt : ∀ p ∈ all, StartsAt p.2 p.1
  sublist : (all.map Prod.snd).Sublist funcs

theorem gathered_nil : Gathered [] [] where
  lookup := by simp
  startsAt := by simp
  sublist := List.Sublist.refl _

theorem Gathered.step (h : Gathered funcs all) (hf : gatherFunc all func = some all') :
    Gathered (funcs ++ [func]) all' := by
  obtain ⟨hl, hcases⟩ := gatherFunc_spec hf
  refine ⟨fun pc => ?_, ?_, ?_⟩
  · rw [hl, h.lookup]
    simp only [List.mem_append, List.mem_singleton, or_and_right, exists_or, exists_eq_left]
  · rcases hcases with rfl | ⟨pc, hpc, rfl⟩
    · exact h.startsAt
    · intro p hp
      rcases List.mem_append.mp hp with hp | hp
      · exact h.startsAt p hp
      · rw [List.mem_singleton.mp hp]
        exact hpc
  · rcases hcases with rfl | ⟨pc, -, rfl⟩
    · exact h.sublist.trans (List.sublist_append_left _ _)
    · rw [List.map_append]
      exact h.sublist.append (List.Sublist.refl _)

theorem gathered_foldlM (hok : ∀ f ∈ funcs, Gatherable f) :
    ∃ all, funcs.foldlM gatherFunc [] = some all ∧ Gathered funcs all := by
  obtain ⟨all, hall⟩ := Option.isSome_iff_exists.mp
    (OptionMapM.isSome_foldlM (fun f hf all => gatherFunc_isSome (hok f hf) all) [])
  exact ⟨all, hall, OptionMapM.foldlM_preserves (fun _ _ _ _ hg hf => hg.step hf) gathered_nil hall⟩

theorem gatherFuncs_eq (files : List Module) :
    gatherFuncs files = (files.flatMap Module.funcs).foldlM gatherFunc [] :=
  OptionMapM.foldlM_flatMap files []

theorem gathered_gatherFuncs {files : List Module} (hok : ∀ f ∈ files.flatMap Module.funcs,
    Gatherable f) :
    ∃ all, gatherFuncs files = some all ∧ Gathered (files.flatMap Module.funcs) all := by
  rw [gatherFuncs_eq]
  exact gathered_foldlM hok

/-! ## The clones -/

/-- The clone of a function under its new name. -/
def clone (func : Func) : Func := { func with name := "linked-final-func-" ++ func.name }

theorem strstr_append (s t sub : String) (h : strstr t sub = true) :
    strstr (s ++ t) sub = true := by
  unfold strstr at h ⊢
  rw [decide_eq_true_iff] at h ⊢
  rw [String.toList_append]
  exact h.trans (List.suffix_append _ _).isInfix

theorem startsAt_clone (h : func.isBlockFunction = true) : StartsAt (clone func) pc ↔
    StartsAt func pc := by
  unfold StartsAt
  rw [h, show (clone func).isBlockFunction = true from strstr_append _ _ _ h]
  rfl

theorem append_left_cancel {s t u : String} (h : s ++ t = s ++ u) : t = u := by
  have := congrArg String.toList h
  rw [String.toList_append, String.toList_append] at this
  exact String.toList_inj.mp (List.append_cancel_left this)

/-- Functions with different names are cloned one by one. -/
theorem cloneFuncs_eq (h : (funcs.map Func.name).Nodup) : cloneFuncs funcs = ⟨funcs.map clone⟩ := by
  have key : ∀ fs done : List Func, ((done ++ fs).map Func.name).Nodup →
      fs.foldl cloneFunc ⟨done.map clone⟩ = ⟨(done ++ fs).map clone⟩ := by
    intro fs
    induction fs with
    | nil => intro done _; simp
    | cons f fs ih =>
      intro done hnd
      have hnew : (done.map clone).any (fun g =>
          decide (g.name = "linked-final-func-" ++ f.name)) = false := by
        rw [List.any_eq_false]
        intro g hg
        obtain ⟨g, hg', rfl⟩ := List.mem_map.mp hg
        rw [decide_eq_true_iff]
        intro heq
        have hname : g.name = f.name := append_left_cancel heq
        rw [List.map_append, List.nodup_append] at hnd
        exact hnd.2.2 g.name (List.mem_map_of_mem hg') f.name (by simp) hname
      have hf : cloneFunc ⟨done.map clone⟩ f = ⟨(done ++ [f]).map clone⟩ := by
        unfold cloneFunc
        simp only [hnew, Bool.false_eq_true, if_false, List.map_append, List.map_cons, List.map_nil]
        rfl
      rw [List.foldl_cons, hf, ih (done ++ [f]) (by rwa [List.append_assoc]), List.append_assoc]
      rfl
  exact key funcs [] h

theorem Gathered.clone_gatherable (h : Gathered funcs all) (hok : ∀ f ∈ funcs, Gatherable f) :
    ∀ f ∈ (all.map Prod.snd).map clone, Gatherable f := by
  intro f hf _
  obtain ⟨g, hg, rfl⟩ := List.mem_map.mp hf
  obtain ⟨p, hp, rfl⟩ := List.mem_map.mp hg
  exact hok p.2 (h.sublist.subset hg) (h.startsAt p hp).1

/-- **The calls are looked up in a map with exactly the starts of the functions in the files.** -/
theorem allFuncs_spec {files : List Module}
    (hnames : ((files.flatMap Module.funcs).map Func.name).Nodup)
    (hok : ∀ f ∈ files.flatMap Module.funcs, Gatherable f) : ∃ newModule allFuncsMap,
      allFuncs files = some (newModule, allFuncsMap) ∧
        ∀ pc, (allFuncsMap.lookup pc).isSome ↔ ∃ f ∈ files.flatMap Module.funcs, StartsAt f pc := by
  obtain ⟨all, hall, hg⟩ := gathered_gatherFuncs hok
  have hclone := cloneFuncs_eq (hnames.sublist (hg.sublist.map Func.name))
  obtain ⟨map, hmap, hg'⟩ := gathered_foldlM (hg.clone_gatherable hok)
  refine ⟨cloneFuncs (all.map Prod.snd), map, ?_, fun pc => ?_⟩
  · unfold allFuncs gatherFuncsFromModule
    rw [hall, Option.bind_eq_bind, Option.bind_some, hclone]
    simp only [hmap, Option.bind_some, Option.pure_def]
  · rw [hg'.lookup, ← hg.lookup]
    constructor
    · rintro ⟨f, hf, hpc⟩
      obtain ⟨g, hg₁, rfl⟩ := List.mem_map.mp hf
      obtain ⟨p, hp, rfl⟩ := List.mem_map.mp hg₁
      rw [startsAt_clone (hg.startsAt p hp).1] at hpc
      exact (hg.lookup pc).mpr ⟨p.2, hg.sublist.subset hg₁, hpc⟩
    · intro hl
      obtain ⟨f, hf⟩ := Option.isSome_iff_exists.mp hl
      have hmem := Lists.mem_of_lookup hf
      have hat := hg.startsAt _ hmem
      exact ⟨clone f, List.mem_map_of_mem (List.mem_map_of_mem hmem),
        (startsAt_clone hat.1).mpr hat⟩

end Bin2llvm.Linker
