import Bin2llvm.MarkFuncEntry
import Bin2llvm.BuildFunctions.EntryStart
import Bin2llvm.Linker

/-!
# Bin2llvm.EntryPoints — from direct calls to linked functions

A direct call is linked when the block-function it goes to is named an entry point, `BuildFunctions`
builds a function from it, and this function still shows its start to the linker.

* `startsAt_fixupEntry_iff`: what the linker sees of the functions `BuildFunctions` builds.
* `entriesFound_iff`: all translated targets of direct calls are named, built and linked exactly
  when each is an entry point already or called from an entry block, and the fixups do not erase its
  start.
-/

namespace Bin2llvm.EntryPoints

open FixOverlappedBBs BuildFunctions MarkFuncEntry Linker

/-- `N` holds the function `BuildFunctions` builds from `F`. -/
def BuiltFrom (M N : Module) (F : Func) : Prop :=
  ∃ all f, allBBs M = some all ∧ makeFunctionForward all ("final-func-" ++ F.name) F = some f ∧
    fixupEntry f ∈ N.funcs

/-- The linker can go through the files: different functions have different names, and starts can be
read. -/
structure Linkable (files : List Module) : Prop where
  names : ((files.flatMap Module.funcs).map Func.name).Nodup
  gatherable : ∀ f ∈ files.flatMap Module.funcs, Gatherable f

/-- What `MarkFuncEntry` should achieve, where it makes `M'` of `M` and `BuildFunctions` makes `N`
of `M'`. -/
structure EntriesFound (M M' N : Module) : Prop where
  named : ∀ (n : ℕ) (F F' : Func), M.funcs[n]? = some F → M'.funcs[n]? = some F' →
    F.isBlockFunction = true →
    ∀ pc, getPCStartOfFunc F = some pc → (isEntryPoint F' = true ↔
      Called M pc ∨ isEntryPoint F = true)
  built : ∀ (n : ℕ) (F F' : Func), M.funcs[n]? = some F → M'.funcs[n]? = some F' →
    F.isBlockFunction = true → ∀ pc, getPCStartOfFunc F = some pc → Called M pc → BuiltFrom M' N F'
  resolved : ∀ files, N ∈ files → Linkable files → ∃ newModule allFuncsMap,
    allFuncs files = some (newModule, allFuncsMap) ∧ ∀ F ∈ M.blockFunctions, ∀ pc,
      getPCStartOfFunc F = some pc → Called M pc → (allFuncsMap.lookup pc).isSome

/-! ## The built module -/

theorem getPCStartOfFunc_fixupEntry (f : Func) :
    getPCStartOfFunc (fixupEntry f) = getPCStartOfFunc f := by
  unfold fixupEntry
  cases hb : f.blocks with
  | nil => rfl
  | cons e bbs =>
    simp only
    split_ifs
    · unfold getPCStartOfFunc getHexMetadataFromFunc
      rw [hb]
      cases hi : e.instrs <;> simp [getHexMetadataFromIns, Instr.getMetadata, hi]
    · rfl

/-- The fixed entry has a first instruction, with the metadata of the old one. -/
theorem head_fixupEntry {f : Func} {b : BasicBlock} {i : Instr} (hb : f.blocks.head? = some b)
    (hi : b.instrs.head? = some i) :
    ∃ c j, (fixupEntry f).blocks.head? = some c ∧ c.instrs.head? = some j ∧ j.md = i.md := by
  unfold fixupEntry
  cases hbs : f.blocks with
  | nil => rw [hbs] at hb; simp at hb
  | cons e bbs =>
    obtain rfl : e = b := by rw [hbs] at hb; simpa using hb
    simp only
    split_ifs
    · exact ⟨_, _, rfl, rfl, by simp [hi]⟩
    · exact ⟨e, i, by rw [hbs]; rfl, hi, rfl⟩

variable {M N : Module} {F G f : Func} {pc : UInt64}

section Tagged

variable (T : TaggedModule) {all : List (UInt64 × Func)} (hall : allBBs T.module = some all)
  (h : BuildFunctions.runOnModule T.module = some N)

include hall h

/-- The names of the built functions are those of the block-functions, with a prefix. -/
theorem nodup_names (hnames : (T.module.funcs.map Func.name).Nodup) :
    (N.funcs.map Func.name).Nodup := by
  obtain ⟨newFuncs, hnew, rfl⟩ := exists_newFuncs hall h
  have heq : (newFuncs.map fixupEntry).map Func.name =
      ((T.module.blockFunctions.filter isEntryPoint).map Func.name).map ("final-func-" ++ ·) := by
    refine List.ext_getElem? fun n => ?_
    have hn := OptionMapM.mapM_getElem? hnew n
    rw [List.map_map, List.map_map, List.getElem?_map, List.getElem?_map, hn]
    cases hF : (T.module.blockFunctions.filter isEntryPoint)[n]? with
    | none => rfl
    | some F =>
      have hmem := List.mem_of_getElem? hF
      have hmemF := List.mem_of_mem_filter hmem
      obtain ⟨f, -, hf⟩ := OptionMapM.exists_of_mem hnew hmem
      obtain ⟨pc, hpc⟩ := (T.tagged F hmemF).start
      rw [Option.bind_some, hf]
      simpa using (getPCStartOfFunc_makeFunctionForward T hall hmemF hpc hf).1
  show ((newFuncs.map fixupEntry).map Func.name).Nodup
  rw [heq]
  have hsub := hnames.sublist ((List.filter_sublist.trans List.filter_sublist).map Func.name :
    ((T.module.blockFunctions.filter isEntryPoint).map Func.name).Sublist
      (T.module.funcs.map Func.name))
  exact hsub.map fun s t h => append_left_cancel h

/-- The linker can go through the built functions. -/
theorem gatherable_of_mem (hG : G ∈ N.funcs) : Gatherable G := by
  obtain ⟨F, hF, -, f, hf, rfl⟩ := (mem_runOnModule hall h).mp hG
  obtain ⟨pc, hpc⟩ := (T.tagged F hF).start
  obtain ⟨-, -, b, i, hb, hi, hread⟩ := getPCStartOfFunc_makeFunctionForward T hall hF hpc hf
  obtain ⟨c, j, hc, hj, hmd⟩ := head_fixupEntry hb hi
  refine fun _ => ⟨c, j, hc, hj, fun hhas => ?_⟩
  have hi' : i.has .BB_pcStart = true := by
    unfold Instr.has Instr.getMetadata at hhas ⊢
    rwa [hmd] at hhas
  have heq : getBBStart j = getBBStart i := by
    unfold getBBStart getHexMetadataFromIns Instr.getMetadata
    rw [hmd]
  rw [heq, hread hi']
  rfl

omit h in
/-- A built function shows the start of its entry point, unless the fixups have erased it. -/
theorem startsAt_fixupEntry_iff (hF : F ∈ T.module.blockFunctions)
    (hf : makeFunctionForward all ("final-func-" ++ F.name) F = some f) :
    StartsAt (fixupEntry f) pc ↔ getPCStartOfFunc F = some pc ∧
      ¬ EntryLost T.module.blockFunctions F := by
  obtain ⟨pcF, hpcF⟩ := (T.tagged F hF).start
  obtain ⟨hname, hstart, b, i, hb, hi, hread⟩ :=
    getPCStartOfFunc_makeFunctionForward T hall hF hpcF hf
  have hblock : (fixupEntry f).isBlockFunction = true := by
    unfold Func.isBlockFunction
    rw [name_fixupEntry, hname]
    exact strstr_append _ _ _ (List.mem_filter.mp hF).2
  unfold StartsAt
  rw [and_iff_right hblock, getPCStartOfFunc_fixupEntry]
  constructor
  · intro hpc
    have hshown := (getPCStartOfFunc_eq hb hi).symm.trans hpc
    obtain rfl : pcF = pc :=
      Option.some.inj ((hread (has_of_getHexMetadata hshown)).symm.trans hshown)
    exact ⟨hpcF, hstart.mp hpc⟩
  · rintro ⟨hpc, hlost⟩
    obtain rfl : pcF = pc := Option.some.inj (hpcF.symm.trans hpc)
    exact hstart.mpr hlost

/-- Under a program counter the linker finds the function built from the entry point that starts
there, unless the fixups have erased the start. -/
theorem exists_startsAt_iff : (∃ G ∈ N.funcs, StartsAt G pc) ↔ ∃ F ∈ T.module.blockFunctions,
    isEntryPoint F = true ∧ getPCStartOfFunc F = some pc ∧
    ¬ EntryLost T.module.blockFunctions F := by
  constructor
  · rintro ⟨G, hG, hat⟩
    obtain ⟨F, hF, hentry, f, hf, rfl⟩ := (mem_runOnModule hall h).mp hG
    exact ⟨F, hF, hentry, (startsAt_fixupEntry_iff T hall hF hf).mp hat⟩
  · rintro ⟨F, hF, hentry, hpc, hlost⟩
    obtain ⟨f, hf, hmem⟩ := exists_built hall h hF hentry
    exact ⟨fixupEntry f, hmem, (startsAt_fixupEntry_iff T hall hF hf).mpr ⟨hpc, hlost⟩⟩

end Tagged

/-! ## From calls to functions -/

theorem entryLost_of {fs fs' : List Func} {F F' : Func}
    (hhead : F.blocks.head?.map BasicBlock.instrs = F'.blocks.head?.map BasicBlock.instrs)
    (hstart : getPCStartOfFunc F = getPCStartOfFunc F')
    (hfs : ∀ g ∈ fs, ∃ g' ∈ fs', getPCStartOfFunc g = getPCStartOfFunc g')
    (h : EntryLost fs F) : EntryLost fs' F' := by
  have hentry : ∀ e, F.blocks.head? = some e → ∃ e', F'.blocks.head? = some e' ∧
      e'.instrs = e.instrs := by
    intro e he
    rw [he] at hhead
    obtain ⟨e', he', heq⟩ := Option.map_eq_some_iff.mp hhead.symm
    exact ⟨e', he', heq⟩
  rcases h with ⟨e, s, he, hs, hd, ⟨g, hg, hto⟩, hne⟩ | ⟨e, s, he, hs, hd, hne⟩
  · obtain ⟨e', he', heq⟩ := hentry e he
    obtain ⟨g', hg', hgg⟩ := hfs g hg
    exact Or.inl ⟨e', s, he', heq ▸ hs, hd, ⟨g', hg', hto.trans hgg⟩, by rwa [heq, ← hstart]⟩
  · obtain ⟨e', he', heq⟩ := hentry e he
    exact Or.inr ⟨e', s, he', heq ▸ hs, hd, by rwa [heq, ← hstart]⟩

/-- What the fixups erase does not depend on the name. -/
theorem entryLost_mark (targets : List UInt64) (M : Module) (F : Func) :
    EntryLost (Module.mk (M.funcs.map (mark targets))).blockFunctions (mark targets F) ↔
      EntryLost M.blockFunctions F := by
  have hhead : (mark targets F).blocks.head?.map BasicBlock.instrs =
      F.blocks.head?.map BasicBlock.instrs := by
    unfold mark
    split_ifs
    · rw [← List.head?_map, ← List.head?_map, instrs_setEntryName]
    · rfl
  refine ⟨entryLost_of hhead (getPCStartOfFunc_mark targets F) fun g hg => ?_,
    entryLost_of hhead.symm (getPCStartOfFunc_mark targets F).symm fun g hg => ?_⟩
  · obtain ⟨hg, hb⟩ := List.mem_filter.mp hg
    obtain ⟨g, hg', rfl⟩ := List.mem_map.mp hg
    exact ⟨g, List.mem_filter.mpr ⟨hg', by rwa [isBlockFunction_mark] at hb⟩,
      getPCStartOfFunc_mark targets g⟩
  · obtain ⟨hg, hb⟩ := List.mem_filter.mp hg
    exact ⟨mark targets g, List.mem_filter.mpr ⟨List.mem_map_of_mem hg,
      by rwa [isBlockFunction_mark]⟩, (getPCStartOfFunc_mark targets g).symm⟩

section Marked

variable (T : TaggedModule) {targets : List UInt64} {all : List (UInt64 × Func)}
  (hall : allBBs (TaggedModule.mark T targets).module = some all)
  (h : BuildFunctions.runOnModule (TaggedModule.mark T targets).module = some N)

theorem mark_mem_blockFunctions (hF : F ∈ T.module.blockFunctions) :
    mark targets F ∈ (TaggedModule.mark T targets).module.blockFunctions := by
  obtain ⟨hF, hb⟩ := List.mem_filter.mp hF
  exact List.mem_filter.mpr ⟨List.mem_map_of_mem hF, by rwa [isBlockFunction_mark]⟩

include hall h

theorem linkable_built (hnames : (T.module.funcs.map Func.name).Nodup) : Linkable [N] := by
  have hnames' : ((TaggedModule.mark T targets).module.funcs.map Func.name).Nodup := by
    show ((T.module.funcs.map (mark targets)).map Func.name).Nodup
    simpa [Function.comp_def] using hnames
  exact ⟨by simpa using nodup_names _ hall h hnames',
    by simpa using fun f => gatherable_of_mem _ hall h⟩

/-- Whether the linker finds the start of a block-function. -/
theorem exists_startsAt_mark_iff (hF : F ∈ T.module.blockFunctions)
    (hpc : getPCStartOfFunc F = some pc) : (∃ G ∈ N.funcs, StartsAt G pc) ↔
      isEntryPoint (mark targets F) = true ∧ ¬ EntryLost T.module.blockFunctions F := by
  have hpc' : getPCStartOfFunc (mark targets F) = some pc := by rw [getPCStartOfFunc_mark, hpc]
  rw [exists_startsAt_iff _ hall h, ← entryLost_mark targets]
  constructor
  · rintro ⟨F', hF', hentry, hstart, hlost⟩
    obtain rfl : F' = mark targets F :=
      (TaggedModule.mark T targets).start_inj F' hF' _ (mark_mem_blockFunctions T hF)
        (hstart.trans hpc'.symm)
    exact ⟨hentry, hlost⟩
  · rintro ⟨hentry, hlost⟩
    exact ⟨mark targets F, mark_mem_blockFunctions T hF, hentry, hpc', hlost⟩

theorem builtFrom_mark (hF : F ∈ T.module.blockFunctions)
    (hentry : isEntryPoint (mark targets F) = true) :
    BuiltFrom (TaggedModule.mark T targets).module N (mark targets F) := by
  obtain ⟨f, hf, hmem⟩ := exists_built hall h (mark_mem_blockFunctions T hF) hentry
  exact ⟨all, f, hall, hf, hmem⟩

end Marked

/-- What is resolved in the new module alone shows its start there. -/
theorem exists_startsAt_of_resolved {M' : Module} (h : EntriesFound M M' N) (hlink : Linkable [N])
    (hF : F ∈ M.blockFunctions) (hpc : getPCStartOfFunc F = some pc) (hcalled : Called M pc) :
    ∃ G ∈ N.funcs, StartsAt G pc := by
  obtain ⟨newModule, map, hmap, hres⟩ := h.resolved [N] (by simp) hlink
  obtain ⟨newModule', map', hmap', hspec⟩ := allFuncs_spec hlink.names hlink.gatherable
  obtain ⟨-, rfl⟩ := Prod.mk.inj (Option.some.inj (hmap.symm.trans hmap'))
  simpa using (hspec pc).mp (hres F hF pc hpc hcalled)

/-- Only what is called from an entry block is marked. -/
theorem isEntryPoint_mark_iff_called {targets : List UInt64}
    (htargets : directCallTargets M = some targets) (hb : F.isBlockFunction = true)
    (hpc : getPCStartOfFunc F = some pc) (hentry : Called M pc →
      isEntryPoint (mark targets F) = true) :
    isEntryPoint (mark targets F) = true ↔ Called M pc ∨ isEntryPoint F = true := by
  constructor
  · intro h
    rcases (isEntryPoint_mark_iff htargets hb hpc).mp h with h | ⟨⟨g, hg, b, hb, i, hi, hipc⟩, -⟩
    · exact Or.inr h
    · exact Or.inl ⟨g, hg, i, mem_instrs.mpr ⟨b, List.mem_of_head? hb, hi⟩, hipc⟩
  · rintro (hcalled | h)
    · exact hentry hcalled
    · exact (isEntryPoint_mark_iff htargets hb hpc).mpr (Or.inl h)

/-- **Every translated target of a direct call is named, built and linked exactly when each of them
is an entry point already, or called from an entry block with its name free, and the fixups do not
erase its start.** -/
theorem entriesFound_iff (T : TaggedModule) (hnames : (T.module.funcs.map Func.name).Nodup)
    {M' N : Module} (hmark : MarkFuncEntry.runOnModule T.module = some M')
    (hbuild : BuildFunctions.runOnModule M' = some N) :
    EntriesFound T.module M' N ↔ ∀ F ∈ T.module.blockFunctions, ∀ pc, getPCStartOfFunc F = some pc →
      Called T.module pc → (isEntryPoint F = true ∨ CalledFromEntry T.module pc ∧ NameFree F) ∧
        ¬ EntryLost T.module.blockFunctions F := by
  obtain ⟨targets, htargets, rfl⟩ := runOnModule_eq hmark
  have hbuild : BuildFunctions.runOnModule (TaggedModule.mark T targets).module = some N := hbuild
  obtain ⟨all, hall⟩ := exists_allBBs hbuild
  -- the function at a place of the marked module
  have hat : ∀ {n : ℕ} {F F' : Func}, T.module.funcs[n]? = some F →
      (T.module.funcs.map (mark targets))[n]? = some F' → F' = mark targets F := by
    intro n F F' hF hF'
    rw [List.getElem?_map, hF] at hF'
    exact (Option.some.inj hF').symm
  constructor
  · intro hfound F hF pc hpc hcalled
    obtain ⟨hmemF, hb⟩ := List.mem_filter.mp hF
    have hstart := exists_startsAt_of_resolved hfound (linkable_built T hall hbuild hnames)
      hF hpc hcalled
    obtain ⟨hentry, hlost⟩ := (exists_startsAt_mark_iff T hall hbuild hF hpc).mp hstart
    exact ⟨(isEntryPoint_mark_iff htargets hb hpc).mp hentry, hlost⟩
  · intro hcond
    have hentry : ∀ F ∈ T.module.blockFunctions, ∀ pc, getPCStartOfFunc F = some pc →
        Called T.module pc → isEntryPoint (mark targets F) = true := fun F hF pc hpc hcalled =>
      (isEntryPoint_mark_iff htargets (List.mem_filter.mp hF).2 hpc).mpr
        (hcond F hF pc hpc hcalled).1
    refine ⟨fun n F F' hF hF' hb pc hpc => ?_, fun n F F' hF hF' hb pc hpc hcalled => ?_,
      fun files hfiles hok => ?_⟩
    · rw [hat hF hF']
      have hmemF : F ∈ T.module.blockFunctions := List.mem_filter.mpr ⟨List.mem_of_getElem? hF, hb⟩
      exact isEntryPoint_mark_iff_called htargets hb hpc (hentry F hmemF pc hpc)
    · rw [hat hF hF']
      have hmemF : F ∈ T.module.blockFunctions := List.mem_filter.mpr ⟨List.mem_of_getElem? hF, hb⟩
      exact builtFrom_mark T hall hbuild hmemF (hentry F hmemF pc hpc hcalled)
    · obtain ⟨newModule, map, hmap, hspec⟩ := allFuncs_spec hok.names hok.gatherable
      refine ⟨newModule, map, hmap, fun F hF pc hpc hcalled => (hspec pc).mpr ?_⟩
      obtain ⟨G, hG, hat⟩ := (exists_startsAt_mark_iff T hall hbuild hF hpc).mpr
        ⟨hentry F hF pc hpc hcalled, (hcond F hF pc hpc hcalled).2⟩
      exact ⟨G, List.mem_flatMap.mpr ⟨N, hfiles, hG⟩, hat⟩

/-! ## A conditional call -/

/-- `0x8000` calls `0xa000`. -/
def caller : Func :=
  exitFunc "void-tcg-llvm-tb-0-8000" "func_entry_point" 1 [⟨some 10, .load (.global "R0"),
    [tagPC .BB_pcStart 0x8000]⟩] ⟨some 11, .store (.constInt 32 0xa000) (.global "PC"),
      [tagPC .BB_pcStart 0x8000, tagPC .INS_directCall 0xa000, tagPC .INS_callReturn 0x8004]⟩

/-- `0x8000` calls `0xa000` if a condition holds. -/
def condCaller : Func :=
  ⟨"void-tcg-llvm-tb-0-8000", [
    ⟨1, "func_entry_point", [⟨some 10, .load (.global "ZF"), [tagPC .BB_pcStart 0x8000]⟩,
      ⟨none, .condBr (.inst 10) 4 5, []⟩]⟩,
    ⟨4, "call", [⟨some 11, .store (.constInt 32 0xa000) (.global "PC"),
      [tagPC .INS_directCall 0xa000, tagPC .INS_callReturn 0x8004]⟩,
      ⟨none, .ret none, [(.INS_fakeReturn, .str "true")]⟩]⟩,
    ⟨5, "skip", [⟨some 12, .store (.constInt 32 0x8004) (.global "PC"),
      [tagPC .INS_directJump 0x8004]⟩, ⟨none, .ret none, [(.INS_fakeReturn, .str "true")]⟩]⟩]⟩

theorem taggedFunc_caller : TaggedFunc caller :=
  taggedFunc_exitFunc (k := .call) 0x8000 ⟨rfl, fun k => by cases k <;> rfl, rfl⟩
    (by simpa using ⟨rfl, fun k => by cases k <;> rfl, rfl⟩) (by decide) (Or.inr rfl)
    (by decide) (by decide)

theorem fakeReturn_exit : FakeReturn ⟨none, .ret none, [(.INS_fakeReturn, .str "true")]⟩ :=
  ⟨⟨none, rfl⟩, fun k => by cases k <;> rfl, rfl⟩

theorem taggedFunc_condCaller : TaggedFunc condCaller where
  start := ⟨0x8000, by decide⟩
  shape b hb := by
    simp only [condCaller, List.mem_cons, List.not_mem_nil, or_false] at hb
    rcases hb with rfl | rfl | rfl
    · exact Or.inl ⟨[_], _, rfl, by simpa using ⟨rfl, fun k => by cases k <;> rfl, rfl⟩, rfl,
        fun k => by cases k <;> rfl, rfl⟩
    · exact Or.inr ⟨.call, [], _, [], _, rfl,
        by simp, by simp, ⟨rfl, fun k => by cases k <;> rfl, rfl⟩, fakeReturn_exit⟩
    · exact Or.inr
        ⟨.directJump, [], _, [], _, rfl, by simp, by simp, ⟨rfl, fun k => by cases k <;> rfl, rfl⟩,
          fakeReturn_exit⟩
  pcStart := by decide
  idxStart := by decide
  names := by decide
  successors := by decide

def condModule : TaggedModule :=
  callModule condCaller taggedFunc_condCaller rfl (by decide) (by decide)

def directModule : TaggedModule := callModule caller taggedFunc_caller rfl (by decide) (by decide)

/-- The call behind the condition is not in the entry block: its target is not named, and not
built. -/
theorem condModule_not_found : (condModule.module.funcs.map Func.name).Nodup ∧
    MarkFuncEntry.runOnModule condModule.module = some condModule.module ∧
    ∃ N, BuildFunctions.runOnModule condModule.module = some N ∧
      ¬ EntriesFound condModule.module condModule.module N := by
  obtain ⟨N, hN⟩ := Option.isSome_iff_exists.mp
    (show (BuildFunctions.runOnModule condModule.module).isSome = true by decide)
  refine ⟨by decide, by decide, N, hN, fun h => ?_⟩
  have hcalled : Called condModule.module 0xa000 := by
    refine ⟨condCaller, by decide, ⟨some 11, .store (.constInt 32 0xa000) (.global "PC"),
      [tagPC .INS_directCall 0xa000, tagPC .INS_callReturn 0x8004]⟩, by decide, by decide⟩
  have hentry := (h.named 1 onlyReturn onlyReturn rfl rfl (by decide) 0xa000 (by decide)).mpr
    (Or.inl hcalled)
  revert hentry
  decide

theorem directModule_found : ∃ M' N, MarkFuncEntry.runOnModule directModule.module = some M' ∧
    BuildFunctions.runOnModule M' = some N ∧ EntriesFound directModule.module M' N := by
  obtain ⟨M', hM'⟩ : ∃ M', MarkFuncEntry.runOnModule directModule.module = some M' :=
    ⟨⟨[caller, ⟨onlyReturn.name, [⟨3, "func_entry_point", onlyReturn.instrs⟩]⟩]⟩, by decide⟩
  have hM'' : M' = ⟨[caller, ⟨onlyReturn.name, [⟨3, "func_entry_point", onlyReturn.instrs⟩]⟩]⟩ :=
    Option.some.inj (hM'.symm.trans (by decide))
  obtain ⟨N, hN⟩ := Option.isSome_iff_exists.mp
    (show (BuildFunctions.runOnModule M').isSome = true by rw [hM'']; decide)
  refine ⟨M', N, hM', hN, (entriesFound_iff directModule (by decide) hM' hN).mpr ?_⟩
  intro F hF pc hpc _
  rcases List.mem_pair.mp (List.mem_of_mem_filter hF) with rfl | rfl
  · exact ⟨Or.inl (by decide), not_entryLost_of_plain rfl rfl ⟨rfl, fun k =>
      by cases k <;> rfl, rfl⟩⟩
  · obtain rfl : 0xa000 = pc :=
      Option.some.inj ((by decide : getPCStartOfFunc onlyReturn = some 0xa000).symm.trans hpc)
    refine ⟨Or.inr ⟨⟨caller, by decide, _, rfl,
      ⟨some 11, .store (.constInt 32 0xa000) (.global "PC"),
      [tagPC .BB_pcStart 0x8000, tagPC .INS_directCall 0xa000, tagPC .INS_callReturn 0x8004]⟩,
        by decide, by decide⟩,
      by decide⟩, ?_⟩
    exact not_entryLost_of_plain rfl rfl ⟨rfl, fun k => by cases k <;> rfl, rfl⟩

end Bin2llvm.EntryPoints
