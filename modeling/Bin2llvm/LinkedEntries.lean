import Bin2llvm.EntryPoints
import Bin2llvm.LinkedModule

/-!
# Bin2llvm.LinkedEntries — entry points in the linked module

What becomes of an entry point: `BuildFunctions` builds a function from it, and the linker takes
this function, if it still shows the start of the entry point.

* `linkedOnce_iff`: the linked module has the function built for an entry point, and no other one
  for its start, exactly when the fixups do not erase the start.
-/

namespace Bin2llvm.EntryPoints

open FixOverlappedBBs BuildFunctions Linker

/-- The function built from the entry point `F` carries its start, and it is the one the linked
module has for it. -/
def LinkedOnce (M N final : Module) (F : Func) (pc : UInt64) : Prop :=
  ∃ blocks f, allBBs M = some blocks ∧
    makeFunctionForward blocks ("final-func-" ++ F.name) F = some f ∧
    fixupEntry f ∈ N.funcs ∧ getPCStartOfFunc (fixupEntry f) = some pc ∧
    ∃ starts cnt, LinksAll [N] starts final cnt ∧ starts.lookup pc = some (fixupEntry f)

variable {N final : Module} {F : Func} {pc : UInt64}

/-- **The linked module has exactly one function for an entry point, the one built from it, exactly
when the fixups do not erase its start.** -/
theorem linkedOnce_iff (T : TaggedModule) (hnames : (T.module.funcs.map Func.name).Nodup)
    (hbuild : BuildFunctions.runOnModule T.module = some N) (hlink : link [N] = some final)
    (hF : F ∈ T.module.blockFunctions) (hentry : isEntryPoint F = true)
    (hpc : getPCStartOfFunc F = some pc) :
    LinkedOnce T.module N final F pc ↔ ¬ EntryLost T.module.blockFunctions F := by
  obtain ⟨blocks, hblocks⟩ := exists_allBBs hbuild
  obtain ⟨f, hf, hmem⟩ := exists_built hblocks hbuild hF hentry
  constructor
  · rintro ⟨blocks', f', hblocks', hf', -, hpc', starts, cnt, hall, hlookup⟩
    obtain rfl := Option.some.inj (hblocks.symm.trans hblocks')
    obtain rfl := Option.some.inj (hf.symm.trans hf')
    rw [hall.first] at hlookup
    have hat : StartsAt (fixupEntry f) pc :=
      startOf_eq_some.mp (by simpa using List.find?_some hlookup)
    exact ((startsAt_fixupEntry_iff T hblocks hF hf).mp hat).2
  · intro hlost
    have hat : StartsAt (fixupEntry f) pc :=
      (startsAt_fixupEntry_iff T hblocks hF hf).mpr ⟨hpc, hlost⟩
    have hinputs : inputs [N] = N.funcs := by simp [inputs]
    have hidentify : NamesIdentify (inputs [N]) := by
      rw [hinputs]
      intro g hg g' hg' p q hp hq heq
      obtain rfl := List.inj_on_of_nodup_map (nodup_names T hblocks hbuild hnames) hg hg' heq
      exact Option.some.inj (hp.2.symm.trans hq.2)
    obtain ⟨starts, cnt, -, hall⟩ := linksAll_of_link hidentify hlink
    refine ⟨blocks, f, hblocks, hf, hmem, hat.2, starts, cnt, hall, ?_⟩
    -- the first function with the start is the built one
    rw [hall.first, hinputs]
    cases hg : N.funcs.find? fun g => startOf g = some pc with
    | none =>
      have := List.find?_eq_none.mp hg _ hmem
      simp [startOf_eq_some.mpr hat] at this
    | some G =>
      have hG : StartsAt G pc := startOf_eq_some.mp (by simpa using List.find?_some hg)
      obtain ⟨F', hF', -, f', hf', rfl⟩ :=
        (mem_runOnModule hblocks hbuild).mp (List.mem_of_find?_eq_some hg)
      obtain ⟨hpcF', -⟩ := (startsAt_fixupEntry_iff T hblocks hF' hf').mp hG
      obtain rfl := T.start_inj F' hF' F hF (hpcF'.trans hpc.symm)
      rw [Option.some.inj (hf'.symm.trans hf)]

theorem directModule_linkedOnce :
    ∃ N final, BuildFunctions.runOnModule directModule.module = some N ∧
      link [N] = some final ∧ LinkedOnce directModule.module N final caller 0x8000 := by
  have hsome : ((BuildFunctions.runOnModule directModule.module).bind fun N => link [N]).isSome =
    true := by decide
  obtain ⟨final, hfinal⟩ := Option.isSome_iff_exists.mp hsome
  obtain ⟨N, hN, hlink⟩ := Option.bind_eq_some_iff.mp hfinal
  refine ⟨N, final, hN, hlink, (linkedOnce_iff directModule (by decide) hN hlink
    (by decide) (by decide) (by decide)).mpr ?_⟩
  exact not_entryLost_of_plain rfl rfl ⟨rfl, fun k => by cases k <;> rfl, rfl⟩

/-- The entry point at `0x8000` jumps to `0xa000` and does nothing else. -/
def jumpEntry : Func :=
  exitFunc "void-tcg-llvm-tb-0-8000" "func_entry_point" 1 []
    ⟨some 20, .store (.constInt 32 0xa000) (.global "PC"),
      [tagPC .BB_pcStart 0x8000, tagPC .INS_directJump 0xa000]⟩

theorem taggedFunc_jumpEntry : TaggedFunc jumpEntry :=
  taggedFunc_exitFunc (k := .directJump) 0x8000 ⟨rfl, fun k => by cases k <;> rfl, rfl⟩
    (by simp) (by decide) (Or.inr rfl) (by simp) (by decide)

def jumpModule : TaggedModule :=
  callModule jumpEntry taggedFunc_jumpEntry rfl (by decide) (by decide)

/-- The function that is built shows no start, and the linked module is empty. -/
theorem jumpModule_not_linkedOnce :
    isEntryPoint jumpEntry = true ∧ jumpEntry ∈ jumpModule.module.blockFunctions ∧
      getPCStartOfFunc jumpEntry = some 0x8000 ∧ ∃ N final,
        BuildFunctions.runOnModule jumpModule.module = some N ∧
        link [N] = some final ∧ ¬ LinkedOnce jumpModule.module N final jumpEntry 0x8000 := by
  have hempty : ((BuildFunctions.runOnModule jumpModule.module).bind fun N => link [N]) =
    some ⟨[]⟩ := by decide
  obtain ⟨N, hN, hlink⟩ := Option.bind_eq_some_iff.mp hempty
  refine ⟨by decide, by decide, by decide, N, ⟨[]⟩, hN, hlink, ?_⟩
  rintro ⟨-, f, -, -, -, -, starts, cnt, hall, hlookup⟩
  have hnil : starts = [] := List.map_eq_nil_iff.mp hall.funcs.symm
  rw [hnil] at hlookup
  simp at hlookup

end Bin2llvm.EntryPoints
