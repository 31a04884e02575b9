import Bin2llvm.BuildFunctions.Fixups

/-!
# Bin2llvm.BuildFunctions.Cleanup — what is left of the old module

`makeFunctionForward` should schedule the block-functions that went into a function for removal, and
`runOnModule` erases them at the end and reports whether there were any.  What remains is solved a
second time.

* `run`: `runOnModule` with the old module and the result; `run_eq_runOnModule`.
* `cleansUp_iff`: the inlined block-functions are erased only if there are none.
-/

namespace Bin2llvm.BuildFunctions

/-- "schedule visited functions for removal", from position `funci` on.  The condition of the loop
is `funci != funci`. -/
def scheduleRemoval (bbs : List Func) (funci : ℕ) (toBeRemoved : List Func) : List Func :=
  if _h : funci ≠ funci then scheduleRemoval bbs (funci + 1) (toBeRemoved ++ bbs[funci]?.toList)
  else toBeRemoved
termination_by bbs.length - funci
decreasing_by exact absurd rfl _h

/-- `makeFunctionForward`, with the list of functions to be removed. -/
def makeAndSchedule (all : List (UInt64 × Func)) (name : String) (startBB : Func)
    (toBeRemoved : List Func) : Option (Func × List Func) := do
  let (bbs, hasIndirectJump) ← exploreBB all startBB
  let (newFunc, fakeBB) := inlineBBs name bbs hasIndirectJump
  let newFunc ← fixups newFunc fakeBB
  pure (newFunc, scheduleRemoval bbs 0 toBeRemoved)

/-- One function of the old module. -/
def buildFrom (all : List (UInt64 × Func)) (st : List Func × List Func) (func : Func) :
    Option (List Func × List Func) := do
  let (newFunc, eraseBBs) ← makeAndSchedule all ("final-func-" ++ func.name) func st.2
  pure (st.1 ++ [newFunc], eraseBBs)

/-- "cleanup unused functions": one function.  The parent of a function that is already erased
cannot be read. -/
def eraseFunc (M : Module) (func : Func) : Option Module :=
  if func ∈ M.funcs then some ⟨M.funcs.erase func⟩ else none

/-- `runOnModule`: the new module, the old one, and whether that was modified. -/
def run (M : Module) : Option (Module × Module × Bool) := do
  let all ← allBBs M
  let (newFuncs, eraseBBs) ← (M.blockFunctions.filter isEntryPoint).foldlM (buildFrom all) ([], [])
  let old ← eraseBBs.foldlM eraseFunc M
  pure (⟨newFuncs.map fixupEntry⟩, old, decide (0 < eraseBBs.length))

variable {M N old : Module} {modified : Bool} {all : List (UInt64 × Func)}

/-! ## Nothing is scheduled -/

@[simp] theorem scheduleRemoval_eq (bbs toBeRemoved : List Func) (funci : ℕ) :
    scheduleRemoval bbs funci toBeRemoved = toBeRemoved := by
  unfold scheduleRemoval
  exact dif_neg (not_not.mpr rfl)

theorem makeAndSchedule_eq (all : List (UInt64 × Func)) (name : String) (startBB : Func)
    (toBeRemoved : List Func) : makeAndSchedule all name startBB toBeRemoved =
      (makeFunctionForward all name startBB).map fun newFunc => (newFunc, toBeRemoved) := by
  unfold makeAndSchedule makeFunctionForward
  cases exploreBB all startBB with
  | none => rfl
  | some r => simp [Option.map_eq_bind]

theorem foldlM_buildFrom (all : List (UInt64 × Func)) (fs : List Func)
    (newFuncs eraseBBs : List Func) : fs.foldlM (buildFrom all) (newFuncs, eraseBBs) =
      (fs.mapM fun func => makeFunctionForward all ("final-func-" ++
        func.name) func).map fun built => (newFuncs ++ built, eraseBBs) := by
  induction fs generalizing newFuncs with
  | nil => simp
  | cons func fs ih =>
    rw [List.foldlM_cons, List.mapM_cons, buildFrom, makeAndSchedule_eq]
    cases makeFunctionForward all ("final-func-" ++ func.name) func with
    | none => rfl
    | some f =>
      show fs.foldlM (buildFrom all) (newFuncs ++ [f], eraseBBs) = _
      rw [ih]
      cases fs.mapM fun func => makeFunctionForward all ("final-func-" ++ func.name) func <;> simp

/-- The new module is that of `runOnModule`; the old one stays as it is. -/
theorem run_eq_runOnModule (M : Module) : run M = (runOnModule M).map fun N => (N, M, false) := by
  unfold run runOnModule
  cases allBBs M with
  | none => rfl
  | some all =>
    simp only [Option.bind_eq_bind, Option.bind_some, foldlM_buildFrom]
    cases (M.blockFunctions.filter isEntryPoint).mapM fun func =>
      makeFunctionForward all ("final-func-" ++ func.name) func <;> rfl

/-! ## What the cleanup leaves -/

/-- The block-function went into the function of some entry point. -/
def Inlined (M : Module) (func : Func) : Prop :=
  ∃ all entry bbs hasIndirectJump, allBBs M = some all ∧
  entry ∈ M.blockFunctions ∧ isEntryPoint entry = true ∧ exploreBB all entry = some (bbs,
    hasIndirectJump) ∧ func ∈ bbs

open Classical in
/-- Of the old module what was not inlined is left as it was, and the pass reports whether something
was erased. -/
structure CleansUp (M old : Module) (modified : Bool) : Prop where
  left : old.funcs = M.funcs.filter fun func => ¬ Inlined M func
  reports : modified = true ↔ ∃ func ∈ M.funcs, Inlined M func

theorem inlined_entry (h : run M = some (N, old, modified)) {entry : Func}
    (hentry : entry ∈ M.blockFunctions) (hpoint : isEntryPoint entry = true) : Inlined M entry := by
  rw [run_eq_runOnModule] at h
  obtain ⟨N', hN', -⟩ := Option.map_eq_some_iff.mp h
  unfold runOnModule at hN'
  obtain ⟨all, hall, hbuild⟩ := Option.bind_eq_some_iff.mp hN'
  obtain ⟨newFuncs, hnew, -⟩ := Option.bind_eq_some_iff.mp hbuild
  obtain ⟨f, -, hf⟩ := OptionMapM.exists_of_mem hnew (List.mem_filter.mpr ⟨hentry, hpoint⟩)
  obtain ⟨⟨bbs, hasIndirectJump⟩, hexplore, -⟩ :=
    Option.bind_eq_some_iff.mp (show _ = some f from hf)
  exact ⟨all, entry, bbs, hasIndirectJump, hall, hentry, hpoint, hexplore,
    List.mem_of_head? (exploreBB_head? hexplore)⟩

/-- **The pass cleans up the old module exactly when it builds no function.** -/
theorem cleansUp_iff (h : run M = some (N, old, modified)) :
    CleansUp M old modified ↔ ∀ func ∈ M.blockFunctions, isEntryPoint func = false := by
  have hrun := h
  rw [run_eq_runOnModule] at hrun
  obtain ⟨N', -, heq⟩ := Option.map_eq_some_iff.mp hrun
  cases heq
  constructor
  · intro hclean func hfunc
    rw [← Bool.not_eq_true]
    intro hpoint
    have hmem : func ∈ M.funcs := (List.mem_filter.mp hfunc).1
    have := hclean.reports.mpr ⟨func, hmem, inlined_entry h hfunc hpoint⟩
    cases this
  · intro hno
    have hnot (func : Func) : ¬ Inlined M func := by
      rintro ⟨all, entry, bbs, hasIndirectJump, -, hentry, hpoint, -⟩
      rw [hno entry hentry] at hpoint
      cases hpoint
    refine ⟨(List.filter_eq_self.mpr fun func _ => by simpa using hnot func).symm, ?_⟩
    have hnone : ¬ ∃ func ∈ M.funcs, Inlined M func := fun ⟨func, _, hin⟩ => hnot func hin
    exact ⟨fun hmod => absurd hmod Bool.false_ne_true, fun hex => absurd hex hnone⟩

/-- An entry point that only returns. -/
def returnsAt (name pc : String) : Func := ⟨name, [⟨0, "func_entry_point",
  [⟨some 0, .store (.constInt 32 0) (.global "PC"),
    [(.BB_pcStart, .str pc), (.INS_return, .str "true")]⟩,
    ⟨none, .ret none, [(.INS_fakeReturn, .str "true")]⟩]⟩]⟩

/-- A module of two of them. -/
def twoReturns : Module :=
  ⟨[returnsAt "void-tcg-llvm-tb-1" "0x1000", returnsAt "void-tcg-llvm-tb-2" "0x2000"]⟩

theorem exists_run_twoReturns : ∃ N, run twoReturns = some (N, twoReturns, false) := by
  obtain ⟨N, hN⟩ := Option.isSome_iff_exists.mp (show (runOnModule twoReturns).isSome =
    true by decide)
  exact ⟨N, by rw [run_eq_runOnModule, hN, Option.map_some]⟩

theorem cleansUp_twoReturns : ∃ N, run twoReturns = some (N, twoReturns, false) ∧
    (CleansUp twoReturns twoReturns false ↔ ∀ func ∈ twoReturns.blockFunctions,
      isEntryPoint func = false) := by
  obtain ⟨N, hN⟩ := exists_run_twoReturns
  exact ⟨N, hN, cleansUp_iff hN⟩

/-- Both are built, and both are left. -/
theorem not_cleansUp_twoReturns : ∃ N, run twoReturns = some (N, twoReturns, false) ∧
    ¬ CleansUp twoReturns twoReturns false := by
  obtain ⟨N, hN⟩ := exists_run_twoReturns
  have hinlined : Inlined twoReturns (returnsAt "void-tcg-llvm-tb-1" "0x1000") :=
    inlined_entry hN (by decide) (by decide)
  refine ⟨N, hN, fun h => ?_⟩
  cases h.reports.mpr ⟨_, List.mem_cons_self, hinlined⟩

end Bin2llvm.BuildFunctions
