import Bin2llvm.Metadata
import Bin2llvm.Lib.Lists
import Bin2llvm.Lib.OptionMapM
import Bin2llvm.Lib.Worklist

/-!
# Bin2llvm.BuildFunctions.Explore — which block-functions go into a function

`exploreBB` of `BuildFunctions`: a breadth-first walk over the block-functions from an entry, along
the program counters in the tags of the stores to `PC`.

* `exploreBB_closed`: every known target of an explored block-function is explored.
* `exploreBB_subset`: only the start and block-functions of the module are explored.
* `exploreBB_isSome`: the walk ends.
-/

namespace Bin2llvm.BuildFunctions

open FixOverlappedBBs

/-! ## The map of all block-functions -/

/-- `allBBs`, the latest insertion first. -/
def allBBs (M : Module) : Option (List (UInt64 × Func)) :=
  M.blockFunctions.foldlM (fun all func => do
    let pcStart ← getPCStartOfFunc func
    pure ((pcStart, func) :: all)) []

/-! ## Tags of a store to `PC` -/

/-- `INS_directCall` or `INS_indirectCall`. -/
def isCall (i : Instr) : Bool := i.has .INS_directCall || i.has .INS_indirectCall

/-- The program counters of the cases of a switch, `INS_switch_case0` onwards. -/
def switchCasePCs (i : Instr) (cnt : UInt64) : Option (List UInt64) :=
  (List.range cnt.toNat).mapM fun n => getHexMetadataFromIns i (.INS_switch_case n)

/-- `nextPCList`; the asserts want the tags complete, and one of the five tags on every store to
`PC`. -/
def nextPCList (storeInst : Instr) : Option (List UInt64) :=
  if isCall storeInst then do
    let nextPC ← getHexMetadataFromIns storeInst .INS_callReturn
    pure [nextPC]
  else if storeInst.has .INS_directJump then do
    let nextPC ← getHexMetadataFromIns storeInst .INS_directJump
    pure [nextPC]
  else if storeInst.has .INS_indirectJump then
    if storeInst.has .INS_switch_cnt then do
      let cnt ← getHexMetadataFromIns storeInst .INS_switch_cnt
      let cases ← switchCasePCs storeInst cnt
      let default_pc ← getHexMetadataFromIns storeInst .INS_switch_default
      pure (cases ++ [default_pc])
    else pure []
  else if storeInst.has .INS_return then pure []
  else none

/-- The branch of `exploreBB` that sets `hasIndirectJump`. -/
def isIndirectJump (i : Instr) : Bool :=
  !isCall i && !i.has .INS_directJump && i.has .INS_indirectJump

def storesToPC (func : Func) : List Instr := func.instrs.filter (·.isStoreTo "PC")

/-- All program counters a block-function can go to, in the order they are met. -/
def targets (func : Func) : Option (List UInt64) :=
  ((storesToPC func).mapM nextPCList).map List.flatten

/-- The known block-functions among the targets. -/
def nextBBs (all : List (UInt64 × Func)) (func : Func) : Option (List Func) :=
  (targets func).map fun pcs => pcs.filterMap fun pc => all.lookup pc

/-- `exploreBB`: the block-functions of this function, and whether one has an indirect jump. -/
def exploreBB (all : List (UInt64 × Func)) (startBB : Func) : Option (List Func × Bool) := do
  let bbs ← Worklist.explore (nextBBs all) (all.length + 1) startBB
  pure (bbs, bbs.any fun func => (storesToPC func).any isIndirectJump)

/-! ## What is explored -/

variable {M : Module} {all : List (UInt64 × Func)} {startBB : Func} {bbs : List Func}
variable {hasIndirectJump : Bool}

theorem exploreBB_eq_some (h : exploreBB all startBB = some (bbs, hasIndirectJump)) :
    Worklist.explore (nextBBs all) (all.length + 1) startBB = some bbs ∧
      hasIndirectJump = bbs.any fun func => (storesToPC func).any isIndirectJump := by
  unfold exploreBB at h
  cases he : Worklist.explore (nextBBs all) (all.length + 1) startBB with
  | none => rw [he] at h; simp at h
  | some r =>
    rw [he] at h
    obtain ⟨rfl, rfl⟩ : r = bbs ∧ _ = hasIndirectJump := by simpa using h
    exact ⟨rfl, rfl⟩

theorem exploreBB_nodup (h : exploreBB all startBB = some (bbs, hasIndirectJump)) : bbs.Nodup :=
  Worklist.explore_nodup (exploreBB_eq_some h).1

theorem exploreBB_head? (h : exploreBB all startBB = some (bbs, hasIndirectJump)) :
    bbs.head? = some startBB :=
  Worklist.explore_head? (exploreBB_eq_some h).1

/-- The tags of explored block-functions pass the asserts, and their known targets are explored. -/
theorem exploreBB_closed (h : exploreBB all startBB = some (bbs, hasIndirectJump)) {func : Func}
    (hf : func ∈ bbs) :
    ∃ pcs, targets func = some pcs ∧ ∀ pc ∈ pcs, ∀ g, all.lookup pc = some g → g ∈ bbs := by
  obtain ⟨ys, hys, hsub⟩ := Worklist.explore_closed (exploreBB_eq_some h).1 func hf
  unfold nextBBs at hys
  obtain ⟨pcs, hpcs, rfl⟩ := Option.map_eq_some_iff.mp hys
  exact ⟨pcs, hpcs, fun pc hpc g hg => hsub (List.mem_filterMap.mpr ⟨pc, hpc, hg⟩)⟩

/-- Only the start and entries of the map are explored. -/
theorem exploreBB_subset (h : exploreBB all startBB = some (bbs, hasIndirectJump)) {func : Func}
    (hf : func ∈ bbs) : func = startBB ∨ ∃ pc, (pc, func) ∈ all := by
  have := Worklist.explore_reachable (exploreBB_eq_some h).1 func hf
  induction this with
  | refl => exact Or.inl rfl
  | tail _ hedge _ =>
    obtain ⟨ys, hys, hmem⟩ := hedge
    unfold nextBBs at hys
    obtain ⟨pcs, -, rfl⟩ := Option.map_eq_some_iff.mp hys
    obtain ⟨pc, -, hlook⟩ := List.mem_filterMap.mp hmem
    exact Or.inr ⟨pc, Lists.mem_of_lookup hlook⟩

/-- The walk ends: it fails only where a tag of a block-function it could meet fails an assert. -/
theorem exploreBB_isSome (hstart : (targets startBB).isSome)
    (hall : ∀ p ∈ all, (targets p.2).isSome) : (exploreBB all startBB).isSome := by
  have hU : ∀ func ∈ startBB :: all.map Prod.snd,
      ∃ ys, nextBBs all func = some ys ∧ ys ⊆ startBB :: all.map Prod.snd := by
    intro func hf
    have hsome : (targets func).isSome := by
      rcases List.mem_cons.mp hf with rfl | hf
      · exact hstart
      · obtain ⟨p, hp, rfl⟩ := List.mem_map.mp hf
        exact hall p hp
    obtain ⟨pcs, hpcs⟩ := Option.isSome_iff_exists.mp hsome
    refine ⟨pcs.filterMap fun pc => all.lookup pc, by rw [nextBBs, hpcs, Option.map_some],
      fun g hg => ?_⟩
    obtain ⟨pc, -, hlook⟩ := List.mem_filterMap.mp hg
    exact List.mem_cons_of_mem _ (List.mem_map_of_mem (f := Prod.snd) (Lists.mem_of_lookup hlook))
  have htotal : (Worklist.explore (nextBBs all) (all.length + 1) startBB).isSome :=
    Worklist.explore_total hU List.mem_cons_self (by simp)
  obtain ⟨bbs, hbbs⟩ := Option.isSome_iff_exists.mp htotal
  unfold exploreBB
  rw [hbbs]
  rfl

/-- The entries of the map are the block-functions of the module under their start. -/
theorem mem_allBBs (h : allBBs M = some all) {pc : UInt64} {func : Func} :
    (pc, func) ∈ all ↔ func ∈ M.blockFunctions ∧ getPCStartOfFunc func = some pc := by
  let P (fs : List Func) (all : List (UInt64 × Func)) : Prop :=
    (pc, func) ∈ all ↔ func ∈ fs ∧ getPCStartOfFunc func = some pc
  have hinit : P [] [] := by simp [P]
  refine (OptionMapM.foldlM_preserves (fun fs all f all' hall hf =>
    ?_) hinit h : P M.blockFunctions all)
  obtain ⟨pcStart, hpc, hf⟩ := Option.bind_eq_some_iff.mp hf
  obtain rfl : (pcStart, f) :: all = all' := Option.some.inj hf
  dsimp only [P] at hall ⊢
  rw [List.mem_cons, hall, List.mem_append, List.mem_singleton, Prod.mk.injEq,
    or_and_right, or_comm]
  refine or_congr_right ⟨?_, ?_⟩
  · rintro ⟨rfl, rfl⟩
    exact ⟨rfl, hpc⟩
  · rintro ⟨rfl, hpc'⟩
    exact ⟨Option.some.inj (hpc'.symm.trans hpc), rfl⟩

/-- With distinct starts, the map finds every block-function. -/
theorem lookup_allBBs (hinj : ∀ f ∈ M.blockFunctions, ∀ g ∈ M.blockFunctions,
      getPCStartOfFunc f = getPCStartOfFunc g → f = g) (h : allBBs M = some all) {pc : UInt64}
      {func : Func} :
    all.lookup pc = some func ↔ func ∈ M.blockFunctions ∧ getPCStartOfFunc func = some pc := by
  refine ⟨fun hl => (mem_allBBs h).mp (Lists.mem_of_lookup hl), fun hfunc => ?_⟩
  have hmem : (pc, func) ∈ all := (mem_allBBs h).mpr hfunc
  cases hl : all.lookup pc with
  | none =>
    have hne := List.lookup_eq_none_iff.mp hl _ hmem
    simp at hne
  | some g =>
    obtain ⟨hg, hpc⟩ := (mem_allBBs h).mp (Lists.mem_of_lookup hl)
    rw [hinj g hg func hfunc.1 (hpc.trans hfunc.2.symm)]

end Bin2llvm.BuildFunctions
