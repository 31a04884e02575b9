import Bin2llvm.BuildFunctions.Fixups
import Bin2llvm.Lib.OptionMapM
import Mathlib.Data.List.Nodup

/-!
# Bin2llvm.BuildFunctions.PerBlock — the fixups, block by block

A fixup first collects the instructions of its kind with their blocks, then updates these blocks,
and at last removes their fake returns.  When no block holds two instructions of the kind, this is
the same as one rewriting of each block on its own.

* `fixupCalls_eq`, `fixupDirectJumps_eq`, `fixupIndirectJumps_eq`, `fixupReturns_eq`: each fixup as
  a map over the blocks.
* `lookup_buildBBMap`: the map from program counters to blocks finds the first block with the start.
-/

namespace Bin2llvm

namespace Func

variable {α : Type*} {f : Func}

@[simp] theorem blocks_mapBlocks (g : BasicBlock → BasicBlock) :
    (f.mapBlocks g).blocks = f.blocks.map g := rfl

theorem blockIds_mapBlocks {g : BasicBlock → BasicBlock} (hg : ∀ b, (g b).id = b.id) :
    (f.mapBlocks g).blockIds = f.blockIds := by
  simp [blockIds, Function.comp_def, hg]

theorem mapBlocks_congr {g k : BasicBlock → BasicBlock} (h : ∀ b ∈ f.blocks, g b = k b) :
    f.mapBlocks g = f.mapBlocks k := by
  simp only [mapBlocks, Func.mk.injEq, true_and]
  exact List.map_congr_left h

theorem mapBlocks_mapBlocks (g g' : BasicBlock → BasicBlock) :
    (f.mapBlocks g).mapBlocks g' = f.mapBlocks (g' ∘ g) := by
  simp [mapBlocks]

theorem mapBlocks_id {g : BasicBlock → BasicBlock}
    (h : ∀ b ∈ f.blocks, g b = b) : f.mapBlocks g = f := by
  rw [mapBlocks_congr h]
  simp [mapBlocks]

theorem mem_blockIds {b : BasicBlock} (hb : b ∈ f.blocks) : b.id ∈ f.blockIds :=
  List.mem_map_of_mem hb

theorem eq_of_id_eq (hnd : f.blockIds.Nodup) {b b' : BasicBlock} (hb : b ∈ f.blocks)
    (hb' : b' ∈ f.blocks) (h : b.id = b'.id) : b = b' := List.inj_on_of_nodup_map hnd hb hb' h

theorem find?_id (hnd : f.blockIds.Nodup) {b : BasicBlock} (hb : b ∈ f.blocks) :
    f.blocks.find? (·.id = b.id) = some b := by
  cases hf : f.blocks.find? (·.id = b.id) with
  | none => exact absurd (List.find?_eq_none.mp hf b hb) (by simp)
  | some b' =>
    rw [eq_of_id_eq hnd (List.mem_of_find?_eq_some hf) hb (by simpa using List.find?_some hf)]

/-! ## Loops over all instructions -/

/-- Updates of single blocks, one after the other, are updates of every block by its own share. -/
theorem foldl_modifyBlock (act : α → List Instr → List Instr) (us : List (BlockId × α)) (f : Func) :
    us.foldl (fun f u => f.modifyBlock u.1 (act u.2)) f =
      f.mapBlocks fun b =>
        { b with instrs := ((us.filter (·.1 = b.id)).map Prod.snd).foldl (fun is a =>
          act a is) b.instrs } := by
  induction us generalizing f with
  | nil => simp [mapBlocks]
  | cons u us ih =>
    rw [List.foldl_cons, ih, modifyBlock, mapBlocks_mapBlocks]
    refine mapBlocks_congr fun b _ => ?_
    by_cases h : b.id = u.1
    · simp [h]
    · simp [h, Ne.symm h]

theorem mem_scan {g : Instr → Option α} {u : BlockId × α} :
    u ∈ f.scan g ↔ ∃ b ∈ f.blocks, b.id = u.1 ∧ u.2 ∈ b.instrs.filterMap g := by
  unfold scan
  rw [List.mem_flatMap]
  constructor
  · rintro ⟨b, hb, hu⟩
    obtain ⟨a, ha, rfl⟩ := List.mem_map.mp hu
    exact ⟨b, hb, rfl, ha⟩
  · rintro ⟨b, hb, hid, hu⟩
    exact ⟨b, hb, List.mem_map.mpr ⟨u.2, hu, by rw [hid]⟩⟩

/-- The share of one block. -/
theorem filter_scan (hnd : f.blockIds.Nodup) (g : Instr → Option α) {b : BasicBlock}
    (hb : b ∈ f.blocks) : ((f.scan g).filter (·.1 = b.id)).map Prod.snd = b.instrs.filterMap g := by
  obtain ⟨name, blocks⟩ := f
  unfold scan
  unfold blockIds at hnd
  simp only at hnd hb ⊢
  induction blocks with
  | nil => simp at hb
  | cons c bs ih =>
    rw [List.map_cons, List.nodup_cons] at hnd
    rw [List.flatMap_cons, List.filter_append, List.map_append]
    rcases List.mem_cons.mp hb with rfl | hb
    · have h2 : ((bs.flatMap fun c => (c.instrs.filterMap g).map (c.id, ·)).filter (·.1 = b.id)) =
          [] := by
        refine List.filter_eq_nil_iff.mpr fun u hu => ?_
        obtain ⟨c, hc, hu⟩ := List.mem_flatMap.mp hu
        obtain ⟨a, -, rfl⟩ := List.mem_map.mp hu
        have hne : c.id ≠ b.id := fun h => hnd.1 (h ▸ List.mem_map_of_mem hc)
        simpa using hne
      rw [h2]
      simp [List.filter_map, Function.comp_def]
    · have hne : c.id ≠ b.id := fun h => hnd.1 (h ▸ List.mem_map_of_mem hb)
      rw [ih hnd.2 hb]
      simp [List.filter_map, Function.comp_def, hne]

/-- No block is collected twice when none holds two instructions of the kind. -/
theorem nodup_scan (hnd : f.blockIds.Nodup) {g : Instr → Option α}
    (hone : ∀ b ∈ f.blocks, (b.instrs.filterMap g).length ≤ 1) :
    ((f.scan g).map Prod.fst).Nodup := by
  obtain ⟨name, blocks⟩ := f
  unfold scan
  unfold blockIds at hnd
  simp only at hnd hone ⊢
  induction blocks with
  | nil => simp
  | cons c bs ih =>
    rw [List.map_cons, List.nodup_cons] at hnd
    rw [List.flatMap_cons, List.map_append, List.map_map, List.nodup_append]
    refine ⟨?_, ih hnd.2 fun b hb => hone b (List.mem_cons_of_mem _ hb), ?_⟩
    · rcases hc : c.instrs.filterMap g with _ | ⟨a, _ | ⟨a', l⟩⟩
      · simp
      · simp
      · have := hone c List.mem_cons_self
        rw [hc] at this
        simp at this
    · intro x hx y hy
      obtain ⟨a, -, rfl⟩ := List.mem_map.mp hx
      obtain ⟨u, hu, rfl⟩ := List.mem_map.mp hy
      obtain ⟨d, hd, hu⟩ := List.mem_flatMap.mp hu
      obtain ⟨a', -, rfl⟩ := List.mem_map.mp hu
      intro heq
      have hid : c.id = d.id := heq
      exact hnd.1 (hid ▸ List.mem_map_of_mem hd)

end Func

namespace BuildFunctions

open FixOverlappedBBs

variable {α : Type*} {f : Func} {bbMap : BBMap} {fakeBB : BlockId}

/-! ## One block -/

def dropFakeReturns (is : List Instr) : List Instr := is.filter fun i => !i.has .INS_fakeReturn

/-- A block with an instruction of the kind is updated and loses its fake return. -/
def updateBlock (us : List α) (act : α → List Instr → List Instr) (b : BasicBlock) : BasicBlock :=
  match us with
  | [] => b
  | u :: _ => { b with instrs := dropFakeReturns (act u b.instrs) }

@[simp] theorem id_updateBlock (us : List α) (act : α → List Instr → List Instr) (b : BasicBlock) :
    (updateBlock us act b).id = b.id := by cases us <;> rfl

@[simp] theorem name_updateBlock (us : List α) (act : α → List Instr → List Instr)
    (b : BasicBlock) : (updateBlock us act b).name = b.name := by cases us <;> rfl

/-- `fixupCalls` on one block. -/
def callsBlock (bbMap : BBMap) (b : BasicBlock) : BasicBlock :=
  updateBlock (b.instrs.filterMap (callTarget bbMap)) (fun bb is => is ++ [Instr.fresh (.br bb)])
    (b.mapInstrs (markUnresolved bbMap))

/-- `fixupDirectJumps` on one block. -/
def jumpsBlock (bbMap : BBMap) (b : BasicBlock) : BasicBlock :=
  updateBlock (b.instrs.filterMap (jumpTarget bbMap)) (fun u => replaceStore u.1 (.br u.2)) b

/-- `fixupReturns` on one block. -/
def returnsBlock (b : BasicBlock) : BasicBlock :=
  updateBlock (b.instrs.filterMap returnStore) (fun s => replaceStore s (.ret none)) b

/-- The block of a program counter, or the one for unknown targets. -/
def blockOr (bbMap : BBMap) (fakeBB : BlockId) (pc : UInt64) : BlockId :=
  (bbMap.lookup pc).getD fakeBB

/-- The cases of a switch from the `i`-th on. -/
def casesFrom (bbMap : BBMap) (fakeBB : BlockId) (idx_start : UInt64) :
    ℕ → List UInt64 → List (UInt64 × BlockId)
  | _, [] => []
  | i, pc :: pcs =>
    ((idx_start + UInt64.ofNat i) % 0x100000000, blockOr bbMap fakeBB pc) ::
      casesFrom bbMap fakeBB idx_start (i + 1) pcs

/-- The switch on `op` that the tags of a store describe. -/
def switchOp (bbMap : BBMap) (fakeBB : BlockId) (s : Instr) (op : Value) : Option Op := do
  let default_pc ← getHexMetadataFromIns s .INS_switch_default
  let cnt_entries ← getHexMetadataFromIns s .INS_switch_cnt
  let idx_start ← getHexMetadataFromIns s .INS_switch_idx_start
  let casePCs ← switchCasePCs s cnt_entries
  pure (.switch op (blockOr bbMap fakeBB default_pc) (casesFrom bbMap fakeBB idx_start 0 casePCs))

/-- The switch appended for one store, if its value is found. -/
def switchTerms (bbMap : BBMap) (fakeBB : BlockId) (is : List Instr) (s : Instr) : List Op :=
  if switchComplete s then (((getValueSwitchedOn is s).join).bind (switchOp bbMap fakeBB s)).toList
  else []

/-- The terminators appended for one indirect jump. -/
def indirectTerms (bbMap : BBMap) (fakeBB : BlockId) (is : List Instr) (s : Instr) : List Op :=
  if switchComplete s then switchTerms bbMap fakeBB is s else [.br fakeBB]

/-- `fixupIndirectJumps` on one block. -/
def indirectBlock (bbMap : BBMap) (fakeBB : BlockId) (b : BasicBlock) : BasicBlock :=
  updateBlock (b.instrs.filterMap indirectJump)
    (fun s is => is ++ (indirectTerms bbMap fakeBB b.instrs s).map Instr.fresh) b

@[simp] theorem id_callsBlock (b : BasicBlock) : (callsBlock bbMap b).id = b.id := by
  simp [callsBlock, BasicBlock.mapInstrs]

@[simp] theorem id_jumpsBlock (b : BasicBlock) : (jumpsBlock bbMap b).id = b.id := by
  simp [jumpsBlock]

@[simp] theorem id_indirectBlock (b : BasicBlock) : (indirectBlock bbMap fakeBB b).id = b.id := by
  simp [indirectBlock]

@[simp] theorem id_returnsBlock (b : BasicBlock) : (returnsBlock b).id = b.id := by
  simp [returnsBlock]

@[simp] theorem name_callsBlock (b : BasicBlock) : (callsBlock bbMap b).name = b.name := by
  simp [callsBlock, BasicBlock.mapInstrs]

@[simp] theorem name_jumpsBlock (b : BasicBlock) : (jumpsBlock bbMap b).name = b.name := by
  simp [jumpsBlock]

@[simp] theorem name_indirectBlock (b : BasicBlock) :
    (indirectBlock bbMap fakeBB b).name = b.name := by
  simp [indirectBlock]

@[simp] theorem name_returnsBlock (b : BasicBlock) : (returnsBlock b).name = b.name := by
  simp [returnsBlock]

/-! ## Update and clean up -/

/-- Removing the fake returns of the collected blocks. -/
theorem cleanup_scan (hnd : f.blockIds.Nodup) {g : Instr → Option α}
    (hone : ∀ b ∈ f.blocks, (b.instrs.filterMap g).length ≤ 1) {h : BasicBlock → BasicBlock}
    (hh : ∀ b, (h b).id = b.id) :
    cleanupFakeReturns (f.mapBlocks h) ((f.scan g).map Prod.fst) =
      some (f.mapBlocks fun b => updateBlock (b.instrs.filterMap g) (fun _ is => is) (h b)) := by
  unfold cleanupFakeReturns
  rw [if_pos ((Func.nodup_scan hnd hone).filter _), Func.mapBlocks_mapBlocks]
  refine congrArg some (Func.mapBlocks_congr fun b hb => ?_)
  have hmem : (h b).id ∈ (f.scan g).map Prod.fst ↔ b.instrs.filterMap g ≠ [] := by
    rw [List.mem_map, hh b]
    constructor
    · rintro ⟨u, hu, hid⟩ hnil
      obtain ⟨c, hc, hcid, hmem⟩ := Func.mem_scan.mp hu
      rw [Func.eq_of_id_eq hnd hc hb (hcid.trans hid), hnil] at hmem
      simp at hmem
    · intro hne
      obtain ⟨a, ha⟩ := List.exists_mem_of_ne_nil _ hne
      exact ⟨(b.id, a), Func.mem_scan.mpr ⟨b, hb, rfl, ha⟩, rfl⟩
  simp only [Function.comp_apply]
  cases hl : b.instrs.filterMap g with
  | nil =>
    rw [if_neg (by rw [hmem, hl]; simp)]
    rfl
  | cons a l =>
    rw [if_pos (by rw [hmem, hl]; simp)]
    rfl

/-- Updating the collected blocks and removing their fake returns, block by block. -/
theorem cleanup_foldl_scan (hnd : f.blockIds.Nodup) {g : Instr → Option α}
    (hone : ∀ b ∈ f.blocks, (b.instrs.filterMap g).length ≤ 1) (act : α → List Instr → List Instr)
    {h : BasicBlock → BasicBlock} (hh : ∀ b, (h b).id = b.id) :
    cleanupFakeReturns ((f.scan g).foldl (fun f u => f.modifyBlock u.1 (act u.2)) (f.mapBlocks h))
        ((f.scan g).map Prod.fst) =
      some (f.mapBlocks fun b => updateBlock (b.instrs.filterMap g) act (h b)) := by
  rw [Func.foldl_modifyBlock, Func.mapBlocks_mapBlocks,
    cleanup_scan hnd hone (fun b => by simpa using hh b)]
  refine congrArg some (Func.mapBlocks_congr fun b hb => ?_)
  simp only [Function.comp_apply, hh b, Func.filter_scan hnd g hb]
  rcases hl : b.instrs.filterMap g with _ | ⟨a, _ | ⟨a', l⟩⟩
  · simp [updateBlock, ← hh b]
  · simp [updateBlock, ← hh b]
  · have := hone b hb
    rw [hl] at this
    simp at this

/-- `fixupCalls`, block by block. -/
theorem fixupCalls_eq (hnd : f.blockIds.Nodup)
    (htags : ∀ i ∈ f.instrs, isCall i = true → (getHexMetadataFromIns i .INS_callReturn).isSome)
    (hone : ∀ b ∈ f.blocks, (b.instrs.filterMap (callTarget bbMap)).length ≤ 1) :
    fixupCalls f bbMap = some (f.mapBlocks (callsBlock bbMap)) := by
  unfold fixupCalls
  simp only
  rw [if_pos]
  · exact cleanup_foldl_scan hnd hone (fun bb is => is ++ [Instr.fresh (.br bb)]) (fun _ => rfl)
  · refine ⟨List.all_eq_true.mpr fun i hi => ?_, Func.nodup_scan hnd hone⟩
    cases hc : isCall i with
    | false => rfl
    | true => simpa using htags i hi hc

/-- `fixupDirectJumps`, block by block. -/
theorem fixupDirectJumps_eq (hnd : f.blockIds.Nodup)
    (htags : ∀ i ∈ f.instrs, i.has .INS_directJump = true →
      (getHexMetadataFromIns i .INS_directJump).isSome)
    (hone : ∀ b ∈ f.blocks, (b.instrs.filterMap (jumpTarget bbMap)).length ≤ 1) :
    fixupDirectJumps f bbMap = some (f.mapBlocks (jumpsBlock bbMap)) := by
  unfold fixupDirectJumps
  simp only
  rw [if_pos]
  · have key := cleanup_foldl_scan hnd hone (fun u => replaceStore u.1 (.br u.2)) (h := id)
      (fun _ => rfl)
    rwa [Func.mapBlocks_id (g := id) (fun _ _ => rfl)] at key
  · refine List.all_eq_true.mpr fun i hi => ?_
    cases hc : i.has .INS_directJump with
    | false => rfl
    | true => simpa using htags i hi hc

/-- `fixupReturns`, block by block. -/
theorem fixupReturns_eq (hnd : f.blockIds.Nodup)
    (hone : ∀ b ∈ f.blocks, (b.instrs.filterMap returnStore).length ≤ 1) :
    fixupReturns f = some (f.mapBlocks returnsBlock) := by
  have key := cleanup_foldl_scan hnd hone (fun s => replaceStore s (.ret none)) (h := id)
    (fun _ => rfl)
  rwa [Func.mapBlocks_id (g := id) (fun _ _ => rfl)] at key

/-! ## Indirect jumps -/

theorem blockFor_eq (us : List (BlockId × Instr)) (fakeName : String) (pc : UInt64) :
    SwitchState.blockFor ⟨f, some fakeBB, us⟩ bbMap fakeName pc = (⟨f, some fakeBB, us⟩,
      blockOr bbMap fakeBB pc) := by
  unfold SwitchState.blockFor blockOr
  cases bbMap.lookup pc <;> rfl

theorem addCases_eq (us : List (BlockId × Instr)) (idx_start : UInt64) (i : ℕ) (pcs : List UInt64) :
    SwitchState.addCases bbMap idx_start i pcs ⟨f, some fakeBB, us⟩ =
      (⟨f, some fakeBB, us⟩, casesFrom bbMap fakeBB idx_start i pcs) := by
  induction pcs generalizing i with
  | nil => rfl
  | cons pc pcs ih => simp only [SwitchState.addCases, blockFor_eq, ih, casesFrom]

/-- The tags of a complete switch pass the asserts. -/
def SwitchTagsRead (s : Instr) : Prop :=
  ∃ default_pc cnt_entries idx_start casePCs,
    getHexMetadataFromIns s .INS_switch_default = some default_pc ∧
    getHexMetadataFromIns s .INS_switch_cnt = some cnt_entries ∧
    getHexMetadataFromIns s .INS_switch_idx_start = some idx_start ∧
    switchCasePCs s cnt_entries = some casePCs

theorem has_cnt_of_switchComplete {s : Instr} (h : switchComplete s = true) :
    s.has .INS_switch_cnt = true := by
  unfold switchComplete at h
  simp only [Bool.and_eq_true] at h
  exact h.1.2

/-- One switch: its terminator goes to the end of its block, unless the search for its value
crashes. -/
theorem transformToSwitch_eq (hnd : f.blockIds.Nodup) {us : List (BlockId × Instr)}
    {b : BasicBlock} (hb : b ∈ f.blocks) {s : Instr} (htags : switchComplete s = true →
      SwitchTagsRead s) :
    transformToSwitch bbMap ⟨f, some fakeBB, us⟩ (b.id, s) =
      if switchComplete s then
        (getValueSwitchedOn b.instrs s).map fun _ =>
          ⟨f.modifyBlock b.id (· ++ (switchTerms bbMap fakeBB b.instrs s).map Instr.fresh),
            some fakeBB, us⟩
      else some ⟨f, some fakeBB, us ++ [(b.id, s)]⟩ := by
  unfold transformToSwitch switchTerms
  by_cases hc : switchComplete s = true
  · obtain ⟨default_pc, cnt, idx, pcs, hd, hn, hi, hp⟩ := htags hc
    rw [if_pos hc, if_pos hc]
    simp only [hd, hn, hi, hp, Func.find?_id hnd hb, Option.bind_eq_bind,
      Option.bind_some, if_pos hc]
    rcases hv : getValueSwitchedOn b.instrs s with _ | _ | op
    · rfl
    · have hsame : f.modifyBlock b.id (fun is => is) = f := Func.mapBlocks_id fun b _ => by simp
      simp [hsame]
    · have hsw : switchOp bbMap fakeBB s op =
          some (.switch op (blockOr bbMap fakeBB default_pc)
            (casesFrom bbMap fakeBB idx 0 pcs)) := by
        simp only [switchOp, hd, hn, hi, hp, Option.bind_eq_bind, Option.bind_some, Option.pure_def]
      rw [blockFor_eq, addCases_eq]
      simp only [Option.join_some, Option.bind_some, hsw]
      rfl
  · rw [if_neg hc, if_neg hc]

/-- What the switches of the list append to a block. -/
def appendSwitches (bbMap : BBMap) (fakeBB : BlockId) (us : List (BlockId × Instr)) (b : BasicBlock) : BasicBlock :=
  { b with instrs := b.instrs ++
      (((us.filter (·.1 = b.id)).map Prod.snd).flatMap (switchTerms bbMap fakeBB b.instrs)).map Instr.fresh }

@[simp] theorem id_appendSwitches (us : List (BlockId × Instr)) (b : BasicBlock) :
    (appendSwitches bbMap fakeBB us b).id = b.id := rfl

theorem appendSwitches_cons_of_ne {u : BlockId × Instr} (us : List (BlockId × Instr)) {b : BasicBlock}
    (h : u.1 ≠ b.id) : appendSwitches bbMap fakeBB (u :: us) b = appendSwitches bbMap fakeBB us b := by
  simp [appendSwitches, h]

/-- The terminators of the other switches go to other blocks. -/
theorem appendSwitches_modifyBlock (hnd : f.blockIds.Nodup) {b : BasicBlock} (hb : b ∈ f.blocks) {s : Instr}
    {us : List (BlockId × Instr)} (hus : b.id ∉ us.map Prod.fst) :
    (f.modifyBlock b.id (· ++ (switchTerms bbMap fakeBB b.instrs s).map Instr.fresh)).mapBlocks
        (appendSwitches bbMap fakeBB us) = f.mapBlocks (appendSwitches bbMap fakeBB ((b.id, s) :: us)) := by
  have hnot : us.filter (·.1 = b.id) = [] := List.filter_eq_nil_iff.mpr fun v hv => by
    have : v.1 ≠ b.id := fun h => hus (List.mem_map.mpr ⟨v, hv, h⟩)
    simpa using this
  rw [Func.modifyBlock, Func.mapBlocks_mapBlocks]
  refine Func.mapBlocks_congr fun c hc => ?_
  by_cases hcb : c.id = b.id
  · obtain rfl := Func.eq_of_id_eq hnd hc hb hcb
    simp [appendSwitches, hnot]
  · simp [appendSwitches, hcb, Ne.symm hcb]

/-- No search for the value of a complete switch of the list crashes. -/
def SearchesEnd (f : Func) (us : List (BlockId × Instr)) : Prop :=
  ∀ u ∈ us, switchComplete u.2 = true → ∀ b ∈ f.blocks, b.id = u.1 →
    (getValueSwitchedOn b.instrs u.2).isSome

theorem searchesEnd_cons {u : BlockId × Instr} {us : List (BlockId × Instr)} :
    SearchesEnd f (u :: us) ↔
      (switchComplete u.2 = true → ∀ b ∈ f.blocks, b.id = u.1 →
        (getValueSwitchedOn b.instrs u.2).isSome) ∧ SearchesEnd f us :=
  List.forall_mem_cons

/-- What is appended to one block does not matter to the switches of other blocks. -/
theorem searchesEnd_modifyBlock {us : List (BlockId × Instr)} {bb : BlockId}
    (hus : bb ∉ us.map Prod.fst) (act : List Instr → List Instr) :
    SearchesEnd (f.modifyBlock bb act) us ↔ SearchesEnd f us := by
  have hne : ∀ u ∈ us, ∀ c : BasicBlock, c.id = u.1 → c.id ≠ bb := by
    rintro u hu c hcid rfl
    exact hus (List.mem_map.mpr ⟨u, hu, hcid.symm⟩)
  constructor
  · intro h u hu hc c hcm hcid
    exact h u hu hc c (List.mem_map.mpr ⟨c, hcm, if_neg (hne u hu c hcid)⟩) hcid
  · intro h u hu hc c hcm hcid
    obtain ⟨d, hd, rfl⟩ := List.mem_map.mp hcm
    have hdid : d.id = u.1 := by
      rw [← hcid]
      split_ifs <;> rfl
    rw [if_neg (hne u hu d hdid)]
    exact h u hu hc d hd hdid

variable (bbMap fakeBB) in
/-- All switches: every block gets the terminators of its own ones. -/
theorem foldlM_transformToSwitch (us ins : List (BlockId × Instr)) (st : SwitchState)
    (hnd : f.blockIds.Nodup) (hus : (us.map Prod.fst).Nodup) (hmem : ∀ u ∈ us, u.1 ∈ f.blockIds)
    (htags : ∀ u ∈ us, switchComplete u.2 = true → SwitchTagsRead u.2) :
    us.foldlM (transformToSwitch bbMap) ⟨f, some fakeBB, ins⟩ = some st ↔
      SearchesEnd f us ∧ st = ⟨f.mapBlocks (appendSwitches bbMap fakeBB us), some fakeBB,
        ins ++ us.filter fun u => !switchComplete u.2⟩ := by
  induction us generalizing f ins with
  | nil =>
    have hid : f.mapBlocks (appendSwitches bbMap fakeBB []) = f :=
      Func.mapBlocks_id fun b _ => by simp [appendSwitches]
    rw [hid]
    simpa [SearchesEnd] using eq_comm
  | cons u us ih =>
    obtain ⟨bb, s⟩ := u
    rw [List.map_cons, List.nodup_cons] at hus
    obtain ⟨b, hb, rfl⟩ := List.mem_map.mp (hmem _ List.mem_cons_self)
    have htags' := fun v hv => htags v (List.mem_cons_of_mem _ hv)
    have hmem' := fun v hv => hmem v (List.mem_cons_of_mem _ hv)
    rw [List.foldlM_cons, transformToSwitch_eq hnd hb (htags _ List.mem_cons_self), searchesEnd_cons]
    by_cases hc : switchComplete s = true
    · rw [if_pos hc]
      cases hv : getValueSwitchedOn b.instrs s with
      | none =>
        refine iff_of_false (by simp) ?_
        rintro ⟨⟨hfirst, -⟩, -⟩
        have := hfirst hc b hb rfl
        simp [hv] at this
      | some r =>
        -- the switch is appended to one block, and the others are as before
        have hids : (f.modifyBlock b.id (· ++ (switchTerms bbMap fakeBB b.instrs s).map Instr.fresh)).blockIds =
            f.blockIds := Func.blockIds_mapBlocks fun c => by split_ifs <;> rfl
        have hfirst : ∀ c ∈ f.blocks, c.id = b.id → (getValueSwitchedOn c.instrs s).isSome := by
          intro c hcm hcid
          rw [Func.eq_of_id_eq hnd hcm hb hcid, hv]
          rfl
        refine (ih ins (hids.symm ▸ hnd) hus.2 (by rwa [hids]) htags').trans (and_congr ?_ ?_)
        · rw [searchesEnd_modifyBlock hus.1]
          exact (and_iff_right fun _ => hfirst).symm
        · rw [appendSwitches_modifyBlock hnd hb hus.1]
          simp [hc]
    · rw [if_neg hc]
      refine (ih (ins ++ [(b.id, s)]) hnd hus.2 hmem' htags').trans (and_congr ?_ ?_)
      · exact (and_iff_right fun h => absurd h hc).symm
      · rw [Func.mapBlocks_congr (k := appendSwitches bbMap fakeBB ((b.id, s) :: us))]
        · simp [hc]
        · intro c hcm
          by_cases hcb : b.id = c.id
          · simp [appendSwitches, hcb, switchTerms, hc]
          · exact (appendSwitches_cons_of_ne us hcb).symm

/-- The branches to the block for unknown targets, for the stores of the list in this block. -/
def appendBranches (fakeBB : BlockId) (us : List (BlockId × Instr)) (b : BasicBlock) : BasicBlock :=
  { b with instrs := b.instrs ++ ((us.filter (·.1 = b.id)).map Prod.snd).map fun _ =>
    Instr.fresh (.br fakeBB) }

theorem branchToFake_eq (us : List (BlockId × Instr)) :
    branchToFake f (some fakeBB) us = some (f.mapBlocks (appendBranches fakeBB us)) := by
  have hfold : branchToFake f (some fakeBB) us =
      some (us.foldl (fun f u => f.modifyBlock u.1 (· ++ [Instr.fresh (.br fakeBB)])) f) := by
    unfold branchToFake
    induction us generalizing f with
    | nil => rfl
    | cons u us ih => exact ih
  have happ : ∀ (l : List Instr) (is : List Instr),
      l.foldl (fun is _ => is ++ [Instr.fresh (.br fakeBB)]) is = is ++ l.map fun _ =>
        Instr.fresh (.br fakeBB) := by
    intro l
    induction l with
    | nil => simp
    | cons i l ih => intro is; rw [List.foldl_cons, ih]; simp
  rw [hfold, Func.foldl_modifyBlock fun _ is => is ++ [Instr.fresh (.br fakeBB)]]
  simp only [happ]
  rfl

@[simp] theorem id_appendBranches (us : List (BlockId × Instr)) (b : BasicBlock) :
    (appendBranches fakeBB us b).id = b.id := rfl

/-- The share of a block in a part of the indirect jumps. -/
theorem indirect_share (hnd : f.blockIds.Nodup) {b : BasicBlock} (hb : b ∈ f.blocks)
    (p : Instr → Bool) :
    (((f.scan indirectJump).filter fun u => p u.2).filter (·.1 = b.id)).map Prod.snd =
      (b.instrs.filterMap indirectJump).filter p := by
  rw [← Func.filter_scan hnd indirectJump hb, List.filter_map, List.filter_filter,
    List.filter_filter]
  exact congrArg _ (List.filter_congr fun u _ => by simp [Bool.and_comm])

/-- The three lists of `fixupIndirectJumps` (plain jumps, switches, incomplete switches), seen from one block. -/
theorem updateBlock_appendBranches {b : BasicBlock} {A B C : List (BlockId × Instr)}
    (hone : (b.instrs.filterMap indirectJump).length ≤ 1)
    (hA : (A.filter (·.1 = b.id)).map Prod.snd =
      (b.instrs.filterMap indirectJump).filter fun s => !s.has .INS_switch_cnt)
    (hB : (B.filter (·.1 = b.id)).map Prod.snd =
      (b.instrs.filterMap indirectJump).filter fun s => s.has .INS_switch_cnt)
    (hC : (C.filter (·.1 = b.id)).map Prod.snd =
      (b.instrs.filterMap indirectJump).filter fun s => !switchComplete s && s.has .INS_switch_cnt) :
    updateBlock (b.instrs.filterMap indirectJump) (fun _ is => is)
      (appendBranches fakeBB (A ++ C) (appendSwitches bbMap fakeBB B b)) = indirectBlock bbMap fakeBB b := by
  unfold indirectBlock
  rcases hl : b.instrs.filterMap indirectJump with _ | ⟨s, _ | ⟨s', l⟩⟩
  · rw [hl] at hA hB hC
    simp only [updateBlock, appendBranches, appendSwitches, List.filter_append, List.map_append, hA, hB, hC]
    simp
  · rw [hl] at hA hB hC
    simp only [updateBlock, appendBranches, appendSwitches, List.filter_append, List.map_append, hA, hB, hC]
    by_cases hc : switchComplete s = true
    · simp [indirectTerms, hc, has_cnt_of_switchComplete hc]
    · by_cases hn : s.has .INS_switch_cnt = true
      · simp [indirectTerms, switchTerms, hc, hn]
      · simp [indirectTerms, hc, hn]
  · rw [hl] at hone
    simp at hone

theorem exists_of_mem_scan_indirect {u : BlockId × Instr} (hu : u ∈ f.scan indirectJump) :
    ∃ b ∈ f.blocks, b.id = u.1 ∧ u.2 ∈ b.instrs ∧ u.2.has .INS_indirectJump = true := by
  obtain ⟨b, hb, hid, hmem⟩ := Func.mem_scan.mp hu
  obtain ⟨i, hi, hind⟩ := List.mem_filterMap.mp hmem
  unfold indirectJump at hind
  split_ifs at hind with h
  obtain rfl : i = u.2 := by simpa using hind
  exact ⟨b, hb, hid, hi, h⟩

/-- The list of switches, seen from the blocks. -/
theorem searchesEnd_scan_iff (hnd : f.blockIds.Nodup) :
    SearchesEnd f ((f.scan indirectJump).filter fun u => u.2.has .INS_switch_cnt) ↔
      ∀ b ∈ f.blocks, ∀ s ∈ b.instrs, s.has .INS_indirectJump = true → switchComplete s = true →
        (getValueSwitchedOn b.instrs s).isSome := by
  constructor
  · intro h b hb s hs hind hc
    have hscan : (b.id, s) ∈ f.scan indirectJump :=
      Func.mem_scan.mpr ⟨b, hb, rfl, List.mem_filterMap.mpr ⟨s, hs, if_pos hind⟩⟩
    exact h (b.id, s) (List.mem_filter.mpr ⟨hscan, has_cnt_of_switchComplete hc⟩) hc b hb rfl
  · intro h u hu hc b hb hid
    obtain ⟨c, hc', hcid, hi, hind⟩ := exists_of_mem_scan_indirect (List.mem_of_mem_filter hu)
    obtain rfl := Func.eq_of_id_eq hnd hb hc' (hid.trans hcid.symm)
    exact h b hb u.2 hi hind hc

/-- `fixupIndirectJumps`, block by block: it goes through unless the search for a switch value
crashes. -/
theorem fixupIndirectJumps_eq (hnd : f.blockIds.Nodup)
    (hone : ∀ b ∈ f.blocks, (b.instrs.filterMap indirectJump).length ≤ 1)
    (htags : ∀ i ∈ f.instrs, i.has .INS_indirectJump = true → switchComplete i = true →
      SwitchTagsRead i) {f' : Func} :
    fixupIndirectJumps f bbMap (some fakeBB) = some f' ↔
      (∀ b ∈ f.blocks, ∀ s ∈ b.instrs, s.has .INS_indirectJump = true → switchComplete s = true →
        (getValueSwitchedOn b.instrs s).isSome) ∧
        f' = f.mapBlocks (indirectBlock bbMap fakeBB) := by
  have hsc := Func.nodup_scan hnd hone
  have hmem : ∀ u ∈ f.scan indirectJump, u.1 ∈ f.blockIds := by
    intro u hu
    obtain ⟨b, hb, hid, -⟩ := exists_of_mem_scan_indirect hu
    exact hid ▸ Func.mem_blockIds hb
  have htags' : ∀ u ∈ f.scan indirectJump, switchComplete u.2 = true → SwitchTagsRead u.2 := by
    intro u hu hc
    obtain ⟨b, hb, -, hi, h⟩ := exists_of_mem_scan_indirect hu
    exact htags u.2 (List.mem_flatMap.mpr ⟨b, hb, hi⟩) h hc
  -- the loop over the jumps with a table; the others wait for their branch
  have hfold := fun st => foldlM_transformToSwitch bbMap fakeBB
    ((f.scan indirectJump).filter fun u => u.2.has .INS_switch_cnt)
    ((f.scan indirectJump).filter fun u => !u.2.has .INS_switch_cnt) st hnd
    (hsc.sublist (List.filter_sublist.map _)) (fun u hu => hmem u (List.mem_of_mem_filter hu))
    (fun u hu => htags' u (List.mem_of_mem_filter hu))
  rw [← searchesEnd_scan_iff hnd]
  unfold fixupIndirectJumps
  simp only [Option.bind_eq_bind]
  cases hf : ((f.scan indirectJump).filter fun u => u.2.has .INS_switch_cnt).foldlM
      (transformToSwitch bbMap)
      ⟨f, some fakeBB, (f.scan indirectJump).filter fun u => !u.2.has .INS_switch_cnt⟩ with
  | none =>
    refine iff_of_false (by simp) ?_
    rintro ⟨h, -⟩
    have := (hfold _).mpr ⟨h, rfl⟩
    rw [hf] at this
    simp at this
  | some st =>
    obtain ⟨hok, hst⟩ := (hfold st).mp hf
    rw [Option.bind_some, hst]
    simp only
    -- the branches and the cleanup are changes of single blocks too
    rw [branchToFake_eq, Option.bind_some, Func.mapBlocks_mapBlocks,
      cleanup_scan hnd hone (fun b =>
        by rw [Function.comp_apply, id_appendBranches, id_appendSwitches]),
      Func.mapBlocks_congr (k := indirectBlock bbMap fakeBB)]
    · rw [and_iff_right hok, Option.some.injEq]
      exact eq_comm
    · intro b hb
      refine updateBlock_appendBranches (hone b hb) (indirect_share hnd hb fun s =>
        !s.has .INS_switch_cnt) (indirect_share hnd hb fun s => s.has .INS_switch_cnt) ?_
      rw [List.filter_filter (l := f.scan indirectJump)]
      exact indirect_share hnd hb fun s => !switchComplete s && s.has .INS_switch_cnt

/-! ## Finding blocks by their start -/

/-- A block that `buildBBMap` can enter under `pc`. -/
def startsAt (pc : UInt64) (b : BasicBlock) : Bool :=
  b.name ≠ "fake_indirect_bb" ∧ b.instrs.head?.bind getBBStart = some pc

/-- What `buildBBMap` asserts of a block. -/
def StartReadable (b : BasicBlock) : Prop :=
  ∃ i is, b.instrs = i :: is ∧ (i.has .BB_pcStart = true → (getBBStart i).isSome)

theorem addToBBMap_isSome {b : BasicBlock} (h : StartReadable b) (bbMap : BBMap) :
    (addToBBMap bbMap b).isSome := by
  obtain ⟨i, is, hi, hread⟩ := h
  unfold addToBBMap
  rw [hi]
  simp only
  split_ifs with hc
  · obtain ⟨pc, hpc⟩ := Option.isSome_iff_exists.mp (hread hc.2)
    simp only [hpc, Option.bind_eq_bind, Option.bind_some]
    split_ifs <;> rfl
  · rfl

theorem lookup_addToBBMap {b : BasicBlock} {m : BBMap} (h : addToBBMap bbMap b = some m)
    (pc : UInt64) :
    m.lookup pc = (bbMap.lookup pc).or (if startsAt pc b then some b.id else none) := by
  unfold addToBBMap at h
  unfold startsAt
  cases hi : b.instrs with
  | nil => rw [hi] at h; simp at h
  | cons i is =>
    rw [hi] at h
    simp only at h
    split_ifs at h with hc
    · cases hpc : getBBStart i with
      | none => rw [hpc] at h; simp at h
      | some p =>
        simp only [hpc, Option.bind_eq_bind, Option.bind_some, Option.pure_def] at h
        -- an entry that is there stays
        split_ifs at h with hs
        · obtain rfl : bbMap = m := by simpa using h
          by_cases hp : p = pc
          · subst hp
            obtain ⟨bb, hbb⟩ := Option.isSome_iff_exists.mp hs
            simp [hbb]
          · simp [hpc, hp]
        · obtain rfl : (p, b.id) :: bbMap = m := by simpa using h
          rw [List.lookup_cons]
          by_cases hp : pc = p
          · subst hp
            have hnone : bbMap.lookup pc = none := Option.not_isSome_iff_eq_none.mp hs
            rw [hnone]
            simp [hpc, hc.1]
          · simp [beq_eq_false_iff_ne.mpr hp, hpc, Ne.symm hp]
    · obtain rfl : bbMap = m := by simpa using h
      have hno : ¬ (b.name ≠ "fake_indirect_bb" ∧ (i :: is).head?.bind getBBStart = some pc) := by
        rintro ⟨hname, hpc⟩
        exact hc ⟨hname, has_of_getHexMetadata hpc⟩
      rw [if_neg (by simp only [hno, decide_false, Bool.false_eq_true, not_false_eq_true]),
        Option.or_none]

theorem buildBBMap_isSome (h : ∀ b ∈ f.blocks, StartReadable b) : ∃ m, buildBBMap f = some m :=
  Option.isSome_iff_exists.mp (OptionMapM.isSome_foldlM (fun b hb acc =>
    addToBBMap_isSome (h b hb) acc) [])

/-- The map finds the first block that starts at the program counter. -/
theorem lookup_buildBBMap {m : BBMap} (h : buildBBMap f = some m) (pc : UInt64) :
    m.lookup pc = (f.blocks.find? (startsAt pc)).map BasicBlock.id := by
  have hstep : ∀ (done : List BasicBlock) (acc : BBMap) (b : BasicBlock) (acc' : BBMap),
      acc.lookup pc = (done.find? (startsAt pc)).map BasicBlock.id → addToBBMap acc b = some acc' →
      acc'.lookup pc = ((done ++ [b]).find? (startsAt pc)).map BasicBlock.id := by
    intro done acc b acc' hacc hb
    rw [lookup_addToBBMap hb, hacc, List.find?_append, List.find?_singleton, Option.map_or]
    cases startsAt pc b <;> rfl
  exact OptionMapM.foldlM_preserves (P := fun done m =>
    m.lookup pc = (done.find? (startsAt pc)).map BasicBlock.id) hstep rfl h

end BuildFunctions

end Bin2llvm
