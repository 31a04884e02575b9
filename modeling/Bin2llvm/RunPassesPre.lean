import Bin2llvm.BlockPasses
import Bin2llvm.DeadCode

/-!
# Bin2llvm.RunPassesPre — the passes before the marking passes

The prefix of `run_passes_pre` up to dead code elimination.  The later passes read the bounds of a
block from the first instruction of its entry block.

* `SavedModule`: what the disassembler saves.
* `PreRun`: a run of the passes, with the modules on the way.
* `boundsRead_modules_iff`: the bounds stay readable exactly when no block is cut in such a way that
  everything in front of the new store is dead.
-/

namespace Bin2llvm

namespace FixOverlappedBBs

variable {func func' : Func} {pcB : UInt64} {A : Alignment} {deadTail : BasicBlock}

theorem entryOutline_splitBlocks (name : String) (A : Alignment) (deadTail : BasicBlock)
    (pcB : UInt64) : Func.entryOutline ⟨name, splitBlocks A deadTail pcB⟩ =
      Func.entryOutline
        ⟨name, A.pre ++ [linkWith { A.overlapBB with instrs := A.before ++ [A.ins] } pcB]⟩ := by
  have hkeep : ∀ (succs : List BlockId) (b : BasicBlock), ((if b.id ∈ succs then
      b.mapInstrs (Instr.setIncomingBlock A.overlapBB.id deadTail.id) else b).id,
      (if b.id ∈ succs then b.mapInstrs (Instr.setIncomingBlock A.overlapBB.id deadTail.id)
        else b).instrs.map Instr.outline) = (b.id, b.instrs.map Instr.outline) := by
    intro succs b
    split_ifs
    · simp [BasicBlock.mapInstrs, Function.comp_def, Instr.outline_setIncomingBlock]
    · rfl
  unfold Func.entryOutline splitBlocks
  dsimp only
  rw [List.head?_map, Option.map_map]
  cases A.pre with
  | nil => exact congrArg some (hkeep _ _)
  | cons b bs => exact congrArg some (hkeep _ _)

/-- The entry block is kept up to operands, or cut. -/
theorem entryOutline_truncateAt (h : truncateAt func pcB = some func') (hplain : func.EntryPlain) :
    func'.entryOutline = func.entryOutline ∨
      ∃ e before ins after, func.blocks.head? = some e ∧ e.instrs = before ++ ins :: after ∧
        after ≠ [] ∧
        func'.entryOutline = some (e.id, (before ++ [ins] ++ link pcB).map Instr.outline) := by
  obtain ⟨A, hA, h⟩ := Option.bind_eq_some_iff.mp h
  split_ifs at h with hafter
  obtain rfl := Option.some.inj h
  obtain ⟨hblocks, hinstrs, -, -⟩ := align_eq_some hA
  have hout := entryOutline_splitBlocks (func.name ++ "-split-to-" ++ hex pcB) A
    ⟨func.freshBlockId, "", A.after⟩ pcB
  have hne : ∀ b, (splitBlocks A ⟨func.freshBlockId, "", A.after⟩ pcB).head? = some b →
      b.id ≠ func.freshBlockId := by
    intro b hb
    obtain ⟨b₀, hb₀, hid, -⟩ := Func.exists_entry hout hb
    have hmem : b₀.id ∈ func.blockIds := by
      rcases List.mem_append.mp (List.mem_of_head? hb₀) with hb₀ | hb₀
      · exact List.mem_map_of_mem (hblocks ▸ List.mem_append_left _ hb₀)
      · obtain rfl := List.mem_singleton.mp hb₀
        exact List.mem_map.mpr ⟨A.overlapBB, by simp [hblocks], rfl⟩
    exact hid ▸ (Func.lt_freshBlockId hmem).ne
  -- the block that is cut is the entry, or it comes later
  cases hpre : A.pre with
  | nil =>
    rw [hpre] at hout hblocks
    have hcut : ∀ i ∈ (A.before ++ [A.ins] ++ link pcB).map Instr.outline, i.isPhi = false := by
      intro i hi
      obtain ⟨j, hj, rfl⟩ := List.mem_map.mp hi
      rw [Instr.isPhi_outline]
      rcases List.mem_append.mp hj with hj | hj
      · refine hplain A.overlapBB (by rw [hblocks]; rfl) j ?_
        rw [hinstrs, List.append_cons]
        exact List.mem_append_left _ hj
      · simp only [link, List.mem_cons, List.not_mem_nil, or_false] at hj
        rcases hj with rfl | rfl <;> rfl
    refine .inr ⟨A.overlapBB, A.before, A.ins, A.after, by rw [hblocks]; rfl, hinstrs, hafter, ?_⟩
    rw [Func.entryOutline_deleteDeadBlock (Func.entryPlain_of_outline hout hcut) hne, hout]
    rfl
  | cons b pre =>
    rw [hpre] at hout hblocks
    have hsame : _ = func.entryOutline :=
      hout.trans (by rw [Func.entryOutline, Func.entryOutline, hblocks]; rfl)
    exact .inl ((Func.entryOutline_deleteDeadBlock (hplain.congr hsame) hne).trans hsame)

end FixOverlappedBBs

/-! ## Runs -/

open FixOverlappedBBs (getPCStartOfFunc getPCEndOfFunc)

/-- A module as the disassembler saves it: `annotateNewFunction` puts the bounds on all
instructions. -/
structure SavedModule (M : Module) : Prop where
  bounds : ∀ i ∈ M.instrs, i.HasBounds
  entry : ∀ f ∈ M.funcs, ∀ e, f.blocks.head? = some e → e.Terminated
  plain : ∀ f ∈ M.funcs, f.EntryPlain

/-- A run of the passes on `raw`; `pure` says which functions have no side effects. -/
structure PreRun (pure : Value → Bool) (raw : Module) where
  voids : Module
  tagged : Module
  lastStores : Module
  uncounted : Module
  fixed : Module
  oldFuncs : Bool
  overlaps : Bool
  transfrombbtovoid : TransformBBToVoid.runOnModule raw = some (voids, oldFuncs)
  tagInstPc : TagInstPc.runOnModule voids = some tagged
  rmexterstoretopc : runOnFunctions (fun f =>
    (RemoveExtraStoreToPC.runOnFunction f).map Prod.fst) tagged = some lastStores
  s2edeleteinstructioncount : runOnFunctions S2EDeleteInstructionCount.runOnFunction lastStores =
    some uncounted
  fixoverlappedbbs : FixOverlappedBBs.runOnModule uncounted = some (fixed, overlaps)

variable {pure : Value → Bool} {raw M : Module} {f : Func}

/-- What dead code elimination leaves. -/
def PreRun.final (r : PreRun pure raw) : Module := ⟨r.fixed.funcs.map (Func.dce pure)⟩

/-- The modules after the passes. -/
def PreRun.modules (r : PreRun pure raw) : List Module :=
  [r.voids, r.tagged, r.lastStores, r.uncounted, r.fixed, r.final]

/-- The bounds of every block-function with a store in its entry block can be read. -/
def BoundsRead (M : Module) : Prop :=
  ∀ f ∈ M.funcs, f.isBlockFunction = true →
    ∀ e, f.blocks.head? = some e → (∃ i ∈ e.instrs, i.isStore = true) →
      (getPCStartOfFunc f).isSome = true ∧ (getPCEndOfFunc f).isSome = true

/-- No entry block that was cut consists of dead instructions in front of the new store. -/
def CutsLive (pure : Value → Bool) (M : Module) : Prop :=
  ∀ f ∈ M.funcs, f.isBlockFunction = true →
    ∀ e is s ret, f.blocks.head? = some e → e.instrs = is ++ [s, ret] →
      s.md = [(.INS_splitCall, .str "true")] → ∃ i ∈ is, ¬ f.Dead pure i

/-- Inner instructions, and the link to another block. -/
def CutShape (is : List Instr) : Prop :=
  ∃ body s ret, is = body ++ [s, ret] ∧ body ≠ [] ∧ (∀ i ∈ body, i.Inner) ∧
    s.md = [(.INS_splitCall, .str "true")] ∧ s.isStore = true ∧ ret.isTerminator = true

/-- Of a module whose overlaps are fixed: every entry block has its old shape or is cut. -/
def ShapedOrCut (M : Module) : Prop :=
  ∀ f ∈ M.funcs, ∀ e, f.blocks.head? = some e → EntryShape e.instrs ∨ CutShape e.instrs

/-! ## Reading the bounds -/

variable {e : BasicBlock} {is body : List Instr} {s ret : Instr}

theorem boundsRead_iff (he : f.blocks.head? = some e) :
    ((getPCStartOfFunc f).isSome = true ∧ (getPCEndOfFunc f).isSome = true) ↔
      ∃ first, e.instrs.head? = some first ∧ first.HasBounds := by
  unfold getPCStartOfFunc getPCEndOfFunc FixOverlappedBBs.getHexMetadataFromFunc
  rw [he]
  cases hfirst : e.instrs.head? with
  | none => simp [hfirst]
  | some first => simp [hfirst, Instr.HasBounds]

/-- What linkWith creates carries no bounds. -/
theorem not_hasBounds (hs : s.md = [(.INS_splitCall, .str "true")]) : ¬ s.HasBounds := by
  intro h
  have hnone : FixOverlappedBBs.getHexMetadataFromIns s .BB_pcStart = none := by
    unfold FixOverlappedBBs.getHexMetadataFromIns Instr.getMetadata
    rw [hs]
    rfl
  rw [Instr.HasBounds, hnone] at h
  exact Bool.false_ne_true h.1

theorem CutShape.head_bounds (h : CutShape is) : ∃ first, is.head? = some first ∧
    first.HasBounds := by
  obtain ⟨body, s, ret, rfl, hne, hinner, -⟩ := h
  obtain ⟨i, body, rfl⟩ := List.exists_cons_of_ne_nil hne
  exact ⟨i, rfl, (hinner i List.mem_cons_self).bounds⟩

theorem ShapedOrCut.boundsRead (h : ShapedOrCut M) : BoundsRead M := by
  intro f hf _ e he hstore
  rw [boundsRead_iff he]
  rcases h f hf e he with hshape | hcut
  · exact hshape.head_bounds hstore
  · exact hcut.head_bounds

theorem boundsRead_of_shaped (h : ∀ f ∈ M.funcs, f.Shaped) : BoundsRead M :=
  ShapedOrCut.boundsRead fun f hf e he => .inl (h f hf e he)

/-! ## Shapes on the way -/

theorem shaped_raw (hM : SavedModule raw) : ∀ f ∈ raw.funcs, f.Shaped := by
  intro f hf e he
  obtain ⟨is, t, his, ht, hrest⟩ := hM.entry f hf e he
  have hall : ∀ i ∈ e.instrs, i.HasBounds := fun i hi =>
    hM.bounds i (List.mem_flatMap.mpr ⟨f, hf, List.mem_flatMap.mpr ⟨e, List.mem_of_head? he, hi⟩⟩)
  have hplain := hM.plain f hf e he
  rw [his] at hall hplain ⊢
  clear his
  induction is with
  | nil => exact .last ht
  | cons i is ih =>
    have ⟨hi, hrest⟩ := List.forall_mem_cons.mp hrest
    have ⟨hb, hall⟩ := List.forall_mem_cons.mp hall
    have ⟨hp, hplain⟩ := List.forall_mem_cons.mp hplain
    exact .cons ⟨hb, hi, hp⟩ (ih hrest hall hplain)

theorem EntryShape.plain (h : EntryShape is) : ∀ i ∈ is, i.isPhi = false := by
  induction h with
  | @last t ht =>
    intro i hi
    obtain rfl := List.mem_singleton.mp hi
    obtain ⟨id, op, md⟩ := i
    cases op <;> first | rfl | cases ht
  | cons hi _ ih => exact List.forall_mem_cons.mpr ⟨hi.notPhi, ih⟩

theorem Instr.Inner.of_outline {i j : Instr} (h : i.Inner)
    (hout : j.outline = i.outline) : j.Inner := by
  have hmd : j.md = i.md := by rw [← Instr.md_outline, hout, Instr.md_outline]
  refine ⟨?_, ?_, ?_⟩
  · have hbounds := h.bounds
    unfold Instr.HasBounds FixOverlappedBBs.getHexMetadataFromIns Instr.getMetadata at hbounds ⊢
    rwa [hmd]
  · rw [← Instr.isTerminator_outline, hout, Instr.isTerminator_outline, h.notTerminator]
  · rw [← Instr.isPhi_outline, hout, Instr.isPhi_outline, h.notPhi]

theorem inner_of_outline {js : List Instr} (hout : js.map Instr.outline = is.map Instr.outline)
    (h : ∀ i ∈ is, i.Inner) : ∀ j ∈ js, j.Inner := by
  intro j hj
  have hmem : j.outline ∈ is.map Instr.outline := hout ▸ List.mem_map_of_mem hj
  obtain ⟨i, hi, hij⟩ := List.mem_map.mp hmem
  exact (h i hi).of_outline hij.symm

theorem EntryShape.of_outline {js : List Instr} (h : EntryShape is)
    (hout : js.map Instr.outline = is.map Instr.outline) : EntryShape js := by
  induction h generalizing js with
  | @last t ht =>
    obtain ⟨t', js, rfl, ht', hnil⟩ := List.map_eq_cons_iff.mp hout
    obtain rfl := List.map_eq_nil_iff.mp hnil
    exact .last (by rw [← Instr.isTerminator_outline, ht', Instr.isTerminator_outline, ht])
  | cons hi _ ih =>
    obtain ⟨i', js, rfl, hi', hjs⟩ := List.map_eq_cons_iff.mp hout
    exact .cons (hi.of_outline hi') (ih hjs)

theorem CutShape.of_outline {pcB : UInt64} (hne : body ≠ []) (hbody : ∀ i ∈ body, i.Inner)
    (hout : is.map Instr.outline = (body ++ FixOverlappedBBs.link pcB).map Instr.outline) :
    CutShape is := by
  rw [List.map_append] at hout
  obtain ⟨body', tail, rfl, hbody', htail⟩ := List.map_eq_append_iff.mp hout
  obtain ⟨s, tail, rfl, hs, htail⟩ := List.map_eq_cons_iff.mp htail
  obtain ⟨ret, tail, rfl, hret, hnil⟩ := List.map_eq_cons_iff.mp htail
  obtain rfl := List.map_eq_nil_iff.mp hnil
  refine ⟨body', s, ret, rfl, ?_, inner_of_outline hbody' hbody, ?_, ?_, ?_⟩
  · rintro rfl
    exact hne (List.map_eq_nil_iff.mp hbody'.symm)
  · rw [← Instr.md_outline, hs]
    rfl
  · rw [← Instr.isStore_outline, hs]
    rfl
  · rw [← Instr.isTerminator_outline, hret]
    rfl

theorem shapedOrCut_truncateAt {pcB : UInt64} {f' : Func} (h : f.Shaped)
    (hf : FixOverlappedBBs.truncateAt f pcB = some f') (he : f'.blocks.head? = some e) :
    EntryShape e.instrs ∨ CutShape e.instrs := by
  rcases FixOverlappedBBs.entryOutline_truncateAt hf (fun b hb => (h b hb).plain) with hsame | hcut
  · obtain ⟨e₀, he₀, -, hout⟩ := Func.exists_entry hsame he
    exact .inl ((h e₀ he₀).of_outline hout.symm)
  · obtain ⟨e₀, before, ins, after, he₀, hinstrs, hafter, hout⟩ := hcut
    have hshape := h e₀ he₀
    rw [hinstrs, List.append_cons] at hshape
    unfold Func.entryOutline at hout
    rw [he] at hout
    exact .inr (.of_outline (by simp) (hshape.inner_of_append hafter)
      (Prod.mk.inj (Option.some.inj hout)).2)

theorem shapedOrCut_fixed {c : Bool} (hM : ∀ f ∈ M.funcs, f.Shaped) {M' : Module}
    (h : FixOverlappedBBs.runOnModule M = some (M', c)) : ShapedOrCut M' := by
  obtain ⟨hcut, hstay⟩ := FixOverlappedBBs.run_spec h
  intro f' hf' e he
  obtain ⟨i, hi⟩ := List.mem_iff_getElem?.mp hf'
  by_cases hnext : ∃ f pcB, FixOverlappedBBs.Next M i f pcB
  · obtain ⟨f, pcB, hn⟩ := hnext
    obtain ⟨f₁, htrunc, hf₁⟩ := hcut i f pcB hn
    obtain rfl := Option.some.inj (hf₁.symm.trans hi)
    obtain ⟨_, _, _, _, hblock, -⟩ := hn
    exact shapedOrCut_truncateAt (hM f (List.mem_of_getElem? hblock.get)) htrunc he
  · rw [hstay i fun f pcB hn => hnext ⟨f, pcB, hn⟩] at hi
    exact .inl (hM f' (List.mem_of_getElem? hi) e he)

/-! ## Dead code elimination -/

theorem isLive_of_isStore (hs : s.isStore = true) : f.isLive pure s = true := by
  refine Func.isLive_of_sideEffect ?_
  obtain ⟨id, op, md⟩ := s
  cases op <;> first | rfl | cases hs

theorem isLive_of_isTerminator (hret : ret.isTerminator = true) : f.isLive pure ret = true := by
  refine Func.isLive_of_sideEffect ?_
  obtain ⟨id, op, md⟩ := ret
  cases op <;> first | rfl | cases hret

/-- Of a cut block dead code elimination leaves the store and the return. -/
theorem filter_cut (hs : s.isStore = true) (hret : ret.isTerminator = true) :
    (body ++ [s, ret]).filter (f.isLive pure) = body.filter (f.isLive pure) ++ [s, ret] := by
  rw [List.filter_append]
  simp [isLive_of_isStore hs, isLive_of_isTerminator hret]

theorem ShapedOrCut.cut (h : ShapedOrCut M) (hf : f ∈ M.funcs) (he : f.blocks.head? = some e)
    (his : e.instrs = is ++ [s, ret]) (hs : s.md = [(.INS_splitCall, .str "true")]) :
    s.isStore = true ∧ ret.isTerminator = true := by
  rcases h f hf e he with hshape | ⟨body, s', ret', hcut, -, -, -, hstore, hret⟩
  · rw [his, List.append_cons] at hshape
    exact absurd (hshape.inner_of_append (by simp) s (by simp)).bounds (not_hasBounds hs)
  · obtain ⟨-, heq⟩ := List.append_inj' (his.symm.trans hcut) rfl
    simp only [List.cons.injEq, and_true] at heq
    obtain ⟨rfl, rfl⟩ := heq
    exact ⟨hstore, hret⟩

theorem boundsRead_final_iff (h : ShapedOrCut M) : BoundsRead ⟨M.funcs.map (Func.dce pure)⟩ ↔
    CutsLive pure M := by
  constructor
  · intro hread f hf hblock e is s ret he his hs
    obtain ⟨hstore, hret⟩ := h.cut hf he his hs
    by_contra hdead
    have hnil : is.filter (f.isLive pure) = [] := by
      refine List.filter_eq_nil_iff.mpr fun i hi hlive => hdead ⟨i, hi, ?_⟩
      exact (Func.isLive_iff (List.mem_of_head? he)
        (by rw [his]; exact List.mem_append_left _ hi)).mp hlive
    -- the store is the first instruction that is left
    have he' : (f.dce pure).blocks.head? = some { e with instrs := [s, ret] } := by
      rw [Func.dce, Func.mapBlocks, List.head?_map, he, Option.map_some, his,
        filter_cut hstore hret, hnil]
      rfl
    have hbounds := hread _ (List.mem_map_of_mem hf) hblock _ he' ⟨s, List.mem_cons_self, hstore⟩
    obtain ⟨first, hfirst, hbounds⟩ := (boundsRead_iff he').mp hbounds
    obtain rfl := Option.some.inj hfirst
    exact not_hasBounds hs hbounds
  · intro hlive f' hf' hblock e' he' hstore
    obtain ⟨f, hf, rfl⟩ := List.mem_map.mp hf'
    rw [boundsRead_iff he']
    rw [Func.dce, Func.mapBlocks, List.head?_map] at he'
    obtain ⟨e, he, rfl⟩ := Option.map_eq_some_iff.mp he'
    rcases h f hf e he with hshape | ⟨body, s, ret, hcut, -, hinner, hmd, hs, hret⟩
    · refine EntryShape.head_bounds ?_ hstore
      exact (Leaves.filter _ fun i _ ht => isLive_of_isTerminator ht).entryShape hshape
    · obtain ⟨i, hi, hnot⟩ := hlive f hf hblock e body s ret he hcut hmd
      have hi' : f.isLive pure i = true :=
        (Func.isLive_iff (List.mem_of_head? he)
          (by rw [hcut]; exact List.mem_append_left _ hi)).mpr hnot
      refine CutShape.head_bounds ⟨body.filter (f.isLive pure), s, ret, ?_, ?_, ?_, hmd, hs, hret⟩
      · dsimp only
        rw [hcut, filter_cut hs hret]
      · exact List.ne_nil_of_mem (List.mem_filter.mpr ⟨hi, hi'⟩)
      · exact fun j hj => hinner j (List.mem_of_mem_filter hj)

/-- A store in front of the last two instructions is enough. -/
theorem cutsLive_of_store (h : (M.funcs.all fun f => f.blocks.head?.all fun e =>
    e.instrs.dropLast.dropLast.any Instr.isStore) = true) : CutsLive pure M := by
  intro f hf _ e is s ret he his _
  have hany : e.instrs.dropLast.dropLast.any Instr.isStore = true := by
    have hall := List.all_eq_true.mp h f hf
    rwa [he] at hall
  have hdrop : e.instrs.dropLast.dropLast = is := by
    rw [his, List.append_cons, List.dropLast_concat, List.dropLast_concat]
  rw [hdrop] at hany
  obtain ⟨i, hi, hstore⟩ := List.any_eq_true.mp hany
  exact ⟨i, hi,
    (Func.isLive_iff (List.mem_of_head? he) (by rw [his]; exact List.mem_append_left _ hi)).mp
    (isLive_of_isStore hstore)⟩

/-- The bounds stay readable exactly when no block is cut in such a way that everything in front of
the new store is dead. -/
theorem boundsRead_modules_iff (hraw : SavedModule raw) (r : PreRun pure raw) :
    (∀ M ∈ r.modules, BoundsRead M) ↔ CutsLive pure r.fixed := by
  have hvoids := TransformBBToVoid.shaped (shaped_raw hraw) r.transfrombbtovoid
  have htagged := TagInstPc.shaped hvoids r.tagInstPc
  have hlast : ∀ f ∈ r.lastStores.funcs, f.Shaped := by
    refine shaped_runOnFunctions htagged (fun f f' hf hpass => ?_) r.rmexterstoretopc
    obtain ⟨⟨f₁, c⟩, hrun, rfl⟩ := Option.map_eq_some_iff.mp hpass
    exact RemoveExtraStoreToPC.shaped hf hrun
  have huncounted := shaped_runOnFunctions hlast (fun _ _ hf hpass =>
    S2EDeleteInstructionCount.shaped hf hpass) r.s2edeleteinstructioncount
  have hfixed := shapedOrCut_fixed huncounted r.fixoverlappedbbs
  rw [← boundsRead_final_iff hfixed]
  constructor
  · intro h
    exact h r.final (by simp [PreRun.modules])
  · intro hfinal
    simp only [PreRun.modules, List.forall_mem_cons]
    exact ⟨boundsRead_of_shaped hvoids, boundsRead_of_shaped htagged, boundsRead_of_shaped hlast,
      boundsRead_of_shaped huncounted, hfixed.boundsRead, hfinal, by simp⟩

/-! ## Two blocks that overlap -/

/-- An instruction of the block from `pcStart` to `0x8008`. -/
def savedIns (pcStart : String) (op : Op) (id : Option InstId) : Instr :=
  ⟨id, op, [(.BB_pcStart, .str pcStart), (.BB_pcEnd, .str "0x00008008")]⟩

/-- What stands in front of every guest instruction. -/
def boundary (pcStart : String) (pc : UInt64) : List Instr :=
  [savedIns pcStart (.store (.constInt 32 pc) (.global "PC")) none,
    savedIns pcStart (.store (.constInt 64 pc) (.global "s2e_icount")) none]

/-- `mov r2, r1` at `0x8004`, with which both blocks end. -/
def lastIns (pcStart : String) : List Instr :=
  [savedIns pcStart (.load (.global "R1")) (some 0),
    savedIns pcStart (.store (.inst 0) (.global "R2")) none,
    savedIns pcStart (.store (.constInt 32 0x8008) (.global "PC")) none]

def savedBlock (name pcStart : String) (is : List Instr) : Func :=
  ⟨name, [⟨0, "entry", is ++ [savedIns pcStart (.ret (some (.constInt 64 0))) none]⟩]⟩

/-- The first block has another instruction, at `0x8000`, which stores constants to registers. -/
def overlapping (stores : List (UInt64 × String)) : Module :=
  ⟨[savedBlock "tcg-llvm-tb-0-8000" "0x00008000" (boundary "0x00008000" 0x8000 ++
      stores.map (fun s => savedIns "0x00008000" (.store (.constInt 32 s.1) (.global s.2)) none) ++
      boundary "0x00008000" 0x8004 ++ lastIns "0x00008000"),
    savedBlock "tcg-llvm-tb-1-8004" "0x00008004" (boundary "0x00008004" 0x8004 ++
      lastIns "0x00008004")]⟩

/-- An instruction that may stand in front of the return. -/
def IsBody (pcStart : String) (i : Instr) : Prop :=
  ∃ op id, i = savedIns pcStart op id ∧ i.isTerminator = false ∧ i.isPhi = false

theorem isBody_store (pcStart : String) (v p : Value) (id : Option InstId) :
    IsBody pcStart (savedIns pcStart (.store v p) id) :=
  ⟨_, _, rfl, rfl, rfl⟩

theorem isBody_boundary (pcStart : String) (pc : UInt64) :
    ∀ i ∈ boundary pcStart pc, IsBody pcStart i := by
  simp only [boundary, List.forall_mem_cons, List.not_mem_nil, false_implies,
    implies_true, and_true]
  exact ⟨isBody_store .., isBody_store ..⟩

theorem isBody_lastIns (pcStart : String) : ∀ i ∈ lastIns pcStart, IsBody pcStart i := by
  simp only [lastIns, List.forall_mem_cons, List.not_mem_nil, false_implies, implies_true, and_true]
  exact ⟨⟨_, _, rfl, rfl, rfl⟩, isBody_store .., isBody_store ..⟩

theorem savedModule_of_bodies {M : Module} (h : ∀ f ∈ M.funcs, ∃ name pcStart is,
    f = savedBlock name pcStart is ∧ ∀ i ∈ is, IsBody pcStart i) : SavedModule M := by
  refine ⟨fun i hi => ?_, fun f hf e he => ?_, fun f hf e he i hi => ?_⟩
  · obtain ⟨f, hf, hi⟩ := List.mem_flatMap.mp hi
    obtain ⟨name, pcStart, is, rfl, his⟩ := h f hf
    have hmem : i ∈ is ++ [savedIns pcStart (.ret (some (.constInt 64 0))) none] := by
      simpa [savedBlock, Func.instrs] using hi
    rcases List.mem_append.mp hmem with hi | hi
    · obtain ⟨op, id, rfl, -⟩ := his i hi
      exact ⟨rfl, rfl⟩
    · obtain rfl := List.mem_singleton.mp hi
      exact ⟨rfl, rfl⟩
  · obtain ⟨name, pcStart, is, rfl, his⟩ := h f hf
    obtain rfl := Option.some.inj he
    exact ⟨is, _, rfl, rfl, fun i hi => by obtain ⟨_, _, -, ht, -⟩ := his i hi; exact ht⟩
  · obtain ⟨name, pcStart, is, rfl, his⟩ := h f hf
    obtain rfl := Option.some.inj he
    rcases List.mem_append.mp hi with hi | hi
    · obtain ⟨_, _, -, -, hphi⟩ := his i hi
      exact hphi
    · obtain rfl := List.mem_singleton.mp hi
      rfl

theorem savedModule_overlapping (stores : List (UInt64 × String)) :
    SavedModule (overlapping stores) := by
  apply savedModule_of_bodies
  simp only [overlapping, List.forall_mem_cons, List.not_mem_nil, false_implies,
    implies_true, and_true]
  refine ⟨⟨_, _, _, rfl, ?_⟩, ⟨_, _, _, rfl, ?_⟩⟩
  · simp only [List.forall_mem_append, List.forall_mem_map]
    exact ⟨⟨⟨isBody_boundary _ _, fun _ _ => isBody_store ..⟩, isBody_boundary _ _⟩,
      isBody_lastIns _⟩
  · exact List.forall_mem_append.mpr ⟨isBody_boundary _ _, isBody_lastIns _⟩

/-- The first instruction moves a constant. -/
def movRun : PreRun (fun _ => false) (overlapping [(1, "R0")]) :=
  ⟨_, _, _, _, _, _, _, rfl, rfl, rfl, rfl, rfl⟩

theorem boundsRead_movRun :
    SavedModule (overlapping [(1, "R0")]) ∧ ∀ M ∈ movRun.modules, BoundsRead M := by
  refine ⟨savedModule_overlapping _, ?_⟩
  refine (boundsRead_modules_iff (savedModule_overlapping _) movRun).mpr ?_
  exact cutsLive_of_store (by decide)

/-- The first instruction does nothing. -/
def nopRun : PreRun (fun _ => false) (overlapping []) :=
  ⟨_, _, _, _, _, _, _, rfl, rfl, rfl, rfl, rfl⟩

/-- The register is loaded for an instruction that was cut off. -/
theorem not_boundsRead_nopRun : SavedModule (overlapping []) ∧ ¬ ∀ M ∈ nopRun.modules,
    BoundsRead M := by
  refine ⟨savedModule_overlapping [], fun h => ?_⟩
  have hfinal : BoundsRead nopRun.final := h _ (by simp [PreRun.modules])
  have hread := hfinal _ List.mem_cons_self (by decide) _ rfl ⟨_, List.mem_cons_self, rfl⟩
  exact absurd hread.1 (by decide)

end Bin2llvm
