import Bin2llvm.BuildFunctions.Dispatch
import Bin2llvm.BuildFunctions.SwitchedValue
import Bin2llvm.Lib.Run

/-!
# Bin2llvm.BuildFunctions.Simulation — a built function does what its block-functions do

`BuildFunctions` replaces the dispatcher by branches, switches and returns.  While the dispatcher
stands in a block, the built function stands in its clone.

* `Matches`: where the built function stands while the dispatcher stands at a place.
* `simulation_dispatch`: every step of the dispatcher is matched, or it is a store to `PC` that is
  erased.
* `runOnModule_simulates`: a run of the dispatcher, as one of the function in the new module.
* `runOnModule_returns`: where the dispatcher ends, that function returns.
-/

namespace Bin2llvm.BuildFunctions

open FixOverlappedBBs Execution

theorem mem_operands_of_shiftedIndex {i : Instr} {a : Value}
    (h : shiftedIndex i = some a) : a ∈ i.op.operands := by
  unfold shiftedIndex at h
  split at h
  · rename_i hop
    split_ifs at h
    obtain rfl := Option.some.inj h
    simp [hop, Op.operands]
  · cases h

/-! ## Where the built function stands -/

/-- The function that is built from the block-functions. -/
abbrev built (name : String) (bbs : List Func) (hasIndirectJump : Bool) (m₀ m₁ m₂ : BBMap) : Func :=
  (inlineBBs name bbs hasIndirectJump).1.mapBlocks (finalBlock m₀ m₁ m₂ (fakeId bbs))

/-- The built function stands in the clone of the block in which the dispatcher stands. -/
structure Matches {W E : Type} (I : Interp W E) (M : Module) (bbs : List Func) (m₀ m₁ m₂ : BBMap)
    (x : Place W E) (c : Config W E) : Prop where
  func : x.func ∈ bbs
  code : ∃ b ∈ x.func.blocks, x.cfg.bb = b.id ∧ x.cfg.code <:+ b.instrs ∧
    ∃ ts, ExitTerms m₀ m₁ m₂ (fakeId bbs) b ts ∧ ClonedCode ts x.cfg.code c.code
  bb : c.bb = x.cfg.bb
  now : AgreesOffPC I M x.cfg.now c.now
  edge : EdgeAgrees (AtPC I) (ExitId M) x.cfg.edge c.edge

/-- A return is next. -/
def AtReturn {W E : Type} (c : Config W E) : Prop := ∃ i is v, c.code = i :: is ∧ i.op = .ret v

theorem mem_of_goto {W E : Type} {g : Func} {c d : Config W E} {bb : BlockId}
    (h : c.goto g bb = some d) :
    ∃ b ∈ g.blocks, b.id = bb ∧ d = ⟨bb, b.instrs, c.now, some (c.bb, c.now)⟩ := by
  obtain ⟨b, hb, rfl⟩ := Option.map_eq_some_iff.mp h
  exact ⟨b, List.mem_of_find?_eq_some hb, by simpa using List.find?_some hb, rfl⟩

namespace Explored

variable {W E : Type} {I : Interp W E} {K : Control W} {addr : W → UInt64} {T : TaggedModule}
variable {bbs : List Func} {hasIndirectJump : Bool} (X : Explored T bbs hasIndirectJump)
variable (name : String) {m₀ m₁ m₂ : BBMap} {x y : Place W E} {c : Config W E} {d : Config W E}
variable {g : Func} {b : BasicBlock}

include X

theorem goto_built (hin : b ∈ (inlineBBs name bbs hasIndirectJump).1.blocks) (c : Config W E) :
    c.goto (built name bbs hasIndirectJump m₀ m₁ m₂) b.id =
      some ⟨b.id, (finalBlock m₀ m₁ m₂ (fakeId bbs) b).instrs, c.now, some (c.bb, c.now)⟩ := by
  have hfind := Func.find?_id (X.ids_nodup name) hin
  unfold Config.goto
  rw [Func.blocks_mapBlocks, List.find?_map]
  simp only [Function.comp_def, finalBlock, id_returnsBlock, id_indirectBlock, id_jumpsBlock,
    id_callsBlock]
  rw [hfind]
  rfl

/-- The clones of an inlined block-function. -/
theorem mem_inlined (hg : g ∈ bbs) (hb : b ∈ g.blocks) :
    b ∈ (inlineBBs name bbs hasIndirectJump).1.blocks := (X.mem_blocks name).mpr (.inl ⟨g, hg, hb⟩)

theorem matches_block (hg : g ∈ bbs) (hb : b ∈ g.blocks) {p p' : Point W E}
    (hnow : AgreesOffPC I T.module p p') {edge edge' : Option (BlockId × Point W E)}
    (hedge : EdgeAgrees (AtPC I) (ExitId T.module) edge edge') :
    Matches I T.module bbs m₀ m₁ m₂ ⟨g, ⟨b.id, b.instrs, p, edge⟩⟩
      ⟨b.id, (finalBlock m₀ m₁ m₂ (fakeId bbs) b).instrs, p', edge'⟩ where
  func := hg
  code :=
    ⟨b, hb, rfl, List.suffix_rfl, clonedCode_finalBlock ((T.tagged g (X.sub g hg)).shape b hb)⟩
  bb := rfl
  now := hnow
  edge := hedge

/-- Both sides go on at the same block. -/
theorem goto_matches (hmatch : Matches I T.module bbs m₀ m₁ m₂ x c) {bb : BlockId}
    (hgoto : x.cfg.goto x.func bb = some d) :
    ∃ c', c.goto (built name bbs hasIndirectJump m₀ m₁ m₂) bb = some c' ∧
      Matches I T.module bbs m₀ m₁ m₂ ⟨x.func, d⟩ c' := by
  obtain ⟨b, hb, rfl, rfl⟩ := mem_of_goto hgoto
  refine ⟨_, X.goto_built name (X.mem_inlined name hmatch.func hb) c,
    X.matches_block hmatch.func hb hmatch.now ?_⟩
  exact hmatch.bb ▸ .some hmatch.now x.cfg.bb

variable [DecidableEq W]

/-- A step inside a block-function: a store to `PC` that is erased, or an instruction the built
function has too. -/
theorem step_cases (G : Guest I addr) (V : ExitsTrue T.module)
    (hmatch : Matches I T.module bbs m₀ m₁ m₂ x c) (hloads : LoadsAvoid I (AtPC I) x.cfg)
    (hexit : x.atExit = false) (hstep : step I K x.func x.cfg = some d) :
    (∃ i ∈ x.func.instrs, x.cfg.code = i :: d.code ∧ d.bb = x.cfg.bb ∧ isCall i = false ∧
        Matches I T.module bbs m₀ m₁ m₂ ⟨x.func, d⟩ c) ∨
      ∃ i ∈ x.func.instrs, ∃ is i' is' c', x.cfg.code = i :: is ∧ c.code = i' :: is' ∧
        i'.id = i.id ∧ i'.op = i.op ∧
        getHexMetadataFromIns i' .INS_directCall = getHexMetadataFromIns i .INS_directCall ∧
        step I K (built name bbs hasIndirectJump m₀ m₁ m₂) c = some c' ∧
        Matches I T.module bbs m₀ m₁ m₂ ⟨x.func, d⟩ c' := by
  obtain ⟨b, hb, hbb, hsuf, ts, hts, hfollow⟩ := hmatch.code
  have hmem : ∀ i ∈ x.cfg.code, i ∈ x.func.instrs :=
    fun i hi => mem_instrs.mpr ⟨b, hb, hsuf.subset hi⟩
  have hT := X.sub x.func hmatch.func
  -- behind the instruction both sides stand in the same block
  have hrest : ∀ i is is' p p', x.cfg.code = i :: is → ClonedCode ts is is' →
      AgreesOffPC I T.module p p' →
      Matches I T.module bbs m₀ m₁ m₂ ⟨x.func, { x.cfg with code := is, now := p }⟩
        { c with code := is', now := p' } := fun i is is' p p' hcode h hag =>
    ⟨hmatch.func, ⟨b, hb, hbb, (List.suffix_cons i is).trans (hcode ▸ hsuf), ts, hts, h⟩,
      hmatch.bb, hag, hmatch.edge⟩
  unfold Place.atExit at hexit
  generalize hcode : x.cfg.code = code at hfollow hexit
  generalize hcode' : c.code = code' at hfollow
  cases hfollow with
  | nil => simp [step, hcode] at hstep
  | exit hfake => simp [hfake] at hexit
  | @erase i is _ hstore hcall hfake h =>
    have hi : i ∈ x.func.instrs := hmem i (by rw [hcode]; exact List.mem_cons_self)
    have hid : ∀ k, i.id = some k → ExitId T.module k := fun k hk => ⟨x.func, hT, i, hi, hstore, hk⟩
    obtain ⟨p, rfl, hp, -⟩ := step_silent (silent_of_isStoreTo hstore) hid hcode hstep
    have hm := hrest i is code' p c.now hcode h (hp.trans hmatch.now)
    rw [← hcode'] at hm
    exact .inl ⟨i, hi, rfl, rfl, hcall, hm⟩
  | @keep i i' is is' hid hop htag hfake h =>
    have hi : i ∈ x.func.instrs := hmem i (by rw [hcode]; exact List.mem_cons_self)
    right
    rcases step_agrees G.calls hcode hcode' hid hop (V.unused x.func hT i hi) hloads hmatch.now
        hmatch.edge hstep with
      ⟨bb, -, hgoto, hstep'⟩ | ⟨p, p', rfl, hp, -, hstep'⟩
    · obtain ⟨c', hc', hm'⟩ := X.goto_matches name hmatch hgoto
      exact ⟨i, hi, is, i', is', c', rfl, rfl, hid, hop, htag, (hstep' _).trans hc', hm'⟩
    · exact ⟨i, hi, is, i', is', _, rfl, rfl, hid, hop, htag, hstep' _,
        hrest i is is' p p' hcode h hp⟩

/-- **A step inside a block-function is matched, or it is a store to `PC` that is erased.** -/
theorem step_matches (G : Guest I addr) (V : ExitsTrue T.module)
    (hmatch : Matches I T.module bbs m₀ m₁ m₂ x c) (hloads : LoadsAvoid I (AtPC I) x.cfg)
    (hexit : x.atExit = false) (hstep : step I K x.func x.cfg = some d) :
    Matches I T.module bbs m₀ m₁ m₂ ⟨x.func, d⟩ c ∨
      ∃ c', step I K (built name bbs hasIndirectJump m₀ m₁ m₂) c = some c' ∧
        Matches I T.module bbs m₀ m₁ m₂ ⟨x.func, d⟩ c' := by
  rcases X.step_cases name G V hmatch hloads hexit hstep with
    ⟨-, -, -, -, -, hm⟩ | ⟨-, -, -, -, -, c', -, -, -, -, -, hc', hm⟩
  · exact .inl hm
  · exact .inr ⟨c', hc', hm⟩

/-! ## Leaving a block-function -/

omit [DecidableEq W] in
/-- At its fake return a block-function is done but for what replaces it. -/
theorem exit_cases (hmatch : Matches I T.module bbs m₀ m₁ m₂ x c) (hexit : x.atExit = true) :
    ∃ b ∈ x.func.blocks, x.block = some b ∧ ExitTerms m₀ m₁ m₂ (fakeId bbs) b c.code ∧
      (∀ pre t, ¬ InnerShape b pre t) ∧
      ∀ k pre s mid r, ExitShape k b pre s mid r → exitStore b = some s ∧ x.cfg.code = [r] := by
  obtain ⟨b, hb, hbb, hsuf, ts, hts, hfollow⟩ := hmatch.code
  have hT := X.sub x.func hmatch.func
  have hblock : x.block = some b := by
    have hnd : x.func.blockIds.Nodup := (List.nodup_flatMap.mp T.ids_nodup).1 x.func hT
    unfold Place.block
    rw [hbb]
    exact Func.find?_id hnd hb
  unfold Place.atExit at hexit
  revert hexit hsuf hfollow
  generalize x.cfg.code = code
  generalize c.code = code'
  intro hexit hsuf hfollow
  cases hfollow with
  | nil => cases hexit
  | keep _ _ _ hfake _ => simp [hfake] at hexit
  | erase _ _ hfake _ => simp [hfake] at hexit
  | @exit r hfake =>
    have hr : r ∈ b.instrs := hsuf.subset List.mem_cons_self
    refine ⟨b, hb, hblock, hts, fun pre t h => ?_, fun k pre s mid r' e =>
      ⟨e.exitStore_eq fun i hi => ?_, ?_⟩⟩
    · rw [h.notFake r hr] at hfake
      cases hfake
    · exact X.read x.func hmatch.func i (mem_instrs.mpr ⟨b, hb, hi⟩)
    · obtain ⟨is, his⟩ := hsuf
      have hlast : pre ++ s :: mid ++ [r'] = is ++ [r] := by rw [his, e.instrs]; simp
      rw [(List.append_inj' hlast rfl).2]

omit X [DecidableEq W] in
/-- A block-function starts with its entry block. -/
theorem exists_entry_of_find? {h : Func} {pc : UInt64} {st : State W E} {d : Config W E}
    (hfind : T.module.blockFunctions.find? (fun h => getPCStartOfFunc h = some pc) = some h)
    (hd : start h st = some d) :
    h ∈ T.module.blockFunctions ∧ getPCStartOfFunc h = some pc ∧
      ∃ e, h.blocks.head? = some e ∧ d = ⟨e.id, e.instrs, ⟨st, []⟩, none⟩ := by
  obtain ⟨e, he, rfl⟩ := Option.map_eq_some_iff.mp hd
  exact ⟨List.mem_of_find?_eq_some hfind, by simpa using List.find?_some hfind, e, he, rfl⟩

omit [DecidableEq W] in
theorem enter_matches (hmatch : Matches I T.module bbs m₀ m₁ m₂ x c) {h : Func} (hh : h ∈ bbs)
    {e : BasicBlock} (he : h.blocks.head? = some e) :
    ∃ c', c.goto (built name bbs hasIndirectJump m₀ m₁ m₂) e.id = some c' ∧
      Matches I T.module bbs m₀ m₁ m₂ ⟨h, ⟨e.id, e.instrs, ⟨x.cfg.now.st, []⟩, none⟩⟩ c' :=
  ⟨_, X.goto_built name (X.mem_inlined name hh (List.mem_of_head? he)) c,
    X.matches_block hh (List.mem_of_head? he) (hmatch.now.enter _) .none⟩

omit [DecidableEq W] in
/-- The switch of an indirect jump whose table holds, and where it goes. -/
theorem indirectTerms_of_table (m₂ : BBMap) {pre mid : List Instr} {s r : Instr} {M : Module}
    (e : ExitShape .indirectJump b pre s mid r)
    (hb : b ∈ (inlineBBs name bbs hasIndirectJump).1.blocks)
    (htable : TableHolds I K addr M bbs x b s) :
    ∃ v w pc, ∃ o : BlockId × List (UInt64 × BlockId), x.cfg.now.read I v = some w ∧
      exitPC I addr x.cfg.now s = some pc ∧ pc ∈ (nextPCList s).getD [] ∧
      (∃ i ∈ b.instrs, v ∈ i.op.operands) ∧
      indirectTerms m₂ (fakeId bbs) b.instrs s = [.switch v o.1 o.2] ∧
      K.select w o.1 o.2 = blockOr m₂ (fakeId bbs) pc := by
  obtain ⟨v, w, hv, hw, hgoes⟩ := htable.goes
  have hc := htable.complete
  obtain ⟨default_pc, cnt, idx, pcs, hd, hn, hi, hp⟩ :=
    ((X.ready name hb).ok s e.mem_store).switch e.store.hasTag_self hc
  have htarget : tableTarget K s w = some ((((pcs.zipIdx.find? fun p =>
      K.isCase w ((idx + UInt64.ofNat p.2) % 0x100000000)).map Prod.fst).getD default_pc)) := by
    simp [tableTarget, hd, hn, hi, hp]
  refine ⟨v, w, _, (blockOr m₂ (fakeId bbs) default_pc, casesFrom m₂ (fakeId bbs) idx 0 pcs), hw,
    hgoes.trans htarget, ?_, ?_, ?_, select_casesFrom m₂ idx default_pc pcs⟩
  · have hcall : isCall s = false := e.store.hasTag_ne (j := .call) (by simp)
    have hdir : s.has .INS_directJump = false := e.store.hasTag_ne (j := .directJump) (by simp)
    have hind : s.has .INS_indirectJump = true := e.store.hasTag_self
    have hcnt : s.has .INS_switch_cnt = true := has_of_getHexMetadata hn
    have hlist : nextPCList s = some (pcs ++ [default_pc]) := by
      simp [nextPCList, hcall, hdir, hind, hcnt, hn, hp, hd]
    rw [hlist, Option.getD_some]
    -- the entry of the table, or the default
    cases hfind : pcs.zipIdx.find? fun p => K.isCase w ((idx + UInt64.ofNat p.2) % 0x100000000) with
    | none => simp
    | some q =>
      obtain ⟨pc, n⟩ := q
      have hmem := List.mem_zipIdx' (List.mem_of_find?_eq_some hfind)
      simp only [Option.map_some, Option.getD_some, List.mem_append]
      exact .inl (hmem.2 ▸ List.getElem_mem hmem.1)
  · obtain ⟨u, hop⟩ := Instr.op_of_isStoreTo e.store.toPC
    obtain ⟨i, hi, hshift⟩ := exists_shift_of_meets ((getValueSwitchedOn_some_iff hop).mp hv)
    exact ⟨i, hi, mem_operands_of_shiftedIndex hshift.2⟩
  · have hop : switchOp m₂ (fakeId bbs) s v =
        some (.switch v (blockOr m₂ (fakeId bbs) default_pc)
          (casesFrom m₂ (fakeId bbs) idx 0 pcs)) := by
      simp [switchOp, hd, hn, hi, hp]
    simp [indirectTerms, switchTerms, hc, hv, hop]

omit X [DecidableEq W] in
/-- Behind a call the dispatcher goes on where the tag says. -/
theorem exitPC_call {pre mid : List Instr} {s r : Instr} (e : ExitShape .call b pre s mid r)
    (p : Point W E) : exitPC I addr p s = getHexMetadataFromIns s .INS_callReturn := by
  have hcall : isCall s = true := e.store.hasTag_self (k := .call)
  rw [exitPC, if_pos hcall]

omit X [DecidableEq W] in
/-- A direct jump goes where its tag says. -/
theorem exitPC_directJump (G : Guest I addr) (V : ExitsTrue T.module)
    (hg : g ∈ T.module.blockFunctions) (hb : b ∈ g.blocks) {pre mid : List Instr} {s r : Instr}
    (e : ExitShape .directJump b pre s mid r) (p : Point W E) :
    ∃ n, getHexMetadataFromIns s .INS_directJump = some n ∧ exitPC I addr p s = some n := by
  have hcall : isCall s = false := e.store.hasTag_ne (j := .call) (by simp)
  have hret : s.has .INS_return = false := e.store.hasTag_ne (j := .ret) (by simp)
  have hdir : s.has .INS_directJump = true := e.store.hasTag_self (k := .directJump)
  obtain ⟨v, hv⟩ := Instr.isStoreTo_iff.mp e.store.toPC
  obtain ⟨width, n, rfl, htag⟩ := V.direct g hg s (mem_instrs.mpr ⟨b, hb, e.mem_store⟩) hdir v hv
  refine ⟨n, htag, ?_⟩
  rw [exitPC, hcall, if_neg (by simp), hret, if_neg (by simp), hv, Option.bind_some,
    Point.read_of_leaf rfl, Option.map_some, G.addr_const]

omit X [DecidableEq W] in
theorem exitPC_ret {pre mid : List Instr} {s r : Instr} (e : ExitShape .ret b pre s mid r)
    (p : Point W E) : exitPC I addr p s = none := by
  have hcall : isCall s = false := e.store.hasTag_ne (j := .call) (by simp)
  have hret : s.has .INS_return = true := e.store.hasTag_self (k := .ret)
  rw [exitPC, hcall, if_neg (by simp), hret, if_pos rfl]

omit [DecidableEq W] in
/-- The block-function that the dispatcher starts is inlined, if the exit names its program
counter. -/
theorem exists_of_leave (hfunc : x.func ∈ bbs) (hb : b ∈ x.func.blocks) (hblock : x.block = some b)
    {k : ExitKind} {pre mid : List Instr} {s r : Instr} (e : ExitShape k b pre s mid r)
    (hs : exitStore b = some s) (hleave : leave I addr T.module x = some y) :
    ∃ pc h entry, exitPC I addr x.cfg.now s = some pc ∧ getPCStartOfFunc h = some pc ∧
      h.blocks.head? = some entry ∧ y = ⟨h, ⟨entry.id, entry.instrs, ⟨x.cfg.now.st, []⟩, none⟩⟩ ∧
      (pc ∈ (nextPCList s).getD [] → h ∈ bbs) := by
  obtain ⟨b', hb', hleave⟩ := Option.bind_eq_some_iff.mp hleave
  obtain rfl := Option.some.inj (hblock.symm.trans hb')
  obtain ⟨s', hs', hleave⟩ := Option.bind_eq_some_iff.mp hleave
  obtain rfl := Option.some.inj (hs.symm.trans hs')
  obtain ⟨pc, hpc, hleave⟩ := Option.bind_eq_some_iff.mp hleave
  obtain ⟨h, hh, hleave⟩ := Option.bind_eq_some_iff.mp hleave
  obtain ⟨d, hd, hy⟩ := Option.bind_eq_some_iff.mp hleave
  obtain ⟨hhT, hstart, entry, hentry, rfl⟩ := exists_entry_of_find? hh hd
  refine ⟨pc, h, entry, hpc, hstart, hentry, (Option.some.inj hy).symm, fun hmem => ?_⟩
  have hsi : s ∈ x.func.instrs := mem_instrs.mpr ⟨b, hb, e.mem_store⟩
  obtain ⟨pcs, hpcs⟩ := Option.isSome_iff_exists.mp (X.read x.func hfunc s hsi e.store.toPC)
  rw [hpcs] at hmem
  exact X.closed x.func hfunc s hsi e.store.toPC pcs hpcs pc hmem h hhT hstart

section

variable {pre mid : List Instr} {s r : Instr} {pc : UInt64} {h : Func} {entry : BasicBlock}

omit [DecidableEq W] in
theorem callTarget_of_start (hm : Maps (inlineBBs name bbs hasIndirectJump).1 m₀ m₁ m₂)
    (hcall : isCall s = true) (hpc : getHexMetadataFromIns s .INS_callReturn = some pc)
    (hh : h ∈ bbs) (hstart : getPCStartOfFunc h = some pc) (hentry : h.blocks.head? = some entry) :
    callTarget m₀ s = some entry.id := by
  rw [callTarget, if_pos hcall, hpc, Option.bind_some, X.lookup_calls name hm hh hstart hentry]

omit [DecidableEq W] in
theorem jumpTarget_of_start (hm : Maps (inlineBBs name bbs hasIndirectJump).1 m₀ m₁ m₂)
    (e : ExitShape .directJump b pre s mid r)
    (htag : getHexMetadataFromIns s .INS_directJump = some pc) (hh : h ∈ bbs)
    (hstart : getPCStartOfFunc h = some pc) (hentry : h.blocks.head? = some entry) :
    jumpTarget m₁ s = some (s, entry.id) := by
  have hdir : s.has .INS_directJump = true := e.store.hasTag_self (k := .directJump)
  rw [jumpTarget, if_pos hdir, htag, Option.bind_some, X.lookup_jumps name hm hh hstart hentry,
    Option.map_some]

/-- A branch is next, to the block-function that the dispatcher starts. -/
theorem branch_matches (hmatch : Matches I T.module bbs m₀ m₁ m₂ x c) (hh : h ∈ bbs)
    (hentry : h.blocks.head? = some entry) (hcode : c.code = [Instr.fresh (.br entry.id)]) :
    ∃ c', step I K (built name bbs hasIndirectJump m₀ m₁ m₂) c = some c' ∧
      Matches I T.module bbs m₀ m₁ m₂ ⟨h, ⟨entry.id, entry.instrs, ⟨x.cfg.now.st, []⟩,
        none⟩⟩ c' := by
  obtain ⟨c', hc', hm'⟩ := X.enter_matches name hmatch hh hentry
  exact ⟨c', by simpa [step, hcode, Instr.fresh] using hc', hm'⟩

/-- A switch is next, and its value selects the block. -/
theorem step_switch (V : ExitsTrue T.module) (hmatch : Matches I T.module bbs m₀ m₁ m₂ x c)
    (hb : b ∈ x.func.blocks) {v : Value} {w : W} {o : BlockId × List (UInt64 × BlockId)}
    (hv : ∃ i ∈ b.instrs, v ∈ i.op.operands) (hw : x.cfg.now.read I v = some w)
    (hcode : c.code = [Instr.fresh (.switch v o.1 o.2)]) {bb : BlockId}
    (hselect : K.select w o.1 o.2 = bb) :
    step I K (built name bbs hasIndirectJump m₀ m₁ m₂) c =
      c.goto (built name bbs hasIndirectJump m₀ m₁ m₂) bb := by
  obtain ⟨i, hi, hv⟩ := hv
  have hT := X.sub x.func hmatch.func
  -- the value is no store to `PC`, so both sides read the same
  have hw' : c.now.read I v = some w :=
    hmatch.now.read (V.unused x.func hT i (mem_instrs.mpr ⟨b, hb, hi⟩) v hv) hw
  simp [step, hcode, Instr.fresh, hw', hselect]

end

/-- **When the dispatcher starts another block-function, the built function branches to it.** -/
theorem leave_matches (G : Guest I addr) (V : ExitsTrue T.module)
    (hm : Maps (inlineBBs name bbs hasIndirectJump).1 m₀ m₁ m₂)
    (hmatch : Matches I T.module bbs m₀ m₁ m₂ x c) (hexit : x.atExit = true)
    (htables : ∀ b s, x.block = some b → exitStore b = some s → s.has .INS_indirectJump = true →
      TableHolds I K addr T.module bbs x b s) (hleave : leave I addr T.module x = some y) :
    ∃ c', step I K (built name bbs hasIndirectJump m₀ m₁ m₂) c = some c' ∧
      Matches I T.module bbs m₀ m₁ m₂ y c' := by
  obtain ⟨b, hb, hblock, hts, hinner, hshape⟩ := X.exit_cases hmatch hexit
  have hknown := fun k pre s mid r (e : ExitShape k b pre s mid r) =>
    X.exists_of_leave hmatch.func hb hblock e (hshape k pre s mid r e).1 hleave
  generalize hcode : c.code = code at hts
  cases hts with
  | inner h => exact absurd h (hinner _ _)
  | @call pre mid s r e =>
    obtain ⟨pc, h, entry, hpc, hstart, hentry, rfl, hclosed⟩ := hknown _ _ _ _ _ e
    have hcall : isCall s = true := e.store.hasTag_self (k := .call)
    rw [exitPC_call e] at hpc
    have hh : h ∈ bbs := hclosed (by simp [nextPCList, hcall, hpc])
    rw [X.callTarget_of_start name hm hcall hpc hh hstart hentry] at hcode
    exact X.branch_matches name hmatch hh hentry hcode
  | @directJump pre mid s r e =>
    obtain ⟨pc, h, entry, hpc, hstart, hentry, rfl, hclosed⟩ := hknown _ _ _ _ _ e
    have hcall : isCall s = false := e.store.hasTag_ne (j := .call) (by simp)
    have hdir : s.has .INS_directJump = true := e.store.hasTag_self (k := .directJump)
    obtain ⟨n, htag, hn⟩ := exitPC_directJump G V (X.sub x.func hmatch.func) hb e x.cfg.now
    obtain rfl := Option.some.inj (hpc.symm.trans hn)
    have hh : h ∈ bbs := hclosed (by simp [nextPCList, hcall, hdir, htag])
    rw [X.jumpTarget_of_start name hm e htag hh hstart hentry] at hcode
    exact X.branch_matches name hmatch hh hentry hcode
  | @indirectJump pre mid s r e =>
    obtain ⟨pc, h, entry, hpc, hstart, hentry, rfl, hclosed⟩ := hknown _ _ _ _ _ e
    have htable := htables b s hblock (hshape _ _ _ _ _ e).1
      (e.store.hasTag_self (k := .indirectJump))
    obtain ⟨v, w, pc', o, hw, hpc', hmem, hv, hterms, hselect⟩ :=
      X.indirectTerms_of_table name m₂ e (X.mem_inlined name hmatch.func hb) htable
    obtain rfl := Option.some.inj (hpc.symm.trans hpc')
    have hh : h ∈ bbs := hclosed hmem
    -- the block map has the block-function that is started: it has kept its start
    rw [(X.blockOr_eq_iff name hm hh hstart hentry).mpr (htable.keeps _ hleave)] at hselect
    rw [hterms] at hcode
    obtain ⟨c', hc', hm'⟩ := X.enter_matches name hmatch hh hentry
    exact ⟨c', (X.step_switch name V hmatch hb hv hw hcode hselect).trans hc', hm'⟩
  | ret e =>
    obtain ⟨pc, -, -, hpc, -⟩ := hknown _ _ _ _ _ e
    rw [exitPC_ret e] at hpc
    cases hpc

/-- The dispatcher and the built function. -/
theorem simulation_dispatch (G : Guest I addr) (V : ExitsTrue T.module)
    (hm : Maps (inlineBBs name bbs hasIndirectJump).1 m₀ m₁ m₂) :
    Simulation (dispatch I K addr T.module) (step I K (built name bbs hasIndirectJump m₀ m₁ m₂))
      (Matches I T.module bbs m₀ m₁ m₂) (Followed I K addr T.module bbs) := by
  intro x c y hmatch hQ hstep
  unfold dispatch at hstep
  split_ifs at hstep with hexit
  · exact .inr (X.leave_matches name G V hm hmatch hexit (hQ.tables hexit) hstep)
  · obtain ⟨d, hd, rfl⟩ := Option.map_eq_some_iff.mp hstep
    exact X.step_matches name G V hmatch hQ.loads (by simpa using hexit) hd

/-! ## The end of a run -/

omit [DecidableEq W] in
/-- Where the dispatcher ends, no block-function that is inlined starts at the program counter of
the exit. -/
theorem not_started_of_leave (hblock : x.block = some b) {s : Instr} (hs : exitStore b = some s)
    (hleave : leave I addr T.module x = none) {pc : UInt64}
    (hpc : exitPC I addr x.cfg.now s = some pc) : ∀ g ∈ bbs, getPCStartOfFunc g ≠ some pc := by
  intro g hg hstart
  unfold leave at hleave
  rw [hblock, Option.bind_eq_bind, Option.bind_some, hs, Option.bind_eq_bind, Option.bind_some, hpc,
    Option.bind_eq_bind, Option.bind_some] at hleave
  cases hfind : T.module.blockFunctions.find? fun h => getPCStartOfFunc h = some pc with
  | none => exact absurd (List.find?_eq_none.mp hfind g (X.sub g hg)) (by simp [hstart])
  | some h =>
    have hstart' : getPCStartOfFunc h = some pc := by simpa using List.find?_some hfind
    obtain ⟨entry, hentry⟩ := exists_entry hstart'
    rw [hfind] at hleave
    simp [start, hentry] at hleave

section

variable {pre mid : List Instr} {s r : Instr} {pc : UInt64}

omit [DecidableEq W] in
/-- A call that comes back to no inlined block-function keeps its return. -/
theorem callTarget_eq_none (hm : Maps (inlineBBs name bbs hasIndirectJump).1 m₀ m₁ m₂)
    (e : ExitShape .call b pre s mid r)
    (hno : ∀ pc, getHexMetadataFromIns s .INS_callReturn = some pc →
      ∀ g ∈ bbs, getPCStartOfFunc g ≠ some pc) :
    callTarget m₀ s = none := by
  have hcall : isCall s = true := e.store.hasTag_self (k := .call)
  refine Option.eq_none_iff_forall_ne_some.mpr fun bb htarget => ?_
  rw [callTarget, if_pos hcall] at htarget
  obtain ⟨pc, hpc, hl⟩ := Option.bind_eq_some_iff.mp htarget
  have hself : (inlineBBs name bbs hasIndirectJump).1.mapBlocks id =
      (inlineBBs name bbs hasIndirectJump).1 :=
    Func.mapBlocks_id fun _ _ => rfl
  have hcalls : buildBBMap ((inlineBBs name bbs hasIndirectJump).1.mapBlocks id) = some m₀ :=
    hself.symm ▸ hm.calls
  obtain ⟨g, hg, hstart⟩ := X.exists_of_lookup name (fun _ => rfl) (fun _ i hi _ h =>
    ⟨i, hi, h⟩) hcalls hl
  exact hno pc hpc g hg hstart

omit [DecidableEq W] in
theorem jumpTarget_eq_none (hm : Maps (inlineBBs name bbs hasIndirectJump).1 m₀ m₁ m₂)
    (e : ExitShape .directJump b pre s mid r)
    (htag : getHexMetadataFromIns s .INS_directJump = some pc)
    (hno : ∀ g ∈ bbs, getPCStartOfFunc g ≠ some pc) : jumpTarget m₁ s = none := by
  have hdir : s.has .INS_directJump = true := e.store.hasTag_self (k := .directJump)
  refine Option.eq_none_iff_forall_ne_some.mpr fun u htarget => ?_
  obtain ⟨g, hg, hstart⟩ := (X.jumpTarget_isSome_iff name hm hdir).mp
    ⟨u.2,
      by rw [htarget, ← (jumpTarget_eq_some (show jumpTarget m₁ s = some (u.1, u.2) from htarget)).1]⟩
  exact hno g hg (hstart.symm.trans htag)

omit [DecidableEq W] in
theorem blockOr_eq_fake (hm : Maps (inlineBBs name bbs hasIndirectJump).1 m₀ m₁ m₂)
    (hno : ∀ g ∈ bbs, getPCStartOfFunc g ≠ some pc) :
    blockOr m₂ (fakeId bbs) pc = (fakeBlock bbs).id := by
  unfold blockOr
  cases hl : m₂.lookup pc with
  | none => rfl
  | some bb =>
    obtain ⟨g, hg, hstart⟩ := X.exists_of_lookup name (fun b => by simp) (fun _ _ hi _ h => by
      obtain ⟨j, hj, hjpc⟩ := exists_getBBStart_jumpsBlock hi h
      exact exists_getBBStart_callsBlock hj hjpc) hm.indirect hl
    exact absurd hstart (hno g hg)

omit [DecidableEq W] in
/-- The block for indirect jumps is there, and holds a return. -/
theorem goto_fakeBlock (hfunc : g ∈ bbs) (hb : b ∈ g.blocks)
    (e : ExitShape .indirectJump b pre s mid r) (c : Config W E) :
    c.goto (built name bbs hasIndirectJump m₀ m₁ m₂) (fakeBlock bbs).id =
      some ⟨(fakeBlock bbs).id, (fakeBlock bbs).instrs, c.now, some (c.bb, c.now)⟩ := by
  have hind : s.has .INS_indirectJump = true := e.store.hasTag_self (k := .indirectJump)
  have hhas : hasIndirectJump = true :=
    X.indirect g hfunc s (mem_instrs.mpr ⟨b, hb, e.mem_store⟩) hind
  have hin : fakeBlock bbs ∈ (inlineBBs name bbs hasIndirectJump).1.blocks :=
    (X.mem_blocks name).mpr (.inr ⟨hhas, rfl⟩)
  rw [X.goto_built name hin, (innerShape_fakeBlock bbs).finalBlock_eq]

end

omit X in
/-- A return is next already. -/
theorem returns_of_code {f : Func} {i : Instr} {is : List Instr} (hcode : c.code = i :: is)
    (hret : ∃ v, i.op = .ret v) :
    ∃ zs c', Run (step I K f) c zs c' ∧ zs.length ≤ 1 ∧ AtReturn c' ∧ c'.now = c.now := by
  obtain ⟨v, hv⟩ := hret
  exact ⟨[], c, .refl c, Nat.zero_le _, ⟨i, is, v, hcode, hv⟩, rfl⟩

/-- **When the dispatcher knows no block-function to go on with, the built function returns.** -/
theorem leave_returns (G : Guest I addr) (V : ExitsTrue T.module)
    (hm : Maps (inlineBBs name bbs hasIndirectJump).1 m₀ m₁ m₂)
    (hmatch : Matches I T.module bbs m₀ m₁ m₂ x c) (hexit : x.atExit = true)
    (htables : ∀ b s, x.block = some b → exitStore b = some s → s.has .INS_indirectJump = true →
      TableHolds I K addr T.module bbs x b s) (hleave : leave I addr T.module x = none) :
    ∃ zs c', Run (step I K (built name bbs hasIndirectJump m₀ m₁ m₂)) c zs c' ∧
      zs.length ≤ 1 ∧ AtReturn c' ∧ c'.now = c.now := by
  obtain ⟨b, hb, hblock, hts, hinner, hshape⟩ := X.exit_cases hmatch hexit
  have hunknown : ∀ k pre s mid r, ExitShape k b pre s mid r →
      ∀ pc, exitPC I addr x.cfg.now s = some pc →
      ∀ g ∈ bbs, getPCStartOfFunc g ≠ some pc := fun k pre s mid r e pc hpc =>
    X.not_started_of_leave hblock (hshape k pre s mid r e).1 hleave hpc
  generalize hcode : c.code = code at hts
  cases hts with
  | inner h => exact absurd h (hinner _ _)
  | @call pre mid s r e =>
    have hno := hunknown _ _ _ _ _ e
    rw [exitPC_call e] at hno
    rw [X.callTarget_eq_none name hm e hno] at hcode
    exact returns_of_code hcode e.ret.isRet
  | @directJump pre mid s r e =>
    obtain ⟨n, htag, hn⟩ := exitPC_directJump G V (X.sub x.func hmatch.func) hb e x.cfg.now
    rw [X.jumpTarget_eq_none name hm e htag (hunknown _ _ _ _ _ e n hn)] at hcode
    exact returns_of_code hcode e.ret.isRet
  | @indirectJump pre mid s r e =>
    have htable := htables b s hblock (hshape _ _ _ _ _ e).1
      (e.store.hasTag_self (k := .indirectJump))
    obtain ⟨v, w, pc, o, hw, hpc, -, hv, hterms, hselect⟩ :=
      X.indirectTerms_of_table name m₂ e (X.mem_inlined name hmatch.func hb) htable
    rw [X.blockOr_eq_fake name hm (hunknown _ _ _ _ _ e pc hpc)] at hselect
    rw [hterms] at hcode
    -- one step to the block for indirect jumps, which returns
    have hstep := (X.step_switch name V hmatch hb hv hw hcode hselect).trans
      (X.goto_fakeBlock name hmatch.func hb e c)
    exact ⟨_, _, .head hstep (.refl _), Nat.le_refl 1, ⟨Instr.fresh (.ret none), [], none,
      rfl, rfl⟩, rfl⟩
  | ret => exact returns_of_code hcode ⟨none, rfl⟩

end Explored

/-! ## The block in front of an entry -/

section

variable {W E : Type} {I : Interp W E} {K : Control W} {f : Func} {c d : Config W E}
variable {xs : List (Config W E)}

theorem name_built {name : String} {bbs : List Func} (hasIndirectJump : Bool) (m₀ m₁ m₂ : BBMap) :
    (fixupEntry (built name bbs hasIndirectJump m₀ m₁ m₂)).name = name := by
  rw [name_fixupEntry]
  unfold built inlineBBs
  cases hasIndirectJump <;> rfl

/-- The block in front is gone to by nobody. -/
theorem goto_fixupEntry {bb : BlockId} (h : c.goto f bb = some d) :
    c.goto (fixupEntry f) bb = some d := by
  unfold fixupEntry
  split
  · exact h
  · rename_i entry bbs hblocks
    split_ifs
    · obtain ⟨b, hb, rfl, -⟩ := mem_of_goto h
      have hne : f.freshBlockId ≠ b.id := (Func.lt_freshBlockId (Func.mem_blockIds hb)).ne'
      unfold Config.goto at h ⊢
      rw [← hblocks, List.find?_cons_of_neg (by simpa using hne)]
      exact h
    · exact h

variable [DecidableEq W]

theorem step_fixupEntry (h : step I K f c = some d) : step I K (fixupEntry f) c = some d := by
  unfold step at h ⊢
  split at h
  · cases h
  · rename_i i is hcode
    split at h
    · exact h
    · exact goto_fixupEntry h
    · obtain ⟨w, hw, hgoto⟩ := Option.bind_eq_some_iff.mp h
      simp [hw, goto_fixupEntry hgoto]
    · obtain ⟨w, hw, hgoto⟩ := Option.bind_eq_some_iff.mp h
      simp [hw, goto_fixupEntry hgoto]
    · cases h
    · cases h
    · exact h

theorem run_fixupEntry (h : Run (step I K f) c xs d) : Run (step I K (fixupEntry f)) c xs d := by
  induction h with
  | refl c => exact .refl c
  | head hstep _ ih => exact .head (step_fixupEntry hstep) ih

variable {T : TaggedModule} {N : Module} {all : List (UInt64 × Func)} {entry : Func}
variable {bbs : List Func} {hasIndirectJump : Bool} {m₀ m₁ m₂ : BBMap} {addr : W → UInt64}
variable {st : State W E} {c₀ : Config W E} {ps : List (Place W E)} {x : Place W E}

/-- The built function starts where the dispatcher starts, or in front of it. -/
theorem Explored.start_matches (X : Explored T bbs hasIndirectJump)
    (hexplore : exploreBB all entry = some (bbs, hasIndirectJump)) (name : String)
    (hstart : start entry st = some c₀) {st' : State W E}
    (hag : AgreesOffPC I T.module ⟨st, []⟩ ⟨st', []⟩) :
    ∃ c₀' zs c, start (fixupEntry (built name bbs hasIndirectJump m₀ m₁ m₂)) st' = some c₀' ∧
      Run (step I K (fixupEntry (built name bbs hasIndirectJump m₀ m₁ m₂))) c₀' zs c ∧
      zs.length ≤ 1 ∧
      (∀ z ∈ zs, ∀ i ∈ z.code, i.op.isTerminator = true) ∧
      Matches I T.module bbs m₀ m₁ m₂ ⟨entry, c₀⟩ c := by
  obtain ⟨e, he, rfl⟩ := Option.map_eq_some_iff.mp hstart
  have hentry : entry ∈ bbs := List.mem_of_head? (exploreBB_head? hexplore)
  have hblock : ∀ edge', Matches I T.module bbs m₀ m₁ m₂ ⟨entry, ⟨e.id, e.instrs, ⟨st, []⟩, none⟩⟩
      ⟨e.id, (finalBlock m₀ m₁ m₂ (fakeId bbs) e).instrs, ⟨st', []⟩, edge'⟩ := fun edge' =>
    X.matches_block hentry (List.mem_of_head? he) hag .none
  have hhead : (built name bbs hasIndirectJump m₀ m₁ m₂).blocks.head? =
      some (finalBlock m₀ m₁ m₂ (fakeId bbs) e) := by
    rw [Func.blocks_mapBlocks, List.head?_map, head?_inlineBBs hexplore name he]
    rfl
  have hid : (finalBlock m₀ m₁ m₂ (fakeId bbs) e).id = e.id := by simp [finalBlock]
  generalize hF : built name bbs hasIndirectJump m₀ m₁ m₂ = F at hhead ⊢
  cases hblocks : F.blocks with
  | nil => rw [hblocks] at hhead; cases hhead
  | cons e' rest =>
    obtain rfl : e' = finalBlock m₀ m₁ m₂ (fakeId bbs) e := by
      rw [hblocks] at hhead
      exact Option.some.inj hhead
    -- with the block in front there is one branch more
    by_cases hfix : (finalBlock m₀ m₁ m₂ (fakeId bbs) e).name = "func_entry_point" ∧
        hasUses F (finalBlock m₀ m₁ m₂ (fakeId bbs) e).id
    · have hF' : (fixupEntry F).blocks.head? = some ⟨F.freshBlockId, "fixup_entry",
          [⟨none, .br (finalBlock m₀ m₁ m₂ (fakeId bbs) e).id,
            ((finalBlock m₀ m₁ m₂ (fakeId bbs) e).instrs.head?.map Instr.md).getD []⟩]⟩ := by
        unfold fixupEntry
        rw [hblocks]
        simp only [if_pos hfix, List.head?_cons]
      refine ⟨⟨F.freshBlockId, _, ⟨st', []⟩, none⟩, [_],
        ⟨e.id, (finalBlock m₀ m₁ m₂ (fakeId bbs) e).instrs, ⟨st', []⟩,
          some (F.freshBlockId, ⟨st', []⟩)⟩,
        by rw [start, hF', Option.map_some], .head ?_ (.refl _), Nat.le_refl 1,
          fun z hz => ?_, hblock _⟩
      swap
      · intro i hi
        rw [List.mem_singleton.mp hz] at hi
        rw [List.mem_singleton.mp hi]
        rfl
      refine goto_fixupEntry ?_
      rw [← hF, hid]
      exact X.goto_built name (X.mem_inlined name hentry (List.mem_of_head? he)) _
    · have hF' : fixupEntry F = F := by
        unfold fixupEntry
        rw [hblocks]
        simp only [if_neg hfix]
      refine ⟨_, [], ⟨e.id, (finalBlock m₀ m₁ m₂ (fakeId bbs) e).instrs, ⟨st', []⟩, none⟩, ?_,
        .refl _, Nat.zero_le 1, fun z hz => absurd hz List.not_mem_nil, hblock _⟩
      rw [hF', start, hblocks, List.head?_cons, Option.map_some, hid]

/-- The function that is built for an entry point, with the maps of its fixups. -/
theorem exists_maps_built (T : TaggedModule) (hN : runOnModule T.module = some N)
    (hall : allBBs T.module = some all) (hentry : entry ∈ T.module.blockFunctions)
    (hpoint : isEntryPoint entry = true)
    (hexplore : exploreBB all entry = some (bbs, hasIndirectJump)) :
    ∃ m₀ m₁ m₂, Maps (inlineBBs ("final-func-" ++ entry.name) bbs hasIndirectJump).1 m₀ m₁ m₂ ∧
      fixupEntry (built ("final-func-" ++ entry.name) bbs hasIndirectJump m₀ m₁ m₂) ∈ N.funcs := by
  have X := explored T hall hentry hexplore
  obtain ⟨f, hmake, hf⟩ := exists_built hall hN hentry hpoint
  obtain ⟨m₀, m₁, m₂, hm, hiff⟩ := X.makeFunctionForward_eq ("final-func-" ++ entry.name) hexplore
  obtain ⟨-, rfl⟩ := (hiff f).mp hmake
  exact ⟨m₀, m₁, m₂, hm, hf⟩

theorem Explored.run_matches (X : Explored T bbs hasIndirectJump)
    (hexplore : exploreBB all entry = some (bbs, hasIndirectJump)) (name : String)
    (G : Guest I addr) (V : ExitsTrue T.module)
    (hm : Maps (inlineBBs name bbs hasIndirectJump).1 m₀ m₁ m₂) (hstart : start entry st = some c₀)
    (hrun : Run (dispatch I K addr T.module) ⟨entry, c₀⟩ ps x)
    (hQ : ∀ y ∈ ps, Followed I K addr T.module bbs y) :
    ∃ c₀' ys c', start (fixupEntry (built name bbs hasIndirectJump m₀ m₁ m₂)) st = some c₀' ∧
      Run (step I K (fixupEntry (built name bbs hasIndirectJump m₀ m₁ m₂))) c₀' ys c' ∧
      ys.length ≤ ps.length + 1 ∧ Matches I T.module bbs m₀ m₁ m₂ x c' := by
  obtain ⟨c₀', zs, c, hc₀, hzs, hlen, -, hmatch⟩ :=
    X.start_matches (I := I) (K := K) hexplore name hstart (.refl _)
  obtain ⟨ys, d, hys, hlen', hd⟩ := hrun.simulates (X.simulation_dispatch name G V hm) hQ hmatch
  exact ⟨c₀', zs ++ ys, d, hc₀, hzs.append (run_fixupEntry hys),
    by rw [List.length_append]; omega, hd⟩

/-- **A run of the dispatcher from an entry point is a run of the function built for it**: it comes
to the same block with the same results, the same memory apart from `PC`, and the same world. -/
theorem runOnModule_simulates (T : TaggedModule) (hN : runOnModule T.module = some N)
    (hall : allBBs T.module = some all) (hentry : entry ∈ T.module.blockFunctions)
    (hpoint : isEntryPoint entry = true)
    (hexplore : exploreBB all entry = some (bbs, hasIndirectJump)) (G : Guest I addr)
    (V : ExitsTrue T.module) (hstart : start entry st = some c₀)
    (hrun : Run (dispatch I K addr T.module) ⟨entry, c₀⟩ ps x)
    (hQ : ∀ y ∈ ps, Followed I K addr T.module bbs y) :
    ∃ f ∈ N.funcs, f.name = "final-func-" ++ entry.name ∧ ∃ c₀' ys c, start f st = some c₀' ∧
      Run (step I K f) c₀' ys c ∧ ys.length ≤ ps.length + 1 ∧ c.bb = x.cfg.bb ∧
      AgreesOffPC I T.module x.cfg.now c.now := by
  have X := explored T hall hentry hexplore
  obtain ⟨m₀, m₁, m₂, hm, hf⟩ := exists_maps_built T hN hall hentry hpoint hexplore
  obtain ⟨c₀', ys, c, hc₀, hys, hlen, hmatch⟩ := X.run_matches hexplore _ G V hm hstart hrun hQ
  exact ⟨_, hf, name_built hasIndirectJump m₀ m₁ m₂, c₀', ys, c, hc₀, hys, hlen,
    hmatch.bb, hmatch.now⟩

/-- **Where the dispatcher ends the built function returns**: at a return, and behind an exit to a
program counter at which no block-function starts. -/
theorem runOnModule_returns (T : TaggedModule) (hN : runOnModule T.module = some N)
    (hall : allBBs T.module = some all) (hentry : entry ∈ T.module.blockFunctions)
    (hpoint : isEntryPoint entry = true)
    (hexplore : exploreBB all entry = some (bbs, hasIndirectJump)) (G : Guest I addr)
    (V : ExitsTrue T.module) (hstart : start entry st = some c₀)
    (hrun : Run (dispatch I K addr T.module) ⟨entry, c₀⟩ ps x)
    (hQ : ∀ y ∈ ps ++ [x], Followed I K addr T.module bbs y) (hexit : x.atExit = true)
    (hleave : leave I addr T.module x = none) :
    ∃ f ∈ N.funcs, f.name = "final-func-" ++ entry.name ∧ ∃ c₀' ys c, start f st = some c₀' ∧
      Run (step I K f) c₀' ys c ∧ ys.length ≤ ps.length + 2 ∧ AtReturn c ∧
      AgreesOffPC I T.module x.cfg.now c.now := by
  have X := explored T hall hentry hexplore
  obtain ⟨m₀, m₁, m₂, hm, hf⟩ := exists_maps_built T hN hall hentry hpoint hexplore
  obtain ⟨c₀', ys, c, hc₀, hys, hlen, hmatch⟩ := X.run_matches hexplore _ G V hm hstart hrun
    fun y hy => hQ y (List.mem_append_left _ hy)
  have hx := hQ x (List.mem_append_right _ (List.mem_singleton_self x))
  obtain ⟨zs, d, hzs, hlen', hret, hnow⟩ :=
    X.leave_returns _ G V hm hmatch hexit (hx.tables hexit) hleave
  refine ⟨_, hf, name_built hasIndirectJump m₀ m₁ m₂, c₀', ys ++ zs, d, hc₀,
    hys.append (run_fixupEntry hzs), ?_, hret, hnow ▸ hmatch.now⟩
  rw [List.length_append]
  omega

end

/-! ## Two block-functions -/

/-- `0x8000` jumps to `0xa000`. -/
def entryJump : Func :=
  exitFunc "void-tcg-llvm-tb-0-8000" "func_entry_point" 1 [⟨some 10, .load (.global "R3"),
    [tagPC .BB_pcStart 0x8000]⟩]
    ⟨some 11, .store (.constInt 32 0xa000) (.global "PC"),
      [tagPC .BB_pcStart 0x8000, tagPC .INS_directJump 0xa000]⟩

theorem taggedFunc_entryJump : TaggedFunc entryJump :=
  taggedFunc_exitFunc (k := .directJump) 0x8000 ⟨rfl, fun k => by cases k <;> rfl, rfl⟩
    (by simpa using ⟨rfl, fun k => by cases k <;> rfl, rfl⟩) (by decide) (Or.inr rfl)
    (by decide) (by decide)

theorem blockFunctions_entryJump :
    (⟨[entryJump, onlyReturn]⟩ : Module).blockFunctions = [entryJump, onlyReturn] := by
  have h0 : Func.isBlockFunction entryJump = true := by decide
  have h1 : Func.isBlockFunction onlyReturn = true := by decide
  simp [Module.blockFunctions, h0, h1]

def entryModule : TaggedModule where
  module := ⟨[entryJump, onlyReturn]⟩
  tagged := by
    rw [blockFunctions_entryJump]
    simpa using ⟨taggedFunc_entryJump, taggedFunc_onlyReturn⟩
  start_inj := by
    have h0 : getPCStartOfFunc entryJump = some 0x8000 := by decide
    have h1 : getPCStartOfFunc onlyReturn = some 0xa000 := by decide
    rw [blockFunctions_entryJump]
    simp [h0, h1]
  ids_nodup := by
    rw [blockFunctions_entryJump]
    simp [entryJump, onlyReturn, exitFunc, Func.blockIds]

/-- Words that are their own names. -/
def names : Interp Value Unit where
  leaf := id
  binop _ a _ := a
  other _ _ := .undef
  call _ mem ext := (.undef, mem, ext)
  global_inj _ _ := Value.global.inj

def namesAddr (v : Value) : UInt64 := v.constInt?.getD 0

def namesControl : Control Value := ⟨fun _ => true, fun v n => v.constInt? == some n⟩

theorem guest_names : Guest names namesAddr := ⟨fun _ _ => rfl, fun _ _ _ _ h => ⟨rfl, h, rfl⟩⟩

theorem exitsTrue_entryModule : ExitsTrue entryModule.module where
  unused := by
    unfold ExitId
    rw [show entryModule.module.blockFunctions = [entryJump, onlyReturn] from
      blockFunctions_entryJump]
    have hid : ∀ g ∈ [entryJump, onlyReturn], ∀ s ∈ g.instrs, s.isStoreTo "PC" = true →
        s.id ∈ [some 11, some 30] := by
      decide
    have hop : ∀ g ∈ [entryJump, onlyReturn], ∀ i ∈ g.instrs, ∀ k ∈ [11, 30],
      Value.inst k ∉ i.op.operands := by decide
    rintro g hg i hi v hv k rfl ⟨g', hg', s, hs, hstore, hk⟩
    have hmem := hid g' hg' s hs hstore
    rw [hk] at hmem
    exact hop g hg i hi k (by simpa using hmem) hv
  direct := by
    show ∀ g ∈ (⟨[entryJump, onlyReturn]⟩ : Module).blockFunctions, _
    rw [blockFunctions_entryJump]
    have hall : ∀ g ∈ [entryJump, onlyReturn], ∀ s ∈ g.instrs, s.has .INS_directJump = true →
        s.storeTo? "PC" = some (.constInt 32 0xa000) ∧ getHexMetadataFromIns s .INS_directJump =
        some 0xa000 := by
      decide
    intro g hg s hs hdir v hv
    obtain ⟨hstore, htag⟩ := hall g hg s hs hdir
    exact ⟨32, 0xa000, Option.some.inj (hv.symm.trans hstore), htag⟩

def namesState : State Value Unit := ⟨fun _ => .undef, id, ()⟩

/-- The jump is taken, and `0xa000` returns. -/
theorem run_entryModule : ∃ c₀ ps x, start entryJump namesState = some c₀ ∧
    Run (dispatch names namesControl namesAddr entryModule.module) ⟨entryJump, c₀⟩ ps x ∧
    (∀ y ∈ ps ++ [x], Followed names namesControl namesAddr entryModule.module [entryJump,
      onlyReturn] y) ∧
    ps.length = 5 ∧ x.cfg.bb = 3 ∧ x.atExit = true ∧
    leave names namesAddr entryModule.module x = none := by
  have hno : ∀ g ∈ [entryJump, onlyReturn], ∀ i ∈ g.instrs, i.has .INS_indirectJump = false := by
    decide
  refine ⟨_, [_, _, _, _, _], _, rfl,
    .head rfl (.head rfl (.head rfl (.head rfl (.head rfl (.refl _))))), ?_, rfl, rfl, rfl, rfl⟩
  intro y hy
  simp only [List.cons_append, List.nil_append, List.mem_cons, List.not_mem_nil, or_false] at hy
  rcases hy with rfl | rfl | rfl | rfl | rfl | rfl <;>
    exact .of_direct (hno _ (by decide)) fun i is p hi hop => by cases hi; cases hop <;> decide

theorem built_entryModule : ∃ N, runOnModule entryModule.module = some N ∧
    allBBs entryModule.module = some [(0xa000, onlyReturn), (0x8000, entryJump)] ∧
    entryJump ∈ entryModule.module.blockFunctions ∧ isEntryPoint entryJump = true ∧
    exploreBB [(0xa000, onlyReturn), (0x8000, entryJump)] entryJump =
    some ([entryJump, onlyReturn], false) := by
  obtain ⟨N, hN⟩ := Option.isSome_iff_exists.mp (show (runOnModule entryModule.module).isSome =
    true by decide)
  exact ⟨N, hN, by decide, by decide, by decide, by decide⟩

/-- The run in the function that is built. -/
theorem entryModule_simulates : ∃ N, runOnModule entryModule.module = some N ∧
    ∃ f ∈ N.funcs, ∃ c₀ ys c, start f namesState = some c₀ ∧
    Run (step names namesControl f) c₀ ys c ∧ ys.length ≤ 6 ∧ c.bb = 3 := by
  obtain ⟨N, hN, hall, hentry, hpoint, hexplore⟩ := built_entryModule
  obtain ⟨c₀, ps, x, hstart, hrun, hQ, hlen, hbb, -, -⟩ := run_entryModule
  obtain ⟨f, hf, -, c₀', ys, c, hc₀, hys, hle, hc, -⟩ :=
    runOnModule_simulates entryModule hN hall hentry hpoint
    hexplore guest_names exitsTrue_entryModule hstart hrun fun y hy =>
      hQ y (List.mem_append_left _ hy)
  exact ⟨N, hN, f, hf, c₀', ys, c, hc₀, hys, by omega, hc.trans hbb⟩

/-- It returns. -/
theorem entryModule_returns : ∃ N, runOnModule entryModule.module = some N ∧
    ∃ f ∈ N.funcs, ∃ c₀ ys c, start f namesState = some c₀ ∧
    Run (step names namesControl f) c₀ ys c ∧ AtReturn c := by
  obtain ⟨N, hN, hall, hentry, hpoint, hexplore⟩ := built_entryModule
  obtain ⟨c₀, ps, x, hstart, hrun, hQ, -, -, hexit, hleave⟩ := run_entryModule
  obtain ⟨f, hf, -, c₀', ys, c, hc₀, hys, -, hret, -⟩ :=
    runOnModule_returns entryModule hN hall hentry hpoint hexplore
    guest_names exitsTrue_entryModule hstart hrun hQ hexit hleave
  exact ⟨N, hN, f, hf, c₀', ys, c, hc₀, hys, hret⟩

end Bin2llvm.BuildFunctions
