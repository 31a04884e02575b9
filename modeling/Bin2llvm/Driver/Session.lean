import Bin2llvm.Driver.EntryQueue
import Bin2llvm.RecursiveDescentDisassembler
import Bin2llvm.SolveIndirectSingle
import Bin2llvm.LinkedEntries

/-!
# Bin2llvm.Driver.Session — what the iterations leave in the linked module

Every iteration disassembles from one entry, with the intervals of the iterations before it, and
builds functions from the blocks it has translated itself.  In the end the linker takes functions of
all iterations.

* `connected_of_makes`: in a built function the exits are connected to the blocks of the same
  iteration.
* `linked_connected`: so they are in the linked module.
* `earlierTarget_not_connected`: an exit to a block of an earlier iteration only is not.
-/

namespace Bin2llvm.Driver

open FixOverlappedBBs BuildFunctions EntryPoints Linker CoverageStatusQemu
open RecursiveDescentDisassembler (Guest MyTranslationBasicBlock)

/-! ## Iterations -/

/-- What `opt` makes of the translated blocks: the module `BuildFunctions` runs on, its output, and
what the solver makes of this, if it gets through. -/
structure Passes where
  translated : TaggedModule
  funcs : Module
  funcsIndirect : Option Module

/-- What the disassembler is given in an iteration, the blocks it records, and what the passes make
of them, if they get through. -/
structure Translation where
  cfg : RecursiveDescentDisassembler.Config
  entry : UInt64
  thumb : Bool
  m_allBasicBlocks : List MyTranslationBasicBlock
  passes : Option Passes

/-- A block that starts at `pc` is translated in the iteration. -/
def Translation.Translates (t : Translation) (pc : UInt64) : Prop :=
  ∃ bb ∈ t.m_allBasicBlocks, bb.m_pcStart = pc

structure SameBlock (b b' : BasicBlock) : Prop where
  id : b'.id = b.id
  name : b'.name = b.name
  length : b.instrs.length = b'.instrs.length

structure SameFunc (f f' : Func) : Prop where
  name : f'.name = f.name
  blocks : List.Forall₂ SameBlock f.blocks f'.blocks

/-- `solveindirectsingle` makes `N'` of `N`, instruction by instruction. -/
def SolvedTo (optModules : List Module) (N N' : Module) : Prop :=
  ∃ r, SolveIndirectSingle.solve optModules N.instrs = some r ∧ N'.instrs = r.done ∧
    List.Forall₂ SameFunc N.funcs N'.funcs

/-- `-dce` removes instructions without effect: branches stay. -/
def KeepsBranches (f f' : Func) : Prop :=
  ∀ b d, CloneEndsWith f b (.br d) → CloneEndsWith f' b (.br d)

/-- The passes go through the blocks in `bbs`. -/
structure Passes.Ran (p : Passes) (bbs : List MyTranslationBasicBlock) : Prop where
  starts : ∀ pc, (∃ F ∈ p.translated.module.blockFunctions, getPCStartOfFunc F = some pc) ↔
    ∃ bb ∈ bbs, bb.m_pcStart = pc
  built : BuildFunctions.runOnModule p.translated.module = some p.funcs
  solved : ∀ N ∈ p.funcsIndirect, ∃ optModules N₁, SolvedTo optModules p.funcs N₁ ∧
    ∀ f' ∈ N.funcs, ∃ f ∈ N₁.funcs, KeepsBranches f f'

/-- The disassembler gets to its `exit()` with the recorded blocks, and the passes go through
them. -/
structure Translation.Ran (G : Guest) (t : Translation) : Prop where
  disassembled : t.passes.isSome → ∃ xs s s',
    Run (RecursiveDescentDisassembler.step G t.cfg) (RecursiveDescentDisassembler.initial t.cfg
      t.entry t.thumb) xs s ∧
      RecursiveDescentDisassembler.slotExecuteBlockStart G t.cfg s = .exited s' ∧
      s'.m_allBasicBlocks = t.m_allBasicBlocks
  passes : ∀ p ∈ t.passes, p.Ran t.m_allBasicBlocks

/-- The iteration starts from the entry `e`, in the state `s` of the loop. -/
structure Translation.Starts (t : Translation) (tool : Tools) (s : LoopState) (e : ℕ) : Prop where
  entry : t.entry.toNat = e
  alreadyExplored : t.cfg.m_visitedPCIntervals.toDriver = s.cov
  passesOk : tool.passesOk = t.passes.isSome
  solverOk : tool.solverOk = (t.passes.bind Passes.funcsIndirect).isSome

/-- A run of the driver on the program `G`; `ts k` is the iteration with `cnt = k`. -/
structure Session (G : Guest) (entry_address : List ℕ) (tools : ℕ → Tools)
    (ts : ℕ → Translation) : Prop where
  ran : ∀ k, (ts k).Ran G
  starts : ∀ n s e, stateAt entry_address tools n = some s → s.entryQueue[s.head]? = some e →
    visited s.cov e = false → (ts s.cnt).Starts (tools n) s e

/-- The content of a file, if it was written. -/
def fileOf (ts : ℕ → Translation) : FuncBc → Option Module
  | .funcs k => (ts k).passes.map Passes.funcs
  | .funcsIndirect k => (ts k).passes.bind Passes.funcsIndirect

/-- The files the linker can load. -/
def files (ts : ℕ → Translation) (s : LoopState) : List Module := s.func_bcs.filterMap (fileOf ts)

/-! ## Exits -/

/-- The exit `i` goes on at `q`: as a direct jump, or when a call returns. -/
def GoesTo (i : Instr) (q : UInt64) : Prop :=
  (i.has .INS_directJump = true ∧ getHexMetadataFromIns i .INS_directJump = some q) ∨
    (isCall i = true ∧ getHexMetadataFromIns i .INS_callReturn = some q)

/-- In `f` the exits of the block-functions explored from `F` are connected to the blocks they go on
at, as far as `translated` says that there are such blocks. -/
def Connected (translated : UInt64 → Prop) (M : Module) (F f : Func) : Prop :=
  ∃ all bbs hasIndirectJump, allBBs M = some all ∧ exploreBB all F = some (bbs, hasIndirectJump) ∧
    ∀ g ∈ bbs, ∀ b ∈ g.blocks, ∀ i ∈ b.instrs, ∀ q, GoesTo i q → translated q →
      ∃ h ∈ bbs, getPCStartOfFunc h = some q ∧ ∃ e, h.blocks.head? = some e ∧
      CloneEndsWith f b (.br e.id)

/-- `f` is the function built from the entry point `F`, or what the solver makes of it. -/
structure Passes.Makes (p : Passes) (F f : Func) : Prop where
  mem : F ∈ p.translated.module.blockFunctions
  entry : isEntryPoint F = true
  made : ∃ all f₀, allBBs p.translated.module = some all ∧
    makeFunctionForward all ("final-func-" ++ F.name) F = some f₀ ∧ KeepsBranches (fixupEntry f₀) f

variable {F f f' : Func} {M : Module} {b : BasicBlock} {translated : UInt64 → Prop} {p : Passes}
variable {bbs : List MyTranslationBasicBlock} {ts : ℕ → Translation} {s : LoopState}
variable {starts : FuncsMap}

theorem KeepsBranches.refl (f : Func) : KeepsBranches f f := fun _ _ h => h

theorem KeepsBranches.trans {f₁ f₂ f₃ : Func} (h : KeepsBranches f₁ f₂) (h' : KeepsBranches f₂ f₃) :
    KeepsBranches f₁ f₃ := fun b d hb => h' b d (h b d hb)

theorem Connected.keep (h : Connected translated M F f) (hkeep : KeepsBranches f f') :
    Connected translated M F f' := by
  obtain ⟨all, bbs, ind, hall, hexplore, hexits⟩ := h
  refine ⟨all, bbs, ind, hall, hexplore, fun g hg b hb i hi q hto hq => ?_⟩
  obtain ⟨h, hh, hpc, e, he, hend⟩ := hexits g hg b hb i hi q hto hq
  exact ⟨h, hh, hpc, e, he, hkeep b e.id hend⟩

/-- The solver leaves branches alone. -/
theorem endsWith_of_keptIns {c c' : BasicBlock} {d : BlockId}
    (h : List.Forall₂ SolveIndirectSingle.KeptIns c.instrs c'.instrs) (hend : EndsWith c (.br d)) :
    EndsWith c' (.br d) := by
  obtain ⟨init, heq⟩ := List.getLast?_eq_some_iff.mp hend.last
  have hdrop : c.instrs.dropLast = init := by rw [heq, List.dropLast_concat]
  rw [heq] at h
  obtain ⟨init', last', heq', hinit, hlast⟩ := Lists.exists_append h
  obtain ⟨o, rest, ho, hrest, rfl⟩ := List.forall₂_cons_left_iff.mp hlast
  obtain rfl := List.forall₂_nil_left_iff.mp hrest
  obtain rfl := ho.eq_fresh_br
  refine endsWith_append init' heq' (fun i hi => ?_) fun i hi => ?_
  · obtain ⟨j, hj, hkept⟩ := Lists.exists_of_mem_right hinit i hi
    exact hkept.isTerminator.trans (hend.only j (hdrop ▸ hj))
  · obtain ⟨j, hj, hkept⟩ := Lists.exists_of_mem_right hinit i hi
    exact (hkept.other _ (by simp)).trans (hend.noFake j (heq ▸ List.mem_append_left _ hj))

theorem SameFunc.length_instrs (h : SameFunc f f') : f.instrs.length = f'.instrs.length := by
  have hblocks := h.blocks
  unfold Func.instrs
  generalize f.blocks = bs, f'.blocks = bs' at hblocks ⊢
  induction hblocks with
  | nil => rfl
  | cons hb _ ih =>
    rw [List.flatMap_cons, List.flatMap_cons, List.length_append, List.length_append, hb.length, ih]

theorem keepsBranches_of_solvedTo {optModules : List Module} {N N' : Module}
    (h : SolvedTo optModules N N') : ∀ f' ∈ N'.funcs, ∃ f ∈ N.funcs, KeepsBranches f f' := by
  obtain ⟨r, hsolve, hdone, hsame⟩ := h
  have hkept := SolveIndirectSingle.solve_keeps hsolve
  rw [← hdone] at hkept
  intro f' hf'
  obtain ⟨f, hf, hff, hinstrs⟩ :=
    Lists.exists_of_mem_right (Lists.of_flatMap (fun _ _ hs => hs.length_instrs) hsame hkept) f' hf'
  refine ⟨f, hf, ?_⟩
  rintro b d ⟨c, hc, hid, hend⟩
  obtain ⟨c', hc', hcc, hcode⟩ :=
    Lists.exists_of_mem (Lists.of_flatMap (fun _ _ hb => hb.length) hff.blocks hinstrs) c hc
  exact ⟨c', hc', hcc.id.trans hid, endsWith_of_keptIns hcode hend⟩

/-- The new entry block comes in front of the others. -/
theorem keepsBranches_fixupEntry (f : Func) : KeepsBranches f (fixupEntry f) := by
  rintro b d ⟨c, hc, hid, hend⟩
  refine ⟨c, ?_, hid, hend⟩
  unfold fixupEntry
  cases hb : f.blocks with
  | nil => exact hc
  | cons entry bbs =>
    rw [hb] at hc
    dsimp only
    split_ifs
    · exact List.mem_cons_of_mem _ hc
    · rwa [hb]

/-- The linker leaves an instruction as it is, or makes an untagged call of it. -/
theorem linkedIns_cases (starts : FuncsMap) (i : Instr) : linkedIns starts i = i ∨
    (linkedIns starts i).isTerminator = false ∧
    (linkedIns starts i).has .INS_fakeReturn = false := by
  unfold linkedIns
  split
  · split
    · exact Or.inr ⟨rfl, rfl⟩
    · exact Or.inl rfl
  · exact Or.inl rfl

theorem keepsBranches_linkedFunc (starts : FuncsMap) (f : Func) :
    KeepsBranches f (linkedFunc starts f) := by
  rintro b d ⟨c, hc, hid, hend⟩
  refine ⟨c.mapInstrs (linkedIns starts), List.mem_map_of_mem hc, hid, ?_, fun i hi => ?_,
    fun i hi => ?_⟩
  · show (c.instrs.map (linkedIns starts)).getLast? = _
    rw [List.getLast?_map, hend.last]
    rfl
  · rw [show (c.mapInstrs (linkedIns starts)).instrs =
      c.instrs.map (linkedIns starts) from rfl, ← List.map_dropLast] at hi
    obtain ⟨j, hj, rfl⟩ := List.mem_map.mp hi
    rcases linkedIns_cases starts j with heq | ⟨hterm, -⟩
    · rw [heq]
      exact hend.only j hj
    · exact hterm
  · obtain ⟨j, hj, rfl⟩ := List.mem_map.mp hi
    rcases linkedIns_cases starts j with heq | ⟨-, hfake⟩
    · rw [heq]
      exact hend.noFake j hj
    · exact hfake

/-! ## Blocks of the same iteration -/

/-- `exploreBB` follows the exits. -/
theorem nextPCList_of_goesTo {T : TaggedModule} {gs : List Func} {ind : Bool}
    (E : Explored T gs ind) {g : Func} (hg : g ∈ gs) (hb : b ∈ g.blocks) {i : Instr}
    (hi : i ∈ b.instrs) {q : UInt64} (hto : GoesTo i q) :
    i.isStoreTo "PC" = true ∧ nextPCList i = some [q] := by
  rcases hto with ⟨hjump, hq⟩ | ⟨hcall, hq⟩
  · obtain ⟨pre, mid, r, e⟩ := E.exists_exitShape (k := .directJump) hg hb hi hjump
    have hcall : isCall i = false := e.store.hasTag_ne (j := .call) (by simp)
    exact ⟨e.store.toPC, by simp [nextPCList, hcall, hjump, hq]⟩
  · obtain ⟨pre, mid, r, e⟩ := E.exists_exitShape (k := .call) hg hb hi hcall
    exact ⟨e.store.toPC, by simp [nextPCList, hcall, hq]⟩

/-- **In a function built in an iteration, and in what the solver makes of it, the exits are
connected to the blocks translated in this iteration.** -/
theorem connected_of_makes (hran : p.Ran bbs) (h : p.Makes F f) :
    Connected (fun q => ∃ bb ∈ bbs, bb.m_pcStart = q) p.translated.module F f := by
  obtain ⟨all, f₀, hall, hf₀, hkeep⟩ := h.made
  suffices hsame : Connected (fun q => ∃ bb ∈ bbs, bb.m_pcStart = q) p.translated.module F f₀ from
    hsame.keep ((keepsBranches_fixupEntry f₀).trans hkeep)
  obtain ⟨⟨gs, ind⟩, hexplore, -⟩ := Option.bind_eq_some_iff.mp (show _ = some f₀ from hf₀)
  have E := explored p.translated hall h.mem hexplore
  obtain ⟨m₀, m₁, m₂, hm, hmake⟩ := E.makeFunctionForward_eq ("final-func-" ++ F.name) hexplore
  obtain ⟨-, hfeq⟩ := (hmake f₀).mp hf₀
  refine ⟨all, gs, ind, hall, hexplore, fun g hg b hb i hi q hto hq => ?_⟩
  -- the block-function at `q` is in the module, so it is explored
  obtain ⟨g', hg', hpc⟩ := (hran.starts q).mpr hq
  obtain ⟨hpcStore, hnext⟩ := nextPCList_of_goesTo E hg hb hi hto
  have hmem : g' ∈ gs :=
    E.closed g hg i (mem_instrs.mpr ⟨b, hb, hi⟩) hpcStore [q] hnext q List.mem_cons_self g' hg' hpc
  obtain ⟨e, he⟩ := exists_entry hpc
  refine ⟨g', hmem, hpc, e, he, ?_⟩
  rcases hto with ⟨hjump, hread⟩ | ⟨hcall, hread⟩
  · exact E.clone_directJump _ hm hg hb hfeq hi hjump hmem (hread.trans hpc.symm) he
  · exact E.clone_call _ hm hg hb hfeq hi hcall hmem (hread.trans hpc.symm) he

/-- The functions the linker sees are made in the iterations. -/
theorem exists_makes {G : Guest} {entry_address : List ℕ} {tools : ℕ → Tools} {n : ℕ}
    (hsession : Session G entry_address tools ts) (hs : stateAt entry_address tools n = some s)
    (hf : f ∈ inputs (files ts s)) : ∃ k < s.cnt, ∃ p F, (ts k).passes = some p ∧ p.Makes F f := by
  obtain ⟨N, hN, hfN⟩ := List.mem_flatMap.mp hf
  obtain ⟨bc, hbc, hfile⟩ := List.mem_filterMap.mp hN
  -- a function of `funcs-%d.bc` is built from an entry point
  have hbuilt : ∀ k p, (ts k).passes = some p → ∀ f ∈ p.funcs.funcs, ∃ F, p.Makes F f := by
    intro k p hp f hf
    have hrun := ((hsession.ran k).passes p hp).built
    obtain ⟨all, hall⟩ := exists_allBBs hrun
    obtain ⟨F, hF, hentry, f₀, hf₀, rfl⟩ := (mem_runOnModule hall hrun).mp hf
    exact ⟨F, hF, hentry, all, f₀, hall, hf₀, KeepsBranches.refl _⟩
  obtain ⟨k, hk, rfl | rfl⟩ := mem_func_bcs hs bc hbc
  · obtain ⟨p, hp, hsolved⟩ := Option.bind_eq_some_iff.mp
      (show (ts k).passes.bind Passes.funcsIndirect = some N from hfile)
    obtain ⟨optModules, N₁, hsolvedTo, hdce⟩ := ((hsession.ran k).passes p hp).solved N hsolved
    obtain ⟨f₂, hf₂, hkeep₂⟩ := hdce f hfN
    obtain ⟨f₁, hf₁, hkeep₁⟩ := keepsBranches_of_solvedTo hsolvedTo f₂ hf₂
    obtain ⟨F, hF⟩ := hbuilt k p hp f₁ hf₁
    obtain ⟨all, f₀, hall, hf₀, hkeep₀⟩ := hF.made
    exact ⟨k, hk, p, F, hp, hF.mem, hF.entry, all, f₀, hall, hf₀,
      hkeep₀.trans (hkeep₁.trans hkeep₂)⟩
  · obtain ⟨p, hp, rfl⟩ := Option.map_eq_some_iff.mp (show (ts k).passes.map Passes.funcs =
      some N from hfile)
    obtain ⟨F, hF⟩ := hbuilt k p hp f hfN
    exact ⟨k, hk, p, F, hp, hF⟩

/-! ## The linked module -/

/-- **In every function built in an iteration, and in the one the linked module has of it, the exits
are connected to the blocks translated in this iteration.** -/
theorem linked_connected {G : Guest} {entry_address : List ℕ} {tools : ℕ → Tools} {n : ℕ}
    {final : Module} (hsession : Session G entry_address tools ts)
    (hs : stateAt entry_address tools n = some s) (hnames : NamesIdentify (inputs (files ts s)))
    (hlink : link (files ts s) = some final) :
    ∃ starts cnt, LinksAll (files ts s) starts final cnt ∧
      (∀ k p F f, (ts k).passes = some p → p.Makes F f →
        Connected (ts k).Translates p.translated.module F f) ∧
      ∀ pc f, starts.lookup pc = some f → linkedFunc starts f ∈ final.funcs ∧
        ∃ k < s.cnt, ∃ p F, (ts k).passes = some p ∧ p.Makes F f ∧
          Connected (ts k).Translates p.translated.module F (linkedFunc starts f) := by
  obtain ⟨starts, cnt, -, hall⟩ := linksAll_of_link hnames hlink
  have hmakes : ∀ k p F f, (ts k).passes = some p → p.Makes F f →
      Connected (ts k).Translates p.translated.module F f := fun k p F f hp hF =>
    connected_of_makes ((hsession.ran k).passes p hp) hF
  refine ⟨starts, cnt, hall, hmakes, fun pc f hf => ⟨?_, ?_⟩⟩
  · rw [hall.funcs]
    exact List.mem_map_of_mem (Lists.mem_of_lookup hf)
  · rw [hall.first] at hf
    obtain ⟨k, hk, p, F, hp, hF⟩ := exists_makes hsession hs (List.mem_of_find?_eq_some hf)
    exact ⟨k, hk, p, F, hp, hF, (hmakes k p F f hp hF).keep (keepsBranches_linkedFunc starts f)⟩

/-! ## Two sessions -/

/-- A module of one block-function. -/
def TaggedModule.single (F : Func) (hF : TaggedFunc F)
    (hids : F.blockIds.Nodup) : TaggedModule where
  module := ⟨[F]⟩
  tagged g hg := by
    rw [List.mem_singleton.mp (List.mem_of_mem_filter hg)]
    exact hF
  start_inj g hg g' hg' _ :=
    (List.mem_singleton.mp (List.mem_of_mem_filter hg)).trans
      (List.mem_singleton.mp (List.mem_of_mem_filter hg')).symm
  ids_nodup := by
    have hsub : (Module.mk [F]).blockFunctions.Sublist [F] := List.filter_sublist
    rcases List.sublist_singleton.mp hsub with hnil | hone
    · rw [hnil]
      exact List.nodup_nil
    · rw [hone]
      simpa using hids

/-- The passes get through a single block, and the solver changes nothing. -/
def Passes.single (F : Func) (hF : TaggedFunc F) (hids : F.blockIds.Nodup) (N : Module) : Passes :=
  ⟨TaggedModule.single F hF hids, N, some N⟩

theorem ran_single {hF : TaggedFunc F} {hids : F.blockIds.Nodup} {N : Module} {pc pcEnd : UInt64}
    {thumb : Bool} (hblock : F.isBlockFunction = true) (hpc : getPCStartOfFunc F = some pc)
    (hN : BuildFunctions.runOnModule ⟨[F]⟩ = some N)
    (hsolve : (SolveIndirectSingle.solve [N] N.instrs).map SolveIndirectSingle.State.done =
      some N.instrs) :
    (Passes.single F hF hids N).Ran [⟨pc, pcEnd, thumb⟩] where
  starts q := by
    have hmem : (Passes.single F hF hids N).translated.module.blockFunctions = [F] := by
      show [F].filter Func.isBlockFunction = [F]
      rw [List.filter_singleton, hblock]
      rfl
    simp [hmem, hpc]
  built := hN
  solved N' hN' := by
    obtain rfl : N = N' := Option.some.inj hN'
    obtain ⟨r, hr, hdone⟩ := Option.map_eq_some_iff.mp hsolve
    refine ⟨[N], N, ⟨r, hr, hdone.symm, ?_⟩, fun f hf => ⟨f, hf, KeepsBranches.refl f⟩⟩
    exact List.forall₂_same.mpr fun f _ => ⟨rfl, List.forall₂_same.mpr fun b _ => ⟨rfl, rfl, rfl⟩⟩

/-- The entry point at `0xa000` returns. -/
def returnEntry : Func :=
  exitFunc "void-tcg-llvm-tb-0-a000" "func_entry_point" 3 [⟨some 29, .load (.global "LR"),
    [tagPC .BB_pcStart 0xa000]⟩]
    ⟨some 30, .store (.inst 29) (.global "PC"),
      [tagPC .BB_pcStart 0xa000, (.INS_return, .str "true")]⟩

theorem taggedFunc_returnEntry : TaggedFunc returnEntry :=
  taggedFunc_exitFunc (k := .ret) 0xa000 ⟨rfl, fun k => by cases k <;> rfl, rfl⟩
    (by simpa using ⟨rfl, fun k => by cases k <;> rfl, rfl⟩) (by decide) (Or.inr rfl)
    (by decide) (by decide)

/-- The entry point at `0x8000` jumps to itself. -/
def loopEntry : Func :=
  exitFunc "void-tcg-llvm-tb-0-8000" "func_entry_point" 1 [⟨some 19, .load (.global "R0"),
    [tagPC .BB_pcStart 0x8000]⟩]
    ⟨some 20, .store (.constInt 32 0x8000) (.global "PC"),
      [tagPC .BB_pcStart 0x8000, tagPC .INS_directJump 0x8000]⟩

theorem taggedFunc_loopEntry : TaggedFunc loopEntry :=
  taggedFunc_exitFunc (k := .directJump) 0x8000 ⟨rfl, fun k => by cases k <;> rfl, rfl⟩
    (by simpa using ⟨rfl, fun k => by cases k <;> rfl, rfl⟩) (by decide) (Or.inr rfl)
    (by decide) (by decide)

/-- The program: `0x8000` goes to `target`, and everything else nowhere. -/
def guest (target : UInt64) : Guest where
  translate pc _ := ⟨pc + 4, if pc = 0x8000 then [target] else [], none, .undefined⟩
  memory _ := 0
  isValidCodeAccess _ := true

/-- An iteration that gets through with the single block-function `F` at `entry`. -/
def Translation.single (explored : VisitedIntervals) (entry : UInt64) (p : Passes) : Translation :=
  ⟨⟨explored, [], []⟩, entry, false, [⟨entry, entry + 4, false⟩], some p⟩

/-- It has run if the disassembler stops after the block. -/
theorem Translation.Ran.single {G : Guest} {explored : VisitedIntervals}
    {entry : UInt64} {p : Passes} (hexited : ∃ s,
        RecursiveDescentDisassembler.slotExecuteBlockStart G ⟨explored, [], []⟩
        (RecursiveDescentDisassembler.initial ⟨explored, [], []⟩ entry false) = .exited s ∧
      s.m_allBasicBlocks = [⟨entry, entry + 4, false⟩])
    (hp : p.Ran [⟨entry, entry + 4, false⟩]) : (Translation.single explored entry p).Ran G where
  disassembled _ := by
    obtain ⟨s, hs, hblocks⟩ := hexited
    exact ⟨[], _, s, .refl _, hs, hblocks⟩
  passes q hq := Option.some.inj hq ▸ hp

/-- At most one interval. -/
def oneInterval (iv : Option (UInt64 × UInt64)) : VisitedIntervals :=
  ⟨iv.toList, by cases iv <;> simp, by cases iv <;> simp⟩

def loopTranslation : Translation := .single (oneInterval none) 0x8000
  (.single loopEntry taggedFunc_loopEntry (by decide)
  ⟨[⟨"final-func-" ++ loopEntry.name, [
    ⟨2, "fixup_entry", [⟨none, .br 1, [tagPC .BB_pcStart 0x8000]⟩]⟩,
    ⟨1, "func_entry_point", loopEntry.instrs.take 1 ++ [Instr.fresh (.br 1)]⟩]⟩]⟩)

def returnTranslation : Translation := .single (oneInterval none) 0xa000
  (.single returnEntry taggedFunc_returnEntry (by decide)
  ⟨[⟨"final-func-" ++ returnEntry.name, [
    ⟨3, "func_entry_point", returnEntry.instrs.take 1 ++ [Instr.fresh (.ret none)]⟩]⟩]⟩)

/-- The jump to `0xa000` stays a store to `PC`. -/
def jumpTranslation : Translation := .single (oneInterval (some (0xa000, 0xa000))) 0x8000
  (.single jumpEntry taggedFunc_jumpEntry (by decide)
  ⟨[{ jumpEntry with name := "final-func-" ++ jumpEntry.name }]⟩)

theorem namesIdentify_of {fs : List Func}
    (h : ∀ f ∈ fs, ∀ g ∈ fs, f.name = g.name → getPCStartOfFunc f = getPCStartOfFunc g) :
    NamesIdentify fs :=
  fun f hf g hg _ _ hp hq hname =>
    Option.some.inj (hp.2.symm.trans ((h f hf g hg hname).trans hq.2))

/-- Everything works, and no new target is reported. -/
def quietTools (log : String) : Tools := ⟨some [log.toList], true, true, [], []⟩

theorem loopTranslation_ran : loopTranslation.Ran (guest 0x8000) :=
  .single ⟨_, rfl, rfl⟩ (ran_single (by decide) (by decide) (by decide) (by decide))

theorem returnTranslation_ran : returnTranslation.Ran (guest 0xa000) :=
  .single ⟨_, rfl, rfl⟩ (ran_single (by decide) (by decide) (by decide) (by decide))

theorem jumpTranslation_ran : jumpTranslation.Ran (guest 0xa000) :=
  .single ⟨_, rfl, rfl⟩ (ran_single (by decide) (by decide) (by decide) (by decide))

def loopTools (_ : ℕ) : Tools := quietTools "0x00008000:  eafffffe"

def loopSession (_ : ℕ) : Translation := loopTranslation

/-- The loop of the driver over one entry. -/
def loopEnd : LoopState :=
  ⟨[0x8000], 1, [(0x8000, 0x8000)], 1, [.funcsIndirect 0, .funcs 0], [0x8000]⟩

theorem session_loop : Session (guest 0x8000) [0x8000] loopTools loopSession := by
  have hend : stateAt [0x8000] loopTools 2 = none := by decide
  have hlast : stateAt [0x8000] loopTools 1 = some loopEnd := by decide
  refine ⟨fun _ => loopTranslation_ran, fun n s e hs hq _ => ?_⟩
  rcases n with _ | _ | n
  · obtain rfl := Option.some.inj hs
    obtain rfl := Option.some.inj hq
    exact ⟨rfl, rfl, rfl, rfl⟩
  · obtain rfl := Option.some.inj (hlast.symm.trans hs)
    cases hq
  · exact nomatch hs.symm.trans (stateAt_eq_none_of_le hend (Nat.le_add_left 2 n))

/-- A block that jumps to itself does so in the linked module. -/
theorem loop_connected : ∃ final starts cnt, link (files loopSession loopEnd) = some final ∧
    LinksAll (files loopSession loopEnd) starts final cnt ∧ ∃ f, starts.lookup 0x8000 = some f ∧
      ∃ (p : Passes) (F : Func), p.Makes F f ∧
        Connected loopTranslation.Translates p.translated.module F (linkedFunc starts f) := by
  obtain ⟨final, hlink⟩ := Option.isSome_iff_exists.mp
    (show (link (files loopSession loopEnd)).isSome = true by decide)
  have hnames : NamesIdentify (inputs (files loopSession loopEnd)) := namesIdentify_of (by decide)
  have hs : stateAt [0x8000] loopTools 1 = some loopEnd := by decide
  obtain ⟨starts, cnt, hall, -, hlinked⟩ := linked_connected session_loop hs hnames hlink
  obtain ⟨f, hf⟩ : ∃ f, starts.lookup 0x8000 = some f := by
    rw [hall.first]
    exact Option.isSome_iff_exists.mp (by decide)
  obtain ⟨-, k, -, p, F, -, hmakes, hconnected⟩ := hlinked 0x8000 f hf
  exact ⟨final, starts, cnt, hlink, hall, f, hf, p, F, hmakes, hconnected⟩

/-- First from `0xa000`, then from `0x8000`. -/
def earlierTools (n : ℕ) : Tools :=
  quietTools (if n = 0 then "0x0000a000:  e12fff1e" else "0x00008000:  ea0007fe")

def earlierSession (k : ℕ) : Translation := if k = 0 then returnTranslation else jumpTranslation

/-- The loop of the driver over both entries. -/
def earlierEnd : LoopState := ⟨[0xa000, 0x8000], 2, [(0x8000, 0x8000), (0xa000, 0xa000)], 2,
  [.funcsIndirect 0, .funcs 0, .funcsIndirect 1, .funcs 1], [0xa000, 0x8000]⟩

theorem session_earlier : Session (guest 0xa000) [0xa000, 0x8000] earlierTools earlierSession := by
  have hend : stateAt [0xa000, 0x8000] earlierTools 3 = none := by decide
  have hmid : stateAt [0xa000, 0x8000] earlierTools 1 = some
    ⟨[0xa000, 0x8000], 1, [(0xa000, 0xa000)], 1, [.funcsIndirect 0, .funcs 0], [0xa000]⟩ := by
    decide
  have hlast : stateAt [0xa000, 0x8000] earlierTools 2 = some earlierEnd := by decide
  refine ⟨fun k => ?_, fun n s e hs hq _ => ?_⟩
  · cases k with
    | zero => exact returnTranslation_ran
    | succ k => exact jumpTranslation_ran
  · rcases n with _ | _ | _ | n
    · obtain rfl := Option.some.inj hs
      obtain rfl := Option.some.inj hq
      exact ⟨rfl, rfl, rfl, rfl⟩
    · obtain rfl := Option.some.inj (hmid.symm.trans hs)
      obtain rfl := Option.some.inj hq
      exact ⟨rfl, rfl, rfl, rfl⟩
    · obtain rfl := Option.some.inj (hlast.symm.trans hs)
      cases hq
    · exact nomatch hs.symm.trans (stateAt_eq_none_of_le hend (Nat.le_add_left 3 n))

/-- The function that `BuildFunctions` makes of `0x8000` alone. -/
def jumpFunc : Func := { jumpEntry with name := "final-func-" ++ jumpEntry.name }

/-- The jump to the block of the earlier iteration ends in a return. -/
theorem earlierTarget_not_connected :
    Session (guest 0xa000) [0xa000, 0x8000] earlierTools earlierSession ∧
      stateAt [0xa000, 0x8000] earlierTools 2 = some earlierEnd ∧
      ∃ final starts cnt, link (files earlierSession earlierEnd) = some final ∧
        LinksAll (files earlierSession earlierEnd) starts final cnt ∧
        starts.lookup 0x8000 = some jumpFunc ∧
        ∃ p : Passes, (earlierSession 1).passes = some p ∧ p.Makes jumpEntry jumpFunc ∧
          (∀ b d, ¬ CloneEndsWith (linkedFunc starts jumpFunc) b (.br d)) ∧
          ¬ Connected (fun q => ∃ k ≤ 1, (earlierSession k).Translates q)
            p.translated.module jumpEntry (linkedFunc starts jumpFunc) := by
  obtain ⟨final, hlink⟩ := Option.isSome_iff_exists.mp
    (show (link (files earlierSession earlierEnd)).isSome = true by decide)
  obtain ⟨starts, cnt, -, hall⟩ := linksAll_of_link (namesIdentify_of (by decide)) hlink
  have hlookup : starts.lookup 0x8000 = some jumpFunc := by
    rw [hall.first]
    decide
  have hmade : makeFunctionForward [(0x8000, jumpEntry)]
      ("final-func-" ++ jumpEntry.name) jumpEntry = some jumpFunc := by decide
  -- the one block of the function ends with its return
  have hend : ∀ b d, ¬ CloneEndsWith (linkedFunc starts jumpFunc) b (.br d) := by
    rintro b d ⟨c, hc, -, hend⟩
    have hlast := hend.last
    rw [List.mem_singleton.mp (show c ∈ [_] from hc)] at hlast
    cases Option.some.inj hlast
  refine ⟨session_earlier, by decide, final, starts, cnt, hlink, hall, hlookup, _, rfl,
    ⟨by decide, by decide, _, _, by decide, hmade, KeepsBranches.refl _⟩, hend, ?_⟩
  rintro ⟨all, bbs, ind, hbbs, hexplore, hexits⟩
  obtain rfl : [(0x8000, jumpEntry)] = all :=
    Option.some.inj ((by decide : allBBs ⟨[jumpEntry]⟩ = _).symm.trans hbbs)
  obtain ⟨rfl, -⟩ := Prod.mk.inj (Option.some.inj
    ((by decide : exploreBB [(0x8000, jumpEntry)] jumpEntry = some ([jumpEntry], false)).symm.trans
      hexplore))
  obtain ⟨h, -, -, e, -, hbr⟩ :=
    hexits jumpEntry List.mem_cons_self _ List.mem_cons_self _ List.mem_cons_self 0xa000
    (Or.inl ⟨by decide, by decide⟩) ⟨0, by decide, _, List.mem_cons_self, rfl⟩
  exact hend _ _ hbr

end Bin2llvm.Driver
