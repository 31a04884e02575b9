import Bin2llvm.BuildFunctions.Simulation
import Bin2llvm.Calls
import Bin2llvm.EntryPoints
import Bin2llvm.LinkedModule

/-!
# Bin2llvm.LinkedRuns — the linked module does what the translated program does

The translated program goes where its program counter says, into callees and back.  The linked
module has a function for each entry point and calls between them.

* `Thread`, `execute`: the translated program, with the calls that have not returned.
* `CallsReady`, `Disciplined`: what is expected of calls, and of a run.
* `Related`: the stack of the linked module while the program stands somewhere.
* `link_simulates`: a run of the program, as one of the linked module.
* `link_returns`: where the outermost function of the program returns, that of the linked module
  does.
-/

namespace Bin2llvm.LinkedRuns

open FixOverlappedBBs BuildFunctions Execution Linker EntryPoints

/-! ## The translated program -/

/-- A call that has not returned: the entry point of the caller, the address behind the call, and
its results. -/
structure Caller (W : Type) where
  entry : Func
  returnPC : UInt64
  env : InstId → W

/-- Where the program stands, the entry point of the function it is in, and its callers. -/
structure Thread (W E : Type) where
  place : Place W E
  entry : Func
  callers : List (Caller W)

section

variable {W E : Type} (I : Interp W E) (K : Control W) (addr : W → UInt64)

/-- The program counter an exit has stored. -/
def exitTarget (p : Point W E) (s : Instr) : Option UInt64 :=
  (s.storeTo? "PC").bind fun v => (p.read I v).map addr

/-- The block-function at the program counter is started.  The outermost function does not
return. -/
def proceed (M : Module) (t : Thread W E) : Option (Thread W E) := do
  let b ← t.place.block
  let s ← exitStore b
  let pc ← exitTarget I addr t.place.cfg.now s
  let h ← M.blockFunctions.find? fun h => getPCStartOfFunc h = some pc
  let st := t.place.cfg.now.st
  if isCall s then
    let returnPC ← getHexMetadataFromIns s .INS_callReturn
    let c ← start h st
    pure ⟨⟨h, c⟩, h, ⟨t.entry, returnPC, st.env⟩ :: t.callers⟩
  else if s.has .INS_return then
    let caller ← t.callers.head?
    let c ← start h { st with env := caller.env }
    pure ⟨⟨h, c⟩, caller.entry, t.callers.tail⟩
  else
    let c ← start h st
    pure ⟨⟨h, c⟩, t.entry, t.callers⟩

def execute [DecidableEq W] (M : Module) (t : Thread W E) : Option (Thread W E) :=
  if t.place.atExit then proceed I addr M t
  else (step I K t.place.func t.place.cfg).map fun c => ⟨⟨t.place.func, c⟩, t.entry, t.callers⟩

/-- The block-function is left by the store `s` of its block `b`. -/
structure Leaves (x : Place W E) (b : BasicBlock) (s : Instr) : Prop where
  atExit : x.atExit = true
  block : x.block = some b
  store : exitStore b = some s

/-- Calls as the linker needs them: the tag is the constant that is stored, the store stands right
before the fake return, and no helper has the name of a linked function. -/
structure CallsReady (M : Module) : Prop where
  direct : TagsStored M .INS_directCall
  last : ∀ g ∈ M.blockFunctions, ∀ b ∈ g.blocks, ∀ pre s mid r, ExitShape .call b pre s mid r →
    s.has .INS_directCall = true → mid = []
  helpers : ∀ g ∈ M.blockFunctions, ∀ i ∈ g.instrs, ∀ name vs, i.op = .call (.func name) vs →
    ∀ F ∈ M.blockFunctions, name ≠ "linked-final-func-" ++ ("final-func-" ++ F.name)

/-- What a run has to keep to: no load reads `PC`, calls go to entry points that are not lost,
returns go behind their calls, and indirect jumps go where their tables say. -/
structure Disciplined (M : Module) (all : List (UInt64 × Func)) (t : Thread W E) : Prop where
  loads : LoadsAvoid I (AtPC I) t.place.cfg
  calls : ∀ b s, Leaves t.place b s → isCall s = true → s.has .INS_directCall = true ∧
    ∀ pc, exitTarget I addr t.place.cfg.now s = some pc → ∀ h ∈ M.blockFunctions,
      getPCStartOfFunc h = some pc → isEntryPoint h = true ∧ ¬ EntryLost M.blockFunctions h
  returns : ∀ b s, Leaves t.place b s → s.has .INS_return = true → ∀ caller ∈ t.callers.head?,
    exitTarget I addr t.place.cfg.now s = some caller.returnPC
  tables : ∀ b s, Leaves t.place b s → s.has .INS_indirectJump = true → ∀ bbs hasIndirectJump,
    exploreBB all t.entry = some (bbs, hasIndirectJump) → TableHolds I K addr M bbs t.place b s

end

section

variable {W E : Type} {I : Interp W E} {K : Control W} {addr : W → UInt64} {T : TaggedModule}
variable {t t' : Thread W E} {x : Place W E} {b : BasicBlock} {s : Instr} {h : Func} {pc : UInt64}

/-- Where a block-function starts. -/
def entered (h : Func) (b : BasicBlock) (st : State W E) : Place W E :=
  ⟨h, ⟨b.id, b.instrs, ⟨st, []⟩, none⟩⟩

/-- The block-function `h`, whose first block is `b`, starts at the program counter that the exit
has stored. -/
structure GoesTo (I : Interp W E) (addr : W → UInt64) (M : Module) (p : Point W E) (s : Instr)
    (pc : UInt64) (h : Func) (b : BasicBlock) : Prop where
  target : exitTarget I addr p s = some pc
  mem : h ∈ M.blockFunctions
  start : getPCStartOfFunc h = some pc
  head : h.blocks.head? = some b

/-- **What the program does at an exit**: it calls, it returns, or it goes on. -/
theorem proceed_cases (hstep : proceed I addr T.module t = some t') :
    ∃ b s pc h e, t.place.block = some b ∧ exitStore b = some s ∧
      GoesTo I addr T.module t.place.cfg.now s pc h e ∧
      ((isCall s = true ∧ ∃ returnPC, getHexMetadataFromIns s .INS_callReturn = some returnPC ∧
          t' = ⟨entered h e t.place.cfg.now.st, h,
            ⟨t.entry, returnPC, t.place.cfg.now.st.env⟩ :: t.callers⟩) ∨
        (isCall s = false ∧ s.has .INS_return = true ∧ ∃ caller callers,
          t.callers = caller :: callers ∧
          t' = ⟨entered h e { t.place.cfg.now.st with env := caller.env }, caller.entry, callers⟩) ∨
        (isCall s = false ∧ s.has .INS_return = false ∧
          t' = ⟨entered h e t.place.cfg.now.st, t.entry, t.callers⟩)) := by
  obtain ⟨b, hb, hstep⟩ := Option.bind_eq_some_iff.mp hstep
  obtain ⟨s, hs, hstep⟩ := Option.bind_eq_some_iff.mp hstep
  obtain ⟨pc, hpc, hstep⟩ := Option.bind_eq_some_iff.mp hstep
  obtain ⟨h, hh, hstep⟩ := Option.bind_eq_some_iff.mp hstep
  have hgoes : ∀ st c, start h st = some c → ∃ e, GoesTo I addr T.module t.place.cfg.now s pc h e ∧
      (⟨h, c⟩ : Place W E) = entered h e st := by
    intro st c hc
    obtain ⟨hhT, hstart, e, he, rfl⟩ := Explored.exists_entry_of_find? hh hc
    exact ⟨e, ⟨hpc, hhT, hstart, he⟩, rfl⟩
  -- a call, a return to a caller, or a jump
  simp only at hstep
  split_ifs at hstep with hcall hret
  · obtain ⟨returnPC, hreturn, hstep⟩ := Option.bind_eq_some_iff.mp hstep
    obtain ⟨c, hc, hstep⟩ := Option.bind_eq_some_iff.mp hstep
    obtain ⟨e, he, hplace⟩ := hgoes _ c hc
    exact ⟨b, s, pc, h, e, hb, hs, he, .inl ⟨hcall, returnPC, hreturn,
      hplace ▸ (Option.some.inj hstep).symm⟩⟩
  · obtain ⟨caller, hcaller, hstep⟩ := Option.bind_eq_some_iff.mp hstep
    obtain ⟨c, hc, hstep⟩ := Option.bind_eq_some_iff.mp hstep
    obtain ⟨e, he, hplace⟩ := hgoes _ c hc
    refine ⟨b, s, pc, h, e, hb, hs, he,
      .inr (.inl ⟨by simpa using hcall, hret, caller, t.callers.tail, ?_,
      hplace ▸ (Option.some.inj hstep).symm⟩)⟩
    obtain ⟨callers, hcallers⟩ := List.head?_eq_some_iff.mp hcaller
    rw [hcallers]
    rfl
  · obtain ⟨c, hc, hstep⟩ := Option.bind_eq_some_iff.mp hstep
    obtain ⟨e, he, hplace⟩ := hgoes _ c hc
    exact ⟨b, s, pc, h, e, hb, hs, he, .inr (.inr ⟨by simpa using hcall, by simpa using hret,
      hplace ▸ (Option.some.inj hstep).symm⟩)⟩

end


/-! ## The functions of the entry points -/

/-- An entry point, and what `BuildFunctions` has made of it. -/
structure EntryFunc (T : TaggedModule) (all : List (UInt64 × Func)) where
  entry : Func
  bbs : List Func
  hasIndirectJump : Bool
  m₀ : BBMap
  m₁ : BBMap
  m₂ : BBMap
  mem : entry ∈ T.module.blockFunctions
  explore : exploreBB all entry = some (bbs, hasIndirectJump)
  maps : Maps (inlineBBs ("final-func-" ++ entry.name) bbs hasIndirectJump).1 m₀ m₁ m₂

section

variable {T : TaggedModule} {all : List (UInt64 × Func)} {starts : FuncsMap} {N final : Module}
variable {F : Func} {pc : UInt64} {i : Instr}

/-- The function before its entry is fixed. -/
def EntryFunc.body (e : EntryFunc T all) : Func :=
  built ("final-func-" ++ e.entry.name) e.bbs e.hasIndirectJump e.m₀ e.m₁ e.m₂

def EntryFunc.code (e : EntryFunc T all) : Func := fixupEntry e.body

def EntryFunc.linked (starts : FuncsMap) (e : EntryFunc T all) : Func := linkedFunc starts e.code

theorem EntryFunc.explored (hall : allBBs T.module = some all) (e : EntryFunc T all) :
    Explored T e.bbs e.hasIndirectJump := BuildFunctions.explored T hall e.mem e.explore

/-- The call of a known function. -/
def Linked (starts : FuncsMap) (i : Instr) : Prop :=
  ((getHexMetadataFromIns i .INS_directCall).bind fun pc => starts.lookup pc).isSome = true

/-- The linker's view of a module that `BuildFunctions` has built. -/
structure LinkedOf (T : TaggedModule) (all : List (UInt64 × Func)) (starts : FuncsMap)
    (final : Module) : Prop where
  entries : ∀ F ∈ T.module.blockFunctions, isEntryPoint F = true →
    ¬ EntryLost T.module.blockFunctions F →
    ∀ pc, getPCStartOfFunc F = some pc → ∃ e : EntryFunc T all, e.entry = F ∧
    starts.lookup pc = some e.code
  callees : ∀ pc g, starts.lookup pc = some g →
    final.funcs.find? (fun f => f.name = (clone g).name) = some (linkedFunc starts g)
  names : ∀ f ∈ final.funcs, ∃ F ∈ T.module.blockFunctions, f.name = "linked-final-func-" ++
    ("final-func-" ++ F.name)

theorem linkedOf (hnames : (T.module.funcs.map Func.name).Nodup) (hall : allBBs T.module = some all)
    (hbuild : BuildFunctions.runOnModule T.module = some N) (hlink : link [N] = some final) :
    ∃ starts, LinkedOf T all starts final := by
  have hinputs : inputs [N] = N.funcs := by simp [inputs]
  have hidentify : NamesIdentify (inputs [N]) := by
    rw [hinputs]
    intro g hg g' hg' p q hp hq heq
    obtain rfl := List.inj_on_of_nodup_map (nodup_names T hall hbuild hnames) hg hg' heq
    exact Option.some.inj (hp.2.symm.trans hq.2)
  obtain ⟨starts, cnt, -, hlinks⟩ := linksAll_of_link hidentify hlink
  have hmem : ∀ pc g, starts.lookup pc = some g → g ∈ N.funcs ∧ StartsAt g pc := by
    intro pc g hg
    rw [hlinks.first, hinputs] at hg
    exact ⟨List.mem_of_find?_eq_some hg, startOf_eq_some.mp (by simpa using List.find?_some hg)⟩
  refine ⟨starts, fun F hF hentry hlost pc hpc => ?_, fun pc g hg => ?_, fun f hf => ?_⟩
  · obtain ⟨f, hf, hfN⟩ := exists_built hall hbuild hF hentry
    obtain ⟨⟨bbs, hasIndirectJump⟩, hexplore, -⟩ := Option.bind_eq_some_iff.mp hf
    have X := BuildFunctions.explored T hall hF hexplore
    obtain ⟨m₀, m₁, m₂, hm, hiff⟩ := X.makeFunctionForward_eq ("final-func-" ++ F.name) hexplore
    obtain ⟨-, rfl⟩ := (hiff f).mp hf
    refine ⟨⟨F, bbs, hasIndirectJump, m₀, m₁, m₂, hF, hexplore, hm⟩, rfl, ?_⟩
    -- no other function that is built has this start
    have hat := (startsAt_fixupEntry_iff T hall hF hf).mpr ⟨hpc, hlost⟩
    cases hg : starts.lookup pc with
    | none =>
      rw [hlinks.first, hinputs, List.find?_eq_none] at hg
      exact absurd (startOf_eq_some.mpr hat) (by simpa using hg _ hfN)
    | some g =>
      obtain ⟨hgN, hgat⟩ := hmem pc g hg
      obtain ⟨F', hF', -, f', hf', rfl⟩ := (mem_runOnModule hall hbuild).mp hgN
      obtain ⟨hpc', -⟩ := (startsAt_fixupEntry_iff T hall hF' hf').mp hgat
      obtain rfl := T.start_inj F' hF' F hF (hpc'.trans hpc.symm)
      rw [Option.some.inj (hf'.symm.trans hf)]
      rfl
  -- a name is found under one function only
  · have hin : linkedFunc starts g ∈ final.funcs := by
      rw [hlinks.funcs]
      exact List.mem_map.mpr ⟨(pc, g), Lists.mem_of_lookup hg, rfl⟩
    have hkeys : (final.funcs.filterMap fun f => some f.name).Nodup := by simpa using hlinks.names
    rw [show (clone g).name = (linkedFunc starts g).name from rfl]
    simpa using Lists.find?_of_key hkeys hin rfl
  -- every function comes from an entry point
  · rw [hlinks.funcs] at hf
    obtain ⟨⟨pc, g⟩, hg, rfl⟩ := List.mem_map.mp hf
    obtain ⟨F, hF, -, f', hf', rfl⟩ := (mem_runOnModule hall hbuild).mp
      (hmem pc g (Lists.lookup_of_mem hlinks.starts hg)).1
    obtain ⟨pc', hpc'⟩ := (T.tagged F hF).start
    refine ⟨F, hF, ?_⟩
    show "linked-final-func-" ++ (fixupEntry f').name = _
    rw [name_fixupEntry, (getPCStartOfFunc_makeFunctionForward T hall hF hpc' hf').1]

end


/-! ## Where the linked module stands -/

section

variable {W E : Type} (I : Interp W E) {T : TaggedModule} {all : List (UInt64 × Func)}
variable (starts : FuncsMap)

/-- The known calls of the block are still to come. -/
def CallsAhead (x : Place W E) : Prop := ∀ b, x.block = some b → ∀ i ∈ b.instrs, Linked starts i →
    i ∈ x.cfg.code

/-- The linked function of an entry point, before its calls are replaced: it stands where the
program stands, or still at the call that the program has reached the end of. -/
inductive Stands (e : EntryFunc T all) (x : Place W E) (c : Config W E) : Prop
  | inside (hm : Matches I T.module e.bbs e.m₀ e.m₁ e.m₂ x c) (hahead : CallsAhead starts x)
  | atCall {b : BasicBlock} {pre : List Instr} {s s' r : Instr} (hfunc : x.func ∈ e.bbs)
      (hb : b ∈ x.func.blocks) (hblock : x.block = some b) (shape : ExitShape .call b pre s [] r)
      (hlinked : Linked starts s) (hcode : x.cfg.code = [r])
      (hcode' : c.code = [s', (callTarget e.m₀ s).elim r fun bb => Instr.fresh (.br bb)])
      (hop : s'.op = s.op) (htag : getHexMetadataFromIns s' .INS_directCall =
        getHexMetadataFromIns s .INS_directCall)
      (hnow : AgreesOffPC I T.module x.cfg.now c.now)

/-- A caller stands at its call, with its own results, and branches to the block-function behind the
call. -/
def Waits (all : List (UInt64 × Func)) (caller : Caller W) (y : Frame W E) : Prop :=
  ∃ e : EntryFunc T all, e.entry = caller.entry ∧ y.func = e.linked starts ∧
    (∀ k, ¬ ExitId T.module k → y.cfg.now.st.env k = caller.env k) ∧
    ∃ i t, y.cfg.code = [i, t] ∧ ∀ h ∈ T.module.blockFunctions,
      getPCStartOfFunc h = some caller.returnPC →
      ∀ b, h.blocks.head? = some b → h ∈ e.bbs ∧ t = Instr.fresh (.br b.id)

/-- The stack of the linked module: the function the program is in, and its callers. -/
def Related (all : List (UInt64 × Func)) (t : Thread W E) (ys : List (Frame W E)) : Prop :=
  ∃ (e : EntryFunc T all) (c : Config W E) (rest : List (Frame W E)),
    ys = ⟨e.linked starts, c.mapCode (linkedIns starts)⟩ :: rest ∧ e.entry = t.entry ∧
      Stands I starts e t.place c ∧ List.Forall₂ (Waits (T := T) starts all) t.callers rest

end

section

variable {W E : Type} {I : Interp W E} {K : Control W} {T : TaggedModule}
variable {all : List (UInt64 × Func)} {starts : FuncsMap} {final : Module} {e : EntryFunc T all}
variable {x : Place W E} {c d : Config W E} {i : Instr} {is : List Instr} {st : State W E}
variable {h : Func} {b : BasicBlock}

theorem isCall_of_linked (h : Linked starts i) : isCall i = true := by
  obtain ⟨g, hg⟩ := Option.isSome_iff_exists.mp h
  obtain ⟨pc, hpc, -⟩ := Option.bind_eq_some_iff.mp hg
  unfold isCall
  rw [has_of_getHexMetadata hpc]
  rfl

/-- Only stores with known calls are replaced. -/
theorem linkedIns_eq_self (h : i.op.isTerminator = true ∨ ¬ Linked starts i) :
    linkedIns starts i = i := by
  unfold linkedIns
  cases hop : i.op with
  | store v p =>
    rcases h with h | h
    · rw [hop] at h
      cases h
    · unfold Linked at h
      simp only
      rw [Option.not_isSome_iff_eq_none.mp h]
  | _ => rfl

theorem block_entered (hh : h ∈ T.module.blockFunctions) (hb : h.blocks.head? = some b) :
    (entered h b st).block = some b :=
  Func.find?_id ((List.nodup_flatMap.mp T.ids_nodup).1 h hh) (List.mem_of_head? hb)

theorem callsAhead_entered (hh : h ∈ T.module.blockFunctions) (hb : h.blocks.head? = some b) :
    CallsAhead starts (entered h b st) := by
  intro b' hb' i hi _
  obtain rfl := Option.some.inj ((block_entered hh hb).symm.trans hb')
  exact hi

/-- No block-function calls a linked function itself. -/
theorem callee_mapCode (L : LinkedOf T all starts final) (C : CallsReady T.module) {g : Func}
    (hg : g ∈ T.module.blockFunctions) {j : Instr} (hj : j ∈ g.instrs) (hcode : c.code = i :: is)
    (hop : i.op = j.op) (hi : ¬ Linked starts i) :
    callee final (c.mapCode (linkedIns starts)) = none := by
  have hhead : (c.mapCode (linkedIns starts)).code = i :: is.map (linkedIns starts) := by
    unfold Config.mapCode
    rw [hcode, List.map_cons, linkedIns_eq_self (.inr hi)]
  cases hcall : i.op with
  | call v vs =>
    cases v with
    | func name =>
      unfold callee
      rw [hhead]
      simp only [hcall]
      refine List.find?_eq_none.mpr fun f hf => ?_
      obtain ⟨F, hF, hname⟩ := L.names f hf
      have hne := C.helpers g hg j hj name vs (hop ▸ hcall) F hF
      simpa [hname] using fun heq => hne heq.symm
    | _ => exact callee_eq_none hhead fun name vs h => by rw [hcall] at h; cases h
  | _ => exact callee_eq_none hhead fun name vs h => by rw [hcall] at h; cases h

/-! ## Steps of linked functions -/

variable [DecidableEq W]

/-- A linked function does what the function did at what is not replaced. -/
theorem step_linked (hcode : c.code = i :: is) (hi : i.op.isTerminator = true ∨ ¬ Linked starts i)
    (hstep : step I K e.code c = some d) :
    step I K (e.linked starts) (c.mapCode (linkedIns starts)) =
      some (d.mapCode (linkedIns starts)) := by
  have hkeep : ∀ j js, c.code = j :: js → linkedIns starts j = j := by
    intro j js hj
    obtain ⟨rfl, -⟩ := List.cons.inj (hcode.symm.trans hj)
    exact linkedIns_eq_self hi
  have hmap := step_mapInstrs (I := I) (K := K) (f := clone e.code) (g := linkedIns starts) hkeep
  rw [show step I K (clone e.code) c = some d from hstep] at hmap
  exact hmap

/-- Terminators are not replaced. -/
theorem stepCalls_terminator (hts : ∀ i ∈ c.code, i.op.isTerminator = true)
    (hstep : step I K e.code c = some d) (ys : List (Frame W E)) :
    stepCalls I K final (⟨e.linked starts, c.mapCode (linkedIns starts)⟩ :: ys) =
      some (⟨e.linked starts, d.mapCode (linkedIns starts)⟩ :: ys) := by
  cases hcode : c.code with
  | nil => simp [step, hcode] at hstep
  | cons i is =>
    have hi : i.op.isTerminator = true := hts i (by rw [hcode]; exact List.mem_cons_self)
    have hhead : (c.mapCode (linkedIns starts)).code = i :: is.map (linkedIns starts) := by
      unfold Config.mapCode
      rw [hcode, List.map_cons, linkedIns_eq_self (.inl hi)]
    exact stepCalls_inner (callee_of_isTerminator hhead hi) (step_linked hcode (.inl hi) hstep)

theorem run_terminators (starts : FuncsMap) (final : Module) {zs : List (Config W E)}
    (hrun : Run (step I K e.code) c zs d) (hts : ∀ z ∈ zs, ∀ i ∈ z.code, i.op.isTerminator = true)
    (ys : List (Frame W E)) : ∃ zs',
      Run (stepCalls I K final) (⟨e.linked starts, c.mapCode (linkedIns starts)⟩ :: ys) zs'
        (⟨e.linked starts, d.mapCode (linkedIns starts)⟩ :: ys) ∧ zs'.length = zs.length := by
  induction hrun with
  | refl c => exact ⟨[], .refl _, rfl⟩
  | head hstep _ ih =>
    have ⟨hc, hrest⟩ := List.forall_mem_cons.mp hts
    obtain ⟨zs', hzs', hlen⟩ := ih hrest
    exact ⟨_ :: zs', .head (stepCalls_terminator hc hstep ys) hzs', congrArg Nat.succ hlen⟩

end


/-! ## Inside a block-function -/

section

variable {b : BasicBlock} {pre mid is ts : List Instr} {s r : Instr} {m₀ m₁ m₂ : BBMap}
variable {fakeBB : BlockId}

/-- What is behind the store of a call. -/
theorem eq_of_suffix_call (shape : ExitShape .call b pre s [] r)
    (hsuf : s :: is <:+ b.instrs) : is = [r] := by
  have hpre : s ∉ pre := fun hs =>
    not_untagged shape.store.hasTag_self (shape.pre_plain s hs).untagged
  have hne : s ≠ r := by
    rintro rfl
    exact not_untagged shape.store.hasTag_self shape.ret.untagged
  obtain ⟨l, hl⟩ := hsuf
  rw [shape.instrs] at hl
  rcases List.append_eq_append_iff.mp hl with ⟨as, hpre', hrest⟩ | ⟨bs, -, hrest⟩
  · cases as with
    | nil => exact (List.cons.inj hrest).2
    | cons a as =>
      refine absurd ?_ hpre
      rw [hpre', (List.cons.inj hrest).1]
      simp
  · cases bs with
    | nil => exact (List.cons.inj hrest).2.symm
    | cons a bs =>
      have hmem : s ∈ [r] := by
        have := (List.cons.inj hrest).2
        rw [List.nil_append] at this
        rw [this]
        simp
      exact absurd (List.mem_singleton.mp hmem) hne

/-- Nothing stands between the store and the fake return, however the block is taken apart. -/
theorem mid_eq_nil {pre' : List Instr} {s' r' : Instr} (shape : ExitShape .call b pre s [] r)
    (shape' : ExitShape .call b pre' s' mid r') : mid = [] := by
  obtain ⟨rfl, -⟩ := shape.eq_store shape'.mem_store (j := .call) shape'.store.hasTag_self
  have hrest : mid ++ [r'] = [r] := eq_of_suffix_call shape ⟨pre', shape'.instrs.symm⟩
  exact (List.append_eq_singleton_iff.mp hrest).elim And.left fun h => absurd h.2 (by simp)

theorem getLast?_of_exitShape {k : ExitKind} (shape : ExitShape k b pre s mid r) :
    b.instrs.getLast? = some r := by
  rw [shape.instrs, ← List.cons_append, ← List.append_assoc]
  exact List.getLast?_concat

theorem exitTerms_call (shape : ExitShape .call b pre s mid r)
    (h : ExitTerms m₀ m₁ m₂ fakeBB b ts) :
    ts = [(callTarget m₀ s).elim r fun bb => Instr.fresh (.br bb)] := by
  have hkind : ∀ k pre' s' mid' r', ExitShape k b pre' s' mid' r' →
      s' = s ∧ k = .call ∧ r' = r := by
    intro k pre' s' mid' r' h'
    obtain ⟨hs, hk⟩ := shape.eq_store h'.mem_store h'.store.hasTag_self
    exact ⟨hs, hk, Option.some.inj ((getLast?_of_exitShape h').symm.trans
      (getLast?_of_exitShape shape))⟩
  cases h with
  | inner h => exact absurd (h.untagged s shape.mem_store) (not_untagged shape.store.hasTag_self)
  | call h =>
    obtain ⟨rfl, -, rfl⟩ := hkind _ _ _ _ _ h
    rfl
  | directJump h | indirectJump h | ret h => exact absurd (hkind _ _ _ _ _ h).2.1 (by simp)

/-- A clone at the store of a call. -/
theorem clonedCode_call {i' : Instr} {is' : List Instr} (shape : ExitShape .call b pre s mid r)
    (h : ClonedCode ts [s, r] (i' :: is')) : is' = ts := by
  cases h with
  | keep _ _ _ _ h =>
    cases h with
    | keep _ _ _ hfake _ => exact absurd shape.ret.fake (by simp [hfake])
    | erase _ _ hfake _ => exact absurd shape.ret.fake (by simp [hfake])
    | exit _ => rfl
  | erase _ hcall _ _ =>
    exact absurd (shape.store.hasTag_self (k := .call)) (by simp [hasTag, hcall])

end

section

variable {W E : Type} [DecidableEq W] {I : Interp W E} {K : Control W} {addr : W → UInt64}
variable {T : TaggedModule} {all : List (UInt64 × Func)} {starts : FuncsMap} {final : Module}
variable {e : EntryFunc T all} {x : Place W E} {c d : Config W E} {t t' : Thread W E}

/-- **A step inside a block-function**: it is matched, or it is a store that is erased, or the store
of a known call. -/
theorem step_stands (hall : allBBs T.module = some all) (G : Guest I addr) (V : ExitsTrue T.module)
    (C : CallsReady T.module) (L : LinkedOf T all starts final) (hst : Stands I starts e x c)
    (hloads : LoadsAvoid I (AtPC I) x.cfg) (hexit : x.atExit = false)
    (hstep : step I K x.func x.cfg = some d) (ys : List (Frame W E)) :
    ∃ zs c', Run (stepCalls I K final) (⟨e.linked starts, c.mapCode (linkedIns starts)⟩ :: ys) zs
      (⟨e.linked starts, c'.mapCode (linkedIns starts)⟩ :: ys) ∧ zs.length ≤ 2 ∧
      Stands I starts e ⟨x.func, d⟩ c' := by
  cases hst with
  | @atCall b pre s s' r _ _ _ shape _ hcode _ _ _ _ =>
    unfold Place.atExit at hexit
    simp [hcode, shape.ret.fake] at hexit
  | inside hm hahead =>
    have X := e.explored hall
    have hT := X.sub x.func hm.func
    -- a call that is not linked may go, and the linked ones are still ahead
    have hahead' : ∀ i, x.cfg.code = i :: d.code → d.bb = x.cfg.bb → ¬ Linked starts i →
        CallsAhead starts ⟨x.func, d⟩ := by
      intro i hcode hbb hi b hb j hj hl
      have hb' : x.block = some b := by
        unfold Place.block at hb ⊢
        rwa [← hbb]
      have hmem := hahead b hb' j hj hl
      rw [hcode] at hmem
      rcases List.mem_cons.mp hmem with rfl | hmem
      · exact absurd hl hi
      · exact hmem
    rcases X.step_cases ("final-func-" ++ e.entry.name) G V hm hloads hexit hstep with
      ⟨i, -, hcode, hbb, hcall, hm'⟩ | ⟨i, hi, is, i', is', c', hcode, hcode', -, hop,
        htag, hstep', hm'⟩
    · refine ⟨[], c, .refl _, Nat.zero_le 2, .inside hm' (hahead' i hcode hbb fun hl => ?_)⟩
      rw [isCall_of_linked hl] at hcall
      cases hcall
    · have hiff : Linked starts i' ↔ Linked starts i := by
        unfold Linked
        rw [htag]
      by_cases hl : Linked starts i
      · -- the program stores the address of the callee, and the linked function stays at the call
        obtain ⟨b, hb, hbb, hsuf, ts, hts, hfollow⟩ := hm.code
        have hib : i ∈ b.instrs := hsuf.subset (by rw [hcode]; exact List.mem_cons_self)
        have hcall : hasTag i .call = true := isCall_of_linked hl
        obtain ⟨pre, mid, r, shape⟩ : ∃ pre mid r, ExitShape .call b pre i mid r := by
          rcases (T.tagged x.func hT).shape b hb with ⟨pre, t, h⟩ | ⟨k, pre, s, mid, r, shape⟩
          · exact absurd (h.untagged i hib) (not_untagged hcall)
          · obtain ⟨rfl, rfl⟩ := shape.eq_store hib hcall
            exact ⟨pre, mid, r, shape⟩
        have hdirect : i.has .INS_directCall = true := by
          obtain ⟨g, hg⟩ := Option.isSome_iff_exists.mp hl
          obtain ⟨pc, hpc, -⟩ := Option.bind_eq_some_iff.mp hg
          exact has_of_getHexMetadata hpc
        obtain rfl := C.last x.func hT b hb pre i mid r shape hdirect
        obtain rfl : is = [r] := eq_of_suffix_call shape (hcode ▸ hsuf)
        rw [hcode, hcode'] at hfollow
        obtain rfl := clonedCode_call shape hfollow
        obtain ⟨p, rfl, hp, -⟩ := step_silent (A := AtPC I) (V := ExitId T.module)
          (silent_of_isStoreTo shape.store.toPC) (fun k hk => ⟨x.func, hT, i, hi, shape.store.toPC,
            hk⟩) hcode hstep
        have hblock : x.block = some b := by
          unfold Place.block
          rw [hbb]
          exact Func.find?_id ((List.nodup_flatMap.mp T.ids_nodup).1 x.func hT) hb
        exact ⟨[], c, .refl _, Nat.zero_le 2, .atCall hm.func hb hblock shape hl rfl
          (by rw [hcode', exitTerms_call shape hts]) hop htag (hp.trans hm.now)⟩
      -- any other instruction is there on both sides
      · have hcallee := callee_mapCode L C hT hi hcode' hop (fun h => hl (hiff.mp h))
        have hlinked := step_linked hcode' (.inr fun h => hl (hiff.mp h)) (step_fixupEntry hstep')
        refine ⟨[_], c', .head (stepCalls_inner hcallee hlinked) (.refl _), Nat.le_succ 1,
          .inside hm' ?_⟩
        rcases step_code hstep with ⟨j, hj, hbb⟩ | ⟨b, hb, hbcode⟩
        · obtain ⟨rfl, -⟩ := List.cons.inj (hcode.symm.trans hj)
          exact hahead' i hj hbb hl
        · intro b' hb' j hj _
          obtain rfl := Option.some.inj (hb.symm.trans hb')
          exact hbcode ▸ hj

end


/-! ## Exits -/

section

variable {W E : Type} [DecidableEq W] {I : Interp W E} {K : Control W} {addr : W → UInt64}
variable {T : TaggedModule} {all : List (UInt64 × Func)} {starts : FuncsMap} {final : Module}
variable {e : EntryFunc T all} {x : Place W E} {c : Config W E} {b eb : BasicBlock} {s : Instr}
variable {h : Func} {pc : UInt64} {entry : Func} {callers : List (Caller W)}
variable {rest : List (Frame W E)}

omit [DecidableEq W] in
/-- Only at a known call the linked function is behind. -/
theorem Stands.matches_of_not_call (hall : allBBs T.module = some all) (hst : Stands I starts e x c)
    (hleaves : Leaves x b s) (hcall : isCall s = false) :
    Matches I T.module e.bbs e.m₀ e.m₁ e.m₂ x c := by
  cases hst with
  | inside hm _ => exact hm
  | @atCall b' pre s₀ s' r hfunc hb hblock shape hlinked _ _ _ _ _ =>
    obtain rfl := Option.some.inj (hleaves.block.symm.trans hblock)
    have hs := shape.exitStore_eq fun i hi => (e.explored hall).read x.func hfunc i
      (mem_instrs.mpr ⟨b, hb, hi⟩)
    obtain rfl := Option.some.inj (hleaves.store.symm.trans hs)
    rw [isCall_of_linked hlinked] at hcall
    cases hcall

omit [DecidableEq W] in
theorem Stands.now (hst : Stands I starts e x c) : AgreesOffPC I T.module x.cfg.now c.now := by
  cases hst with
  | inside hm _ => exact hm.now
  | atCall _ _ _ _ _ _ _ _ _ hnow => exact hnow

omit [DecidableEq W] in
theorem Stands.func_mem (hall : allBBs T.module = some all) (hst : Stands I starts e x c) :
    x.func ∈ T.module.blockFunctions := by
  cases hst with
  | inside hm _ => exact (e.explored hall).sub x.func hm.func
  | atCall hfunc _ _ _ _ _ _ _ _ _ => exact (e.explored hall).sub x.func hfunc

omit [DecidableEq W] in
/-- A jump of the program is one of the dispatcher. -/
theorem leave_of_goesTo (hleaves : Leaves x b s) (hcall : isCall s = false)
    (hret : s.has .INS_return = false) (hgoes : GoesTo I addr T.module x.cfg.now s pc h eb) :
    leave I addr T.module x = some (entered h eb x.cfg.now.st) := by
  have hpc : exitPC I addr x.cfg.now s = some pc := by
    rw [exitPC, hcall, if_neg (by simp), hret, if_neg (by simp)]
    exact hgoes.target
  have hfind : T.module.blockFunctions.find? (fun h => getPCStartOfFunc h = some pc) = some h := by
    cases hf : T.module.blockFunctions.find? (fun h => getPCStartOfFunc h = some pc) with
    | none => exact absurd hgoes.start (by simpa using List.find?_eq_none.mp hf h hgoes.mem)
    | some h' =>
      have hstart : getPCStartOfFunc h' = some pc := by simpa using List.find?_some hf
      rw [T.start_inj h' (List.mem_of_find?_eq_some hf) h hgoes.mem (hstart.trans hgoes.start.symm)]
  simp [leave, hleaves.block, hleaves.store, hpc, hfind, start, hgoes.head, entered]

/-- **A jump.** -/
theorem jump_related (hall : allBBs T.module = some all) (G : Guest I addr) (V : ExitsTrue T.module)
    (hst : Stands I starts e x c) (hleaves : Leaves x b s) (hcall : isCall s = false)
    (hret : s.has .INS_return = false) (hgoes : GoesTo I addr T.module x.cfg.now s pc h eb)
    (htables : s.has .INS_indirectJump = true → TableHolds I K addr T.module e.bbs x b s)
    (final : Module) (ys : List (Frame W E)) :
    ∃ c', stepCalls I K final (⟨e.linked starts, c.mapCode (linkedIns starts)⟩ :: ys) =
      some (⟨e.linked starts, c'.mapCode (linkedIns starts)⟩ :: ys) ∧
        Stands I starts e (entered h eb x.cfg.now.st) c' := by
  have X := e.explored hall
  have hm := hst.matches_of_not_call hall hleaves hcall
  obtain ⟨b', -, -, hts, -, -⟩ := X.exit_cases hm hleaves.atExit
  have htables' : ∀ b' s', x.block = some b' → exitStore b' = some s' →
      s'.has .INS_indirectJump = true → TableHolds I K addr T.module e.bbs x b' s' := by
    intro b' s' hb' hs' hind
    obtain rfl := Option.some.inj (hb'.symm.trans hleaves.block)
    obtain rfl := Option.some.inj (hs'.symm.trans hleaves.store)
    exact htables hind
  obtain ⟨c', hstep, hm'⟩ := X.leave_matches ("final-func-" ++ e.entry.name) G V e.maps hm
    hleaves.atExit htables' (leave_of_goesTo hleaves hcall hret hgoes)
  exact ⟨c', stepCalls_terminator hts.isTerminator (step_fixupEntry hstep) ys,
    .inside hm' (callsAhead_entered hgoes.mem hgoes.head)⟩

omit [DecidableEq W] in
/-- At a call the linked function stands at the call. -/
theorem Stands.atCall_of_call (hall : allBBs T.module = some all) (hst : Stands I starts e x c)
    (hleaves : Leaves x b s) (hlinked : Linked starts s) :
    ∃ s' r, x.func ∈ e.bbs ∧ s ∈ x.func.instrs ∧ s.isStoreTo "PC" = true ∧
      c.code = [s', (callTarget e.m₀ s).elim r fun bb => Instr.fresh (.br bb)] ∧ FakeReturn r ∧
      s'.op = s.op ∧
      getHexMetadataFromIns s' .INS_directCall = getHexMetadataFromIns s .INS_directCall ∧
      AgreesOffPC I T.module x.cfg.now c.now := by
  have hcall : hasTag s .call = true := isCall_of_linked hlinked
  cases hst with
  | inside hm hahead =>
    obtain ⟨b', -, hb', -, -, hshape⟩ := (e.explored hall).exit_cases hm hleaves.atExit
    obtain rfl := Option.some.inj (hb'.symm.trans hleaves.block)
    have hs : s ∈ b'.instrs := (List.mem_filter.mp (List.mem_of_getLast? hleaves.store)).1
    have hmem := hahead b' hleaves.block s hs hlinked
    have hfunc := (e.explored hall).sub x.func hm.func
    rcases (T.tagged x.func hfunc).shape b' (List.mem_of_find?_eq_some hleaves.block) with
      ⟨pre, t, h⟩ | ⟨k, pre, s₀, mid, r, shape⟩
    · exact absurd (h.untagged s hs) (not_untagged hcall)
    · rw [(hshape k pre s₀ mid r shape).2] at hmem
      rw [List.mem_singleton.mp hmem] at hcall
      exact absurd shape.ret.untagged (not_untagged hcall)
  | @atCall b' pre s₀ s' r hfunc hb hblock shape _ _ hcode' hop htag hnow =>
    obtain rfl := Option.some.inj (hleaves.block.symm.trans hblock)
    have hs := shape.exitStore_eq fun i hi => (e.explored hall).read x.func hfunc i
      (mem_instrs.mpr ⟨b, hb, hi⟩)
    obtain rfl := Option.some.inj (hleaves.store.symm.trans hs)
    exact ⟨s', r, hfunc, mem_instrs.mpr ⟨b, hb, shape.mem_store⟩, shape.store.toPC, hcode',
      shape.ret, hop, htag, hnow⟩

/-- The function of an entry point is started, while the program enters its block-function. -/
theorem EntryFunc.enter_linked (hall : allBBs T.module = some all) (e : EntryFunc T all)
    (starts : FuncsMap) (final : Module) {st st' : State W E} {c₀ : Config W E}
    (hstart : start e.entry st = some c₀) (hag : AgreesOffPC I T.module ⟨st, []⟩ ⟨st', []⟩)
    (ys : List (Frame W E)) :
    ∃ c₀' zs c, start (e.linked starts) st' = some c₀' ∧ Run (stepCalls I K final)
      (⟨e.linked starts, c₀'⟩ :: ys) zs
        (⟨e.linked starts, c.mapCode (linkedIns starts)⟩ :: ys) ∧ zs.length ≤ 1 ∧
          Matches I T.module e.bbs e.m₀ e.m₁ e.m₂ ⟨e.entry, c₀⟩ c := by
  obtain ⟨c₀', zs, c, hc₀, hzs, hlen, hts, hm⟩ : ∃ c₀' zs c, start e.code st' = some c₀' ∧
      Run (step I K e.code) c₀' zs c ∧ zs.length ≤ 1 ∧
        (∀ z ∈ zs, ∀ i ∈ z.code, i.op.isTerminator = true) ∧
        Matches I T.module e.bbs e.m₀ e.m₁ e.m₂ ⟨e.entry, c₀⟩ c :=
    (e.explored hall).start_matches e.explore ("final-func-" ++ e.entry.name) hstart hag
  obtain ⟨zs', hzs', hlen'⟩ := run_terminators starts final hzs hts ys
  have hmap : start (e.linked starts) st' = (start (clone e.code) st').map
      (Config.mapCode (linkedIns starts)) :=
    start_mapInstrs
  rw [show start (clone e.code) st' = some c₀' from hc₀] at hmap
  exact ⟨_, zs', c, hmap, hzs', by omega, hm⟩

/-- **A call**: the linked module starts the function of the callee, and the caller waits. -/
theorem call_related (hall : allBBs T.module = some all) (G : Guest I addr)
    (C : CallsReady T.module) (L : LinkedOf T all starts final) (hst : Stands I starts e x c)
    (hleaves : Leaves x b s) (hcall : isCall s = true) (hdirect : s.has .INS_directCall = true)
    (hgoes : GoesTo I addr T.module x.cfg.now s pc h eb) (hpoint : isEntryPoint h = true)
    (hlost : ¬ EntryLost T.module.blockFunctions h) {returnPC : UInt64}
    (hreturn : getHexMetadataFromIns s .INS_callReturn = some returnPC) (ys : List (Frame W E)) :
    ∃ (e' : EntryFunc T all) (c' : Config W E) (y : Frame W E) (zs : List (List (Frame W E))),
      Run (stepCalls I K final) (⟨e.linked starts, c.mapCode (linkedIns starts)⟩ :: ys) zs
        (⟨e'.linked starts, c'.mapCode (linkedIns starts)⟩ :: y :: ys) ∧ zs.length ≤ 2 ∧
        e'.entry = h ∧
      Stands I starts e' (entered h eb x.cfg.now.st) c' ∧
      Waits (T := T) starts all ⟨e.entry, returnPC, x.cfg.now.st.env⟩ y := by
  obtain ⟨e', rfl, hlookup⟩ := L.entries h hgoes.mem hpoint hlost pc hgoes.start
  have X := e.explored hall
  have hfunc := hst.func_mem hall
  -- the tag is the program counter that is stored
  have htag : getHexMetadataFromIns s .INS_directCall = some pc := by
    have hs : s ∈ x.func.instrs := mem_instrs.mpr ⟨b, List.mem_of_find?_eq_some hleaves.block,
      (List.mem_filter.mp (List.mem_of_getLast? hleaves.store)).1⟩
    obtain ⟨v, hv, hpc⟩ := Option.bind_eq_some_iff.mp hgoes.target
    obtain ⟨width, n, rfl, htag⟩ := C.direct x.func hfunc s hs hdirect v hv
    rw [Point.read_of_leaf rfl, Option.map_some, G.addr_const] at hpc
    rw [htag, Option.some.inj hpc]
  have hlinked : Linked starts s := by
    unfold Linked
    rw [htag, Option.bind_some, hlookup]
    rfl
  obtain ⟨s', r, hfunc', hs, hstore, hcode, hr, hop, htag', hnow⟩ :=
    hst.atCall_of_call hall hleaves hlinked
  -- the store is a call of that function now
  have hins : linkedIns starts s' = ⟨s'.id, .call (.func (clone e'.code).name) [], []⟩ := by
    obtain ⟨v, hv⟩ := Instr.op_of_isStoreTo hstore
    unfold linkedIns
    rw [hop, hv, htag', htag, Option.bind_some, hlookup]
  have hcallee : callee final (c.mapCode (linkedIns starts)) = some (e'.linked starts) := by
    unfold callee Config.mapCode
    rw [hcode, List.map_cons, hins]
    exact L.callees pc e'.code hlookup
  -- the callee enters, with the caller on the stack
  have hentered : start e'.entry x.cfg.now.st = some (entered e'.entry eb x.cfg.now.st).cfg := by
    rw [start, hgoes.head]
    rfl
  obtain ⟨c₀, zs, c', hframe, hzs, hlen, hm⟩ :=
    e'.enter_linked (K := K) hall starts final hentered (hnow.enter [])
    (⟨e.linked starts, c.mapCode (linkedIns starts)⟩ :: ys)
  refine ⟨e', c', _, _, .head (stepCalls_enter hcallee hframe) hzs, ?_, rfl,
    .inside hm (callsAhead_entered hgoes.mem hgoes.head), e, rfl, rfl, hnow.env,
    linkedIns starts s', linkedIns starts ((callTarget e.m₀ s).elim r fun bb =>
      Instr.fresh (.br bb)), ?_, ?_⟩
  · rw [List.length_cons]
    omega
  · unfold Config.mapCode
    rw [hcode]
    rfl
  -- when it is resumed, the caller branches to the return address
  · intro g hg hstart b₀ hb₀
    obtain ⟨pcs, hpcs⟩ := Option.isSome_iff_exists.mp (X.read x.func hfunc' s hs hstore)
    have hnext : returnPC ∈ pcs := by
      have hsome := hpcs
      simp only [nextPCList, hcall, if_true, hreturn] at hsome
      obtain rfl := Option.some.inj hsome
      exact List.mem_singleton_self _
    have hgin := X.closed x.func hfunc' s hs hstore pcs hpcs returnPC hnext g hg hstart
    have htarget : callTarget e.m₀ s = some b₀.id :=
      X.callTarget_of_start _ e.maps hcall hreturn hgin hstart hb₀
    refine ⟨hgin, ?_⟩
    rw [htarget]
    rfl

omit [DecidableEq W] in
theorem isCall_of_return (hall : allBBs T.module = some all) (hst : Stands I starts e x c)
    (hleaves : Leaves x b s) (hret : s.has .INS_return = true) : isCall s = false := by
  have hs : s ∈ b.instrs := (List.mem_filter.mp (List.mem_of_getLast? hleaves.store)).1
  rcases (T.tagged x.func (hst.func_mem hall)).shape b
      (List.mem_of_find?_eq_some hleaves.block) with
    ⟨pre, t, h⟩ | ⟨k, pre, s₀, mid, r, shape⟩
  · exact absurd (h.untagged s hs) (not_untagged (k := .ret) hret)
  · obtain ⟨rfl, rfl⟩ := shape.eq_store hs (j := .ret) hret
    exact shape.store.hasTag_ne (j := .call) (by simp)

omit [DecidableEq W] in
/-- At a return the built function returns too. -/
theorem code_of_return (hall : allBBs T.module = some all)
    (hm : Matches I T.module e.bbs e.m₀ e.m₁ e.m₂ x c) (hleaves : Leaves x b s)
    (hret : s.has .INS_return = true) : c.code = [Instr.fresh (.ret none)] := by
  obtain ⟨b', -, hb', hts, hinner, hshape⟩ := (e.explored hall).exit_cases hm hleaves.atExit
  obtain rfl := Option.some.inj (hb'.symm.trans hleaves.block)
  have hkind : ∀ k pre s' mid r, ExitShape k b' pre s' mid r → k = .ret := by
    intro k pre s' mid r shape
    obtain rfl := Option.some.inj ((hshape k pre s' mid r shape).1.symm.trans hleaves.store)
    exact (shape.eq_store shape.mem_store (j := .ret) hret).2.symm
  revert hts
  generalize c.code = code
  intro hts
  cases hts with
  | inner h => exact absurd h (hinner _ _)
  | call h | directJump h | indirectJump h => exact absurd (hkind _ _ _ _ _ h) (by simp)
  | ret h => rfl

/-- **A return**: the linked function returns, and its caller branches behind the call. -/
theorem return_related (hall : allBBs T.module = some all) (hst : Stands I starts e x c)
    (hleaves : Leaves x b s) (hcall : isCall s = false) (hret : s.has .INS_return = true)
    {caller : Caller W} (hgoes : GoesTo I addr T.module x.cfg.now s caller.returnPC h eb)
    {y : Frame W E} (hwaits : Waits (T := T) starts all caller y) (final : Module)
    (ys : List (Frame W E)) :
    ∃ (e' : EntryFunc T all) (c' : Config W E) (zs : List (List (Frame W E))),
      Run (stepCalls I K final) (⟨e.linked starts, c.mapCode (linkedIns starts)⟩ :: y :: ys) zs
        (⟨e'.linked starts, c'.mapCode (linkedIns starts)⟩ :: ys) ∧ zs.length ≤ 2 ∧
        e'.entry = caller.entry ∧
      Stands I starts e' (entered h eb { x.cfg.now.st with env := caller.env }) c' := by
  have hm := hst.matches_of_not_call hall hleaves hcall
  have hcode := code_of_return hall hm hleaves hret
  obtain ⟨e', hentry, hfunc, henv, i, t, hycode, hbehind⟩ := hwaits
  obtain ⟨hin, rfl⟩ := hbehind h hgoes.mem hgoes.start eb hgoes.head
  have X' := e'.explored hall
  obtain ⟨f, ⟨bb, code, p, edge⟩⟩ := y
  obtain rfl : f = e'.linked starts := hfunc
  obtain rfl : code = [i, Instr.fresh (.br eb.id)] := hycode
  -- behind the call
  let d : Config W E := ⟨bb, [Instr.fresh (.br eb.id)],
    ⟨{ c.now.st with env := p.st.env }, i.id.toList ++ p.done⟩, edge⟩
  -- the caller goes on with its branch, in the world of the callee
  have hresume : Config.resume (⟨bb, [i, Instr.fresh (.br eb.id)], p, edge⟩ : Config W E)
      c.now.st none = d.mapCode (linkedIns starts) := resume_none rfl c.now.st
  have hleave : stepCalls I K final (⟨e.linked starts, c.mapCode (linkedIns starts)⟩ ::
      ⟨e'.linked starts, ⟨bb, [i, Instr.fresh (.br eb.id)], p, edge⟩⟩ :: ys) =
        some (⟨e'.linked starts, d.mapCode (linkedIns starts)⟩ :: ys) := by
    have hret : (c.mapCode (linkedIns starts)).code = [Instr.fresh (.ret none)] := by
      unfold Config.mapCode
      rw [hcode]
      rfl
    rw [← hresume]
    exact stepCalls_leave hret rfl
  have hterm : ∀ j ∈ d.code, j.op.isTerminator = true := by
    intro j hj
    rw [List.mem_singleton.mp hj]
    rfl
  -- and from there to the block that the return address names
  have hgoto : step I K e'.body d = some ⟨eb.id,
      (finalBlock e'.m₀ e'.m₁ e'.m₂ (fakeId e'.bbs) eb).instrs, d.now, some (bb, d.now)⟩ :=
    X'.goto_built ("final-func-" ++ e'.entry.name)
      (X'.mem_inlined _ hin (List.mem_of_head? hgoes.head)) d
  have hag : AgreesOffPC I T.module ⟨{ x.cfg.now.st with env := caller.env }, []⟩ d.now :=
    ⟨fun _ hk => (nomatch hk), henv, hm.now.mem, hm.now.ext⟩
  exact ⟨e', _, [_, _],
    .head hleave (.head (stepCalls_terminator hterm (step_fixupEntry hgoto) ys) (.refl _)),
    Nat.le_refl 2, hentry, .inside (X'.matches_block hin (List.mem_of_head? hgoes.head) hag .none)
      (callsAhead_entered hgoes.mem hgoes.head)⟩

end


/-! ## Whole runs -/

section

variable {W E : Type} [DecidableEq W] {I : Interp W E} {K : Control W} {addr : W → UInt64}
variable {T : TaggedModule} {all : List (UInt64 × Func)} {starts : FuncsMap} {N final : Module}
variable {t : Thread W E} {ts : List (Thread W E)} {entry : Func} {st : State W E} {c₀ : Config W E}

/-- **Every step of the program is one of the linked module, or up to two, or it is a store that is
left out.** -/
theorem simulation_execute (hall : allBBs T.module = some all) (G : Guest I addr)
    (V : ExitsTrue T.module) (C : CallsReady T.module) (L : LinkedOf T all starts final) :
    SimulationIn 2 (execute I K addr T.module) (stepCalls I K final) (Related I starts (T := T) all)
      (Disciplined I K addr T.module all) := by
  rintro t ys t' ⟨e, c, rest, rfl, hentry, hst, hwaits⟩ hQ hstep
  unfold execute at hstep
  split_ifs at hstep with hexit
  · obtain ⟨b, s, pc, h, eb, hb, hs, hgoes, hcases⟩ := proceed_cases hstep
    have hleaves : Leaves t.place b s := ⟨hexit, hb, hs⟩
    rcases hcases with ⟨hcall, returnPC, hreturn, rfl⟩ |
      ⟨hcall, hret, caller, callers, hcallers, rfl⟩ | ⟨hcall, hret, rfl⟩
    · obtain ⟨hdirect, hcallee⟩ := hQ.calls b s hleaves hcall
      obtain ⟨hpoint, hlost⟩ := hcallee pc hgoes.target h hgoes.mem hgoes.start
      obtain ⟨e', c', y, zs, hzs, hlen, rfl, hst', hy⟩ :=
        call_related (K := K) hall G C L hst hleaves hcall hdirect hgoes hpoint hlost hreturn rest
      exact ⟨zs, _, hzs, hlen, e', c', y :: rest, rfl, rfl, hst', .cons (hentry ▸ hy) hwaits⟩
    · rw [hcallers] at hwaits
      cases hwaits with
      | @cons _ y _ rest hy hwaits =>
        have hpc : exitTarget I addr t.place.cfg.now s = some caller.returnPC :=
          hQ.returns b s hleaves hret caller (by rw [hcallers]; rfl)
        obtain rfl := Option.some.inj (hgoes.target.symm.trans hpc)
        obtain ⟨e', c', zs, hzs, hlen, hentry', hst'⟩ :=
          return_related (K := K) hall hst hleaves hcall hret hgoes hy final rest
        exact ⟨zs, _, hzs, hlen, e', c', rest, rfl, hentry', hst', hwaits⟩
    · have htables := fun hind => hQ.tables b s hleaves hind e.bbs e.hasIndirectJump
        (hentry ▸ e.explore)
      obtain ⟨c', hc', hst'⟩ :=
        jump_related hall G V hst hleaves hcall hret hgoes htables final rest
      exact ⟨[_], _, .head hc' (.refl _), Nat.le_succ 1, e, c', rest, rfl, hentry, hst', hwaits⟩
  · obtain ⟨d, hd, rfl⟩ := Option.map_eq_some_iff.mp hstep
    obtain ⟨zs, c', hzs, hlen, hst'⟩ :=
      step_stands hall G V C L hst hQ.loads (by simpa using hexit) hd rest
    exact ⟨zs, _, hzs, hlen, e, c', rest, rfl, hentry, hst', hwaits⟩

theorem EntryFunc.name_linked (e : EntryFunc T all) :
    (e.linked starts).name = "linked-final-func-" ++ ("final-func-" ++ e.entry.name) :=
  congrArg ("linked-final-func-" ++ ·) (name_built e.hasIndirectJump e.m₀ e.m₁ e.m₂)

/-- The program starts in an entry point, and the linked module in its function. -/
theorem exists_related (hall : allBBs T.module = some all) (L : LinkedOf T all starts final)
    (hentry : entry ∈ T.module.blockFunctions) (hpoint : isEntryPoint entry = true)
    (hlost : ¬ EntryLost T.module.blockFunctions entry) (hstart : start entry st = some c₀) :
    ∃ f ∈ final.funcs, f.name = "linked-final-func-" ++ ("final-func-" ++ entry.name) ∧ ∃ c₀' zs ys,
      start f st = some c₀' ∧ Run (stepCalls I K final) [⟨f, c₀'⟩] zs ys ∧ zs.length ≤ 1 ∧
        Related I starts (T := T) all ⟨⟨entry, c₀⟩, entry, []⟩ ys := by
  obtain ⟨pc, hpc⟩ := (T.tagged entry hentry).start
  obtain ⟨e, rfl, hlookup⟩ := L.entries entry hentry hpoint hlost pc hpc
  obtain ⟨eb, heb, rfl⟩ := Option.map_eq_some_iff.mp hstart
  obtain ⟨c₀', zs, c, hframe, hzs, hlen, hm⟩ :=
    e.enter_linked (I := I) (K := K) hall starts final hstart (.refl _) []
  exact ⟨e.linked starts, List.mem_of_find?_eq_some (L.callees pc e.code hlookup), e.name_linked,
    c₀', zs, _, hframe, hzs, hlen, e, c, [], rfl, rfl, .inside hm (callsAhead_entered hentry heb),
      .nil⟩

/-- **A run of the program from an entry point is a run of the linked module**: it comes to the
function of the same entry point, below as many callers, with the same results, the same memory
apart from `PC`, and the same world. -/
theorem link_simulates (hnames : (T.module.funcs.map Func.name).Nodup)
    (hall : allBBs T.module = some all) (hbuild : BuildFunctions.runOnModule T.module = some N)
    (hlink : link [N] = some final) (G : Guest I addr) (V : ExitsTrue T.module)
    (C : CallsReady T.module) (hentry : entry ∈ T.module.blockFunctions)
    (hpoint : isEntryPoint entry = true) (hlost : ¬ EntryLost T.module.blockFunctions entry)
    (hstart : start entry st = some c₀)
    (hrun : Run (execute I K addr T.module) ⟨⟨entry, c₀⟩, entry, []⟩ ts t)
    (hQ : ∀ u ∈ ts, Disciplined I K addr T.module all u) :
    ∃ f ∈ final.funcs, f.name = "linked-final-func-" ++ ("final-func-" ++ entry.name) ∧
      ∃ c₀' ys y rest, start f st = some c₀' ∧ Run (stepCalls I K final)
      [⟨f, c₀'⟩] ys (y :: rest) ∧ ys.length ≤ 2 * ts.length + 1 ∧
        y.func.name = "linked-final-func-" ++ ("final-func-" ++ t.entry.name) ∧
        rest.length = t.callers.length ∧ AgreesOffPC I T.module t.place.cfg.now y.cfg.now := by
  obtain ⟨starts, L⟩ := linkedOf hnames hall hbuild hlink
  obtain ⟨f, hf, hname, c₀', zs, ys, hc₀, hzs, hlen, hrel⟩ :=
    exists_related (I := I) (K := K) hall L hentry hpoint hlost hstart
  obtain ⟨zs', ys', hzs', hlen', e, c, rest, rfl, he, hst, hwaits⟩ :=
    hrun.simulates_in (simulation_execute hall G V C L) hQ hrel
  refine ⟨f, hf, hname, c₀', zs ++ zs', _, rest, hc₀, hzs.append hzs', ?_, ?_,
    hwaits.length_eq.symm, hst.now⟩
  · rw [List.length_append]
    omega
  · rw [← he]
    exact e.name_linked

/-- **Where the outermost function of the program returns, the function of its entry point does**,
with the same memory apart from `PC` and the same world. -/
theorem link_returns (hnames : (T.module.funcs.map Func.name).Nodup)
    (hall : allBBs T.module = some all) (hbuild : BuildFunctions.runOnModule T.module = some N)
    (hlink : link [N] = some final) (G : Guest I addr) (V : ExitsTrue T.module)
    (C : CallsReady T.module) (hentry : entry ∈ T.module.blockFunctions)
    (hpoint : isEntryPoint entry = true) (hlost : ¬ EntryLost T.module.blockFunctions entry)
    (hstart : start entry st = some c₀)
    (hrun : Run (execute I K addr T.module) ⟨⟨entry, c₀⟩, entry, []⟩ ts t)
    (hQ : ∀ u ∈ ts, Disciplined I K addr T.module all u) {b : BasicBlock} {s : Instr}
    (hleaves : Leaves t.place b s) (hret : s.has .INS_return = true) (houter : t.callers = []) :
    ∃ f ∈ final.funcs, f.name = "linked-final-func-" ++ ("final-func-" ++ entry.name) ∧ ∃ c₀' ys y,
      start f st = some c₀' ∧ Run (stepCalls I K final) [⟨f, c₀'⟩] ys [y] ∧
        ys.length ≤ 2 * ts.length + 1 ∧
        outcome I y.cfg = some none ∧ (∀ a, ¬ AtPC I a →
          y.cfg.now.st.mem a = t.place.cfg.now.st.mem a) ∧
          y.cfg.now.st.ext = t.place.cfg.now.st.ext := by
  obtain ⟨starts, L⟩ := linkedOf hnames hall hbuild hlink
  obtain ⟨f, hf, hname, c₀', zs, ys, hc₀, hzs, hlen, hrel⟩ :=
    exists_related (I := I) (K := K) hall L hentry hpoint hlost hstart
  obtain ⟨zs', ys', hzs', hlen', e, c, rest, rfl, he, hst, hwaits⟩ :=
    hrun.simulates_in (simulation_execute hall G V C L) hQ hrel
  rw [houter] at hwaits
  obtain rfl := List.forall₂_nil_left_iff.mp hwaits
  have hm := hst.matches_of_not_call hall hleaves (isCall_of_return hall hst hleaves hret)
  have hcode := code_of_return hall hm hleaves hret
  refine ⟨f, hf, hname, c₀', zs ++ zs', _, hc₀, hzs.append hzs', ?_, ?_, hm.now.mem, hm.now.ext⟩
  · rw [List.length_append]
    omega
  · unfold outcome Config.mapCode
    rw [hcode]
    rfl

end

/-! ## A call and its return -/

/-- `0xa000` returns. -/
def leafReturn : Func :=
  exitFunc "void-tcg-llvm-tb-1-a000" "func_entry_point" 3 [⟨some 29, .load (.global "LR"),
    [tagPC .BB_pcStart 0xa000]⟩]
    ⟨some 30, .store (.inst 29) (.global "PC"),
      [tagPC .BB_pcStart 0xa000, (.INS_return, .str "true")]⟩

/-- `0x8004`, behind the call at `0x8000`, returns. -/
def behindCall : Func :=
  exitFunc "void-tcg-llvm-tb-2-8004" "entry" 5 [⟨some 49, .load (.global "R4"),
    [tagPC .BB_pcStart 0x8004]⟩]
    ⟨some 50, .store (.inst 49) (.global "PC"),
      [tagPC .BB_pcStart 0x8004, (.INS_return, .str "true")]⟩

theorem taggedFunc_leafReturn : TaggedFunc leafReturn :=
  taggedFunc_exitFunc (k := .ret) 0xa000 ⟨rfl, fun k => by cases k <;> rfl, rfl⟩
    (by simpa using ⟨rfl, fun k => by cases k <;> rfl, rfl⟩) (by decide) (Or.inr rfl)
    (by decide) (by decide)

theorem taggedFunc_behindCall : TaggedFunc behindCall :=
  taggedFunc_exitFunc (k := .ret) 0x8004 ⟨rfl, fun k => by cases k <;> rfl, rfl⟩
    (by simpa using ⟨rfl, fun k => by cases k <;> rfl, rfl⟩) (by decide) (Or.inr rfl)
    (by decide) (by decide)

theorem blockFunctions_callReturn : (⟨[caller, leafReturn, behindCall]⟩ : Module).blockFunctions =
    [caller, leafReturn, behindCall] := by
  have h0 : Func.isBlockFunction caller = true := by decide
  have h1 : Func.isBlockFunction leafReturn = true := by decide
  have h2 : Func.isBlockFunction behindCall = true := by decide
  simp [Module.blockFunctions, h0, h1, h2]

/-- `0x8000` calls `0xa000`. -/
def callReturn : TaggedModule where
  module := ⟨[caller, leafReturn, behindCall]⟩
  tagged := by
    rw [blockFunctions_callReturn]
    simpa using ⟨taggedFunc_caller, taggedFunc_leafReturn, taggedFunc_behindCall⟩
  start_inj := by
    have h0 : getPCStartOfFunc caller = some 0x8000 := by decide
    have h1 : getPCStartOfFunc leafReturn = some 0xa000 := by decide
    have h2 : getPCStartOfFunc behindCall = some 0x8004 := by decide
    rw [blockFunctions_callReturn]
    simp [h0, h1, h2]
  ids_nodup := by
    rw [blockFunctions_callReturn]
    simp [caller, leafReturn, behindCall, exitFunc, Func.blockIds]

/-- The link register holds `0x8004`. -/
def lrAddr (v : Value) : UInt64 := if v = .global "LR" then 0x8004 else v.constInt?.getD 0

theorem guest_lrAddr : Guest names lrAddr := ⟨fun _ _ => rfl, fun _ _ _ _ h => ⟨rfl, h, rfl⟩⟩

theorem exitsTrue_callReturn : ExitsTrue callReturn.module where
  unused := by
    unfold ExitId
    rw [show callReturn.module.blockFunctions = [caller, leafReturn, behindCall] from
      blockFunctions_callReturn]
    have hid : ∀ g ∈ [caller, leafReturn, behindCall], ∀ s ∈ g.instrs, s.isStoreTo "PC" = true →
        s.id ∈ [some 11, some 30, some 50] := by decide
    have hop : ∀ g ∈ [caller, leafReturn, behindCall], ∀ i ∈ g.instrs, ∀ k ∈ [11, 30, 50],
        Value.inst k ∉ i.op.operands := by decide
    rintro g hg i hi v hv k rfl ⟨g', hg', s, hs, hstore, hk⟩
    have hmem := hid g' hg' s hs hstore
    rw [hk] at hmem
    exact hop g hg i hi k (by simpa using hmem) hv
  direct := by
    unfold TagsStored
    rw [show callReturn.module.blockFunctions = [caller, leafReturn, behindCall] from
      blockFunctions_callReturn]
    have hno : ∀ g ∈ [caller, leafReturn, behindCall], ∀ s ∈ g.instrs,
      s.has .INS_directJump = false := by decide
    intro g hg s hs hdir
    rw [hno g hg s hs] at hdir
    cases hdir

theorem callsReady_callReturn : CallsReady callReturn.module where
  direct := by
    unfold TagsStored
    rw [show callReturn.module.blockFunctions = [caller, leafReturn, behindCall] from
      blockFunctions_callReturn]
    have hall : ∀ g ∈ [caller, leafReturn, behindCall], ∀ s ∈ g.instrs,
        s.has .INS_directCall = true →
        s.storeTo? "PC" = some (.constInt 32 0xa000) ∧ getHexMetadataFromIns s .INS_directCall =
        some 0xa000 := by
      decide
    intro g hg s hs hdir v hv
    obtain ⟨hstore, htag⟩ := hall g hg s hs hdir
    exact ⟨32, 0xa000, Option.some.inj (hv.symm.trans hstore), htag⟩
  last := by
    rw [show callReturn.module.blockFunctions = [caller, leafReturn, behindCall] from
      blockFunctions_callReturn]
    have hshape : ∀ b ∈ caller.blocks, ∃ pre s r, ExitShape .call b pre s [] r := by
      intro b hb
      rw [List.mem_singleton.mp (show b ∈ [_] from hb)]
      exact ⟨[_], _, _, rfl, by simpa using ⟨rfl, fun k => by cases k <;> rfl, rfl⟩, by simp,
        ⟨rfl, fun k => by cases k <;> rfl, rfl⟩, fakeReturn_exit⟩
    have hno : ∀ g ∈ [leafReturn, behindCall], ∀ s ∈ g.instrs, s.has .INS_directCall = false := by
      decide
    intro g hg b hb pre s mid r shape hdirect
    rcases List.mem_cons.mp hg with rfl | hg
    · obtain ⟨pre₀, s₀, r₀, shape₀⟩ := hshape b hb
      exact mid_eq_nil shape₀ shape
    · rw [hno g hg s (mem_instrs.mpr ⟨b, hb, shape.mem_store⟩)] at hdirect
      cases hdirect
  helpers := by
    rw [show callReturn.module.blockFunctions = [caller, leafReturn, behindCall] from
      blockFunctions_callReturn]
    have hops : ∀ g ∈ [caller, leafReturn, behindCall], ∀ i ∈ g.instrs,
        i.op ∈ ([.load (.global "R0"), .load (.global "LR"), .load (.global "R4"),
          .store (.constInt 32 0xa000) (.global "PC"),
        .store (.inst 29) (.global "PC"), .store (.inst 49) (.global "PC"),
          .ret none] : List Op) := by decide
    intro g hg i hi name vs hop
    have hmem := hops g hg i hi
    rw [hop] at hmem
    simp at hmem

theorem notLost_callReturn : ∀ h ∈ [caller, leafReturn],
    ¬ EntryLost callReturn.module.blockFunctions h := by
  intro h hh
  rcases List.mem_pair.mp hh with rfl | rfl <;>
    exact not_entryLost_of_plain rfl rfl ⟨rfl, fun k => by cases k <;> rfl, rfl⟩

theorem callee_callReturn : ∀ g ∈ callReturn.module.blockFunctions,
    getPCStartOfFunc g = some 0xa000 →
    isEntryPoint g = true ∧ ¬ EntryLost callReturn.module.blockFunctions g := by
  intro g hg hstart
  have hmem : g ∈ [caller, leafReturn, behindCall] := by
    rw [← blockFunctions_callReturn]
    exact hg
  have hcaller : getPCStartOfFunc caller ≠ some 0xa000 := by decide
  have hbehind : getPCStartOfFunc behindCall ≠ some 0xa000 := by decide
  simp only [List.mem_cons, List.not_mem_nil, or_false] at hmem
  rcases hmem with rfl | rfl | rfl
  · exact absurd hstart hcaller
  · exact ⟨by decide, notLost_callReturn leafReturn (by simp)⟩
  · exact absurd hstart hbehind

section

variable {W E : Type} {I : Interp W E} {K : Control W} {addr : W → UInt64} {M : Module}
variable {all : List (UInt64 × Func)} {t : Thread W E} {b : BasicBlock} {s : Instr}

theorem Disciplined.of_inside (hexit : t.place.atExit = false)
    (hloads : LoadsAvoid I (AtPC I) t.place.cfg) : Disciplined I K addr M all t where
  loads := hloads
  calls b s h := by rw [h.atExit] at hexit; cases hexit
  returns b s h := by rw [h.atExit] at hexit; cases hexit
  tables b s h := by rw [h.atExit] at hexit; cases hexit

theorem Leaves.unique {x : Place W E} {b' : BasicBlock} {s' : Instr} (h : Leaves x b s)
    (h' : Leaves x b' s') : s' = s := by
  obtain rfl := Option.some.inj (h.block.symm.trans h'.block)
  exact Option.some.inj (h'.store.symm.trans h.store)

theorem Disciplined.of_leaves (h : Leaves t.place b s) (hloads : LoadsAvoid I (AtPC I) t.place.cfg)
    (hind : s.has .INS_indirectJump = false)
    (hcall : isCall s = true → s.has .INS_directCall = true ∧ ∃ pc,
      exitTarget I addr t.place.cfg.now s = some pc ∧
      ∀ g ∈ M.blockFunctions, getPCStartOfFunc g = some pc → isEntryPoint g = true ∧
        ¬ EntryLost M.blockFunctions g)
    (hret : s.has .INS_return = true → ∀ caller ∈ t.callers.head?,
      exitTarget I addr t.place.cfg.now s = some caller.returnPC) :
    Disciplined I K addr M all t where
  loads := hloads
  calls b' s' h' hc := by
    obtain rfl := h.unique h'
    obtain ⟨hdirect, pc, hpc, hcallee⟩ := hcall hc
    refine ⟨hdirect, fun pc' hpc' => ?_⟩
    obtain rfl := Option.some.inj (hpc.symm.trans hpc')
    exact hcallee
  returns b' s' h' := by
    obtain rfl := h.unique h'
    exact hret
  tables b' s' h' hi := by
    obtain rfl := h.unique h'
    rw [hind] at hi
    cases hi

end

/-- The call, and its return. -/
theorem run_callReturn (all : List (UInt64 × Func)) :
    ∃ c₀ ts t b s, start caller namesState = some c₀ ∧
      Run (execute names namesControl lrAddr callReturn.module) ⟨⟨caller, c₀⟩, caller, []⟩ ts t ∧
      (∀ u ∈ ts, Disciplined names namesControl lrAddr callReturn.module all u) ∧ ts.length = 8 ∧
      t.callers = [] ∧ Leaves t.place b s ∧ s.has .INS_return = true := by
  refine ⟨_, [_, _, _, _, _, _, _, _], _, _, _, rfl,
    .head rfl (.head rfl (.head rfl (.head rfl (.head rfl (.head rfl
    (.head rfl (.head rfl (.refl _)))))))), ?_, rfl, rfl, ⟨rfl, rfl, rfl⟩, rfl⟩
  intro u hu
  simp only [List.mem_cons, List.not_mem_nil, or_false] at hu
  rcases hu with rfl | rfl | rfl | rfl | rfl | rfl | rfl | rfl
  · exact .of_inside rfl fun i is p hi hop => by cases hi; cases hop; decide
  · exact .of_inside rfl fun i is p hi hop => by cases hi; cases hop
  · exact .of_leaves ⟨rfl, rfl, rfl⟩ (fun i is p hi hop => by cases hi; cases hop) rfl
      (fun _ => ⟨rfl, 0xa000, rfl, callee_callReturn⟩) fun hret => by cases hret
  · exact .of_inside rfl fun i is p hi hop => by cases hi; cases hop; decide
  · exact .of_inside rfl fun i is p hi hop => by cases hi; cases hop
  · refine .of_leaves ⟨rfl, rfl, rfl⟩ (fun i is p hi hop => by cases hi; cases hop) rfl
      (fun hcall => by cases hcall) fun _ caller hcaller => ?_
    obtain rfl := Option.some.inj hcaller
    rfl
  · exact .of_inside rfl fun i is p hi hop => by cases hi; cases hop; decide
  · exact .of_inside rfl fun i is p hi hop => by cases hi; cases hop

theorem link_callReturn : ∃ N final, BuildFunctions.runOnModule callReturn.module = some N ∧
    link [N] = some final := by
  have hsome : ((BuildFunctions.runOnModule callReturn.module).bind fun N => link [N]).isSome =
    true := by decide
  obtain ⟨final, hfinal⟩ := Option.isSome_iff_exists.mp hsome
  obtain ⟨N, hN, hlink⟩ := Option.bind_eq_some_iff.mp hfinal
  exact ⟨N, final, hN, hlink⟩

/-- The run in the linked module. -/
theorem callReturn_simulates : ∃ N final, BuildFunctions.runOnModule callReturn.module = some N ∧
    link [N] = some final ∧ ∃ f ∈ final.funcs, ∃ c₀ ys y, start f namesState = some c₀ ∧
      Run (stepCalls names namesControl final) [⟨f, c₀⟩] ys [y] ∧ ys.length ≤ 17 := by
  obtain ⟨N, final, hN, hlink⟩ := link_callReturn
  obtain ⟨all, hall⟩ := exists_allBBs hN
  obtain ⟨c₀, ts, t, b, s, hstart, hrun, hQ, hlen, houter, -, -⟩ := run_callReturn all
  obtain ⟨f, hf, -, c₀', ys, y, rest, hc₀, hys, hle, -, hdepth, -⟩ :=
    link_simulates (T := callReturn) (by decide) hall
    hN hlink guest_lrAddr exitsTrue_callReturn callsReady_callReturn (by decide) (by decide)
    (notLost_callReturn caller (by simp)) hstart hrun hQ
  rw [houter] at hdepth
  obtain rfl := List.length_eq_zero_iff.mp hdepth
  exact ⟨N, final, hN, hlink, f, hf, c₀', ys, y, hc₀, hys, by omega⟩

/-- It returns. -/
theorem callReturn_returns : ∃ N final, BuildFunctions.runOnModule callReturn.module = some N ∧
    link [N] = some final ∧ ∃ f ∈ final.funcs, ∃ c₀ ys y, start f namesState = some c₀ ∧
      Run (stepCalls names namesControl final) [⟨f, c₀⟩] ys [y] ∧
      outcome names y.cfg = some none := by
  obtain ⟨N, final, hN, hlink⟩ := link_callReturn
  obtain ⟨all, hall⟩ := exists_allBBs hN
  obtain ⟨c₀, ts, t, b, s, hstart, hrun, hQ, -, houter, hleaves, hret⟩ := run_callReturn all
  obtain ⟨f, hf, -, c₀', ys, y, hc₀, hys, -, hout, -⟩ :=
    link_returns (T := callReturn) (by decide) hall hN
    hlink guest_lrAddr exitsTrue_callReturn callsReady_callReturn (by decide) (by decide)
    (notLost_callReturn caller (by simp)) hstart hrun hQ hleaves hret houter
  exact ⟨N, final, hN, hlink, f, hf, c₀', ys, y, hc₀, hys, hout⟩

end Bin2llvm.LinkedRuns
