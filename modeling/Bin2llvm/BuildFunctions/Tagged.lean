import Bin2llvm.BuildFunctions.Pipeline

/-!
# Bin2llvm.BuildFunctions.Tagged — modules of tagged block-functions

What the passes before `BuildFunctions` leave: a basic block either ends in a terminator of its own,
or it holds one store to `PC` with one kind of control tag and ends in a fake return (`ExitShape`).
On such modules the four fixups turn every exit into an explicit list of instructions.

* `TaggedModule`: the modules.
* `Explored.ready`: what `exploreBB` accepts is ready for the fixups.
* `ExitShape.finalBlock_call`, …: the exits of each kind after the fixups.
-/

namespace Bin2llvm.BuildFunctions

open FixOverlappedBBs

/-! ## Block-functions -/

/-- An instruction no fixup looks at. -/
structure Plain (i : Instr) : Prop where
  notTerminator : i.isTerminator = false
  untagged : Untagged i
  notFake : i.has .INS_fakeReturn = false

/-- A store to `PC` tagged in one way. -/
structure ExitStore (k : ExitKind) (s : Instr) : Prop where
  toPC : s.isStoreTo "PC" = true
  tagged : ∀ k', hasTag s k' = decide (k' = k)
  notFake : s.has .INS_fakeReturn = false

structure FakeReturn (r : Instr) : Prop where
  isRet : ∃ v, r.op = .ret v
  untagged : Untagged r
  fake : r.has .INS_fakeReturn = true

structure InnerTerminator (t : Instr) : Prop where
  terminator : t.isTerminator = true
  untagged : Untagged t
  notFake : t.has .INS_fakeReturn = false

/-- An exit: one tagged store to `PC`, and a fake return at the end. -/
structure ExitShape (k : ExitKind) (b : BasicBlock) (pre : List Instr) (s : Instr)
    (mid : List Instr) (r : Instr) : Prop where
  instrs : b.instrs = pre ++ s :: (mid ++ [r])
  pre_plain : ∀ i ∈ pre, Plain i
  mid_plain : ∀ i ∈ mid, Plain i
  store : ExitStore k s
  ret : FakeReturn r

/-- A block that goes on inside its block-function. -/
structure InnerShape (b : BasicBlock) (pre : List Instr) (t : Instr) : Prop where
  instrs : b.instrs = pre ++ [t]
  pre_plain : ∀ i ∈ pre, Plain i
  term : InnerTerminator t

/-- A translated block after the marking passes. -/
structure TaggedFunc (func : Func) : Prop where
  start : ∃ pc, getPCStartOfFunc func = some pc
  shape : ∀ b ∈ func.blocks, (∃ pre t, InnerShape b pre t) ∨ ∃ k pre s mid r,
    ExitShape k b pre s mid r
  pcStart : ∀ i ∈ func.instrs, i.has .BB_pcStart = true → getBBStart i = getPCStartOfFunc func
  idxStart : ∀ i ∈ func.instrs, i.has .INS_switch_idx_start = true →
    (getHexMetadataFromIns i .INS_switch_idx_start).isSome
  names : ∀ b ∈ func.blocks, b.name ≠ "fake_indirect_bb"
  successors : ∀ i ∈ func.instrs, ∀ bb ∈ i.op.successors, bb ∈ func.blockIds

/-- A module of tagged block-functions with distinct starts. -/
structure TaggedModule where
  module : Module
  tagged : ∀ func ∈ module.blockFunctions, TaggedFunc func
  start_inj : ∀ f ∈ module.blockFunctions, ∀ g ∈ module.blockFunctions,
    getPCStartOfFunc f = getPCStartOfFunc g → f = g
  ids_nodup : (module.blockFunctions.flatMap Func.blockIds).Nodup

variable {bbMap : BBMap} {fakeBB : BlockId} {k : ExitKind} {b : BasicBlock} {pre mid : List Instr}
variable {s r : Instr}

/-! ## Exits -/

theorem tagsOk_of_untagged {i : Instr} (h : Untagged i) (hstart : i.has .BB_pcStart = true →
    (getBBStart i).isSome) : TagsOk i where
  kind _ _ hk := absurd h (not_untagged hk)
  call hc := absurd h (not_untagged (k := .call) hc)
  directJump hc := absurd h (not_untagged (k := .directJump) hc)
  switch hc := absurd h (not_untagged (k := .indirectJump) hc)
  start := hstart
  notFake hc := absurd h hc

theorem ExitStore.hasTag_self (h : ExitStore k s) : hasTag s k = true := by simp [h.tagged]

theorem ExitStore.hasTag_ne (h : ExitStore k s) {j : ExitKind} (hk : j ≠ k) :
    hasTag s j = false := by
  simp [h.tagged, hk]

theorem ExitStore.isTerminator (h : ExitStore k s) : s.isTerminator = false := by
  have := h.toPC
  unfold Instr.isStoreTo Instr.storeToGlobal? at this
  unfold Instr.isTerminator
  cases ho : s.op <;> simp_all [Op.isTerminator]

/-- The asserts of `exploreBB` on the store are those of the fixups. -/
theorem ExitStore.tagsOk (h : ExitStore k s) (hread : (nextPCList s).isSome)
    (hidx : s.has .INS_switch_idx_start = true →
      (getHexMetadataFromIns s .INS_switch_idx_start).isSome)
    (hstart : s.has .BB_pcStart = true → (getBBStart s).isSome) : TagsOk s where
  kind k₁ k₂ h₁ h₂ := by
    rw [h.tagged] at h₁ h₂
    exact (of_decide_eq_true h₁).trans (of_decide_eq_true h₂).symm
  call hc := by
    unfold nextPCList at hread
    rw [if_pos hc] at hread
    cases hp : getHexMetadataFromIns s .INS_callReturn with
    | none => rw [hp] at hread; simp at hread
    | some p => rfl
  directJump hc := by
    have hk : k = .directJump := by have := h.tagged .directJump; simp_all [hasTag]
    have hcall : isCall s = false := h.hasTag_ne (j := .call) (by simp [hk])
    unfold nextPCList at hread
    rw [hcall, if_neg (by simp), if_pos hc] at hread
    cases hp : getHexMetadataFromIns s .INS_directJump with
    | none => rw [hp] at hread; simp at hread
    | some p => rfl
  switch hc hcomplete := by
    have hk : k = .indirectJump := by have := h.tagged .indirectJump; simp_all [hasTag]
    have hcall : isCall s = false := h.hasTag_ne (j := .call) (by simp [hk])
    have hdir : s.has .INS_directJump = false := h.hasTag_ne (j := .directJump) (by simp [hk])
    unfold switchComplete at hcomplete
    simp only [Bool.and_eq_true] at hcomplete
    unfold nextPCList at hread
    rw [hcall, if_neg (by simp), hdir, if_neg (by simp), if_pos hc, if_pos hcomplete.1.2] at hread
    cases hn : getHexMetadataFromIns s .INS_switch_cnt with
    | none => rw [hn] at hread; simp at hread
    | some cnt =>
    cases hp : switchCasePCs s cnt with
    | none => rw [hn] at hread; simp [hp] at hread
    | some pcs =>
    cases hd : getHexMetadataFromIns s .INS_switch_default with
    | none => rw [hn] at hread; simp [hd] at hread
    | some d =>
    obtain ⟨idx, hi⟩ := Option.isSome_iff_exists.mp (hidx hcomplete.2)
    exact ⟨d, cnt, idx, pcs, hd, hn, hi, hp⟩
  start := hstart
  notFake _ := h.notFake

namespace ExitShape

variable (e : ExitShape k b pre s mid r)

include e

theorem post_untagged : ∀ i ∈ mid ++ [r], Untagged i := by
  intro i hi
  rcases List.mem_append.mp hi with hi | hi
  · exact (e.mid_plain i hi).untagged
  · rw [List.mem_singleton.mp hi]
    exact e.ret.untagged

theorem mem_store : s ∈ b.instrs := by
  rw [e.instrs]
  simp

/-- Only the store has tags. -/
theorem hasTag_eq_false {k' : ExitKind} (hk : k' ≠ k) : ∀ i ∈ b.instrs, hasTag i k' = false := by
  intro i hi
  rw [e.instrs] at hi
  rcases List.mem_append.mp hi with hi | hi
  · exact (e.pre_plain i hi).untagged k'
  · rcases List.mem_cons.mp hi with rfl | hi
    · exact e.store.hasTag_ne hk
    · exact e.post_untagged i hi k'

theorem eq_store {i : Instr} (hi : i ∈ b.instrs) {j : ExitKind}
    (ht : hasTag i j = true) : i = s ∧ j = k := by
  rw [e.instrs] at hi
  rcases List.mem_append.mp hi with hi | hi
  · exact absurd (e.pre_plain i hi).untagged (not_untagged ht)
  · rcases List.mem_cons.mp hi with rfl | hi
    · rw [e.store.tagged] at ht
      exact ⟨rfl, of_decide_eq_true ht⟩
    · exact absurd (e.post_untagged i hi) (not_untagged ht)

theorem filterMap_eq {α : Type*} {g : Instr → Option α} (hg : ∀ i, Untagged i → g i = none) :
    b.instrs.filterMap g = (g s).toList := by
  rw [e.instrs]
  exact filterMap_split hg (fun i hi => (e.pre_plain i hi).untagged) e.post_untagged s

omit e in
theorem filter_notFake {is : List Instr} (h : ∀ i ∈ is, Plain i) :
    is.filter (fun i => !i.has .INS_fakeReturn) = is :=
  List.filter_eq_self.mpr fun i hi => by simp [(h i hi).notFake]

theorem dropFakeReturns_append (ts : List Op) :
    dropFakeReturns (b.instrs ++ ts.map Instr.fresh) = pre ++ s :: (mid ++ ts.map Instr.fresh) := by
  have h0 : (ts.map Instr.fresh).filter (fun i => !i.has .INS_fakeReturn) = ts.map Instr.fresh :=
    List.filter_eq_self.mpr fun i hi => by
      obtain ⟨t, -, rfl⟩ := List.mem_map.mp hi
      rfl
  simp [dropFakeReturns, e.instrs, h0, filter_notFake e.pre_plain, filter_notFake e.mid_plain,
    e.store.notFake, e.ret.fake]

/-- Without the store and the fake return. -/
theorem dropFakeReturns_replaceStore (t : Op) :
    dropFakeReturns (replaceStore s t b.instrs) = pre ++ (mid ++ [Instr.fresh t]) := by
  have hs : ∀ i ∈ pre, i ≠ s := by
    rintro i hi rfl
    exact not_untagged e.store.hasTag_self (e.pre_plain i hi).untagged
  have hreplace : replaceStore s t b.instrs = pre ++ (mid ++ [r] ++ [Instr.fresh t]) := by
    unfold replaceStore
    rw [e.instrs, List.append_assoc, List.erase_append_right _ (fun h => hs s h rfl),
      List.cons_append, List.erase_cons_head]
  rw [hreplace]
  simp [dropFakeReturns, filter_notFake e.pre_plain, filter_notFake e.mid_plain, e.ret.fake,
    not_fake_fresh]

end ExitShape

/-! ## After the fixups -/

variable {m₀ m₁ m₂ : BBMap}

/-- A call with a known return block branches there. -/
theorem ExitShape.callsBlock_of_some (e : ExitShape .call b pre s mid r) {bb : BlockId}
    (h : callTarget m₀ s = some bb) :
    callsBlock m₀ b = { b with instrs := pre ++ s :: (mid ++ [Instr.fresh (.br bb)]) } := by
  have hmark : b.mapInstrs (markUnresolved m₀) = b := by
    have : b.instrs.map (markUnresolved m₀) = b.instrs.map id := by
      refine List.map_congr_left fun i hi => ?_
      by_cases hc : isCall i = true
      · obtain ⟨rfl, -⟩ := e.eq_store hi (j := .call) hc
        simp [markUnresolved, h]
      · exact markUnresolved_of_not_isCall (by simpa using hc)
    simp [BasicBlock.mapInstrs, this]
  have hmap := e.filterMap_eq (g := callTarget m₀) fun i hi => callTarget_untagged (hi .call)
  have hdrop := e.dropFakeReturns_append [.br bb]
  simp only [List.map_cons, List.map_nil] at hdrop
  simp [callsBlock, hmap, h, updateBlock, hmark, hdrop]

/-- A call with an unknown return block keeps its fake return. -/
theorem ExitShape.callsBlock_of_none (e : ExitShape .call b pre s mid r)
    (h : callTarget m₀ s = none) :
    callsBlock m₀ b = { b with instrs := pre ++ markUnresolved m₀ s :: (mid ++ [r]) } := by
  have hmap := e.filterMap_eq (g := callTarget m₀) fun i hi => callTarget_untagged (hi .call)
  have hpre : pre.map (markUnresolved m₀) = pre := by
    conv_rhs => rw [← List.map_id pre]
    exact List.map_congr_left fun i hi =>
      markUnresolved_of_not_isCall ((e.pre_plain i hi).untagged .call)
  have hpost : (mid ++ [r]).map (markUnresolved m₀) = mid ++ [r] := by
    conv_rhs => rw [← List.map_id (mid ++ [r])]
    exact List.map_congr_left fun i hi => markUnresolved_of_not_isCall (e.post_untagged i hi .call)
  have hall : b.instrs.map (markUnresolved m₀) = pre ++ markUnresolved m₀ s :: (mid ++ [r]) := by
    rw [e.instrs, List.map_append, List.map_cons, hpre, hpost]
  simp only [callsBlock, hmap, h, Option.toList_none, updateBlock, BasicBlock.mapInstrs, hall]

theorem not_hasTag_append_br {k' : ExitKind} {is : List Instr} {o : Op}
    (h : ∀ i ∈ is, hasTag i k' = false) : ∀ i ∈ is ++ [Instr.fresh o], hasTag i k' = false := by
  intro i hi
  rcases List.mem_append.mp hi with hi | hi
  · exact h i hi
  · rw [List.mem_singleton.mp hi]
    exact untagged_fresh o k'

theorem callsBlock_hasTag {k' : ExitKind} (h : ∀ i ∈ b.instrs, hasTag i k' = false) :
    ∀ i ∈ (callsBlock m₀ b).instrs, hasTag i k' = false := by
  have hmark : ∀ i ∈ b.instrs.map (markUnresolved m₀), hasTag i k' = false := by
    intro i hi
    obtain ⟨j, hj, rfl⟩ := List.mem_map.mp hi
    rw [hasTag_markUnresolved]
    exact h j hj
  unfold callsBlock updateBlock
  split
  · exact hmark
  · exact fun i hi => not_hasTag_append_br hmark i (mem_dropFakeReturns.mp hi).1

theorem jumpsBlock_hasTag {k' : ExitKind} (h : ∀ i ∈ b.instrs, hasTag i k' = false) :
    ∀ i ∈ (jumpsBlock m₁ b).instrs, hasTag i k' = false := by
  unfold jumpsBlock updateBlock
  split
  · exact h
  · exact fun i hi => not_hasTag_append_br h i (List.mem_of_mem_erase (mem_dropFakeReturns.mp hi).1)

theorem indirectBlock_hasTag {k' : ExitKind} (h : ∀ i ∈ b.instrs, hasTag i k' = false) :
    ∀ i ∈ (indirectBlock m₂ fakeBB b).instrs, hasTag i k' = false := by
  unfold indirectBlock updateBlock
  split
  · exact h
  · intro i hi
    rcases List.mem_append.mp (mem_dropFakeReturns.mp hi).1 with hi | hi
    · exact h i hi
    · obtain ⟨o, -, rfl⟩ := List.mem_map.mp hi
      exact untagged_fresh o k'

theorem InnerShape.untagged {t : Instr} (h : InnerShape b pre t) : ∀ i ∈ b.instrs, Untagged i := by
  intro i hi
  rw [h.instrs] at hi
  rcases List.mem_append.mp hi with hi | hi
  · exact (h.pre_plain i hi).untagged
  · exact List.mem_singleton.mp hi ▸ h.term.untagged

/-- A block that is not an exit is left alone. -/
theorem InnerShape.finalBlock_eq {t : Instr} (h : InnerShape b pre t) :
    finalBlock m₀ m₁ m₂ fakeBB b = b := by
  have hno : ∀ k, ∀ i ∈ b.instrs, hasTag i k = false := fun k i hi => h.untagged i hi k
  rw [finalBlock, callsBlock_eq_self (hno .call), jumpsBlock_eq_self (hno .directJump),
    indirectBlock_eq_self (hno .indirectJump), returnsBlock_eq_self (hno .ret)]

namespace ExitShape

theorem finalBlock_call (e : ExitShape .call b pre s mid r) :
    finalBlock m₀ m₁ m₂ fakeBB b = callsBlock m₀ b := by
  have h : ∀ k, k ≠ .call → ∀ i ∈ (callsBlock m₀ b).instrs, hasTag i k = false := fun k hk =>
    callsBlock_hasTag (e.hasTag_eq_false hk)
  rw [finalBlock, jumpsBlock_eq_self (h .directJump (by simp)),
    indirectBlock_eq_self (h .indirectJump (by simp)), returnsBlock_eq_self (h .ret (by simp))]

theorem finalBlock_directJump (e : ExitShape .directJump b pre s mid r) :
    finalBlock m₀ m₁ m₂ fakeBB b = jumpsBlock m₁ b := by
  have h : ∀ k, k ≠ .directJump → ∀ i ∈ (jumpsBlock m₁ b).instrs, hasTag i k = false := fun k hk =>
    jumpsBlock_hasTag (e.hasTag_eq_false hk)
  rw [finalBlock, callsBlock_eq_self (e.hasTag_eq_false (by simp)),
    indirectBlock_eq_self (h .indirectJump (by simp)), returnsBlock_eq_self (h .ret (by simp))]

/-- A jump to a known block becomes a branch; the store goes. -/
theorem jumpsBlock_of_some (e : ExitShape .directJump b pre s mid r) {bb : BlockId}
    (h : jumpTarget m₁ s = some (s, bb)) :
    jumpsBlock m₁ b = { b with instrs := pre ++ (mid ++ [Instr.fresh (.br bb)]) } := by
  have hmap := e.filterMap_eq (g := jumpTarget m₁) fun i hi => jumpTarget_untagged (hi .directJump)
  simp [jumpsBlock, hmap, h, updateBlock, e.dropFakeReturns_replaceStore]

/-- A jump to an unknown block stays. -/
theorem jumpsBlock_of_none (e : ExitShape .directJump b pre s mid r) (h : jumpTarget m₁ s = none) :
    jumpsBlock m₁ b = b := by
  have hmap := e.filterMap_eq (g := jumpTarget m₁) fun i hi => jumpTarget_untagged (hi .directJump)
  simp [jumpsBlock, hmap, h, updateBlock]

/-- An indirect jump gets a switch, a branch to the block for unknown targets, or nothing. -/
theorem finalBlock_indirectJump (e : ExitShape .indirectJump b pre s mid r) :
    finalBlock m₀ m₁ m₂ fakeBB b =
      { b with instrs :=
        pre ++ s :: (mid ++ (indirectTerms m₂ fakeBB b.instrs s).map Instr.fresh) } := by
  have hmap := e.filterMap_eq (g := indirectJump) fun i hi =>
    indirectJump_untagged (hi .indirectJump)
  have hs : indirectJump s = some s := if_pos e.store.hasTag_self
  rw [finalBlock, callsBlock_eq_self (e.hasTag_eq_false (by simp)),
    jumpsBlock_eq_self (e.hasTag_eq_false (by simp)),
    returnsBlock_eq_self (indirectBlock_hasTag (e.hasTag_eq_false (by simp)))]
  simp [indirectBlock, hmap, hs, updateBlock, e.dropFakeReturns_append]

theorem finalBlock_ret (e : ExitShape .ret b pre s mid r) :
    finalBlock m₀ m₁ m₂ fakeBB b =
      { b with instrs := pre ++ (mid ++ [Instr.fresh (.ret none)]) } := by
  have hmap := e.filterMap_eq (g := returnStore) fun i hi => returnStore_untagged (hi .ret)
  have hs : returnStore s = some s := if_pos e.store.hasTag_self
  rw [finalBlock, callsBlock_eq_self (e.hasTag_eq_false (by simp)),
    jumpsBlock_eq_self (e.hasTag_eq_false (by simp)),
    indirectBlock_eq_self (e.hasTag_eq_false (by simp))]
  simp [returnsBlock, hmap, hs, updateBlock, e.dropFakeReturns_replaceStore]

end ExitShape

/-! ## What is inlined -/

/-- The identity of the block for indirect jumps. -/
def fakeId (bbs : List Func) : BlockId := (⟨"", bbs.flatMap Func.blocks⟩ : Func).freshBlockId

/-- The block for indirect jumps. -/
def fakeBlock (bbs : List Func) : BasicBlock :=
  ⟨fakeId bbs, "fake_indirect_bb", [Instr.fresh (.ret none)]⟩

theorem blocks_inlineBBs (name : String) (bbs : List Func) (hasIndirectJump : Bool) :
    (inlineBBs name bbs hasIndirectJump).1.blocks =
      bbs.flatMap Func.blocks ++ if hasIndirectJump then [fakeBlock bbs] else [] := by
  cases hasIndirectJump <;> simp [inlineBBs, fakeBlock, fakeId, Func.addBlock, Func.freshBlockId,
    Func.blockIds]

/-- What is built starts with the entry block of the block-function it is built from. -/
theorem head?_inlineBBs {all : List (UInt64 × Func)} {startBB : Func} {bbs : List Func}
    {hasIndirectJump : Bool} (hexplore : exploreBB all startBB = some (bbs, hasIndirectJump))
    (name : String) {e : BasicBlock} (he : startBB.blocks.head? = some e) :
    (inlineBBs name bbs hasIndirectJump).1.blocks.head? = some e := by
  have hhead := exploreBB_head? hexplore
  rw [blocks_inlineBBs]
  cases bbs with
  | nil => simp at hhead
  | cons g gs =>
    obtain rfl : g = startBB := by simpa using hhead
    cases hb : g.blocks with
    | nil => rw [hb] at he; simp at he
    | cons c cs => rw [hb] at he; simpa [hb] using he

theorem fake_inlineBBs (name : String) (bbs : List Func) (hasIndirectJump : Bool) :
    (inlineBBs name bbs hasIndirectJump).2 = if hasIndirectJump then some (fakeId bbs)
      else none := by
  cases hasIndirectJump <;> simp [inlineBBs, fakeId, Func.freshBlockId, Func.blockIds]

theorem innerShape_fakeBlock (bbs : List Func) : InnerShape (fakeBlock bbs) []
    (Instr.fresh (.ret none)) where
  instrs := rfl
  pre_plain i hi := by simp at hi
  term := ⟨rfl, untagged_fresh _, rfl⟩

/-- The block-functions `exploreBB` finds in a tagged module. -/
structure Explored (T : TaggedModule) (bbs : List Func) (hasIndirectJump : Bool) : Prop where
  sub : ∀ g ∈ bbs, g ∈ T.module.blockFunctions
  nodup : bbs.Nodup
  read : ∀ g ∈ bbs, ∀ i ∈ g.instrs, i.isStoreTo "PC" = true → (nextPCList i).isSome
  closed : ∀ g ∈ bbs, ∀ i ∈ g.instrs, i.isStoreTo "PC" = true →
    ∀ pcs, nextPCList i = some pcs → ∀ pc ∈ pcs, ∀ h ∈ T.module.blockFunctions,
    getPCStartOfFunc h = some pc → h ∈ bbs
  indirect : ∀ g ∈ bbs, ∀ i ∈ g.instrs, i.has .INS_indirectJump = true → hasIndirectJump = true

theorem TaggedFunc.shape_of_tag {func : Func} (hf : TaggedFunc func) {i : Instr}
    (hi : i ∈ func.instrs) {k : ExitKind} (ht : hasTag i k = true) :
    ∃ b ∈ func.blocks, ∃ pre mid r, ExitShape k b pre i mid r := by
  obtain ⟨b, hb, hib⟩ := mem_instrs.mp hi
  rcases hf.shape b hb with ⟨pre, t, h⟩ | ⟨k', pre, s, mid, r, e⟩
  · exact absurd (h.untagged i hib) (not_untagged ht)
  · obtain ⟨rfl, rfl⟩ := e.eq_store hib ht
    exact ⟨b, hb, pre, mid, r, e⟩

/-- `exploreBB` on a tagged module. -/
theorem explored (T : TaggedModule) {all : List (UInt64 × Func)}
    (hall : allBBs T.module = some all) {startBB : Func}
    (hstart : startBB ∈ T.module.blockFunctions) {bbs : List Func} {hasIndirectJump : Bool}
    (h : exploreBB all startBB = some (bbs, hasIndirectJump)) : Explored T bbs hasIndirectJump := by
  have hsub : ∀ g ∈ bbs, g ∈ T.module.blockFunctions := by
    intro g hg
    rcases exploreBB_subset h hg with rfl | ⟨pc, hpc⟩
    · exact hstart
    · exact ((mem_allBBs hall).mp hpc).1
  have hnext : ∀ g ∈ bbs, ∀ i ∈ g.instrs, i.isStoreTo "PC" = true →
      ∃ pcs, nextPCList i = some pcs ∧ ∀ pc ∈ pcs, ∀ h, all.lookup pc = some h → h ∈ bbs := by
    intro g hg i hi hpc
    obtain ⟨pcs, hpcs, hclosed⟩ := exploreBB_closed h hg
    unfold targets at hpcs
    obtain ⟨pcss, hpcss, rfl⟩ := Option.map_eq_some_iff.mp hpcs
    obtain ⟨l, hl⟩ := OptionMapM.exists_of_mem hpcss (List.mem_filter.mpr ⟨hi, hpc⟩)
    exact ⟨l, hl.2, fun pc hp h' hh' => hclosed pc (List.mem_flatten.mpr ⟨l, hl.1, hp⟩) h' hh'⟩
  refine ⟨hsub, exploreBB_nodup h, ?_, ?_, ?_⟩
  · intro g hg i hi hpc
    obtain ⟨pcs, hpcs, -⟩ := hnext g hg i hi hpc
    rw [hpcs]
    rfl
  · intro g hg i hi hpc pcs hpcs pc hp h' hh' hstart'
    obtain ⟨pcs', hpcs', hin⟩ := hnext g hg i hi hpc
    obtain rfl : pcs' = pcs := by rw [hpcs'] at hpcs; simpa using hpcs
    exact hin pc hp h' ((lookup_allBBs T.start_inj hall).mpr ⟨hh', hstart'⟩)
  · intro g hg i hi hind
    obtain ⟨b, hb, pre, mid, r, e⟩ :=
      (T.tagged g (hsub g hg)).shape_of_tag hi (k := .indirectJump) hind
    rw [(exploreBB_eq_some h).2]
    refine List.any_eq_true.mpr ⟨g, hg,
      List.any_eq_true.mpr ⟨i, List.mem_filter.mpr ⟨hi, e.store.toPC⟩, ?_⟩⟩
    have h1 : isCall i = false := e.store.hasTag_ne (j := .call) (by simp)
    have h2 : i.has .INS_directJump = false := e.store.hasTag_ne (j := .directJump) (by simp)
    simp [isIndirectJump, h1, h2, hind]

namespace Explored

variable {T : TaggedModule} {bbs : List Func} {hasIndirectJump : Bool}
variable (E : Explored T bbs hasIndirectJump)
  (name : String)

include E

theorem mem_blocks {b : BasicBlock} : b ∈ (inlineBBs name bbs hasIndirectJump).1.blocks ↔
    (∃ g ∈ bbs, b ∈ g.blocks) ∨ hasIndirectJump = true ∧ b = fakeBlock bbs := by
  rw [blocks_inlineBBs, List.mem_append, List.mem_flatMap]
  cases hasIndirectJump <;> simp

theorem ids_nodup : (inlineBBs name bbs hasIndirectJump).1.blockIds.Nodup := by
  have hT := List.nodup_flatMap.mp T.ids_nodup
  have hdis : ∀ g ∈ bbs, ∀ h ∈ bbs, g ≠ h → List.Disjoint g.blockIds h.blockIds := by
    intro g hg h hh hne
    have hp := hT.2
    rw [List.pairwise_iff_getElem] at hp
    obtain ⟨i, hi, rfl⟩ := List.mem_iff_getElem.mp (E.sub g hg)
    obtain ⟨j, hj, rfl⟩ := List.mem_iff_getElem.mp (E.sub h hh)
    rcases Nat.lt_trichotomy i j with hij | rfl | hij
    · exact hp i j hi hj hij
    · exact absurd rfl hne
    · exact fun x hx hy => hp j i hj hi hij hy hx
  have hmain : (bbs.flatMap Func.blockIds).Nodup := by
    refine List.nodup_flatMap.mpr ⟨fun g hg => hT.1 g (E.sub g hg), ?_⟩
    exact E.nodup.imp_of_mem fun hg hh hne => hdis _ hg _ hh hne
  have hids : (bbs.flatMap Func.blocks).map BasicBlock.id = bbs.flatMap Func.blockIds := by
    rw [List.map_flatMap]
    rfl
  rw [Func.blockIds, blocks_inlineBBs, List.map_append, hids, List.nodup_append]
  refine ⟨hmain, ?_, ?_⟩
  · cases hasIndirectJump <;> simp
  · intro x hx y hy
    cases hasIndirectJump
    · simp at hy
    · obtain rfl : y = fakeId bbs := by simpa [fakeBlock] using hy
      have hlt : x < (⟨"", bbs.flatMap Func.blocks⟩ : Func).freshBlockId :=
        Func.lt_freshBlockId (by rwa [Func.blockIds, hids])
      exact Nat.ne_of_lt hlt

/-- Everything inlined has the shapes of tagged block-functions. -/
theorem shape {b : BasicBlock} (hb : b ∈ (inlineBBs name bbs hasIndirectJump).1.blocks) :
    (∃ pre t, InnerShape b pre t) ∨ ∃ k pre s mid r, ExitShape k b pre s mid r := by
  rcases (E.mem_blocks name).mp hb with ⟨g, hg, hbg⟩ | ⟨-, rfl⟩
  · exact (T.tagged g (E.sub g hg)).shape b hbg
  · exact Or.inl ⟨_, _, innerShape_fakeBlock bbs⟩

theorem ready {b : BasicBlock} (hb : b ∈ (inlineBBs name bbs hasIndirectJump).1.blocks) :
    Ready b.instrs := by
  rcases (E.mem_blocks name).mp hb with ⟨g, hg, hbg⟩ | ⟨-, rfl⟩
  · have hT := T.tagged g (E.sub g hg)
    have hin : ∀ i ∈ b.instrs, i ∈ g.instrs := fun i hi => mem_instrs.mpr ⟨b, hbg, hi⟩
    have hstart : ∀ i ∈ b.instrs, i.has .BB_pcStart = true → (getBBStart i).isSome := by
      intro i hi h
      obtain ⟨pc, hpc⟩ := hT.start
      rw [hT.pcStart i (hin i hi) h, hpc]
      rfl
    rcases hT.shape b hbg with ⟨pre, t, h⟩ | ⟨k, pre, s, mid, r, e⟩
    · have hun := h.untagged
      refine ⟨by rw [h.instrs]; simp, ?_, fun i hi => tagsOk_of_untagged (hun i hi) (hstart i hi)⟩
      have : b.instrs.countP (fun i => ¬ Untagged i) = 0 :=
        List.countP_eq_zero.mpr fun i hi => by simpa using hun i hi
      omega
    · refine ⟨List.ne_nil_of_mem e.mem_store, ?_, fun i hi => ?_⟩
      · have h1 : pre.countP (fun i => ¬ Untagged i) = 0 :=
          List.countP_eq_zero.mpr fun i hi => by simpa using (e.pre_plain i hi).untagged
        have h2 : (mid ++ [r]).countP (fun i => ¬ Untagged i) = 0 :=
          List.countP_eq_zero.mpr fun i hi => by simpa using e.post_untagged i hi
        rw [e.instrs, List.countP_append, List.countP_cons, h1, h2]
        split_ifs <;> omega
      · by_cases hu : Untagged i
        · exact tagsOk_of_untagged hu (hstart i hi)
        · obtain ⟨k', hk'⟩ := not_forall.mp hu
          obtain ⟨rfl, -⟩ := e.eq_store hi (j := k') (by simpa using hk')
          exact e.store.tagsOk (E.read g hg i (hin i hi) e.store.toPC)
            (hT.idxStart i (hin i hi)) (hstart i hi)
  · refine ⟨by simp [fakeBlock], by simp [fakeBlock, untagged_fresh], fun i hi => ?_⟩
    rw [List.mem_singleton.mp (show i ∈ [Instr.fresh (.ret none)] from hi)]
    exact tagsOk_fresh _

/-- A function is built by one map over what is inlined, unless a search for a switch value
crashes. -/
theorem makeFunctionForward_eq {all : List (UInt64 × Func)} {startBB : Func}
    (hexplore : exploreBB all startBB = some (bbs, hasIndirectJump)) :
    ∃ m₀ m₁ m₂, Maps (inlineBBs name bbs hasIndirectJump).1 m₀ m₁ m₂ ∧
      ∀ f, makeFunctionForward all name startBB = some f ↔
        SwitchSearchEnds (inlineBBs name bbs hasIndirectJump).1 ∧
        f = (inlineBBs name bbs hasIndirectJump).1.mapBlocks
        (finalBlock m₀ m₁ m₂ (fakeId bbs)) := by
  simp only [makeFunctionForward, hexplore, Option.bind_eq_bind, Option.bind_some]
  refine fixups_eq (E.ids_nodup name) (fun b hb => E.ready name hb) ?_
  rintro ⟨i, hi, hind⟩
  rw [fake_inlineBBs, if_pos]
  obtain ⟨b, hb, hib⟩ := mem_instrs.mp hi
  rcases (E.mem_blocks name).mp hb with ⟨g, hg, hbg⟩ | ⟨h, -⟩
  · exact E.indirect g hg i (mem_instrs.mpr ⟨b, hbg, hib⟩) hind
  · exact h

end Explored

end Bin2llvm.BuildFunctions
