import Bin2llvm.BuildFunctions.PerBlock

/-!
# Bin2llvm.BuildFunctions.Pipeline — the four fixups together

`Ready` is what the fixups rely on in a block: at most one instruction carries a control tag, its
tags can be read, and the block is not empty.  Every fixup keeps it, so the maps can be rebuilt in
between and the whole sequence is one map over the blocks (`fixups_eq`).
-/

namespace Bin2llvm.BuildFunctions

open FixOverlappedBBs

/-! ## Control tags -/

/-- How a store to `PC` leaves its block. -/
inductive ExitKind where
  | call | directJump | indirectJump | ret
  deriving DecidableEq, Repr

def hasTag (i : Instr) : ExitKind → Bool
  | .call => isCall i
  | .directJump => i.has .INS_directJump
  | .indirectJump => i.has .INS_indirectJump
  | .ret => i.has .INS_return

def Untagged (i : Instr) : Prop := ∀ k, hasTag i k = false

instance (i : Instr) : Decidable (Untagged i) :=
  decidable_of_iff (isCall i = false ∧ i.has .INS_directJump = false ∧
    i.has .INS_indirectJump = false ∧ i.has .INS_return = false)
    ⟨fun h k => by cases k <;> simp [hasTag, h], fun h => ⟨h .call, h .directJump,
      h .indirectJump, h .ret⟩⟩

theorem untagged_fresh (o : Op) : Untagged (Instr.fresh o) := fun k => by cases k <;> rfl

theorem hasTag_setMetadata (i : Instr) (n : MDNode) (k : ExitKind) :
    hasTag (i.setMetadata .INS_unresolvedCall n) k = hasTag i k := by
  cases k <;> simp [hasTag, isCall, Instr.has_setMetadata_of_ne]

theorem hasTag_markUnresolved (bbMap : BBMap) (i : Instr) (k : ExitKind) :
    hasTag (markUnresolved bbMap i) k = hasTag i k := by
  unfold markUnresolved
  split_ifs
  · exact hasTag_setMetadata i _ k
  · rfl

theorem op_markUnresolved (bbMap : BBMap) (i : Instr) : (markUnresolved bbMap i).op = i.op := by
  unfold markUnresolved
  split_ifs <;> rfl

/-- Reading any other tag of a marked call gives what it gave before. -/
theorem getHex_markUnresolved (bbMap : BBMap) (i : Instr) {k : MDKind}
    (hk : k ≠ .INS_unresolvedCall) :
    getHexMetadataFromIns (markUnresolved bbMap i) k = getHexMetadataFromIns i k := by
  unfold markUnresolved
  split_ifs
  · unfold getHexMetadataFromIns
    rw [Instr.getMetadata_setMetadata_of_ne i hk]
  · rfl

theorem has_markUnresolved (bbMap : BBMap) (i : Instr) {k : MDKind} (hk : k ≠ .INS_unresolvedCall) :
    (markUnresolved bbMap i).has k = i.has k := by
  unfold markUnresolved
  split_ifs
  · exact Instr.has_setMetadata_of_ne i hk _
  · rfl

theorem markUnresolved_of_not_isCall {bbMap : BBMap} {i : Instr} (h : isCall i = false) :
    markUnresolved bbMap i = i := by
  simp [markUnresolved, h]

/-! ## What the fixups rely on -/

/-- The instruction is tagged in one way, its tags can be read, and if it is tagged it is no fake
return. -/
structure TagsOk (i : Instr) : Prop where
  kind : ∀ k k', hasTag i k = true → hasTag i k' = true → k = k'
  call : isCall i = true → (getHexMetadataFromIns i .INS_callReturn).isSome
  directJump : i.has .INS_directJump = true → (getHexMetadataFromIns i .INS_directJump).isSome
  switch : i.has .INS_indirectJump = true → switchComplete i = true → SwitchTagsRead i
  start : i.has .BB_pcStart = true → (getBBStart i).isSome
  notFake : ¬ Untagged i → i.has .INS_fakeReturn = false

structure Ready (is : List Instr) : Prop where
  ne_nil : is ≠ []
  one : is.countP (fun i => ¬ Untagged i) ≤ 1
  ok : ∀ i ∈ is, TagsOk i

variable {bbMap : BBMap} {fakeBB : BlockId} {is : List Instr} {f : Func}

theorem tagsOk_fresh (o : Op) : TagsOk (Instr.fresh o) where
  kind k k' h := by rw [untagged_fresh o k] at h; simp at h
  call h := by simp [isCall, Instr.fresh, Instr.has, Instr.getMetadata] at h
  directJump h := by simp [Instr.fresh, Instr.has, Instr.getMetadata] at h
  switch h := by simp [Instr.fresh, Instr.has, Instr.getMetadata] at h
  start h := by simp [Instr.fresh, Instr.has, Instr.getMetadata] at h
  notFake h := absurd (untagged_fresh o) h

theorem TagsOk.markUnresolved {i : Instr} (h : TagsOk i) (bbMap : BBMap) :
    TagsOk (markUnresolved bbMap i) where
  kind k k' hk hk' := by
    rw [hasTag_markUnresolved] at hk hk'
    exact h.kind k k' hk hk'
  call hc := by
    rw [getHex_markUnresolved bbMap i (by simp)]
    exact h.call ((hasTag_markUnresolved bbMap i .call).symm.trans hc)
  directJump hc := by
    rw [getHex_markUnresolved bbMap i (by simp)]
    exact h.directJump (by rwa [has_markUnresolved bbMap i (by simp)] at hc)
  switch hc hs := by
    have hs' : switchComplete i = true := by
      unfold switchComplete at hs ⊢
      rwa [has_markUnresolved bbMap i (by simp), has_markUnresolved bbMap i (by simp),
        has_markUnresolved bbMap i (by simp)] at hs
    obtain ⟨d, c, x, pcs, hd, hn, hx, hp⟩ :=
      h.switch (by rwa [has_markUnresolved bbMap i (by simp)] at hc) hs'
    refine ⟨d, c, x, pcs, ?_, ?_, ?_, ?_⟩
    · rwa [getHex_markUnresolved bbMap i (by simp)]
    · rwa [getHex_markUnresolved bbMap i (by simp)]
    · rwa [getHex_markUnresolved bbMap i (by simp)]
    · unfold switchCasePCs at hp ⊢
      simp only [getHex_markUnresolved bbMap i (k := .INS_switch_case _) (by simp)]
      exact hp
  start hc := by
    unfold getBBStart
    rw [getHex_markUnresolved bbMap i (by simp)]
    exact h.start (by rwa [has_markUnresolved bbMap i (by simp)] at hc)
  notFake hc := by
    rw [has_markUnresolved bbMap i (by simp)]
    exact h.notFake fun hu => hc fun k => by rw [hasTag_markUnresolved]; exact hu k

/-- What a fixup collects is tagged, so it collects at most one instruction of a block. -/
theorem Ready.length_filterMap_le (h : Ready is) {α : Type*} {g : Instr → Option α}
    (hg : ∀ i, Untagged i → g i = none) :
    (is.filterMap g).length ≤ 1 := by
  refine le_trans ?_ h.one
  clear h
  induction is with
  | nil => simp
  | cons i is ih =>
    rw [List.filterMap_cons, List.countP_cons]
    cases hi : g i with
    | none => exact ih.trans (Nat.le_add_right _ _)
    | some a =>
      have hu : ¬ Untagged i := fun hu => by rw [hg i hu] at hi; simp at hi
      simp only [List.length_cons, hu, not_false_eq_true, decide_true, if_true]
      omega

theorem Ready.startReadable {b : BasicBlock} (h : Ready b.instrs) : StartReadable b := by
  obtain ⟨i, is, hi⟩ := List.exists_cons_of_ne_nil h.ne_nil
  exact ⟨i, is, hi, (h.ok i (by rw [hi]; exact List.mem_cons_self)).start⟩

theorem Ready.append_fresh (h : Ready is) (ops : List Op) : Ready (is ++ ops.map Instr.fresh) where
  ne_nil := by simp [h.ne_nil]
  one := by
    have : (ops.map Instr.fresh).countP (fun i => ¬ Untagged i) = 0 := by
      rw [List.countP_eq_zero]
      intro i hi
      obtain ⟨o, -, rfl⟩ := List.mem_map.mp hi
      simpa using untagged_fresh o
    rw [List.countP_append, this]
    exact h.one
  ok i hi := by
    rcases List.mem_append.mp hi with hi | hi
    · exact h.ok i hi
    · obtain ⟨o, -, rfl⟩ := List.mem_map.mp hi
      exact tagsOk_fresh o

theorem Ready.sublist {is' : List Instr} (h : Ready is) (hs : is'.Sublist is)
    (hne : is' ≠ []) : Ready is' where
  ne_nil := hne
  one := hs.countP_le.trans h.one
  ok i hi := h.ok i (hs.subset hi)

theorem Ready.map_markUnresolved (h : Ready is) (bbMap : BBMap) :
    Ready (is.map (markUnresolved bbMap)) where
  ne_nil := by simp [h.ne_nil]
  one := by
    rw [List.countP_map]
    refine le_trans (le_of_eq (List.countP_congr fun i _ => ?_)) h.one
    simp only [Function.comp_apply, decide_eq_true_eq]
    exact not_congr (forall_congr' fun k => by rw [hasTag_markUnresolved])
  ok i hi := by
    obtain ⟨j, hj, rfl⟩ := List.mem_map.mp hi
    exact (h.ok j hj).markUnresolved bbMap

theorem mem_dropFakeReturns {i : Instr} : i ∈ dropFakeReturns is ↔
    i ∈ is ∧ i.has .INS_fakeReturn = false := by
  simp [dropFakeReturns]

theorem not_fake_fresh (o : Op) : (Instr.fresh o).has .INS_fakeReturn = false := rfl

theorem Ready.callsBlock {b : BasicBlock} (h : Ready b.instrs) :
    Ready (callsBlock bbMap b).instrs := by
  unfold BuildFunctions.callsBlock updateBlock
  split
  · exact h.map_markUnresolved bbMap
  · rename_i bb _ _
    have h1 := (h.map_markUnresolved bbMap).append_fresh [.br bb]
    refine h1.sublist List.filter_sublist (List.ne_nil_of_mem (a := Instr.fresh (.br bb)) ?_)
    exact mem_dropFakeReturns.mpr ⟨by simp, not_fake_fresh _⟩

theorem mem_replaceStore_fresh {s : Instr} (hs : ¬ Untagged s) (o : Op) :
    Instr.fresh o ∈ replaceStore s o is := by
  unfold replaceStore
  refine (List.mem_erase_of_ne fun h => ?_).mpr (by simp)
  exact hs (h ▸ untagged_fresh o)

/-- A tagged store gives way to a terminator. -/
theorem Ready.replaceStore {s : Instr} (h : Ready is) (hs : ¬ Untagged s) (o : Op) :
    Ready (dropFakeReturns (replaceStore s o is)) := by
  refine (h.append_fresh [o]).sublist (List.filter_sublist.trans List.erase_sublist) ?_
  exact List.ne_nil_of_mem (mem_dropFakeReturns.mpr ⟨mem_replaceStore_fresh hs o, not_fake_fresh o⟩)

theorem not_untagged {i : Instr} {k : ExitKind} (h : hasTag i k = true) :
    ¬ Untagged i := fun hu => by
  rw [hu k] at h
  simp at h

theorem jumpTarget_eq_some {i s : Instr} {bb : BlockId} (h : jumpTarget bbMap i = some (s, bb)) :
    s = i ∧ i.has .INS_directJump = true ∧
      ∃ pc, getHexMetadataFromIns i .INS_directJump = some pc ∧ bbMap.lookup pc = some bb := by
  unfold jumpTarget at h
  split_ifs at h with hd
  obtain ⟨bb', hbb, heq⟩ := Option.map_eq_some_iff.mp h
  obtain ⟨rfl, rfl⟩ := Prod.mk.inj heq
  exact ⟨rfl, hd, Option.bind_eq_some_iff.mp hbb⟩

theorem Ready.jumpsBlock {b : BasicBlock} (h : Ready b.instrs) :
    Ready (jumpsBlock bbMap b).instrs := by
  unfold BuildFunctions.jumpsBlock updateBlock
  split
  · exact h
  · rename_i u us hus
    obtain ⟨i, -, hi⟩ :=
      List.mem_filterMap.mp (hus ▸ List.mem_cons_self : u ∈ b.instrs.filterMap (jumpTarget bbMap))
    obtain ⟨hs, hd, -⟩ := jumpTarget_eq_some hi
    exact h.replaceStore (hs ▸ not_untagged (k := .directJump) hd) _

theorem Ready.returnsBlock {b : BasicBlock} (h : Ready b.instrs) :
    Ready (returnsBlock b).instrs := by
  unfold BuildFunctions.returnsBlock updateBlock
  split
  · exact h
  · rename_i u us hus
    obtain ⟨i, -, hi⟩ :=
      List.mem_filterMap.mp (hus ▸ List.mem_cons_self : u ∈ b.instrs.filterMap returnStore)
    unfold returnStore at hi
    split_ifs at hi with hr
    obtain rfl : i = u := by simpa using hi
    exact h.replaceStore (not_untagged (k := .ret) hr) _

theorem Ready.indirectBlock {b : BasicBlock} (h : Ready b.instrs) :
    Ready (indirectBlock bbMap fakeBB b).instrs := by
  unfold BuildFunctions.indirectBlock updateBlock
  split
  · exact h
  · rename_i u us hus
    obtain ⟨i, him, hi⟩ :=
      List.mem_filterMap.mp (hus ▸ List.mem_cons_self : u ∈ b.instrs.filterMap indirectJump)
    unfold indirectJump at hi
    split_ifs at hi with hr
    obtain rfl : i = u := by simpa using hi
    refine (h.append_fresh _).sublist List.filter_sublist (List.ne_nil_of_mem (a := i) ?_)
    exact mem_dropFakeReturns.mpr
      ⟨List.mem_append_left _ him, (h.ok i him).notFake (not_untagged (k := .indirectJump) hr)⟩

/-! ## The sequence -/

/-- Around a tagged instruction nothing else is tagged. -/
theorem Ready.split (h : Ready is) {s : Instr} (hs : s ∈ is) (ht : ¬ Untagged s) :
    ∃ pre post, is = pre ++ s :: post ∧ (∀ i ∈ pre, Untagged i) ∧ ∀ i ∈ post, Untagged i := by
  obtain ⟨pre, post, rfl⟩ := List.append_of_mem hs
  have hone := h.one
  rw [List.countP_append, List.countP_cons, if_pos (by simpa using ht)] at hone
  have h1 : pre.countP (fun i => ¬ Untagged i) = 0 := by omega
  have h2 : post.countP (fun i => ¬ Untagged i) = 0 := by omega
  rw [List.countP_eq_zero] at h1 h2
  exact ⟨pre, post, rfl, fun i hi => by simpa using h1 i hi, fun i hi => by simpa using h2 i hi⟩

theorem filterMap_eq_nil_of_untagged {α : Type*} {g : Instr → Option α}
    (hg : ∀ i, Untagged i → g i = none) (h : ∀ i ∈ is, Untagged i) : is.filterMap g = [] :=
  List.filterMap_eq_nil_iff.mpr fun i hi => hg i (h i hi)

theorem filterMap_split {α : Type*} {g : Instr → Option α} (hg : ∀ i, Untagged i → g i = none)
    {pre post : List Instr} (hpre : ∀ i ∈ pre, Untagged i)
    (hpost : ∀ i ∈ post, Untagged i) (s : Instr) :
    (pre ++ s :: post).filterMap g = (g s).toList := by
  rw [List.filterMap_append, List.filterMap_cons, filterMap_eq_nil_of_untagged hg hpre,
    filterMap_eq_nil_of_untagged hg hpost]
  cases g s <;> rfl

theorem callTarget_untagged {i : Instr} (h : hasTag i .call = false) :
    callTarget bbMap i = none := by
  have h' : isCall i = false := h
  simp [callTarget, h']

theorem jumpTarget_untagged {i : Instr} (h : hasTag i .directJump = false) :
    jumpTarget bbMap i = none := by
  have h' : i.has .INS_directJump = false := h
  simp [jumpTarget, h']

theorem indirectJump_untagged {i : Instr} (h : hasTag i .indirectJump = false) :
    indirectJump i = none := by
  have h' : i.has .INS_indirectJump = false := h
  simp [indirectJump, h']

theorem returnStore_untagged {i : Instr} (h : hasTag i .ret = false) : returnStore i = none := by
  have h' : i.has .INS_return = false := h
  simp [returnStore, h']

/-- A block without calls is as before `fixupCalls`. -/
theorem callsBlock_eq_self {b : BasicBlock} (h : ∀ i ∈ b.instrs, hasTag i .call = false) :
    callsBlock bbMap b = b := by
  have h1 : b.instrs.filterMap (callTarget bbMap) = [] :=
    List.filterMap_eq_nil_iff.mpr fun i hi => callTarget_untagged (h i hi)
  have h2 : b.instrs.map (markUnresolved bbMap) = b.instrs := by
    conv_rhs => rw [← List.map_id b.instrs]
    exact List.map_congr_left fun i hi => markUnresolved_of_not_isCall (h i hi)
  simp [callsBlock, h1, updateBlock, BasicBlock.mapInstrs, h2]

theorem jumpsBlock_eq_self {b : BasicBlock} (h : ∀ i ∈ b.instrs, hasTag i .directJump = false) :
    jumpsBlock bbMap b = b := by
  have h1 : b.instrs.filterMap (jumpTarget bbMap) = [] :=
    List.filterMap_eq_nil_iff.mpr fun i hi => jumpTarget_untagged (h i hi)
  simp [jumpsBlock, h1, updateBlock]

theorem indirectBlock_eq_self {b : BasicBlock}
    (h : ∀ i ∈ b.instrs, hasTag i .indirectJump = false) : indirectBlock bbMap fakeBB b = b := by
  have h1 : b.instrs.filterMap indirectJump = [] :=
    List.filterMap_eq_nil_iff.mpr fun i hi => indirectJump_untagged (h i hi)
  simp [indirectBlock, h1, updateBlock]

theorem returnsBlock_eq_self {b : BasicBlock} (h : ∀ i ∈ b.instrs, hasTag i .ret = false) :
    returnsBlock b = b := by
  have h1 : b.instrs.filterMap returnStore = [] :=
    List.filterMap_eq_nil_iff.mpr fun i hi => returnStore_untagged (h i hi)
  simp [returnsBlock, h1, updateBlock]

/-- The instructions of a block after `fixupCalls` and `fixupDirectJumps` with an indirect jump are
those before. -/
theorem mem_callsBlock_indirect {b : BasicBlock} {s : Instr} (hok : ∀ i ∈ b.instrs, TagsOk i)
    (hs : s ∈ (callsBlock bbMap b).instrs) (hind : s.has .INS_indirectJump = true) :
    s ∈ b.instrs := by
  have hmark : s ∈ b.instrs.map (markUnresolved bbMap) → s ∈ b.instrs := by
    intro hs
    obtain ⟨i, hi, rfl⟩ := List.mem_map.mp hs
    have hi' : hasTag i .indirectJump = true := by
      rw [← hasTag_markUnresolved bbMap]
      exact hind
    have hc : isCall i = false := by
      by_contra hc
      have := (hok i hi).kind .call .indirectJump (by simpa [hasTag] using hc) hi'
      simp at this
    rwa [markUnresolved_of_not_isCall hc]
  unfold callsBlock updateBlock at hs
  split at hs
  · exact hmark hs
  · rcases List.mem_append.mp (mem_dropFakeReturns.mp hs).1 with hs | hs
    · exact hmark hs
    · rw [List.mem_singleton.mp hs] at hind
      simp [Instr.fresh, Instr.has, Instr.getMetadata] at hind

theorem mem_jumpsBlock_indirect {b : BasicBlock} {s : Instr} (hs : s ∈ (jumpsBlock bbMap b).instrs)
    (hind : s.has .INS_indirectJump = true) : s ∈ b.instrs := by
  unfold jumpsBlock updateBlock at hs
  split at hs
  · exact hs
  · rcases List.mem_append.mp (List.mem_of_mem_erase (mem_dropFakeReturns.mp hs).1) with hs | hs
    · exact hs
    · rw [List.mem_singleton.mp hs] at hind
      simp [Instr.fresh, Instr.has, Instr.getMetadata] at hind

/-- The first two fixups leave a block with an indirect jump alone. -/
theorem jumpsBlock_callsBlock_of_indirect {b : BasicBlock} (h : Ready b.instrs)
    {m m' : BBMap} {s : Instr} (hs : s ∈ b.instrs) (hind : s.has .INS_indirectJump = true) :
    jumpsBlock m' (callsBlock m b) = b := by
  have hk : ∀ k, k ≠ .indirectJump → ∀ i ∈ b.instrs, hasTag i k = false := by
    intro k hk i hi
    obtain ⟨pre, post, heq, hpre, hpost⟩ := h.split hs (not_untagged (k := .indirectJump) hind)
    rw [heq] at hi
    rcases List.mem_append.mp hi with hi | hi
    · exact hpre i hi k
    · rcases List.mem_cons.mp hi with rfl | hi
      · by_contra hc
        exact hk ((h.ok i hs).kind k .indirectJump (by simpa using hc) hind)
      · exact hpost i hi k
  rw [callsBlock_eq_self (hk .call (by simp)), jumpsBlock_eq_self (hk .directJump (by simp))]

/-- What the four fixups make of a block. -/
def finalBlock (m₀ m₁ m₂ : BBMap) (fakeBB : BlockId) (b : BasicBlock) : BasicBlock :=
  returnsBlock (indirectBlock m₂ fakeBB (jumpsBlock m₁ (callsBlock m₀ b)))

/-- The maps the fixups work with. -/
structure Maps (f : Func) (m₀ m₁ m₂ : BBMap) : Prop where
  calls : buildBBMap f = some m₀
  jumps : buildBBMap (f.mapBlocks (callsBlock m₀)) = some m₁
  indirect : buildBBMap (f.mapBlocks fun b => jumpsBlock m₁ (callsBlock m₀ b)) = some m₂

/-- No search for a switch value crashes. -/
def SwitchSearchEnds (f : Func) : Prop :=
  ∀ b ∈ f.blocks, ∀ s ∈ b.instrs, s.has .INS_indirectJump = true → switchComplete s = true →
    (getValueSwitchedOn b.instrs s).isSome

theorem forall_mapBlocks {g : BasicBlock → BasicBlock} {P : BasicBlock → Prop}
    (h : ∀ b ∈ f.blocks, P (g b)) : ∀ b ∈ (f.mapBlocks g).blocks, P b := by
  intro b hb
  obtain ⟨c, hc, rfl⟩ := List.mem_map.mp hb
  exact h c hc

theorem mem_instrs {i : Instr} : i ∈ f.instrs ↔ ∃ b ∈ f.blocks, i ∈ b.instrs := by
  unfold Func.instrs
  exact List.mem_flatMap

theorem Ready.tagsOk (h : ∀ b ∈ f.blocks, Ready b.instrs) {i : Instr}
    (hi : i ∈ f.instrs) : TagsOk i := by
  obtain ⟨b, hb, hib⟩ := mem_instrs.mp hi
  exact (h b hb).ok i hib

/-- The first two fixups do not change which searches for switch values are made. -/
theorem switchSearchEnds_jumps (hready : ∀ b ∈ f.blocks, Ready b.instrs) (m₀ m₁ : BBMap) :
    SwitchSearchEnds (f.mapBlocks fun b => jumpsBlock m₁ (callsBlock m₀ b)) ↔
      SwitchSearchEnds f := by
  constructor
  · intro h b hb s hs hind
    have := h _ (List.mem_map_of_mem hb) s
    rw [jumpsBlock_callsBlock_of_indirect (hready b hb) hs hind] at this
    exact this hs hind
  · intro h
    refine forall_mapBlocks fun b hb s hs hind => ?_
    have hsb := mem_callsBlock_indirect (hready b hb).ok (mem_jumpsBlock_indirect hs hind) hind
    rw [jumpsBlock_callsBlock_of_indirect (hready b hb) hsb hind]
    exact h b hb s hsb hind

/-- A map over the blocks that keeps them ready leads to a function of which the map of blocks can
be built. -/
theorem Ready.mapBlocks {g : BasicBlock → BasicBlock} (hid : ∀ b, (g b).id = b.id)
    (hnd : f.blockIds.Nodup) (hg : ∀ b ∈ f.blocks, Ready (g b).instrs) :
    (f.mapBlocks g).blockIds.Nodup ∧
      (∀ b ∈ (f.mapBlocks g).blocks, Ready b.instrs) ∧ ∃ m,
      buildBBMap (f.mapBlocks g) = some m := by
  have hready : ∀ b ∈ (f.mapBlocks g).blocks, Ready b.instrs := forall_mapBlocks hg
  refine ⟨by rwa [Func.blockIds_mapBlocks hid], hready, ?_⟩
  exact buildBBMap_isSome fun b hb => (hready b hb).startReadable

theorem fixupCalls_ready (hnd : f.blockIds.Nodup) (hready : ∀ b ∈ f.blocks, Ready b.instrs) :
    fixupCalls f bbMap = some (f.mapBlocks (callsBlock bbMap)) :=
  fixupCalls_eq hnd (fun _ hi => (Ready.tagsOk hready hi).call)
    fun b hb => (hready b hb).length_filterMap_le fun _ hi => callTarget_untagged (hi .call)

theorem fixupDirectJumps_ready (hnd : f.blockIds.Nodup) (hready : ∀ b ∈ f.blocks, Ready b.instrs) :
    fixupDirectJumps f bbMap = some (f.mapBlocks (jumpsBlock bbMap)) :=
  fixupDirectJumps_eq hnd (fun _ hi => (Ready.tagsOk hready hi).directJump)
    fun b hb => (hready b hb).length_filterMap_le fun _ hi => jumpTarget_untagged (hi .directJump)

theorem fixupReturns_ready (hnd : f.blockIds.Nodup) (hready : ∀ b ∈ f.blocks, Ready b.instrs) :
    fixupReturns f = some (f.mapBlocks returnsBlock) :=
  fixupReturns_eq hnd fun b hb => (hready b hb).length_filterMap_le fun _ hi =>
    returnStore_untagged (hi .ret)

/-- `fixupIndirectJumps` when every block is ready, whether or not there is a block for unknown
targets. -/
theorem fixupIndirectJumps_ready (hnd : f.blockIds.Nodup) (hready : ∀ b ∈ f.blocks, Ready b.instrs)
    {fake : Option BlockId} (hfake : (∃ i ∈ f.instrs, i.has .INS_indirectJump = true) →
      fake = some fakeBB)
    {f' : Func} :
    fixupIndirectJumps f bbMap fake = some f' ↔
      SwitchSearchEnds f ∧ f' = f.mapBlocks (indirectBlock bbMap fakeBB) := by
  by_cases hex : ∃ i ∈ f.instrs, i.has .INS_indirectJump = true
  · rw [hfake hex]
    exact fixupIndirectJumps_eq hnd
      (fun b hb => (hready b hb).length_filterMap_le fun i hi =>
        indirectJump_untagged (hi .indirectJump))
      fun i hi => (Ready.tagsOk hready hi).switch
  · have hno : ∀ b ∈ f.blocks, ∀ i ∈ b.instrs, i.has .INS_indirectJump = false :=
        fun b hb i hi => by
      by_contra hc
      exact hex ⟨i, mem_instrs.mpr ⟨b, hb, hi⟩, by simpa using hc⟩
    have hscan : f.scan indirectJump = [] := by
      refine List.eq_nil_iff_forall_not_mem.mpr fun u hu => ?_
      obtain ⟨b, hb, -, hmem⟩ := Func.mem_scan.mp hu
      obtain ⟨i, hi, hsome⟩ := List.mem_filterMap.mp hmem
      rw [indirectJump_untagged (hno b hb i hi)] at hsome
      simp at hsome
    have hsame : f.mapBlocks (indirectBlock bbMap fakeBB) = f :=
      Func.mapBlocks_id fun b hb => indirectBlock_eq_self (hno b hb)
    have hclean : cleanupFakeReturns f [] = some f := by
      have hid : f.mapBlocks (fun b => b) = f := Func.mapBlocks_id fun _ _ => rfl
      simp [cleanupFakeReturns, hid]
    have hends : SwitchSearchEnds f := fun b hb s hs hind => by
      rw [hno b hb s hs] at hind; simp at hind
    simp only [fixupIndirectJumps, hscan, hsame, hends, true_and, branchToFake, List.filter_nil,
      List.foldlM_nil, Option.bind_eq_bind, Option.pure_def, Option.bind_some, List.map_nil,
        hclean, Option.some.injEq]
    exact eq_comm

/-- **The four fixups are one map over the blocks**; they go through unless a search for a switch
value crashes. -/
theorem fixups_eq (hnd : f.blockIds.Nodup) (hready : ∀ b ∈ f.blocks, Ready b.instrs)
    {fake : Option BlockId} (hfake : (∃ i ∈ f.instrs, i.has .INS_indirectJump = true) →
      fake = some fakeBB) :
    ∃ m₀ m₁ m₂, Maps f m₀ m₁ m₂ ∧
      ∀ f', fixups f fake = some f' ↔ SwitchSearchEnds f ∧
      f' = f.mapBlocks (finalBlock m₀ m₁ m₂ fakeBB) := by
  obtain ⟨m₀, hm₀⟩ := buildBBMap_isSome (f := f) fun b hb => (hready b hb).startReadable
  obtain ⟨hnd1, hr1, m₁, hm₁⟩ := Ready.mapBlocks (g := callsBlock m₀) id_callsBlock hnd
    fun b hb => (hready b hb).callsBlock
  obtain ⟨hnd2, hr2, m₂, hm₂⟩ :=
    Ready.mapBlocks (g := fun b => jumpsBlock m₁ (callsBlock m₀ b)) (fun b => by simp) hnd
    fun b hb => (hready b hb).callsBlock.jumpsBlock
  obtain ⟨hnd3, hr3, m₃, hm₃⟩ :=
    Ready.mapBlocks (g := fun b => indirectBlock m₂ fakeBB (jumpsBlock m₁ (callsBlock m₀ b)))
      (fun b => by simp) hnd fun b hb => (hready b hb).callsBlock.jumpsBlock.indirectBlock
  obtain ⟨-, -, m₄, hm₄⟩ := Ready.mapBlocks (g := finalBlock m₀ m₁ m₂ fakeBB) (fun b =>
    by simp [finalBlock]) hnd
    fun b hb => (hready b hb).callsBlock.jumpsBlock.indirectBlock.returnsBlock
  -- each fixup is a change of single blocks, and each map is there
  have e0 : fixupCalls f m₀ = some (f.mapBlocks (callsBlock m₀)) := fixupCalls_ready hnd hready
  have e1 : fixupDirectJumps (f.mapBlocks (callsBlock m₀)) m₁ =
      some (f.mapBlocks fun b => jumpsBlock m₁ (callsBlock m₀ b)) := by
    rw [fixupDirectJumps_ready hnd1 hr1, Func.mapBlocks_mapBlocks]
    rfl
  have e3 : fixupReturns (f.mapBlocks fun b =>
      indirectBlock m₂ fakeBB (jumpsBlock m₁ (callsBlock m₀ b))) =
      some (f.mapBlocks (finalBlock m₀ m₁ m₂ fakeBB)) := by
    rw [fixupReturns_ready hnd3 hr3, Func.mapBlocks_mapBlocks]
    rfl
  have e2 : ∀ f', fixupIndirectJumps (f.mapBlocks fun b => jumpsBlock m₁ (callsBlock m₀ b)) m₂
      fake = some f' ↔
      SwitchSearchEnds f ∧ f' = f.mapBlocks fun b =>
        indirectBlock m₂ fakeBB (jumpsBlock m₁ (callsBlock m₀ b)) := by
    intro f'
    rw [fixupIndirectJumps_ready hnd2 hr2, switchSearchEnds_jumps hready, Func.mapBlocks_mapBlocks]
    · rfl
    · rintro ⟨i, hi, hind⟩
      obtain ⟨b, hb, hib⟩ := mem_instrs.mp hi
      obtain ⟨c, hc, rfl⟩ := List.mem_map.mp hb
      have hic := mem_callsBlock_indirect (hready c hc).ok (mem_jumpsBlock_indirect hib hind) hind
      exact hfake ⟨i, mem_instrs.mpr ⟨c, hc, hic⟩, hind⟩
  refine ⟨m₀, m₁, m₂, ⟨hm₀, hm₁, hm₂⟩, fun f' => ?_⟩
  simp only [fixups, hm₀, hm₁, hm₂, e0, e1, Option.bind_eq_bind, Option.bind_some]
  -- only the fixup of indirect jumps can fail
  cases h2 : fixupIndirectJumps (f.mapBlocks fun b => jumpsBlock m₁ (callsBlock m₀ b)) m₂ fake with
  | none =>
    refine iff_of_false (by simp) ?_
    rintro ⟨hends, -⟩
    rw [(e2 _).mpr ⟨hends, rfl⟩] at h2
    simp at h2
  | some f₃ =>
    obtain ⟨hends, rfl⟩ := (e2 f₃).mp h2
    simp only [Option.bind_some, hm₃, e3, hm₄, Option.pure_def, Option.some.injEq, hends, true_and]
    exact eq_comm

end Bin2llvm.BuildFunctions
