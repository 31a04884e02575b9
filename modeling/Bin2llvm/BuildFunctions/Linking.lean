import Bin2llvm.BuildFunctions.Terminators

/-!
# Bin2llvm.BuildFunctions.Linking — are exits connected to the blocks they go to?

The map from program counters to blocks is rebuilt from the `BB_pcStart` of the first instruction of
each block. `fixupDirectJumps` erases its stores, so a block that is only a direct jump loses its
start: `fixupIndirectJumps`, which comes later, does not find it any more.

* `lookup_iff`: a map finds the entry block of an inlined block-function exactly while its first
  instruction carries the start.
* `makeFunctionForward_linked_iff`: all exits are connected exactly when no switch goes to a
  block-function that has lost its start.
-/

namespace Bin2llvm.BuildFunctions

open FixOverlappedBBs

/-- The block ends in `o`, its only terminator, and no fake return is left. -/
structure EndsWith (b : BasicBlock) (o : Op) : Prop where
  last : b.instrs.getLast? = some (Instr.fresh o)
  only : ∀ i ∈ b.instrs.dropLast, i.isTerminator = false
  noFake : ∀ i ∈ b.instrs, i.has .INS_fakeReturn = false

/-- The clone of `b` in `f` ends in `o`. -/
def CloneEndsWith (f : Func) (b : BasicBlock) (o : Op) : Prop :=
  ∃ c ∈ f.blocks, c.id = b.id ∧ EndsWith c o

/-- The exit `s` of block `b` is connected in `f` to the entry blocks of the inlined block-functions
it goes to. -/
structure ExitLinked (bbs : List Func) (f : Func) (b : BasicBlock) (s : Instr) : Prop where
  call : isCall s = true → ∀ h ∈ bbs, getHexMetadataFromIns s .INS_callReturn = getPCStartOfFunc h →
    ∀ e, h.blocks.head? = some e → CloneEndsWith f b (.br e.id)
  directJump : s.has .INS_directJump = true → ∀ h ∈ bbs, getHexMetadataFromIns s .INS_directJump =
    getPCStartOfFunc h → ∀ e, h.blocks.head? = some e → CloneEndsWith f b (.br e.id)
  switch : s.has .INS_indirectJump = true → switchComplete s = true →
    ∀ v, getValueSwitchedOn b.instrs s = some (some v) →
      ∃ d cs, CloneEndsWith f b (.switch v d cs) ∧ ∀ h ∈ bbs, ∀ e, h.blocks.head? = some e →
        (getHexMetadataFromIns s .INS_switch_default = getPCStartOfFunc h → d = e.id) ∧
        ∀ n, (getHexMetadataFromIns s .INS_switch_cnt).any (n < ·.toNat) = true →
          getHexMetadataFromIns s (.INS_switch_case n) = getPCStartOfFunc h →
          (cs[n]?).map Prod.snd = some e.id

/-- The entry block is a direct jump to a block-function of `bbs`, and without the store and the
fake return its first instruction does not carry the start. -/
def LosesStart (bbs : List Func) (h : Func) : Prop :=
  ∃ e s, h.blocks.head? = some e ∧ s ∈ e.instrs ∧ s.has .INS_directJump = true ∧
    (∃ g ∈ bbs, getHexMetadataFromIns s .INS_directJump = getPCStartOfFunc g) ∧
    (dropFakeReturns (e.instrs.erase s)).head?.bind getBBStart ≠ getPCStartOfFunc h

variable {bbMap : BBMap} {fakeBB : BlockId} {k : ExitKind} {b : BasicBlock} {pre mid : List Instr}
variable {s r : Instr} {m₀ m₁ m₂ : BBMap}

/-! ## Starts of blocks -/

theorem getBBStart_fresh (o : Op) : getBBStart (Instr.fresh o) = none := rfl

theorem getBBStart_markUnresolved (i : Instr) :
    getBBStart (markUnresolved bbMap i) = getBBStart i :=
  getHex_markUnresolved bbMap i (by simp)

/-- A start that is read after the first fixups was there before. -/
theorem exists_getBBStart_callsBlock {i : Instr} {pc : UInt64} (hi : i ∈ (callsBlock m₀ b).instrs)
    (h : getBBStart i = some pc) : ∃ j ∈ b.instrs, getBBStart j = some pc := by
  have hmark : i ∈ b.instrs.map (markUnresolved m₀) → ∃ j ∈ b.instrs, getBBStart j = some pc := by
    intro hi
    obtain ⟨j, hj, rfl⟩ := List.mem_map.mp hi
    exact ⟨j, hj, by rwa [getBBStart_markUnresolved] at h⟩
  unfold callsBlock updateBlock at hi
  split at hi
  · exact hmark hi
  · rcases List.mem_append.mp (mem_dropFakeReturns.mp hi).1 with hi | hi
    · exact hmark hi
    · rw [List.mem_singleton.mp hi, getBBStart_fresh] at h
      simp at h

theorem exists_getBBStart_jumpsBlock {i : Instr} {pc : UInt64} (hi : i ∈ (jumpsBlock m₁ b).instrs)
    (h : getBBStart i = some pc) : ∃ j ∈ b.instrs, getBBStart j = some pc := by
  unfold jumpsBlock updateBlock at hi
  split at hi
  · exact ⟨i, hi, h⟩
  · rcases List.mem_append.mp (List.mem_of_mem_erase (mem_dropFakeReturns.mp hi).1) with hi | hi
    · exact ⟨i, hi, h⟩
    · rw [List.mem_singleton.mp hi, getBBStart_fresh] at h
      simp at h

theorem exists_getBBStart_jumps {i : Instr} {pc : UInt64}
    (hi : i ∈ (jumpsBlock m₁ (callsBlock m₀ b)).instrs) (h : getBBStart i = some pc) :
    ∃ j ∈ b.instrs, getBBStart j = some pc := by
  obtain ⟨j, hj, hjpc⟩ := exists_getBBStart_jumpsBlock hi h
  exact exists_getBBStart_callsBlock hj hjpc

/-- The start a block shows. -/
def shownStart (b : BasicBlock) : Option UInt64 := b.instrs.head?.bind getBBStart

theorem exists_of_shownStart {pc : UInt64} (h : shownStart b = some pc) :
    ∃ i ∈ b.instrs, getBBStart i = some pc := by
  obtain ⟨i, hi, hpc⟩ := Option.bind_eq_some_iff.mp h
  exact ⟨i, List.mem_of_head? hi, hpc⟩

/-- `fixupCalls` does not change the start an exit shows. -/
theorem ExitShape.shownStart_callsBlock (e : ExitShape k b pre s mid r) :
    shownStart (callsBlock m₀ b) = shownStart b := by
  by_cases hk : k = .call
  · subst hk
    cases hc : callTarget m₀ s with
    | some bb =>
      rw [e.callsBlock_of_some hc]
      unfold shownStart
      rw [e.instrs]
      cases pre <;> rfl
    | none =>
      rw [e.callsBlock_of_none hc]
      unfold shownStart
      rw [e.instrs]
      cases pre with
      | nil => exact getBBStart_markUnresolved s
      | cons i pre => rfl
  · rw [callsBlock_eq_self (e.hasTag_eq_false (Ne.symm hk))]

/-- What is left of a direct jump without the store and the fake return. -/
theorem ExitShape.dropFakeReturns_erase (e : ExitShape k b pre s mid r) :
    dropFakeReturns (b.instrs.erase s) = pre ++ mid := by
  have h := e.dropFakeReturns_replaceStore (.ret none)
  unfold replaceStore dropFakeReturns at h
  rw [List.erase_append_left _ e.mem_store, List.filter_append] at h
  simp only [List.filter_cons, List.filter_nil, not_fake_fresh, Bool.not_false, if_true,
    ← List.append_assoc] at h
  exact (List.append_inj' h rfl).1

theorem head?_bind_append_fresh (is : List Instr) (o : Op) :
    (is ++ [Instr.fresh o]).head?.bind getBBStart = is.head?.bind getBBStart := by
  cases is <;> rfl

/-- A block-function with a start has an entry block. -/
theorem exists_entry {h : Func} {pc : UInt64} (hpc : getPCStartOfFunc h = some pc) :
    ∃ e, h.blocks.head? = some e := by
  unfold getPCStartOfFunc getHexMetadataFromFunc at hpc
  cases he : h.blocks.head? with
  | none => rw [he] at hpc; simp at hpc
  | some e => exact ⟨e, rfl⟩

theorem shownStart_eq_getPCStartOfFunc {h : Func} {e : BasicBlock} (he : h.blocks.head? = some e) :
    shownStart e = getPCStartOfFunc h := by
  unfold shownStart getPCStartOfFunc getHexMetadataFromFunc
  rw [he]
  rfl

namespace Explored

variable {T : TaggedModule} {bbs : List Func} {hasIndirectJump : Bool}
variable (E : Explored T bbs hasIndirectJump)
  (name : String)

include E

/-- While blocks keep their identities, names and read starts, a map finds the entry block of an
inlined block-function exactly when the block shows the start. -/
theorem lookup_iff (φ : BasicBlock → BasicBlock) (hid : ∀ b, (φ b).id = b.id)
    (hname : ∀ b, (φ b).name = b.name) (hstart : ∀ b, ∀ i ∈ (φ b).instrs, ∀ pc,
      getBBStart i = some pc → ∃ j ∈ b.instrs, getBBStart j = some pc)
    {m : BBMap} (hm : buildBBMap ((inlineBBs name bbs hasIndirectJump).1.mapBlocks φ) = some m)
    {h : Func} (hh : h ∈ bbs)
    {pc : UInt64} (hpc : getPCStartOfFunc h = some pc) {e : BasicBlock}
    (he : h.blocks.head? = some e) : m.lookup pc = some e.id ↔ shownStart (φ e) = some pc := by
  have heh : e ∈ h.blocks := List.mem_of_head? he
  have hT := T.tagged h (E.sub h hh)
  -- a block showing the start belongs to the block-function
  have howner : ∀ g ∈ bbs, ∀ b ∈ g.blocks, shownStart (φ b) = some pc → g = h := by
    intro g hg b hb hs
    obtain ⟨i, hi, hipc⟩ := exists_of_shownStart hs
    obtain ⟨j, hj, hjpc⟩ := hstart b i hi pc hipc
    have := (T.tagged g (E.sub g hg)).pcStart j (mem_instrs.mpr ⟨b, hb, hj⟩)
      (has_of_getHexMetadata hjpc)
    exact T.start_inj g (E.sub g hg) h (E.sub h hh) (by rw [← this, hjpc, hpc])
  have hstarts : ∀ b, startsAt pc (φ b) = true ↔ b.name ≠ "fake_indirect_bb" ∧
      shownStart (φ b) = some pc := by
    intro b
    simp [startsAt, shownStart, hname]
  rw [lookup_buildBBMap hm, Func.blocks_mapBlocks, List.find?_map, Option.map_map]
  constructor
  · intro hl
    obtain ⟨b, hb, hbid⟩ := Option.map_eq_some_iff.mp hl
    have heq : b = e := Func.eq_of_id_eq (E.ids_nodup name) (List.mem_of_find?_eq_some hb)
      ((E.mem_blocks name).mpr (Or.inl ⟨h, hh, heh⟩)) ((hid b).symm.trans hbid)
    subst heq
    have hst : startsAt pc (φ b) = true := List.find?_some (p := startsAt pc ∘ φ) hb
    exact ((hstarts b).mp hst).2
  · intro hs
    obtain ⟨l₁, l₂, rfl⟩ := List.append_of_mem hh
    obtain ⟨rest, hblocks⟩ : ∃ rest, h.blocks = e :: rest := by
      cases hb : h.blocks with
      | nil => rw [hb] at he; simp at he
      | cons c rest => exact ⟨rest, by rw [hb] at he; rw [Option.some.inj he]⟩
    -- no block before the entry shows the start
    have hnone : (l₁.flatMap Func.blocks).find? (startsAt pc ∘ φ) = none := by
      refine List.find?_eq_none.mpr fun b hb hst => ?_
      obtain ⟨g, hg, hbg⟩ := List.mem_flatMap.mp hb
      have := howner g (List.mem_append_left _ hg) b hbg ((hstarts b).mp hst).2
      subst this
      exact (List.nodup_append.mp E.nodup).2.2 _ hg _ List.mem_cons_self rfl
    have hfound : (e :: rest).find? (startsAt pc ∘ φ) = some e :=
      List.find?_cons_of_pos ((hstarts e).mpr ⟨hT.names e heh, hs⟩)
    rw [blocks_inlineBBs, List.flatMap_append, List.flatMap_cons, hblocks, List.find?_append,
      List.find?_append, hnone, List.find?_append, hfound]
    simp [hid]

/-- A map finds only blocks of inlined block-functions with the start. -/
theorem exists_of_lookup {φ : BasicBlock → BasicBlock} (hname : ∀ b, (φ b).name = b.name)
    (hstart : ∀ b, ∀ i ∈ (φ b).instrs, ∀ pc, getBBStart i = some pc → ∃ j ∈ b.instrs,
      getBBStart j = some pc)
    {m : BBMap} (hm : buildBBMap ((inlineBBs name bbs hasIndirectJump).1.mapBlocks φ) = some m)
    {pc : UInt64} {bb : BlockId} (hl : m.lookup pc = some bb) :
    ∃ g ∈ bbs, getPCStartOfFunc g = some pc := by
  rw [lookup_buildBBMap hm, Func.blocks_mapBlocks, List.find?_map, Option.map_map] at hl
  obtain ⟨b, hb, -⟩ := Option.map_eq_some_iff.mp hl
  have hst := List.find?_some hb
  have hst' : b.name ≠ "fake_indirect_bb" ∧ shownStart (φ b) = some pc := by
    simpa [startsAt, shownStart, hname] using hst
  rcases (E.mem_blocks name).mp (List.mem_of_find?_eq_some hb) with ⟨g, hg, hbg⟩ | ⟨-, rfl⟩
  · obtain ⟨i, hi, hipc⟩ := exists_of_shownStart hst'.2
    obtain ⟨j, hj, hjpc⟩ := hstart b i hi pc hipc
    refine ⟨g, hg, ?_⟩
    rw [← (T.tagged g (E.sub g hg)).pcStart j (mem_instrs.mpr ⟨b, hbg, hj⟩)
      (has_of_getHexMetadata hjpc), hjpc]
  · exact absurd rfl hst'.1

/-- `fixupCalls` finds every inlined block-function. -/
theorem lookup_calls (hm : Maps (inlineBBs name bbs hasIndirectJump).1 m₀ m₁ m₂) {h : Func}
    (hh : h ∈ bbs) {pc : UInt64} (hpc : getPCStartOfFunc h = some pc) {e : BasicBlock}
    (he : h.blocks.head? = some e) : m₀.lookup pc = some e.id := by
  have hself : (inlineBBs name bbs hasIndirectJump).1.mapBlocks (fun b => b) =
      (inlineBBs name bbs hasIndirectJump).1 :=
    Func.mapBlocks_id fun _ _ => rfl
  refine (E.lookup_iff name (fun b => b) (fun _ => rfl) (fun _ =>
    rfl) (fun _ i hi pc hpc => ⟨i, hi, hpc⟩) (hself.symm ▸ hm.calls) hh hpc he).mpr ?_
  rw [shownStart_eq_getPCStartOfFunc he, hpc]

theorem inner_or_exit {h : Func} (hh : h ∈ bbs) {e : BasicBlock} (he : h.blocks.head? = some e) :
    (∃ pre t, InnerShape e pre t) ∨ ∃ k pre s mid r, ExitShape k e pre s mid r :=
  (T.tagged h (E.sub h hh)).shape e (List.mem_of_head? he)

/-- The entry block of an inlined block-function still shows its start after `fixupCalls`. -/
theorem shownStart_calls {h : Func} (hh : h ∈ bbs) {e : BasicBlock} (he : h.blocks.head? = some e) :
    shownStart (callsBlock m₀ e) = getPCStartOfFunc h := by
  rw [← shownStart_eq_getPCStartOfFunc he]
  rcases E.inner_or_exit hh he with ⟨pre, t, hs⟩ | ⟨k, pre, s, mid, r, hs⟩
  · rw [callsBlock_eq_self fun i hi => hs.untagged i hi .call]
  · exact hs.shownStart_callsBlock

/-- So does `fixupDirectJumps`. -/
theorem lookup_jumps (hm : Maps (inlineBBs name bbs hasIndirectJump).1 m₀ m₁ m₂) {h : Func}
    (hh : h ∈ bbs) {pc : UInt64} (hpc : getPCStartOfFunc h = some pc) {e : BasicBlock}
    (he : h.blocks.head? = some e) : m₁.lookup pc = some e.id := by
  refine (E.lookup_iff name _ (fun b => id_callsBlock b) (fun b => name_callsBlock b)
    (fun _ _ hi _ h => exists_getBBStart_callsBlock hi h) hm.jumps hh hpc he).mpr ?_
  rw [E.shownStart_calls hh he, hpc]

/-- The target of a direct jump is known exactly when a block-function with this start is
inlined. -/
theorem jumpTarget_isSome_iff (hm : Maps (inlineBBs name bbs hasIndirectJump).1 m₀ m₁ m₂)
    {s : Instr} (hs : s.has .INS_directJump = true) :
    (∃ bb, jumpTarget m₁ s = some (s, bb)) ↔
      ∃ g ∈ bbs, getHexMetadataFromIns s .INS_directJump = getPCStartOfFunc g := by
  constructor
  · rintro ⟨bb, hbb⟩
    obtain ⟨-, -, pc, hpc, hl⟩ := jumpTarget_eq_some hbb
    obtain ⟨g, hg, hgpc⟩ := E.exists_of_lookup name (fun b => name_callsBlock b)
      (fun _ _ hi _ h => exists_getBBStart_callsBlock hi h) hm.jumps hl
    exact ⟨g, hg, hpc.trans hgpc.symm⟩
  · rintro ⟨g, hg, hpc⟩
    obtain ⟨pc, hgpc⟩ := (T.tagged g (E.sub g hg)).start
    obtain ⟨e, he⟩ := exists_entry hgpc
    refine ⟨e.id, ?_⟩
    unfold jumpTarget
    rw [if_pos hs, hpc, hgpc]
    simp [E.lookup_jumps name hm hg hgpc he]

/-- After `fixupDirectJumps` the entry block shows its start exactly when it has not lost it. -/
theorem shownStart_jumps_iff (hm : Maps (inlineBBs name bbs hasIndirectJump).1 m₀ m₁ m₂) {h : Func}
    (hh : h ∈ bbs) {pc : UInt64} (hpc : getPCStartOfFunc h = some pc) {e : BasicBlock}
    (he : h.blocks.head? = some e) :
    shownStart (jumpsBlock m₁ (callsBlock m₀ e)) = some pc ↔ ¬ LosesStart bbs h := by
  have hcalls : shownStart (callsBlock m₀ e) = getPCStartOfFunc h := E.shownStart_calls hh he
  rw [hpc] at hcalls
  rcases E.inner_or_exit hh he with ⟨pre, t, hs⟩ | ⟨k, pre, s, mid, r, hs⟩
  · rw [jumpsBlock_eq_self (callsBlock_hasTag fun i hi => hs.untagged i hi .directJump)]
    refine iff_of_true hcalls ?_
    rintro ⟨e', s, he', hmem, hd, -⟩
    obtain rfl : e = e' := Option.some.inj (he.symm.trans he')
    exact not_untagged (k := .directJump) hd (hs.untagged s hmem)
  · by_cases hk : k = .directJump
    · subst hk
      rw [callsBlock_eq_self (hs.hasTag_eq_false (by simp))]
      -- the jump is replaced, and the next instruction does not show the start
      have hlose : LosesStart bbs h ↔ (∃ bb, jumpTarget m₁ s = some (s, bb)) ∧
          (pre ++ mid).head?.bind getBBStart ≠ some pc := by
        rw [E.jumpTarget_isSome_iff name hm hs.store.hasTag_self]
        constructor
        · rintro ⟨e', s', he', hmem, hd, hg, hne⟩
          obtain rfl : e = e' := Option.some.inj (he.symm.trans he')
          obtain ⟨rfl, -⟩ := hs.eq_store hmem (j := .directJump) hd
          rw [hs.dropFakeReturns_erase, hpc] at hne
          exact ⟨hg, hne⟩
        · rintro ⟨hg, hne⟩
          refine ⟨e, s, he, hs.mem_store, hs.store.hasTag_self, hg, ?_⟩
          rwa [hs.dropFakeReturns_erase, hpc]
      rw [hlose]
      cases hj : jumpTarget m₁ s with
      | none =>
        rw [hs.jumpsBlock_of_none hj, shownStart_eq_getPCStartOfFunc he]
        simp [hpc]
      | some u =>
        obtain ⟨s', bb⟩ := u
        obtain ⟨rfl, -⟩ := jumpTarget_eq_some hj
        rw [hs.jumpsBlock_of_some hj]
        unfold shownStart
        rw [← List.append_assoc, head?_bind_append_fresh]
        simp
    · rw [jumpsBlock_eq_self (callsBlock_hasTag (hs.hasTag_eq_false (Ne.symm hk)))]
      refine iff_of_true hcalls ?_
      rintro ⟨e', s', he', hmem, hd, -⟩
      obtain rfl : e = e' := Option.some.inj (he.symm.trans he')
      exact hk (hs.eq_store hmem (j := .directJump) hd).2.symm

/-- **`fixupIndirectJumps` finds a block-function exactly when it has not lost its start.** -/
theorem lookup_indirect_iff (hm : Maps (inlineBBs name bbs hasIndirectJump).1 m₀ m₁ m₂) {h : Func}
    (hh : h ∈ bbs) {pc : UInt64} (hpc : getPCStartOfFunc h = some pc) {e : BasicBlock}
    (he : h.blocks.head? = some e) : m₂.lookup pc = some e.id ↔ ¬ LosesStart bbs h := by
  rw [← E.shownStart_jumps_iff name hm hh hpc he]
  exact E.lookup_iff name _ (fun b => by simp) (fun b => by simp) (fun _ _ hi _ h =>
    exists_getBBStart_jumps hi h) hm.indirect hh hpc he

/-- It finds no other program counters than their starts. -/
theorem lookup_indirect_eq_none (hm : Maps (inlineBBs name bbs hasIndirectJump).1 m₀ m₁ m₂)
    {pc : UInt64} (hpc : ∀ h ∈ bbs, getPCStartOfFunc h ≠ some pc) : m₂.lookup pc = none := by
  cases hl : m₂.lookup pc with
  | none => rfl
  | some bb =>
    obtain ⟨h, hh, hstart⟩ := E.exists_of_lookup name (fun b => by simp)
      (fun _ _ hi _ h => exists_getBBStart_jumps hi h) hm.indirect hl
    exact absurd hstart (hpc h hh)

end Explored

/-! ## Connected exits -/

theorem endsWith_append {c : BasicBlock} (is : List Instr) {o : Op}
    (heq : c.instrs = is ++ [Instr.fresh o]) (hterm : ∀ i ∈ is, i.isTerminator = false)
    (hfake : ∀ i ∈ is, i.has .INS_fakeReturn = false) : EndsWith c o where
  last := by simp [heq]
  only := by simpa [heq] using hterm
  noFake i hi := by
    rw [heq] at hi
    rcases List.mem_append.mp hi with hi | hi
    · exact hfake i hi
    · rw [List.mem_singleton.mp hi]
      rfl

namespace ExitShape

theorem body_notFake (e : ExitShape k b pre s mid r) :
    ∀ i ∈ pre ++ s :: mid, i.has .INS_fakeReturn = false := by
  intro i hi
  rcases List.mem_append.mp hi with hi | hi
  · exact (e.pre_plain i hi).notFake
  · rcases List.mem_cons.mp hi with rfl | hi
    · exact e.store.notFake
    · exact (e.mid_plain i hi).notFake

theorem endsWith_call (e : ExitShape .call b pre s mid r) {bb : BlockId}
    (h : callTarget m₀ s = some bb) : EndsWith (finalBlock m₀ m₁ m₂ fakeBB b) (.br bb) := by
  refine endsWith_append (pre ++ s :: mid) ?_ e.body_notTerminator e.body_notFake
  simp [e.finalBlock_call, e.callsBlock_of_some h]

theorem endsWith_directJump (e : ExitShape .directJump b pre s mid r) {bb : BlockId}
    (h : jumpTarget m₁ s = some (s, bb)) : EndsWith (finalBlock m₀ m₁ m₂ fakeBB b) (.br bb) := by
  refine endsWith_append (pre ++ mid) ?_ e.rest_notTerminator fun i hi => e.body_notFake i ?_
  · simp [e.finalBlock_directJump, e.jumpsBlock_of_some h]
  · simp only [List.mem_append, List.mem_cons] at hi ⊢
    exact hi.imp_right Or.inr

theorem endsWith_switch (e : ExitShape .indirectJump b pre s mid r) (hc : switchComplete s = true)
    {v : Value} {o : Op} (hv : getValueSwitchedOn b.instrs s = some (some v))
    (ho : switchOp m₂ fakeBB s v = some o) : EndsWith (finalBlock m₀ m₁ m₂ fakeBB b) o := by
  refine endsWith_append (pre ++ s :: mid) ?_ e.body_notTerminator e.body_notFake
  simp [e.finalBlock_indirectJump, indirectTerms, switchTerms, hc, hv, ho]

end ExitShape

/-- The cases are the blocks of the program counters in the tags, in order. -/
theorem casesFrom_getElem? (idx : UInt64) (pcs : List UInt64) (i n : ℕ) :
    ((casesFrom bbMap fakeBB idx i pcs)[n]?).map Prod.snd = (pcs[n]?).map
      (blockOr bbMap fakeBB) := by
  induction pcs generalizing i n with
  | nil => simp [casesFrom]
  | cons pc pcs ih =>
    cases n with
    | zero => simp [casesFrom]
    | succ n => simpa [casesFrom] using ih (i + 1) n

theorem switchCasePCs_getElem? {cnt : UInt64} {pcs : List UInt64}
    (h : switchCasePCs s cnt = some pcs) {n : ℕ} (hn : n < cnt.toNat) :
    pcs[n]? = getHexMetadataFromIns s (.INS_switch_case n) := by
  rw [OptionMapM.mapM_getElem? h n, List.getElem?_range hn]
  rfl

/-- One of the program counters a switch goes to is the start of the block-function. -/
def SwitchesTo (s : Instr) (h : Func) : Prop :=
  getHexMetadataFromIns s .INS_switch_default = getPCStartOfFunc h ∨
    ∃ n, (getHexMetadataFromIns s .INS_switch_cnt).any (n < ·.toNat) = true ∧
      getHexMetadataFromIns s (.INS_switch_case n) = getPCStartOfFunc h

namespace Explored

variable {T : TaggedModule} {bbs : List Func} {hasIndirectJump : Bool}
variable (E : Explored T bbs hasIndirectJump)
  (name : String)

include E

theorem exists_start {h : Func} (hh : h ∈ bbs) : ∃ pc, getPCStartOfFunc h = some pc :=
  (T.tagged h (E.sub h hh)).start

/-- A switch goes to the entry block of an inlined block-function exactly when it has not lost its
start. -/
theorem blockOr_eq_iff (hm : Maps (inlineBBs name bbs hasIndirectJump).1 m₀ m₁ m₂) {h : Func}
    (hh : h ∈ bbs) {pc : UInt64} (hpc : getPCStartOfFunc h = some pc) {e : BasicBlock}
    (he : h.blocks.head? = some e) : blockOr m₂ (fakeId bbs) pc = e.id ↔ ¬ LosesStart bbs h := by
  rw [← E.lookup_indirect_iff name hm hh hpc he]
  unfold blockOr
  cases hl : m₂.lookup pc with
  | some bb => simp
  | none =>
    have hlt : e.id < fakeId bbs := by
      refine Func.lt_freshBlockId (f := ⟨"", bbs.flatMap Func.blocks⟩) (Func.mem_blockIds ?_)
      exact List.mem_flatMap.mpr ⟨h, hh, List.mem_of_head? he⟩
    simpa using (Nat.ne_of_lt hlt).symm

/-- The final block of an exit is its clone. -/
theorem clone {g : Func} (hg : g ∈ bbs) (hb : b ∈ g.blocks) {o : Op} {f : Func}
    (hf : f = (inlineBBs name bbs hasIndirectJump).1.mapBlocks (finalBlock m₀ m₁ m₂ (fakeId bbs))) :
    CloneEndsWith f b o ↔ EndsWith (finalBlock m₀ m₁ m₂ (fakeId bbs) b) o := by
  have hin : b ∈ (inlineBBs name bbs hasIndirectJump).1.blocks :=
    (E.mem_blocks name).mpr (Or.inl ⟨g, hg, hb⟩)
  subst hf
  constructor
  · rintro ⟨c, hc, hid, hend⟩
    obtain ⟨d, hd, rfl⟩ := List.mem_map.mp hc
    have : d.id = b.id := by simpa [finalBlock] using hid
    rwa [Func.eq_of_id_eq (E.ids_nodup name) hd hin this] at hend
  · intro hend
    exact ⟨_, List.mem_map_of_mem hin, by simp [finalBlock], hend⟩

omit name in
/-- An instruction with a tag is the store of an exit. -/
theorem exists_exitShape {g : Func} (hg : g ∈ bbs) (hb : b ∈ g.blocks) (hs : s ∈ b.instrs)
    (hk : hasTag s k = true) : ∃ pre mid r, ExitShape k b pre s mid r := by
  rcases (T.tagged g (E.sub g hg)).shape b hb with ⟨pre, t, h⟩ | ⟨k', pre, s', mid, r, e⟩
  · exact absurd (h.untagged s hs) (not_untagged hk)
  · obtain ⟨rfl, rfl⟩ := e.eq_store hs hk
    exact ⟨pre, mid, r, e⟩

/-- A call goes on at the block-function it returns to. -/
theorem clone_call (hm : Maps (inlineBBs name bbs hasIndirectJump).1 m₀ m₁ m₂) {g : Func}
    (hg : g ∈ bbs) (hb : b ∈ g.blocks) {f : Func}
    (hf : f = (inlineBBs name bbs hasIndirectJump).1.mapBlocks (finalBlock m₀ m₁ m₂ (fakeId bbs)))
    (hs : s ∈ b.instrs) (hcall : isCall s = true) {h : Func} (hh : h ∈ bbs)
    (hto : getHexMetadataFromIns s .INS_callReturn = getPCStartOfFunc h) {e : BasicBlock}
    (he : h.blocks.head? = some e) :
    CloneEndsWith f b (.br e.id) := by
  obtain ⟨pre, mid, r, hshape⟩ := E.exists_exitShape (k := .call) hg hb hs hcall
  obtain ⟨pc, hpc⟩ := E.exists_start hh
  refine (E.clone name hg hb hf).mpr (hshape.endsWith_call ?_)
  unfold callTarget
  rw [if_pos hcall, hto, hpc, Option.bind_some]
  exact E.lookup_calls name hm hh hpc he

/-- A direct jump goes on at its target. -/
theorem clone_directJump (hm : Maps (inlineBBs name bbs hasIndirectJump).1 m₀ m₁ m₂) {g : Func}
    (hg : g ∈ bbs) (hb : b ∈ g.blocks) {f : Func}
    (hf : f = (inlineBBs name bbs hasIndirectJump).1.mapBlocks (finalBlock m₀ m₁ m₂ (fakeId bbs)))
    (hs : s ∈ b.instrs) (hjump : s.has .INS_directJump = true) {h : Func} (hh : h ∈ bbs)
    (hto : getHexMetadataFromIns s .INS_directJump = getPCStartOfFunc h) {e : BasicBlock}
    (he : h.blocks.head? = some e) :
    CloneEndsWith f b (.br e.id) := by
  obtain ⟨pre, mid, r, hshape⟩ := E.exists_exitShape (k := .directJump) hg hb hs hjump
  obtain ⟨pc, hpc⟩ := E.exists_start hh
  refine (E.clone name hg hb hf).mpr (hshape.endsWith_directJump ?_)
  unfold jumpTarget
  rw [if_pos hjump, hto, hpc, Option.bind_some, E.lookup_jumps name hm hh hpc he]
  rfl

/-- The switch an exit becomes. -/
theorem clone_switch {g : Func} (hg : g ∈ bbs) (hb : b ∈ g.blocks) {f : Func}
    (hf : f = (inlineBBs name bbs hasIndirectJump).1.mapBlocks (finalBlock m₀ m₁ m₂ (fakeId bbs)))
    (hs : s ∈ b.instrs) (hind : s.has .INS_indirectJump = true)
    (hc : switchComplete s = true) {v : Value}
    (hv : getValueSwitchedOn b.instrs s = some (some v)) : ∃ default_pc cnt idx pcs,
      getHexMetadataFromIns s .INS_switch_default = some default_pc ∧
      getHexMetadataFromIns s .INS_switch_cnt = some cnt ∧
      getHexMetadataFromIns s .INS_switch_idx_start = some idx ∧ switchCasePCs s cnt = some pcs ∧
      CloneEndsWith f b (.switch v (blockOr m₂ (fakeId bbs) default_pc) (casesFrom m₂ (fakeId bbs)
        idx 0 pcs)) := by
  obtain ⟨pre, mid, r, e⟩ := E.exists_exitShape (k := .indirectJump) hg hb hs hind
  have hin : b ∈ (inlineBBs name bbs hasIndirectJump).1.blocks :=
    (E.mem_blocks name).mpr (Or.inl ⟨g, hg, hb⟩)
  obtain ⟨d, cnt, idx, pcs, hd, hn, hi, hp⟩ := ((E.ready name hin).ok s hs).switch hind hc
  refine ⟨d, cnt, idx, pcs, hd, hn, hi, hp,
    (E.clone name hg hb hf).mpr (e.endsWith_switch hc hv ?_)⟩
  simp only [switchOp, hd, hn, hi, hp, Option.bind_eq_bind, Option.bind_some, Option.pure_def]

end Explored

/-- **All exits are connected to the block-functions they go to exactly when no switch goes to one
that has lost its start.** -/
theorem makeFunctionForward_linked_iff (T : TaggedModule) {all : List (UInt64 × Func)}
    (hall : allBBs T.module = some all) {startBB : Func}
    (hstart : startBB ∈ T.module.blockFunctions) {bbs : List Func}
    {hasIndirectJump : Bool} (hexplore : exploreBB all startBB = some (bbs, hasIndirectJump))
    {name : String} {f : Func} (hf : makeFunctionForward all name startBB = some f) :
    (∀ g ∈ bbs, ∀ b ∈ g.blocks, ∀ s ∈ b.instrs, ExitLinked bbs f b s) ↔
      ∀ g ∈ bbs, ∀ b ∈ g.blocks, ∀ s ∈ b.instrs, s.has .INS_indirectJump = true →
        switchComplete s = true →
        (∃ v, getValueSwitchedOn b.instrs s = some (some v)) → ∀ h ∈ bbs, SwitchesTo s h →
        ¬ LosesStart bbs h := by
  have E := explored T hall hstart hexplore
  obtain ⟨m₀, m₁, m₂, hm, hmake⟩ := E.makeFunctionForward_eq name hexplore
  obtain ⟨-, hfeq⟩ := (hmake f).mp hf
  constructor
  · rintro hlinked g hg b hb s hs hind hc ⟨v, hv⟩ h hh hto
    obtain ⟨d, cs, hend, hblocks⟩ := (hlinked g hg b hb s hs).switch hind hc v hv
    obtain ⟨default_pc, cnt, idx, pcs, hd, hn, -, hp, hend'⟩ :=
      E.clone_switch name hg hb hfeq hs hind hc hv
    -- both describe the last instruction of the clone
    have hop : Op.switch v d cs =
        .switch v (blockOr m₂ (fakeId bbs) default_pc) (casesFrom m₂ (fakeId bbs) idx 0 pcs) := by
      have h1 := ((E.clone name hg hb hfeq).mp hend).last
      rw [((E.clone name hg hb hfeq).mp hend').last] at h1
      simpa [Instr.fresh, eq_comm] using h1
    obtain ⟨-, rfl, rfl⟩ := Op.switch.inj hop
    obtain ⟨pc, hpc⟩ := E.exists_start hh
    obtain ⟨e, he⟩ := exists_entry hpc
    rw [← E.blockOr_eq_iff name hm hh hpc he]
    rcases hto with hto | ⟨n, hlt, hto⟩
    -- the default and the cases of the switch
    · have := (hblocks h hh e he).1 hto
      rw [hd, hpc] at hto
      rwa [Option.some.inj hto] at this
    · have := (hblocks h hh e he).2 n hlt hto
      rw [hn] at hlt
      rw [casesFrom_getElem?, switchCasePCs_getElem? hp (by simpa using hlt), hto, hpc] at this
      simpa using this
  · intro hok g hg b hb s hs
    refine ⟨fun hcall h hh hpcs e he => ?_, fun hjump h hh hpcs e he => ?_, fun hind hc v hv => ?_⟩
    · exact E.clone_call name hm hg hb hfeq hs hcall hh hpcs he
    · exact E.clone_directJump name hm hg hb hfeq hs hjump hh hpcs he
    · obtain ⟨default_pc, cnt, idx, pcs, hd, hn, -, hp, hend⟩ :=
        E.clone_switch name hg hb hfeq hs hind hc hv
      refine ⟨_, _, hend, fun h hh e he => ⟨fun hto => ?_, fun n hlt hto => ?_⟩⟩
      · obtain ⟨pc, hpc⟩ := E.exists_start hh
        have hlose := hok g hg b hb s hs hind hc ⟨v, hv⟩ h hh (Or.inl hto)
        rw [hd, hpc] at hto
        rw [Option.some.inj hto]
        exact (E.blockOr_eq_iff name hm hh hpc he).mpr hlose
      · obtain ⟨pc, hpc⟩ := E.exists_start hh
        have hlose := hok g hg b hb s hs hind hc ⟨v, hv⟩ h hh (Or.inr ⟨n, hlt, hto⟩)
        rw [hn] at hlt
        rw [casesFrom_getElem?, switchCasePCs_getElem? hp (by simpa using hlt), hto, hpc]
        exact congrArg some ((E.blockOr_eq_iff name hm hh hpc he).mpr hlose)

/-- The block at `0x9000` is only a direct jump: when the switch of `0x8000` is created, it is not
found any more. -/
theorem tableJump_not_linked :
    allBBs (tableModule 2).module = some [(0xa000, onlyReturn), (0x9000, onlyJump),
      (0x8000, tableJump 2)] ∧
      exploreBB [(0xa000, onlyReturn), (0x9000, onlyJump), (0x8000, tableJump 2)] (tableJump 2) =
        some ([tableJump 2, onlyJump, onlyReturn], true) ∧
      ∃ f, makeFunctionForward [(0xa000, onlyReturn), (0x9000, onlyJump),
        (0x8000, tableJump 2)] "final-func" (tableJump 2) = some f ∧
        ∃ b ∈ (tableJump 2).blocks, ∃ s ∈ b.instrs, ¬ ExitLinked [tableJump 2, onlyJump,
          onlyReturn] f b s := by
  let entry : BasicBlock := ⟨1, "func_entry_point", (tableJump 2).instrs.take 4 ++
    [Instr.fresh (.switch (.inst 10) 4 [(0, 4)])]⟩
  let f : Func := ⟨"final-func", [entry, ⟨2, "entry", [Instr.fresh (.br 3)]⟩,
    ⟨3, "entry", onlyReturn.instrs.take 1 ++ [Instr.fresh (.ret none)]⟩,
    ⟨4, "fake_indirect_bb", [Instr.fresh (.ret none)]⟩]⟩
  let b : BasicBlock := ⟨1, "func_entry_point", (tableJump 2).instrs⟩
  let s : Instr := ⟨some 13, .store (.inst 12) (.global "PC"),
    [tagPC .BB_pcStart 0x8000, (.INS_indirectJump, .str "true"),
    tagPC .INS_switch_cnt 1, tagPC (.INS_switch_case 0) 0x9000, tagPC .INS_switch_default 0x9000,
    tagPC .INS_switch_idx_start 0]⟩
  refine ⟨by decide, by decide, f, by decide, b, by decide, s, by decide, fun h => ?_⟩
  obtain ⟨d, cs, ⟨c, hc, hid, hend⟩, hblocks⟩ :=
    h.switch (by decide) (by decide) (.inst 10) (by decide)
  have hd : d = 2 :=
    (hblocks onlyJump (by decide) ⟨2, "entry", onlyJump.instrs⟩ (by decide)).1 (by decide)
  have hce : c = entry := by
    have hall : ∀ c ∈ f.blocks, c.id = b.id → c = entry := by decide
    exact hall c hc hid
  have hlast := hend.last
  rw [hce, hd] at hlast
  simp [entry, Instr.fresh] at hlast

/-- The function of `0x9000`: the jump is connected to the entry block of `0xa000`. -/
theorem onlyJump_linked :
    ∃ f, makeFunctionForward [(0xa000, onlyReturn), (0x9000, onlyJump),
        (0x8000, tableJump 2)] "final-func" onlyJump = some f ∧
      ∀ g ∈ [onlyJump, onlyReturn], ∀ b ∈ g.blocks, ∀ s ∈ b.instrs, ExitLinked [onlyJump,
        onlyReturn] f b s := by
  have hexplore : exploreBB [(0xa000, onlyReturn), (0x9000, onlyJump),
      (0x8000, tableJump 2)] onlyJump = some ([onlyJump, onlyReturn], false) := by decide
  let f : Func := ⟨"final-func", [⟨2, "entry", [Instr.fresh (.br 3)]⟩,
    ⟨3, "entry", onlyReturn.instrs.take 1 ++ [Instr.fresh (.ret none)]⟩]⟩
  have hf : makeFunctionForward [(0xa000, onlyReturn), (0x9000, onlyJump),
      (0x8000, tableJump 2)] "final-func" onlyJump = some f := by decide
  refine ⟨f, hf, (makeFunctionForward_linked_iff (tableModule 2) (by decide) (by decide)
    hexplore hf).mpr ?_⟩
  have hno : ∀ g ∈ [onlyJump, onlyReturn], ∀ b ∈ g.blocks, ∀ s ∈ b.instrs,
    s.has .INS_indirectJump = false := by decide
  intro g hg b hb s hs hind
  rw [hno g hg b hb s hs] at hind
  simp at hind

end Bin2llvm.BuildFunctions
