import Bin2llvm.BuildFunctions.Linking

/-!
# Bin2llvm.BuildFunctions.EntryStart — where built functions start

A built function starts with the entry block of the block-function it was built from.  The fixups
erase the stores of direct jumps and of returns, and with them the start if the entry block consists
of nothing else.

* `getPCStartOfFunc_makeFunctionForward`: the built function shows the start exactly when the fixups
  do not erase it.
-/

namespace Bin2llvm.BuildFunctions

open FixOverlappedBBs

/-- The entry block is a jump to a block-function of `fs` or a return, and without the store and the
fake return its first instruction does not carry the start. -/
def EntryLost (fs : List Func) (h : Func) : Prop :=
  LosesStart fs h ∨ ∃ e s, h.blocks.head? = some e ∧ s ∈ e.instrs ∧ s.has .INS_return = true ∧
    (dropFakeReturns (e.instrs.erase s)).head?.bind getBBStart ≠ getPCStartOfFunc h

/-- A start on an instruction no fixup looks at is not erased. -/
theorem not_entryLost_of_plain {fs : List Func} {h : Func} {e : BasicBlock} {i : Instr}
    (he : h.blocks.head? = some e) (hi : e.instrs.head? = some i)
    (hp : Plain i) : ¬ EntryLost fs h := by
  have hkeep : ∀ s, ¬ Untagged s → (dropFakeReturns (e.instrs.erase s)).head?.bind getBBStart =
      getPCStartOfFunc h := by
    intro s hs
    have hne : i ≠ s := by
      rintro rfl
      exact hs hp.untagged
    rw [← shownStart_eq_getPCStartOfFunc he]
    unfold shownStart
    cases hb : e.instrs with
    | nil => rw [hb] at hi; simp at hi
    | cons j is =>
      obtain rfl : j = i := by rw [hb] at hi; simpa using hi
      rw [List.erase_cons_tail (by simpa using hne), dropFakeReturns, List.filter_cons, hp.notFake]
      rfl
  rintro (⟨e', s, he', -, hd, -, hne⟩ | ⟨e', s, he', -, hd, hne⟩)
  · obtain rfl : e = e' := Option.some.inj (he.symm.trans he')
    exact hne (hkeep s (not_untagged (k := .directJump) hd))
  · obtain rfl : e = e' := Option.some.inj (he.symm.trans he')
    exact hne (hkeep s (not_untagged (k := .ret) hd))

variable {m₀ m₁ m₂ : BBMap}

variable {fakeBB : BlockId} {b : BasicBlock}

/-- A start that is read after the fixups was there before. -/
theorem exists_getBBStart_finalBlock {i : Instr} {pc : UInt64}
    (hi : i ∈ (finalBlock m₀ m₁ m₂ fakeBB b).instrs) (h : getBBStart i = some pc) :
    ∃ j ∈ b.instrs, getBBStart j = some pc := by
  have hfresh : ∀ o, i ≠ Instr.fresh o := by
    rintro o rfl
    rw [getBBStart_fresh] at h
    simp at h
  have hind : i ∈ (indirectBlock m₂ fakeBB (jumpsBlock m₁ (callsBlock m₀ b))).instrs := by
    unfold finalBlock returnsBlock updateBlock at hi
    split at hi
    · exact hi
    · refine (List.mem_append.mp (List.mem_of_mem_erase
        (mem_dropFakeReturns.mp hi).1)).resolve_right fun hi => ?_
      exact hfresh _ (List.mem_singleton.mp hi)
  have hjump : i ∈ (jumpsBlock m₁ (callsBlock m₀ b)).instrs := by
    unfold indirectBlock updateBlock at hind
    split at hind
    · exact hind
    · refine (List.mem_append.mp (mem_dropFakeReturns.mp hind).1).resolve_right fun hi => ?_
      obtain ⟨o, -, rfl⟩ := List.mem_map.mp hi
      exact hfresh o rfl
  obtain ⟨j, hj, hjpc⟩ := exists_getBBStart_jumpsBlock hjump h
  exact exists_getBBStart_callsBlock hj hjpc

namespace Explored

variable {T : TaggedModule} {bbs : List Func} {hasIndirectJump : Bool}
variable (E : Explored T bbs hasIndirectJump)
  (name : String)

include E

theorem shownStart_finalBlock_iff (hm : Maps (inlineBBs name bbs hasIndirectJump).1 m₀ m₁ m₂)
    {h : Func} (hh : h ∈ bbs) {pc : UInt64} (hpc : getPCStartOfFunc h = some pc) {e : BasicBlock}
    (he : h.blocks.head? = some e) :
    shownStart (finalBlock m₀ m₁ m₂ (fakeId bbs) e) = some pc ↔ ¬ EntryLost bbs h := by
  have hself : shownStart e = some pc := (shownStart_eq_getPCStartOfFunc he).trans hpc
  have hjumps := E.shownStart_jumps_iff name hm hh hpc he
  rcases E.inner_or_exit hh he with ⟨pre, t, hs⟩ | ⟨k, pre, s, mid, r, hs⟩
  · rw [hs.finalBlock_eq]
    refine iff_of_true hself ?_
    rintro (⟨e', s, he', hmem, hd, -⟩ | ⟨e', s, he', hmem, hd, -⟩)
    · obtain rfl : e = e' := Option.some.inj (he.symm.trans he')
      exact not_untagged (k := .directJump) hd (hs.untagged s hmem)
    · obtain rfl : e = e' := Option.some.inj (he.symm.trans he')
      exact not_untagged (k := .ret) hd (hs.untagged s hmem)
  -- the store of the entry block is the only tagged instruction
  have hjump : k ≠ .directJump → ¬ LosesStart bbs h := by
    rintro hk ⟨e', s', he', hmem, hd, -⟩
    obtain rfl : e = e' := Option.some.inj (he.symm.trans he')
    exact hk (hs.eq_store hmem (j := .directJump) hd).2.symm
  have hret : k ≠ .ret → (EntryLost bbs h ↔ LosesStart bbs h) := by
    intro hk
    refine ⟨fun hl => hl.resolve_right ?_, Or.inl⟩
    rintro ⟨e', s', he', hmem, hd, -⟩
    obtain rfl : e = e' := Option.some.inj (he.symm.trans he')
    exact hk (hs.eq_store hmem (j := .ret) hd).2.symm
  cases k with
  | call =>
    rw [hret (by simp), hs.finalBlock_call, hs.shownStart_callsBlock]
    exact iff_of_true hself (hjump (by simp))
  | directJump =>
    rw [hret (by simp), hs.finalBlock_directJump, ← hjumps,
      callsBlock_eq_self (hs.hasTag_eq_false (by simp))]
  | indirectJump =>
    rw [hret (by simp), hs.finalBlock_indirectJump]
    refine iff_of_true ?_ (hjump (by simp))
    rw [← hself]
    unfold shownStart
    rw [hs.instrs]
    cases pre <;> rfl
  | ret =>
    -- a return takes its store away, and what is then first may show no start
    have hlost : EntryLost bbs h ↔ (pre ++ mid).head?.bind getBBStart ≠ some pc := by
      rw [← hpc, ← hs.dropFakeReturns_erase]
      constructor
      · rintro (hl | ⟨e', s', he', hmem, hd, hne⟩)
        · exact absurd hl (hjump (by simp))
        · obtain rfl : e = e' := Option.some.inj (he.symm.trans he')
          obtain ⟨rfl, -⟩ := hs.eq_store hmem (j := .ret) hd
          exact hne
      · intro hne
        exact Or.inr ⟨e, s, he, hs.mem_store, hs.store.hasTag_self, hne⟩
    rw [hlost, hs.finalBlock_ret, not_not]
    unfold shownStart
    rw [← List.append_assoc, head?_bind_append_fresh]

/-- Which start is lost depends on the module only: the known targets of an explored block-function
are explored. -/
theorem entryLost_iff {h : Func} (hh : h ∈ bbs) : EntryLost bbs h ↔
    EntryLost T.module.blockFunctions h := by
  have hjump : LosesStart bbs h ↔ LosesStart T.module.blockFunctions h := by
    constructor
    · rintro ⟨e, s, he, hmem, hd, ⟨g, hg, hto⟩, hne⟩
      exact ⟨e, s, he, hmem, hd, ⟨g, E.sub g hg, hto⟩, hne⟩
    · rintro ⟨e, s, he, hmem, hd, ⟨g, hg, hto⟩, hne⟩
      refine ⟨e, s, he, hmem, hd, ⟨g, ?_, hto⟩, hne⟩
      obtain ⟨pc, hpc⟩ := (T.tagged g hg).start
      have hs : s ∈ h.instrs := mem_instrs.mpr ⟨e, List.mem_of_head? he, hmem⟩
      obtain ⟨b, -, pre, mid, r, x⟩ :=
        (T.tagged h (E.sub h hh)).shape_of_tag hs (k := .directJump) hd
      have hcall : isCall s = false := x.store.hasTag_ne (j := .call) (by simp)
      have hnext : nextPCList s = some [pc] := by simp [nextPCList, hcall, hd, hto, hpc]
      exact E.closed h hh s hs x.store.toPC [pc] hnext pc List.mem_cons_self g hg hpc
  exact or_congr_left hjump

end Explored

/-- A built function starts where its block-function does, unless the fixups erase the start; and it
is never empty. -/
theorem getPCStartOfFunc_makeFunctionForward (T : TaggedModule) {all : List (UInt64 × Func)}
    (hall : allBBs T.module = some all) {startBB : Func}
    (hstart : startBB ∈ T.module.blockFunctions) {pc : UInt64}
    (hpc : getPCStartOfFunc startBB = some pc) {name : String} {f : Func}
    (hf : makeFunctionForward all name startBB = some f) :
    f.name = name ∧ (getPCStartOfFunc f = some pc ↔ ¬ EntryLost T.module.blockFunctions startBB) ∧
      ∃ b i, f.blocks.head? = some b ∧ b.instrs.head? = some i ∧
        (i.has .BB_pcStart = true → getBBStart i = some pc) := by
  obtain ⟨⟨bbs, hasIndirectJump⟩, hexplore, -⟩ :=
    Option.bind_eq_some_iff.mp (show _ = some f from hf)
  have E := explored T hall hstart hexplore
  obtain ⟨m₀, m₁, m₂, hm, hmake⟩ := E.makeFunctionForward_eq name hexplore
  obtain ⟨-, rfl⟩ := (hmake f).mp hf
  obtain ⟨e, he⟩ := exists_entry hpc
  have hmem : startBB ∈ bbs := List.mem_of_head? (exploreBB_head? hexplore)
  have hhead := head?_inlineBBs hexplore name he
  have hfinal : ((inlineBBs name bbs hasIndirectJump).1.mapBlocks
      (finalBlock m₀ m₁ m₂ (fakeId bbs))).blocks.head? =
      some (finalBlock m₀ m₁ m₂ (fakeId bbs) e) := by
    rw [Func.blocks_mapBlocks, List.head?_map, hhead]
    rfl
  refine ⟨?_, ?_, ?_⟩
  · unfold inlineBBs
    cases hasIndirectJump <;> rfl
  · rw [← shownStart_eq_getPCStartOfFunc hfinal, E.shownStart_finalBlock_iff name hm hmem hpc he,
      E.entryLost_iff hmem]
  · have hready : Ready (finalBlock m₀ m₁ m₂ (fakeId bbs) e).instrs :=
      (E.ready name (List.mem_of_head? hhead)).callsBlock.jumpsBlock.indirectBlock.returnsBlock
    obtain ⟨i, is, hi⟩ := List.exists_cons_of_ne_nil hready.ne_nil
    have hmemi : i ∈ (finalBlock m₀ m₁ m₂ (fakeId bbs) e).instrs := hi ▸ List.mem_cons_self
    refine ⟨_, i, hfinal, by rw [hi]; rfl, fun hhas => ?_⟩
    obtain ⟨pc', hpc'⟩ := Option.isSome_iff_exists.mp ((hready.ok i hmemi).start hhas)
    obtain ⟨j, hj, hjpc⟩ := exists_getBBStart_finalBlock hmemi hpc'
    have hstartj :=
      (T.tagged startBB hstart).pcStart j (mem_instrs.mpr ⟨e, List.mem_of_head? he, hj⟩)
      (has_of_getHexMetadata hjpc)
    rw [hpc', ← hjpc, hstartj, hpc]

end Bin2llvm.BuildFunctions
