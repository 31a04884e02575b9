import Bin2llvm.CallReturns
import Bin2llvm.FixOverlappedBBs
import Bin2llvm.MarkFuncEntry

/-!
# Bin2llvm.SplitLinks — the link of a truncated block in the marking passes

A block that `FixOverlappedBBs` truncates ends in a store of the next block's start to `PC`.  The
metadata of the block still tell where it ended before; `ARMMarkCall` compares `LR` with that.

* `EndsInLink`, `endsInLink_truncateAt`: the link is at the end of the cut block.
* `exists_marked_link`: what the marking passes make of a link, in any function.
* `linkIsJump_iff`: when the halves of a truncated block are joined.
-/

namespace Bin2llvm

open FixOverlappedBBs BuildFunctions ARMMarkCall

namespace FixOverlappedBBs

/-- The block `bb` ends in the link to `pcB`. -/
def EndsInLink (bb : BlockId) (pcB : UInt64) (f : Func) : Prop :=
  ∃ b ∈ f.blocks, b.id = bb ∧ link pcB <:+ b.instrs

variable {f f' : Func} {bb : BlockId} {pcB : UInt64}

/-! ## The link stays -/

theorem EndsInLink.mapBlocks (h : EndsInLink bb pcB f) {g : BasicBlock → BasicBlock}
    (hid : ∀ b, (g b).id = b.id) (hg : ∀ b, link pcB <:+ b.instrs → link pcB <:+ (g b).instrs) :
    EndsInLink bb pcB (f.mapBlocks g) := by
  obtain ⟨b, hb, hbb, hlink⟩ := h
  exact ⟨g b, List.mem_map_of_mem hb, (hid b).trans hbb, hg b hlink⟩

theorem EndsInLink.mapInstrs (h : EndsInLink bb pcB f) {g : Instr → Instr}
    (hg : ∀ i ∈ link pcB, g i = i) : EndsInLink bb pcB (f.mapInstrs g) := by
  have hmap : (link pcB).map g = link pcB := (List.map_congr_left hg).trans (List.map_id _)
  exact h.mapBlocks (g := BasicBlock.mapInstrs g) (fun _ => rfl) fun b hb => hmap ▸ hb.map g

theorem EndsInLink.replaceAllUsesWith (h : EndsInLink bb pcB f) (p : InstId) (v : Value) :
    EndsInLink bb pcB (f.replaceAllUsesWith (.inst p) v) := by
  refine h.mapInstrs fun i hi => ?_
  simp only [link, List.mem_cons, List.not_mem_nil, or_false] at hi
  rcases hi with rfl | rfl <;> rfl

theorem isPhi_of_mem_link {i : Instr} (hi : i ∈ link pcB) : i.isPhi = false := by
  simp only [link, List.mem_cons, List.not_mem_nil, or_false] at hi
  rcases hi with rfl | rfl <;> rfl

theorem EndsInLink.setIncoming (h : EndsInLink bb pcB f) (p : InstId)
    (inc : List (BlockId × Value)) : EndsInLink bb pcB (f.setIncoming p inc) :=
  h.mapInstrs fun i hi => if_neg fun hphi => by simp [isPhi_of_mem_link hi] at hphi

theorem EndsInLink.erasePhi (h : EndsInLink bb pcB f) (p : InstId) :
    EndsInLink bb pcB (f.erasePhi p) := by
  refine h.mapBlocks (fun _ => rfl) fun b hb => ?_
  have hkeep : (link pcB).filter (fun i => !(i.isPhi && i.id == some p)) = link pcB :=
    List.filter_eq_self.mpr fun i hi => by rw [isPhi_of_mem_link hi]; rfl
  exact hkeep ▸ hb.filter _

theorem EndsInLink.removeIncomingValue (h : EndsInLink bb pcB f) (pred : BlockId) (nuke : Bool)
    (p : InstId) : EndsInLink bb pcB (Func.removeIncomingValue pred nuke f p) := by
  unfold Func.removeIncomingValue
  cases f.phi? p with
  | none => exact h
  | some i =>
    dsimp only
    cases Func.phiValue nuke p (i.incoming.eraseP fun e => e.1 = pred) with
    | none => exact h.setIncoming p _
    | some v => exact ((h.setIncoming p _).replaceAllUsesWith p v).erasePhi p

theorem EndsInLink.foldl {α : Type} {g : Func → α → Func} (h : EndsInLink bb pcB f)
    (hg : ∀ f a, EndsInLink bb pcB f → EndsInLink bb pcB (g f a)) (as : List α) :
    EndsInLink bb pcB (as.foldl g f) := by
  induction as generalizing f with
  | nil => exact h
  | cons a as ih => exact ih (hg f a h)

theorem EndsInLink.removePredecessor (h : EndsInLink bb pcB f) (pred b : BlockId) :
    EndsInLink bb pcB (Func.removePredecessor pred f b) := by
  unfold Func.removePredecessor
  split
  · exact h
  · exact h.foldl (fun f p hf => hf.removeIncomingValue pred _ p) _

theorem EndsInLink.deleteDeadBlock (h : EndsInLink bb pcB f) {dead : BasicBlock}
    (hne : bb ≠ dead.id) : EndsInLink bb pcB (f.deleteDeadBlock dead) := by
  have hpred := h.foldl (fun f b hf => hf.removePredecessor dead.id b)
    (((dead.instrs.getLast?).map fun i => i.op.successors).getD [])
  obtain ⟨b, hb, rfl, hlink⟩ := hpred.foldl (fun f p hf => hf.replaceAllUsesWith p .undef)
    (dead.instrs.filterMap Instr.id)
  exact ⟨b, List.mem_filter.mpr ⟨hb, decide_eq_true hne⟩, rfl, hlink⟩

/-- The block that is cut ends in the link. -/
theorem endsInLink_truncateAt (h : truncateAt f pcB = some f') : ∃ bb, EndsInLink bb pcB f' := by
  obtain ⟨A, hA, h⟩ := Option.bind_eq_some_iff.mp h
  split_ifs at h with hafter
  obtain rfl := Option.some.inj h
  have hmem : A.overlapBB.id ∈ f.blockIds := by
    refine List.mem_map_of_mem ?_
    rw [(align_eq_some hA).1]
    simp
  refine ⟨A.overlapBB.id, EndsInLink.deleteDeadBlock ?_ (Func.lt_freshBlockId hmem).ne⟩
  let deadTail : BasicBlock := ⟨f.freshBlockId, "", A.after⟩
  let cut : Func := ⟨f.name ++ "-split-to-" ++ hex pcB,
    A.pre ++ linkWith { A.overlapBB with instrs := A.before ++ [A.ins] } pcB :: deadTail :: A.post⟩
  have hcut : EndsInLink A.overlapBB.id pcB cut :=
    ⟨linkWith { A.overlapBB with instrs := A.before ++ [A.ins] } pcB,
    List.mem_append_right _ List.mem_cons_self, rfl, List.suffix_append _ _⟩
  refine hcut.mapBlocks (fun b => ?_) fun b hb => ?_
  · split_ifs <;> rfl
  · split_ifs
    · have hfix : (link pcB).map (Instr.setIncomingBlock A.overlapBB.id deadTail.id) = link pcB :=
        rfl
      exact hfix ▸ hb.map _
    · exact hb

/-! ## The link in the marking passes -/

/-- The store in front of the return. -/
def linkStore (target : UInt64) : Instr :=
  ⟨none, .store (.constInt 32 (target % 0x100000000)) (.global "PC"),
    [(.INS_splitCall, .str "true")]⟩

/-- A direct jump to `pc` and nothing else: `exploreBB` goes on at `pc`, `fixupDirectJumps` puts a
branch there if it is known, and `MarkFuncEntry` does not take it for a call. -/
structure JumpsTo (pc : UInt64) (s : Instr) : Prop where
  tags : ∀ k ∈ ARMMark.controlTags, s.has k = decide (k = .INS_directJump)
  jump : s.getMetadata .INS_directJump = some (.str (hex pc))
  next : nextPCList s = some [pc]
  branch : ∀ bbMap, jumpTarget bbMap s = (bbMap.lookup pc).map (s, ·)
  noCall : ∀ bbMap, callTarget bbMap s = none ∧ getHexMetadataFromIns s .INS_directCall = none

/-- The `k`-th instruction of the `n`-th block is a jump to `pc`. -/
def JumpAt (pc : UInt64) (F : Func) (n k : ℕ) : Prop :=
  ∃ b s, F.blocks[n]? = some b ∧ b.instrs[k]? = some s ∧ JumpsTo pc s

/-- `pc` is a program counter of the guest, and what is kept of the block does not leave its old end
in `LR`. -/
structure KeepsLink (pc : UInt64) (f : Func) (kept : List Instr) : Prop where
  guest : pc.toNat < 2 ^ 32
  lr : ∀ pcEnd v, getPCEndOfFunc f = some pcEnd → lastConstLR kept = some v →
    ¬ IsReturnAddress pcEnd v

variable {F : Func} {pc pcEnd : UInt64} {before rest : List Instr} {b : BasicBlock}
variable {lr : Option UInt64}

theorem unmarked_linkStore (pc : UInt64) : ARMMark.Unmarked (linkStore pc) := by
  have hmd : ∀ k ∈ ARMMark.controlTags,
      (([(.INS_splitCall, .str "true")] : Metadata).lookup k).isSome = false := by decide
  exact hmd

/-- What `ARMMarkJumps` makes of the link. -/
theorem jumpsTo_tagJump_iff :
    JumpsTo pc (ARMMarkJumps.tagJump (.constInt 32 (pc % 0x100000000)) (linkStore pc)) ↔
      pc.toNat < 2 ^ 32 := by
  have hmod : (pc % 0x100000000).toNat = pc.toNat % 2 ^ 32 := UInt64.toNat_mod ..
  constructor
  · intro h
    have hjump := h.jump
    simp only [ARMMarkJumps.tagJump, Value.constInt?, Instr.getMetadata_setMetadata_self,
      Option.some.injEq, MDNode.str.injEq] at hjump
    have heq := hex_injective hjump
    rw [← heq, hmod]
    omega
  · intro hlt
    have heq : pc % 0x100000000 = pc := UInt64.toNat_inj.mp (by omega)
    -- below 2^32 the stored constant is the program counter
    have htag : ARMMarkJumps.tagJump (.constInt 32 (pc % 0x100000000)) (linkStore pc) =
        (linkStore pc).setMetadata .INS_directJump (.str (hex pc)) := by
      rw [heq]
      rfl
    have hhex : getHexMetadataFromIns ((linkStore pc).setMetadata .INS_directJump (.str (hex pc)))
        .INS_directJump = some pc := by
      rw [getHexMetadata_setMetadata, strtoll_hex_of_lt (by omega)]
    have htags := fun k (hk : k ∈ ARMMark.controlTags) =>
      (unmarked_linkStore pc).has_setMetadata .INS_directJump (.str (hex pc)) hk
    have hcall : isCall ((linkStore pc).setMetadata .INS_directJump (.str (hex pc))) = false := rfl
    have hjump : ((linkStore pc).setMetadata .INS_directJump (.str (hex pc))).has .INS_directJump =
        true :=
      Instr.has_setMetadata_self _ _ _
    rw [htag]
    refine ⟨htags, Instr.getMetadata_setMetadata_self _ _ _, ?_, fun bbMap => ?_,
      fun bbMap => ⟨?_, rfl⟩⟩
    · unfold nextPCList
      rw [hcall, hjump, hhex]
      rfl
    · unfold jumpTarget
      rw [if_pos hjump, hhex]
      rfl
    · unfold callTarget
      rw [hcall]
      rfl

/-- What `ARMMarkCall` makes of it when it takes it for a call. -/
theorem not_jumpsTo_tagCall (v : UInt64) (val : Value) (i : Instr) :
    ¬ JumpsTo pc (tagCall v val i) := by
  intro h
  have hcall := ARMMark.isCall_tagCall v val i
  unfold isCall at hcall
  rw [h.tags .INS_directCall (by decide), h.tags .INS_indirectCall (by decide)] at hcall
  cases hcall

/-- The marking passes at one place of a block. -/
theorem getElem?_markInstrs_mark {is os : List Instr} {i : Instr} (his : is = before ++ i :: rest)
    (h : ARMMark.markInstrs F pcEnd lr is = some os) :
    os[before.length]? = ARMMark.markIns F pcEnd (before.foldl noteLR lr) i := by
  induction before generalizing is lr os with
  | nil =>
    subst his
    obtain ⟨o, ho, h⟩ := Option.bind_eq_some_iff.mp h
    obtain ⟨os', -, h⟩ := Option.bind_eq_some_iff.mp h
    obtain rfl : o :: os' = os := Option.some.inj h
    exact ho.symm
  | cons j before ih =>
    subst his
    obtain ⟨o, -, h⟩ := Option.bind_eq_some_iff.mp h
    obtain ⟨os', hos, h⟩ := Option.bind_eq_some_iff.mp h
    obtain rfl : o :: os' = os := Option.some.inj h
    exact ih rfl hos

/-- **A link becomes a jump exactly when what comes before it in its block does not leave the
recorded end in `LR`.** -/
theorem jumpAt_link_iff {f : Func} {n : ℕ} (hF : ARMMark.runOnFunction f = some F)
    (hb : f.blocks[n]? = some b) (hlink : b.instrs = before ++ link pc) :
    JumpAt pc F n before.length ↔ KeepsLink pc f before := by
  obtain ⟨F₁, hF₁, -⟩ := Option.bind_eq_some_iff.mp hF
  obtain ⟨pcStart, hstart, hF₁⟩ := Option.bind_eq_some_iff.mp hF₁
  obtain ⟨pcEnd, hend, -⟩ := Option.bind_eq_some_iff.mp hF₁
  rw [ARMMark.runOnFunction_eq (by rw [hstart]; rfl) hend] at hF
  obtain ⟨bs, hbs, rfl⟩ := Option.map_eq_some_iff.mp hF
  have hn := OptionMapM.mapM_getElem? hbs n
  rw [hb, Option.bind_some] at hn
  obtain ⟨b', hb'⟩ : ∃ b', ARMMark.markBlock f pcEnd b = some b' := by
    obtain ⟨b', -, hb'⟩ := OptionMapM.exists_of_mem hbs (List.mem_of_getElem? hb)
    exact ⟨b', hb'⟩
  have hinstrs : ARMMark.markInstrs f pcEnd none b.instrs = some b'.instrs := by
    rw [← ARMMark.instrs_markBlock, hb']
    rfl
  have hplace := getElem?_markInstrs_mark (i := linkStore pc) hlink hinstrs
  have hval : (linkStore pc).storeTo? "PC" = some (.constInt 32 (pc % 0x100000000)) := rfl
  rw [noteLR_foldl, ARMMark.markIns_of_some (unmarked_linkStore pc) hval] at hplace
  have hat : JumpAt pc { f with blocks := bs } n before.length ↔
      ∃ s, b'.instrs[before.length]? = some s ∧ JumpsTo pc s := by
    unfold JumpAt
    simp [hn, hb']
  have hkeeps : KeepsLink pc f before ↔
      pc.toNat < 2 ^ 32 ∧ ¬ (lastConstLR before).any (returnsTo pcEnd) = true := by
    have hany : (lastConstLR before).any (returnsTo pcEnd) = true ↔
        ∃ v, lastConstLR before = some v ∧ IsReturnAddress pcEnd v := by
      rw [Option.any_eq_true]
      exact exists_congr fun v => and_congr_right fun _ => returnsTo_iff
    rw [hany]
    constructor
    · rintro ⟨hlt, hno⟩
      refine ⟨hlt, ?_⟩
      rintro ⟨v, hv, hret⟩
      exact hno pcEnd v hend hv hret
    · rintro ⟨hlt, hno⟩
      refine ⟨hlt, fun pcEnd' v hend' hv hret => hno ⟨v, hv, ?_⟩⟩
      rwa [Option.some.inj (hend.symm.trans hend')]
  rw [hat, hplace, hkeeps]
  by_cases hcall : (lastConstLR before).any (returnsTo pcEnd) = true
  · simp [hcall, Value.constInt?, not_jumpsTo_tagCall]
  · simp [hcall, Value.constInt?, jumpsTo_tagJump_iff]

/-- **A truncated block ends in the link, and the link becomes a jump to the next block exactly when
no constant that was stored last to `LR` before it is the recorded end of the block.** -/
theorem linkIsJump_iff {M M' : Module} {c : Bool} {i : ℕ} (hrun : runOnModule M = some (M', c))
    (hnext : Next M i f pcB) : ∃ f', M'.funcs[i]? = some f' ∧
      (∃ b ∈ f'.blocks, ∃ kept, b.instrs = kept ++ link pcB) ∧
      ∀ n b kept, f'.blocks[n]? = some b → b.instrs = kept ++ link pcB →
        ∀ F, ARMMark.runOnFunction f' = some F → (JumpAt pcB F n kept.length ↔
          KeepsLink pcB f' kept) := by
  obtain ⟨f', htrunc, hf'⟩ := (run_spec hrun).1 i f pcB hnext
  obtain ⟨bb, b, hb, -, kept, hkept⟩ := endsInLink_truncateAt htrunc
  exact ⟨f', hf', ⟨b, hb, kept, hkept.symm⟩, fun n b kept hn hkept F hF =>
    jumpAt_link_iff hF hn hkept⟩

/-- A block at `0x8000` that stores `lr` to `LR`, sets `R7` at `0x8004` and jumps at `0x8008`. -/
def setsLR (lr : UInt64) : Func := ⟨"void-tcg-llvm-tb-0-8000", [⟨1, "entry", [
  ⟨some 1, .store (.constInt 32 lr) (.global "LR"),
    [(.BB_pcStart, .str (hex 0x8000)), (.BB_pcEnd, .str (hex 0x800c)),
      (.INS_currPC, .str (hex 0x8000))]⟩,
  ⟨some 2, .store (.constInt 32 1) (.global "R7"), [(.INS_currPC, .str (hex 0x8004))]⟩,
  ⟨some 3, .store (.constInt 32 0x9000) (.global "PC"), [(.INS_currPC, .str (hex 0x8008))]⟩,
  ⟨some 4, .ret none, [(.INS_currPC, .str (hex 0x8008)), (.lastpc, .int 0x8008)]⟩]⟩]⟩

/-- The block from `0x8004` on, which was also translated. -/
def jumpsTail : Func := ⟨"void-tcg-llvm-tb-1-8004", [⟨1, "entry", [
  ⟨some 1, .store (.constInt 32 1) (.global "R7"),
    [(.BB_pcStart, .str (hex 0x8004)), (.BB_pcEnd, .str (hex 0x800c)),
      (.INS_currPC, .str (hex 0x8004))]⟩,
  ⟨some 2, .store (.constInt 32 0x9000) (.global "PC"), [(.INS_currPC, .str (hex 0x8008))]⟩,
  ⟨some 3, .ret none, [(.INS_currPC, .str (hex 0x8008)), (.lastpc, .int 0x8008)]⟩]⟩]⟩

def setsLRModule (lr : UInt64) : Module := ⟨[setsLR lr, jumpsTail]⟩

theorem getPCStartOfFunc_setsLR (lr : UInt64) : getPCStartOfFunc (setsLR lr) = some 0x8000 := by
  have hread : strtoll (hex 0x8000) = 0x8000 := by decide
  exact congrArg some hread

theorem getPCStartOfFunc_jumpsTail : getPCStartOfFunc jumpsTail = some 0x8004 := by decide

theorem next_setsLRModule (lr : UInt64) : Next (setsLRModule lr) 0 (setsLR lr) 0x8004 := by
  have hblock : strstr "void-tcg-llvm-tb-0-8000" "void-tcg-llvm-tb" = true := by decide
  refine ⟨0x8008, 0x8000, 1, jumpsTail, ⟨rfl, hblock, rfl, getPCStartOfFunc_setsLR lr⟩,
    ⟨rfl, by decide, by decide, getPCStartOfFunc_jumpsTail⟩, by decide, fun pcC k h hk => ?_⟩
  have hget := hk.get
  have hstart := hk.start_eq
  match k, hget with
  | 0, hget =>
    obtain rfl : setsLR lr = h := Option.some.inj hget
    obtain rfl := Option.some.inj ((getPCStartOfFunc_setsLR lr).symm.trans hstart)
    exact Or.inl (by decide)
  | 1, hget =>
    obtain rfl : jumpsTail = h := Option.some.inj hget
    obtain rfl := Option.some.inj (getPCStartOfFunc_jumpsTail.symm.trans hstart)
    exact Or.inr (by decide)
  | _ + 2, hget => cases hget

/-- What is in `LR` is not the end of the block. -/
theorem linkIsJump_setsLR : ∃ M' c f', runOnModule (setsLRModule 0x9004) = some (M', c) ∧
    M'.funcs[0]? = some f' ∧ (∃ b ∈ f'.blocks, ∃ kept, b.instrs = kept ++ link 0x8004) ∧
    ∀ n b kept, f'.blocks[n]? = some b → b.instrs = kept ++ link 0x8004 →
      ∀ F, ARMMark.runOnFunction f' = some F → (JumpAt 0x8004 F n kept.length ↔
        KeepsLink 0x8004 f' kept) := by
  obtain ⟨⟨M', c⟩, hrun⟩ := Option.isSome_iff_exists.mp
    (show (runOnModule (setsLRModule 0x9004)).isSome = true by decide)
  obtain ⟨f', hf', hlink⟩ := linkIsJump_iff hrun (next_setsLRModule 0x9004)
  exact ⟨M', c, f', hrun, hf', hlink⟩

/-- What is left of the block. -/
def cutSetsLR : Func := ⟨"void-tcg-llvm-tb-0-8000-split-to-0x00008004", [⟨1, "entry", [
  ⟨some 1, .store (.constInt 32 0x800c) (.global "LR"),
    [(.BB_pcStart, .str (hex 0x8000)), (.BB_pcEnd, .str (hex 0x800c)),
      (.INS_currPC, .str (hex 0x8000))]⟩,
  ⟨some 2, .store (.constInt 32 1) (.global "R7"), [(.INS_currPC, .str (hex 0x8004))]⟩] ++
    link 0x8004⟩]⟩

/-- The old end of the block is in `LR`, and the link becomes a call that returns there. -/
theorem not_jumpAt_setsLR : ∃ M' c F, runOnModule (setsLRModule 0x800c) = some (M', c) ∧
    Next (setsLRModule 0x800c) 0 (setsLR 0x800c) 0x8004 ∧ M'.funcs[0]? = some cutSetsLR ∧
    ARMMark.runOnFunction cutSetsLR = some F ∧ ¬ JumpAt 0x8004 F 0 2 := by
  have hrun : runOnModule (setsLRModule 0x800c) = some (⟨[cutSetsLR, jumpsTail]⟩, true) := by decide
  obtain ⟨F, hF⟩ := Option.isSome_iff_exists.mp
    (show (ARMMark.runOnFunction cutSetsLR).isSome = true by decide)
  refine ⟨_, _, F, hrun, next_setsLRModule 0x800c, rfl, hF, fun hjump => ?_⟩
  have hlink : cutSetsLR.instrs = cutSetsLR.instrs.take 2 ++ link 0x8004 := rfl
  have hkeeps : KeepsLink 0x8004 cutSetsLR (cutSetsLR.instrs.take 2) :=
    (jumpAt_link_iff (n := 0) hF rfl hlink).mp hjump
  exact hkeeps.lr 0x800c 0x800c (by decide) (by decide) (Or.inl rfl)

end FixOverlappedBBs

end Bin2llvm
