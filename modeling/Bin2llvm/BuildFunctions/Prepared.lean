import Bin2llvm.ARMMark
import Bin2llvm.BuildFunctions.Dispatch
import Bin2llvm.ErasingPasses
import Bin2llvm.MarkFuncEntry

/-!
# Bin2llvm.BuildFunctions.Prepared — from block-functions to built functions

The end of `run_passes_pre`: the marking passes, `MarkFuncEntry`, `RemoveBranchTrace` and
`BuildFunctions`.

* `Prepared`: what a block-function looks like when `ARMMarkCall` starts.
* `Marked`, `marked_runOnFunction`: what the marking passes do to a function.
* `TaggedModule.eraseTraces`: tagged modules stay tagged without the branch trace.
* `FinalPasses`: a run of the passes; `FinalPasses.exists_tagged`: what `BuildFunctions` gets is
  tagged.
-/

namespace Bin2llvm.BuildFunctions

open FixOverlappedBBs ARMMark

/-! ## Before the marking passes -/

/-- An instruction that has nothing to do with leaving the block. -/
structure Quiet (i : Instr) : Prop where
  notTerminator : i.isTerminator = false
  notFake : i.has .INS_fakeReturn = false
  notToPC : i.isStoreTo "PC" = false

inductive PreparedBlock (b : BasicBlock) : Prop
  | inner {pre : List Instr} {t : Instr} (instrs : b.instrs = pre ++ [t])
      (pre_quiet : ∀ i ∈ pre, Quiet i) (terminator : t.isTerminator = true)
      (notFake : t.has .INS_fakeReturn = false) : PreparedBlock b
  | exit {pre mid : List Instr} {s r : Instr} (instrs : b.instrs = pre ++ s :: (mid ++ [r]))
      (pre_quiet : ∀ i ∈ pre, Quiet i) (mid_quiet : ∀ i ∈ mid, Quiet i)
      (toPC : s.isStoreTo "PC" = true) (notFake : s.has .INS_fakeReturn = false)
      (isRet : ∃ v, r.op = .ret v) (fake : r.has .INS_fakeReturn = true) : PreparedBlock b

/-- A block-function whose blocks store to `PC` once at most, before the fake return, and which is
not marked. -/
structure Prepared (F : Func) : Prop where
  start : (getPCStartOfFunc F).isSome = true
  untagged : ∀ i ∈ F.instrs, Untagged i
  shape : ∀ b ∈ F.blocks, PreparedBlock b
  pcStart : ∀ i ∈ F.instrs, i.has .BB_pcStart = true → getBBStart i = getPCStartOfFunc F
  idxStart : ∀ i ∈ F.instrs, i.has .INS_switch_idx_start = true →
    (getHexMetadataFromIns i .INS_switch_idx_start).isSome
  names : ∀ b ∈ F.blocks, b.name ≠ "fake_indirect_bb"
  successors : ∀ i ∈ F.instrs, ∀ bb ∈ i.op.successors, bb ∈ F.blockIds
  constants : ∀ s ∈ F.instrs, ∀ v c, s.storeTo? "PC" = some v → v.constInt? = some c →
    c.toNat < 2 ^ 63

/-- The first instruction that is no branch trace tells where the block starts. -/
def StartsBehindTrace (F : Func) : Prop :=
  ∀ e, F.blocks.head? = some e →
    ∃ i, (e.instrs.find? fun i => !RemoveBranchTrace.isTrace i) = some i ∧
    (getBBStart i).isSome = true

/-! ## One instruction -/

/-- The tags that hold where a block goes. -/
def directTags : List MDKind := [.INS_directCall, .INS_directJump]

/-- The tags of exits that have one tag. -/
def singleTags : List (MDKind × ExitKind) :=
  [(.INS_directJump, .directJump), (.INS_indirectJump, .indirectJump), (.INS_return, .ret)]

/-- What the marking passes do to an instruction. -/
structure MarkedIns (i o : Instr) : Prop where
  id : o.id = i.id
  op : o.op = i.op
  md : ∀ k ∉ controlTags, o.getMetadata k = i.getMetadata k
  other : i.isStoreTo "PC" = false → o = i
  exit : i.isStoreTo "PC" = true → ∃ k, ∀ k', hasTag o k' = decide (k' = k)
  direct : ∀ k ∈ directTags, o.has k = true → ∀ v, i.storeTo? "PC" = some v →
    ∃ c, v.constInt? = some c ∧ o.getMetadata k = some (.str (hex c))

variable {F F' : Func} {pcEnd : UInt64} {lr : Option UInt64} {i o : Instr} {val : Value}
variable {is os pre rest : List Instr} {b b' : BasicBlock} {k : MDKind}

/-- A store to `PC` is a call, a return or a jump. -/
theorem markIns_cases (hi : Untagged i) (hs : i.storeTo? "PC" = some val)
    (h : markIns F pcEnd lr i = some o) :
    (∃ l, o = ARMMarkCall.tagCall l val i) ∨ o = i.setMetadata .INS_return (.str "true") ∨
      o = ARMMarkJumps.tagJump val i := by
  have hcall : isCall i = false := hi .call
  have hret : i.has .INS_return = false := hi .ret
  have hkeep : ARMMarkCall.markIns pcEnd lr i = i ∨
      ∃ l, ARMMarkCall.markIns pcEnd lr i = ARMMarkCall.tagCall l val i := by
    unfold ARMMarkCall.markIns
    rw [hs]
    cases lr with
    | none => exact .inl rfl
    | some l =>
      dsimp only
      split_ifs
      · exact .inr ⟨l, rfl⟩
      · exact .inl rfl
  unfold ARMMark.markIns at h
  obtain ⟨o', ho', rfl⟩ := Option.map_eq_some_iff.mp h
  unfold ARMMarkReturn.markIns at ho'
  rcases hkeep with heq | ⟨l, heq⟩
  · rw [heq, hcall] at ho'
    split_ifs at ho' with hisret
    · obtain rfl := Option.some.inj ho'
      refine .inr (.inl ?_)
      simp [ARMMarkJumps.markIns, hs]
    · obtain rfl := Option.some.inj ho'
      refine .inr (.inr ?_)
      simp [ARMMarkJumps.markIns, hs, hcall, hret]
  · rw [heq, isCall_tagCall, if_pos (rfl : true = true)] at ho'
    split_ifs at ho'
    obtain rfl := Option.some.inj ho'
    refine .inl ⟨l, ?_⟩
    simp [ARMMarkJumps.markIns, hs, isCall_tagCall]

theorem getMetadata_tagCall (l : UInt64) (val : Value) (i : Instr) (hk : k ∉ controlTags) :
    (ARMMarkCall.tagCall l val i).getMetadata k = i.getMetadata k := by
  have hne : ∀ k' ∈ controlTags, k ≠ k' := by
    rintro k' hk' rfl
    exact hk hk'
  unfold ARMMarkCall.tagCall
  dsimp only
  split <;> rw [Instr.getMetadata_setMetadata_of_ne _ (hne _ (by decide)),
    Instr.getMetadata_setMetadata_of_ne _ (hne _ (by decide))]

theorem hasTag_tagCall (hi : Untagged i) (l : UInt64) (val : Value) (k : ExitKind) :
    hasTag (ARMMarkCall.tagCall l val i) k = decide (k = .call) := by
  cases k with
  | call => exact isCall_tagCall l val i
  | directJump | indirectJump | ret =>
    unfold ARMMarkCall.tagCall hasTag
    dsimp only
    split <;>
      rw [Instr.has_setMetadata_of_ne _ (by decide), Instr.has_setMetadata_of_ne _ (by decide)]
    all_goals first | exact hi .directJump | exact hi .indirectJump | exact hi .ret

/-- One tag of a kind that is no call. -/
theorem hasTag_setMetadata_single (hi : Untagged i) {k : ExitKind} {j : MDKind}
    (hk : (j, k) ∈ singleTags) (n : MDNode) (k' : ExitKind) :
    hasTag (i.setMetadata j n) k' = decide (k' = k) := by
  have hcall := hi .call
  have hdirect := hi .directJump
  have hindirect := hi .indirectJump
  have hret := hi .ret
  simp only [hasTag, isCall, Bool.or_eq_false_iff] at hcall hdirect hindirect hret
  simp only [singleTags, List.mem_cons, List.not_mem_nil, or_false, Prod.mk.injEq] at hk
  rcases hk with ⟨rfl, rfl⟩ | ⟨rfl, rfl⟩ | ⟨rfl, rfl⟩ <;> cases k' <;>
    simp [hasTag, isCall, Instr.has_setMetadata_of_ne, hcall, hdirect, hindirect, hret]

/-- A call holds its target when that is a constant, and is no jump. -/
theorem direct_tagCall (hi : Untagged i) (l : UInt64) (val : Value) (hk : k ∈ directTags)
    (hhas : (ARMMarkCall.tagCall l val i).has k = true) :
    ∃ c, val.constInt? = some c ∧ (ARMMarkCall.tagCall l val i).getMetadata k =
      some (.str (hex c)) := by
  rcases List.mem_pair.mp hk with rfl | rfl
  · cases hc : val.constInt? with
    | some c =>
      refine ⟨c, rfl, ?_⟩
      simp only [ARMMarkCall.tagCall, hc]
      rw [Instr.getMetadata_setMetadata_of_ne _ (by decide)]
      exact Instr.getMetadata_setMetadata_self i _ _
    | none =>
      have hno : i.has .INS_directCall = false := (Bool.or_eq_false_iff.mp (hi .call)).1
      simp only [ARMMarkCall.tagCall, hc] at hhas
      rw [Instr.has_setMetadata_of_ne _ (by decide), Instr.has_setMetadata_of_ne _ (by decide),
        hno] at hhas
      cases hhas
  · have hno : (ARMMarkCall.tagCall l val i).has .INS_directJump = false :=
      hasTag_tagCall hi l val .directJump
    rw [hno] at hhas
    cases hhas

/-- What does not store to `PC` stays as it is. -/
theorem markedIns_self (hs : i.storeTo? "PC" = none) : MarkedIns i i where
  id := rfl
  op := rfl
  md _ _ := rfl
  other _ := rfl
  exit hst := by
    obtain ⟨v, hv⟩ := Instr.isStoreTo_iff.mp hst
    rw [hs] at hv
    cases hv
  direct _ _ _ v hv := by
    rw [hs] at hv
    cases hv

theorem markedIns_tagCall (hi : Untagged i) (hs : i.storeTo? "PC" = some val) (l : UInt64) :
    MarkedIns i (ARMMarkCall.tagCall l val i) where
  id := by
    unfold ARMMarkCall.tagCall
    dsimp only
    split <;> rfl
  op := by
    unfold ARMMarkCall.tagCall
    dsimp only
    split <;> rfl
  md _ hk := getMetadata_tagCall l val i hk
  other hno := by
    rw [isStoreTo_of_storeTo? hs] at hno
    cases hno
  exit _ := ⟨.call, hasTag_tagCall hi l val⟩
  direct k hk hhas v hv := by
    obtain rfl := Option.some.inj (hs.symm.trans hv)
    exact direct_tagCall hi l val hk hhas

/-- A store that gets one tag of a kind that is no call. -/
theorem markedIns_setMetadata (hi : Untagged i) (hs : i.storeTo? "PC" = some val)
    {e : ExitKind} {j : MDKind} (hj : (j, e) ∈ singleTags) {n : MDNode}
    (hdirect : j = .INS_directJump → ∃ c, val.constInt? = some c ∧ n = .str (hex c)) :
    MarkedIns i (i.setMetadata j n) where
  id := rfl
  op := rfl
  md k hk := by
    refine Instr.getMetadata_setMetadata_of_ne i ?_ n
    rintro rfl
    simp only [singleTags, List.mem_cons, List.not_mem_nil, or_false, Prod.mk.injEq] at hj
    rcases hj with ⟨rfl, -⟩ | ⟨rfl, -⟩ | ⟨rfl, -⟩ <;> exact hk (by decide)
  other hno := by
    rw [isStoreTo_of_storeTo? hs] at hno
    cases hno
  exit _ := ⟨e, hasTag_setMetadata_single hi hj n⟩
  direct k hk hhas v hv := by
    obtain rfl := Option.some.inj (hs.symm.trans hv)
    -- the one direct tag it can have is the one it got
    have hnocall := (Bool.or_eq_false_iff.mp (hi .call)).1
    rcases List.mem_pair.mp hk with rfl | rfl
    · have hne : MDKind.INS_directCall ≠ j := by
        rintro rfl
        simp [singleTags] at hj
      rw [Instr.has_setMetadata_of_ne _ hne, hnocall] at hhas
      cases hhas
    · by_cases hjump : j = .INS_directJump
      · obtain ⟨c, hc, rfl⟩ := hdirect hjump
        exact ⟨c, hc, hjump ▸ Instr.getMetadata_setMetadata_self i _ _⟩
      · have hno : i.has .INS_directJump = false := hi .directJump
        rw [Instr.has_setMetadata_of_ne _ (Ne.symm hjump), hno] at hhas
        cases hhas

theorem markedIns (hi : Untagged i) (h : markIns F pcEnd lr i = some o) : MarkedIns i o := by
  cases hs : i.storeTo? "PC" with
  | none =>
    rw [markIns_of_none hs] at h
    obtain rfl := Option.some.inj h
    exact markedIns_self hs
  | some val =>
    rcases markIns_cases hi hs h with ⟨l, rfl⟩ | rfl | rfl
    · exact markedIns_tagCall hi hs l
    · exact markedIns_setMetadata hi hs (e := .ret) (by decide) (fun h => by cases h)
    · -- the jump is direct when a constant is stored
      cases hc : val.constInt? with
      | some c =>
        have heq : ARMMarkJumps.tagJump val i = i.setMetadata .INS_directJump (.str (hex c)) := by
          simp [ARMMarkJumps.tagJump, hc]
        rw [heq]
        exact markedIns_setMetadata hi hs (e := .directJump) (by decide) fun _ => ⟨c, hc, rfl⟩
      | none =>
        have heq : ARMMarkJumps.tagJump val i =
            i.setMetadata .INS_indirectJump (.str (hex 0xdeadbeef)) := by
          simp [ARMMarkJumps.tagJump, hc]
        rw [heq]
        exact markedIns_setMetadata hi hs (e := .indirectJump) (by decide) fun h => by cases h

/-! ## Functions -/

structure MarkedBlock (b b' : BasicBlock) : Prop where
  id : b'.id = b.id
  name : b'.name = b.name ∨ ∃ s, b'.name = "func_return_bb_" ++ s
  instrs : List.Forall₂ MarkedIns b.instrs b'.instrs

/-- What the marking passes do to a function. -/
structure Marked (F F' : Func) : Prop where
  name : F'.name = F.name
  blocks : List.Forall₂ MarkedBlock F.blocks F'.blocks

theorem notToPC_of_isTerminator (h : i.isTerminator = true) : i.isStoreTo "PC" = false := by
  refine Bool.eq_false_iff.mpr fun hst => ?_
  obtain ⟨v, hop⟩ := Instr.op_of_isStoreTo hst
  rw [Instr.isTerminator, hop] at h
  cases h

theorem markedInstrs (hi : ∀ i ∈ is, Untagged i) (h : markInstrs F pcEnd lr is = some os) :
    List.Forall₂ MarkedIns is os := by
  induction is generalizing lr os with
  | nil =>
    obtain rfl := Option.some.inj h
    exact .nil
  | cons i is ih =>
    have ⟨hu, hrest⟩ := List.forall_mem_cons.mp hi
    obtain ⟨o, ho, h⟩ := Option.bind_eq_some_iff.mp h
    obtain ⟨os', hos', h⟩ := Option.bind_eq_some_iff.mp h
    obtain rfl := Option.some.inj h
    exact .cons (markedIns hu ho) (ih hrest hos')

/-- Quiet instructions stay as they are. -/
theorem marked_quiet_append (hpre : ∀ i ∈ pre, Quiet i)
    (h : List.Forall₂ MarkedIns (pre ++ is) os) :
    ∃ os', os = pre ++ os' ∧ List.Forall₂ MarkedIns is os' := by
  induction pre generalizing os with
  | nil => exact ⟨os, rfl, h⟩
  | cons i pre ih =>
    have ⟨hi, hpre⟩ := List.forall_mem_cons.mp hpre
    obtain ⟨o, os', ho, hos', rfl⟩ := List.forall₂_cons_left_iff.mp h
    obtain ⟨rest, rfl, hrest⟩ := ih hpre hos'
    exact ⟨rest, by rw [ho.other hi.notToPC]; rfl, hrest⟩

theorem MarkedIns.has_eq (h : MarkedIns i o) (hk : k ∉ controlTags) : o.has k = i.has k := by
  rw [Instr.has, Instr.has, h.md k hk]

theorem MarkedIns.getHex_eq (h : MarkedIns i o) (hk : k ∉ controlTags) :
    getHexMetadataFromIns o k = getHexMetadataFromIns i k := by
  rw [getHexMetadataFromIns, getHexMetadataFromIns, h.md k hk]

theorem MarkedIns.isStoreTo_eq (h : MarkedIns i o) (g : String) :
    o.isStoreTo g = i.isStoreTo g := by
  unfold Instr.isStoreTo Instr.storeToGlobal?
  rw [h.op]

theorem MarkedIns.storeTo?_eq (h : MarkedIns i o) (g : String) : o.storeTo? g = i.storeTo? g := by
  unfold Instr.storeTo? Instr.storeToGlobal?
  rw [h.op]

/-- **Marked blocks have the shape `BuildFunctions` expects.** -/
theorem shape_of_marked (hu : ∀ i ∈ b.instrs, Untagged i) (hb : PreparedBlock b)
    (h : MarkedBlock b b') :
    (∃ pre t, InnerShape b' pre t) ∨ ∃ k pre s mid r, ExitShape k b' pre s mid r := by
  have hplain : ∀ is : List Instr, is ⊆ b.instrs → (∀ i ∈ is, Quiet i) → ∀ i ∈ is, Plain i :=
      fun is hsub hq i hi =>
    ⟨(hq i hi).notTerminator, hu i (hsub hi), (hq i hi).notFake⟩
  have hinstrs := h.instrs
  cases hb with
  | @inner pre t heq hpre hterm hfake =>
    rw [heq] at hinstrs
    obtain ⟨os, hos, hrest⟩ := marked_quiet_append hpre hinstrs
    obtain ⟨o, os', ho, hnil, rfl⟩ := List.forall₂_cons_left_iff.mp hrest
    obtain rfl := List.forall₂_nil_left_iff.mp hnil
    obtain rfl := ho.other (notToPC_of_isTerminator hterm)
    refine .inl ⟨pre, o, hos, hplain pre (by rw [heq]; exact List.subset_append_left _ _) hpre,
      hterm, ?_, hfake⟩
    exact hu o (by simp [heq])
  | @exit pre mid s r heq hpre hmid htoPC hs hret hfake =>
    rw [heq] at hinstrs
    obtain ⟨os, hos, hrest⟩ := marked_quiet_append hpre hinstrs
    obtain ⟨s', os', hs', hrest', rfl⟩ := List.forall₂_cons_left_iff.mp hrest
    obtain ⟨tail, rfl, hlast⟩ := marked_quiet_append hmid hrest'
    obtain ⟨r', none, hr', hnil, rfl⟩ := List.forall₂_cons_left_iff.mp hlast
    obtain rfl := List.forall₂_nil_left_iff.mp hnil
    have hrterm : r.isTerminator = true := by
      obtain ⟨v, hv⟩ := hret
      rw [Instr.isTerminator, hv]
      rfl
    obtain rfl := hr'.other (notToPC_of_isTerminator hrterm)
    obtain ⟨k, hk⟩ := hs'.exit htoPC
    refine .inr ⟨k, pre, s', mid, r', hos, hplain pre ?_ hpre, hplain mid ?_ hmid, ⟨?_, hk, ?_⟩,
      hret, ?_, hfake⟩
    · rw [heq]
      exact List.subset_append_left _ _
    · rw [heq]
      exact fun i hi => by simp [hi]
    · exact (hs'.isStoreTo_eq "PC").trans htoPC
    · exact (hs'.has_eq (by decide)).trans hs
    · exact hu r' (by rw [heq]; simp)

/-- The name of a block gets a prefix for every return. -/
theorem name_markInstrs {r : List Instr × String} {name : String}
    (h : ARMMarkReturn.markInstrs F is name = some r) :
    r.2 = name ∨ ∃ s, r.2 = "func_return_bb_" ++ s := by
  induction is generalizing name r with
  | nil => exact .inl (by rw [← Option.some.inj h])
  | cons i is ih =>
    obtain ⟨o, -, h⟩ := Option.bind_eq_some_iff.mp h
    obtain ⟨r', hr', h⟩ := Option.bind_eq_some_iff.mp h
    obtain rfl := Option.some.inj h
    rcases ih hr' with hname | hname
    · split_ifs at hname
      · exact .inr ⟨name, hname⟩
      · exact .inl hname
    · exact .inr hname

theorem markedBlock (hu : ∀ i ∈ b.instrs, Untagged i)
    (h : markBlock F pcEnd b = some b') : MarkedBlock b b' := by
  have hinstrs : (markBlock F pcEnd b).map BasicBlock.instrs = _ := instrs_markBlock b
  rw [h] at hinstrs
  obtain ⟨c, hc, rfl⟩ := Option.map_eq_some_iff.mp h
  obtain ⟨⟨is, name⟩, hr, hc⟩ := Option.bind_eq_some_iff.mp hc
  obtain rfl := Option.some.inj hc
  exact ⟨rfl, name_markInstrs hr, markedInstrs hu hinstrs.symm⟩

theorem exists_markBlock (h : ARMMark.runOnFunction F = some F') :
    ∃ pcEnd bs, F.blocks.mapM (markBlock F pcEnd) = some bs ∧ F' = { F with blocks := bs } := by
  obtain ⟨F₁, hF₁, -⟩ := Option.bind_eq_some_iff.mp h
  obtain ⟨pcStart, hstart, hF₁⟩ := Option.bind_eq_some_iff.mp hF₁
  obtain ⟨pcEnd, hend, -⟩ := Option.bind_eq_some_iff.mp hF₁
  rw [ARMMark.runOnFunction_eq (by rw [hstart]; rfl) hend] at h
  obtain ⟨bs, hbs, rfl⟩ := Option.map_eq_some_iff.mp h
  exact ⟨pcEnd, bs, hbs, rfl⟩

theorem marked_runOnFunction (hu : ∀ i ∈ F.instrs, Untagged i)
    (h : ARMMark.runOnFunction F = some F') : Marked F F' := by
  obtain ⟨pcEnd, bs, hbs, rfl⟩ := exists_markBlock h
  have hblocks := OptionMapM.mapM_eq_some_iff.mp hbs
  refine ⟨rfl, ?_⟩
  rw [List.forall₂_iff_get] at hblocks ⊢
  refine ⟨hblocks.1, fun n h₁ h₂ => markedBlock (fun i hi => ?_) (hblocks.2 n h₁ h₂)⟩
  exact hu i (mem_instrs.mpr ⟨_, List.get_mem _ _, hi⟩)

/-- Blocks keep their identities. -/
theorem blockIds_markRun (h : ARMMark.runOnFunction F = some F') : F'.blockIds = F.blockIds := by
  obtain ⟨pcEnd, bs, hbs, rfl⟩ := exists_markBlock h
  have hblocks := OptionMapM.mapM_eq_some_iff.mp hbs
  clear h hbs
  unfold Func.blockIds
  generalize F.blocks = bs₀ at hblocks
  induction hblocks with
  | nil => rfl
  | @cons b b' _ _ hb _ ih =>
    obtain ⟨c, hc, rfl⟩ := Option.map_eq_some_iff.mp hb
    obtain ⟨r, -, hc⟩ := Option.bind_eq_some_iff.mp hc
    obtain rfl := Option.some.inj hc
    exact congrArg₂ List.cons rfl ih

namespace Marked

variable (h : Marked F F')

include h

theorem exists_ins (ho : o ∈ F'.instrs) : ∃ i ∈ F.instrs, MarkedIns i o := by
  have hinstrs : List.Forall₂ MarkedIns F.instrs F'.instrs :=
    List.rel_flatMap h.blocks fun _ _ hb => hb.instrs
  exact Lists.exists_of_mem_right hinstrs o ho

theorem exists_block (hb : b' ∈ F'.blocks) : ∃ b ∈ F.blocks, MarkedBlock b b' :=
  Lists.exists_of_mem_right h.blocks b' hb

theorem blockIds_eq : F'.blockIds = F.blockIds := by
  have hblocks := h.blocks
  unfold Func.blockIds
  generalize F.blocks = bs at hblocks
  generalize F'.blocks = bs' at hblocks
  induction hblocks with
  | nil => rfl
  | cons hb _ ih => exact congrArg₂ List.cons hb.id ih

theorem head?_blocks (he : F'.blocks.head? = some b') :
    ∃ b, F.blocks.head? = some b ∧ MarkedBlock b b' := by
  have hblocks := h.blocks
  revert he
  generalize F.blocks = bs at hblocks
  generalize F'.blocks = bs' at hblocks
  intro he
  cases hblocks with
  | nil => cases he
  | cons hb _ =>
    obtain rfl := Option.some.inj he
    exact ⟨_, rfl, hb⟩

theorem getPCStartOfFunc_eq : getPCStartOfFunc F' = getPCStartOfFunc F := by
  have hblocks := h.blocks
  unfold getPCStartOfFunc getHexMetadataFromFunc
  generalize F.blocks = bs at hblocks
  generalize F'.blocks = bs' at hblocks
  cases hblocks with
  | nil => rfl
  | @cons b b' _ _ hb _ =>
    have hinstrs := hb.instrs
    simp only [List.head?_cons, Option.bind_eq_bind, Option.bind_some]
    generalize b.instrs = is at hinstrs
    generalize b'.instrs = os at hinstrs
    cases hinstrs with
    | nil => rfl
    | cons hi _ => exact hi.getHex_eq (by decide)

/-- **The marking passes make tagged block-functions of prepared ones.** -/
theorem tagged (P : Prepared F) : TaggedFunc F' where
  start := Option.isSome_iff_exists.mp (by rw [h.getPCStartOfFunc_eq]; exact P.start)
  shape b' hb' := by
    obtain ⟨b, hb, hmark⟩ := h.exists_block hb'
    exact shape_of_marked (fun i hi => P.untagged i (mem_instrs.mpr ⟨b, hb, hi⟩))
      (P.shape b hb) hmark
  pcStart o ho hhas := by
    obtain ⟨i, hi, hmark⟩ := h.exists_ins ho
    rw [h.getPCStartOfFunc_eq, getBBStart, hmark.getHex_eq (by decide)]
    exact P.pcStart i hi ((hmark.has_eq (by decide)).symm.trans hhas)
  idxStart o ho hhas := by
    obtain ⟨i, hi, hmark⟩ := h.exists_ins ho
    rw [hmark.getHex_eq (by decide)]
    exact P.idxStart i hi ((hmark.has_eq (by decide)).symm.trans hhas)
  names b' hb' := by
    obtain ⟨b, hb, hmark⟩ := h.exists_block hb'
    rcases hmark.name with hname | ⟨s, hname⟩
    · exact hname ▸ P.names b hb
    · rw [hname]
      intro heq
      have := congrArg (fun s => s.toList.take 2) heq
      simp at this
  successors o ho bb hbb := by
    obtain ⟨i, hi, hmark⟩ := h.exists_ins ho
    rw [h.blockIds_eq]
    exact P.successors i hi bb (hmark.op ▸ hbb)

theorem startsBehindTrace (hF : StartsBehindTrace F) : StartsBehindTrace F' := by
  intro e' he'
  obtain ⟨e, he, hmark⟩ := h.head?_blocks he'
  obtain ⟨i, hi, hstart⟩ := hF e he
  have hinstrs := hmark.instrs
  revert hi
  generalize e.instrs = is at hinstrs
  generalize e'.instrs = os at hinstrs
  intro hi
  induction hinstrs with
  | nil => cases hi
  | @cons j o is os hj _ ih =>
    have htrace : RemoveBranchTrace.isTrace o = RemoveBranchTrace.isTrace j := by
      unfold RemoveBranchTrace.isTrace
      rw [hj.op]
    cases ht : RemoveBranchTrace.isTrace j with
    | true =>
      rw [List.find?_cons_of_neg (by simp [ht])] at hi
      rw [List.find?_cons_of_neg (by simp [htrace, ht])]
      exact ih hi
    | false =>
      rw [List.find?_cons_of_pos (by simp [ht])] at hi
      rw [List.find?_cons_of_pos (by simp [htrace, ht])]
      obtain rfl := Option.some.inj hi
      exact ⟨o, rfl, by rw [getBBStart, hj.getHex_eq (by decide)]; exact hstart⟩

end Marked


/-! ## Without the branch trace -/

open RemoveBranchTrace (isTrace)

theorem isTrace_of_isTerminator (h : i.isTerminator = true) : isTrace i = false := by
  refine Bool.eq_false_iff.mpr fun ht => ?_
  obtain ⟨val, q, hop⟩ := RemoveBranchTrace.exists_store_of_isTrace ht
  rw [Instr.isTerminator, hop] at h
  cases h

theorem isTrace_of_isStoreTo {g : String} (h : i.isStoreTo g = true) : isTrace i = false := by
  refine Bool.eq_false_iff.mpr fun ht => ?_
  obtain ⟨v, hop⟩ := Instr.op_of_isStoreTo h
  obtain ⟨val, q, hop'⟩ := RemoveBranchTrace.exists_store_of_isTrace ht
  rw [hop] at hop'
  cases hop'

/-- A block without the branch trace. -/
def dropTrace (b : BasicBlock) : BasicBlock :=
  { b with instrs := b.instrs.filter fun i => !isTrace i }

theorem blocks_runOnFunction (F : Func) :
    (RemoveBranchTrace.runOnFunction F).1.blocks = F.blocks.map dropTrace := rfl

theorem shape_dropTrace (h : (∃ pre t, InnerShape b pre t) ∨ ∃ k pre s mid r,
    ExitShape k b pre s mid r) :
    (∃ pre t, InnerShape (dropTrace b) pre t) ∨ ∃ k pre s mid r,
      ExitShape k (dropTrace b) pre s mid r := by
  rcases h with ⟨pre, t, h⟩ | ⟨k, pre, s, mid, r, e⟩
  · have ht : isTrace t = false := isTrace_of_isTerminator h.term.terminator
    refine .inl ⟨pre.filter fun i => !isTrace i, t, ?_, fun i hi =>
      h.pre_plain i (List.mem_of_mem_filter hi), h.term⟩
    simp [dropTrace, h.instrs, ht]
  · have hs : isTrace s = false := isTrace_of_isStoreTo e.store.toPC
    have hr : isTrace r = false := by
      obtain ⟨v, hv⟩ := e.ret.isRet
      exact isTrace_of_isTerminator (by rw [Instr.isTerminator, hv]; rfl)
    refine .inr ⟨k, pre.filter fun i => !isTrace i, s, mid.filter fun i => !isTrace i, r, ?_,
      fun i hi => e.pre_plain i (List.mem_of_mem_filter hi), fun i hi =>
        e.mid_plain i (List.mem_of_mem_filter hi),
      e.store, e.ret⟩
    simp [dropTrace, e.instrs, hs, hr]

theorem mem_instrs_eraseTraces (hi : i ∈ (RemoveBranchTrace.runOnFunction F).1.instrs) :
    i ∈ F.instrs := by
  obtain ⟨b', hb', hi⟩ := mem_instrs.mp hi
  rw [blocks_runOnFunction] at hb'
  obtain ⟨b, hb, rfl⟩ := List.mem_map.mp hb'
  exact mem_instrs.mpr ⟨b, hb, List.mem_of_mem_filter hi⟩

theorem blockIds_eraseTraces (F : Func) :
    (RemoveBranchTrace.runOnFunction F).1.blockIds = F.blockIds := by
  rw [Func.blockIds, blocks_runOnFunction, List.map_map]
  rfl

theorem getPCStartOfFunc_eraseTraces (hfirst : StartsBehindTrace F) (hT : TaggedFunc F) :
    getPCStartOfFunc (RemoveBranchTrace.runOnFunction F).1 = getPCStartOfFunc F := by
  obtain ⟨pc, hpc⟩ := hT.start
  obtain ⟨e, he⟩ := exists_entry hpc
  obtain ⟨i, hi, hstart⟩ := hfirst e he
  have hmem : i ∈ F.instrs := mem_instrs.mpr ⟨e, List.mem_of_head? he, List.mem_of_find?_eq_some hi⟩
  have hhas : i.has .BB_pcStart = true := by
    obtain ⟨n, hn⟩ := Option.isSome_iff_exists.mp hstart
    exact has_of_getHexMetadata hn
  rw [← hT.pcStart i hmem hhas, getPCStartOfFunc, getHexMetadataFromFunc, blocks_runOnFunction,
    List.head?_map, he]
  simp only [Option.map_some, Option.bind_eq_bind, Option.bind_some, dropTrace,
    List.head?_filter, hi]
  rfl

/-- **A tagged block-function stays one.** -/
theorem TaggedFunc.eraseTraces (hT : TaggedFunc F) (hfirst : StartsBehindTrace F) :
    TaggedFunc (RemoveBranchTrace.runOnFunction F).1 where
  start := by
    rw [getPCStartOfFunc_eraseTraces hfirst hT]
    exact hT.start
  shape b' hb' := by
    rw [blocks_runOnFunction] at hb'
    obtain ⟨b, hb, rfl⟩ := List.mem_map.mp hb'
    exact shape_dropTrace (hT.shape b hb)
  pcStart i hi hhas := by
    rw [getPCStartOfFunc_eraseTraces hfirst hT]
    exact hT.pcStart i (mem_instrs_eraseTraces hi) hhas
  idxStart i hi := hT.idxStart i (mem_instrs_eraseTraces hi)
  names b' hb' := by
    rw [blocks_runOnFunction] at hb'
    obtain ⟨b, hb, rfl⟩ := List.mem_map.mp hb'
    exact hT.names b hb
  successors i hi bb hbb := by
    rw [blockIds_eraseTraces]
    exact hT.successors i (mem_instrs_eraseTraces hi) bb hbb


/-! ## The passes -/

/-- Prepared block-functions with distinct starts.  A store has no result that anything could
use. -/
structure PreparedModule where
  module : Module
  prepared : ∀ F ∈ module.blockFunctions, Prepared F
  startsBehindTrace : ∀ F ∈ module.blockFunctions, StartsBehindTrace F
  start_inj : ∀ f ∈ module.blockFunctions, ∀ g ∈ module.blockFunctions,
    getPCStartOfFunc f = getPCStartOfFunc g → f = g
  ids_nodup : (module.blockFunctions.flatMap Func.blockIds).Nodup
  unused : ∀ g ∈ module.blockFunctions, ∀ i ∈ g.instrs, ∀ v ∈ i.op.operands, ∀ k, v = .inst k →
    ¬ ExitId module k

/-- A run of the passes. -/
structure FinalPasses (M : Module) where
  marked : Module
  entries : Module
  traceless : Module
  armmark : runOnFunctions ARMMark.runOnFunction M = some marked
  markfuncentry : MarkFuncEntry.runOnModule marked = some entries
  rmbranchtrace : traceless = ⟨entries.funcs.map fun f => (RemoveBranchTrace.runOnFunction f).1⟩

variable {M M' : Module}

theorem isBlockFunction_congr {f g : Func} (h : f.name = g.name) :
    f.isBlockFunction = g.isBlockFunction := by
  unfold Func.isBlockFunction
  rw [h]

theorem blockIds_blockFunctions
    (h : List.Forall₂ (fun f f' : Func => f'.name = f.name ∧
      f'.blockIds = f.blockIds) M.funcs M'.funcs) :
    M'.blockFunctions.flatMap Func.blockIds = M.blockFunctions.flatMap Func.blockIds := by
  unfold Module.blockFunctions
  generalize M.funcs = fs at h
  generalize M'.funcs = fs' at h
  induction h with
  | nil => rfl
  | @cons f f' _ _ hf _ ih =>
    rw [List.filter_cons, List.filter_cons, isBlockFunction_congr hf.1]
    split_ifs
    · rw [List.flatMap_cons, List.flatMap_cons, ih, hf.2]
    · exact ih

/-- What is known of the marked module. -/
theorem forall₂_armmark (h : runOnFunctions ARMMark.runOnFunction M = some M') :
    List.Forall₂ (fun f f' => f'.name = f.name ∧ f'.blockIds = f.blockIds ∧
      (f.blocks ≠ [] → ARMMark.runOnFunction f = some f')) M.funcs M'.funcs := by
  obtain ⟨funcs, hfuncs, rfl⟩ := Option.map_eq_some_iff.mp h
  refine (OptionMapM.mapM_eq_some_iff.mp hfuncs).imp fun f f' hf => ?_
  split_ifs at hf with hempty
  · obtain rfl := Option.some.inj hf
    exact ⟨rfl, rfl, fun hne => absurd (List.isEmpty_iff.mp hempty) hne⟩
  · refine ⟨?_, blockIds_markRun hf, fun _ => hf⟩
    obtain ⟨pcEnd, bs, -, rfl⟩ := exists_markBlock hf
    rfl

theorem exists_prepared (h : runOnFunctions ARMMark.runOnFunction M = some M')
    (hM : ∀ F ∈ M.blockFunctions, Prepared F) {g : Func} (hg : g ∈ M'.blockFunctions) :
    ∃ F ∈ M.blockFunctions, ARMMark.runOnFunction F = some g ∧ Marked F g := by
  obtain ⟨hmem, hblock⟩ := List.mem_filter.mp hg
  obtain ⟨F, hF, hname, -, hrun⟩ := Lists.exists_of_mem_right (forall₂_armmark h) g hmem
  have hFb : F ∈ M.blockFunctions :=
    List.mem_filter.mpr ⟨hF, by rwa [← isBlockFunction_congr hname]⟩
  have hne : F.blocks ≠ [] := by
    obtain ⟨pc, hpc⟩ := Option.isSome_iff_exists.mp (hM F hFb).start
    obtain ⟨e, he⟩ := exists_entry hpc
    intro hnil
    rw [hnil] at he
    cases he
  exact ⟨F, hFb, hrun hne, marked_runOnFunction (hM F hFb).untagged (hrun hne)⟩

/-- The marked module. -/
def PreparedModule.marked (P : PreparedModule)
    (h : runOnFunctions ARMMark.runOnFunction P.module = some M') : TaggedModule where
  module := M'
  tagged g hg := by
    obtain ⟨F, hF, -, hmark⟩ := exists_prepared h P.prepared hg
    exact hmark.tagged (P.prepared F hF)
  start_inj f hf g hg heq := by
    obtain ⟨F, hF, hf', hFf⟩ := exists_prepared h P.prepared hf
    obtain ⟨G, hG, hg', hGg⟩ := exists_prepared h P.prepared hg
    rw [hFf.getPCStartOfFunc_eq, hGg.getPCStartOfFunc_eq] at heq
    rw [P.start_inj F hF G hG heq] at hf'
    exact Option.some.inj (hf'.symm.trans hg')
  ids_nodup := by
    rw [blockIds_blockFunctions ((forall₂_armmark h).imp fun _ _ hf => ⟨hf.1, hf.2.1⟩)]
    exact P.ids_nodup

/-- A tagged module without the branch trace. -/
def TaggedModule.eraseTraces (T : TaggedModule) (hfirst : ∀ g ∈ T.module.blockFunctions,
    StartsBehindTrace g) : TaggedModule where
  module := ⟨T.module.funcs.map fun f => (RemoveBranchTrace.runOnFunction f).1⟩
  tagged g hg := by
    obtain ⟨hmem, hblock⟩ := List.mem_filter.mp hg
    obtain ⟨f, hf, rfl⟩ := List.mem_map.mp hmem
    have hfb : f ∈ T.module.blockFunctions := List.mem_filter.mpr ⟨hf, hblock⟩
    exact (T.tagged f hfb).eraseTraces (hfirst f hfb)
  start_inj f hf g hg heq := by
    obtain ⟨hf, hfb⟩ := List.mem_filter.mp hf
    obtain ⟨hg, hgb⟩ := List.mem_filter.mp hg
    obtain ⟨f, hf', rfl⟩ := List.mem_map.mp hf
    obtain ⟨g, hg', rfl⟩ := List.mem_map.mp hg
    have hfm : f ∈ T.module.blockFunctions := List.mem_filter.mpr ⟨hf', hfb⟩
    have hgm : g ∈ T.module.blockFunctions := List.mem_filter.mpr ⟨hg', hgb⟩
    rw [getPCStartOfFunc_eraseTraces (hfirst f hfm) (T.tagged f hfm),
      getPCStartOfFunc_eraseTraces (hfirst g hgm) (T.tagged g hgm)] at heq
    rw [T.start_inj f hfm g hgm heq]
  ids_nodup := by
    rw [blockIds_blockFunctions (M := T.module)]
    · exact T.ids_nodup
    · exact List.forall₂_map_right_iff.mpr (List.forall₂_same.mpr fun f _ =>
        ⟨rfl, blockIds_eraseTraces f⟩)


theorem TagsStored.of_subset (V : TagsStored M k)
    (hsub : ∀ g' ∈ M'.blockFunctions, ∃ g ∈ M.blockFunctions, ∀ i ∈ g'.instrs, i ∈ g.instrs) :
    TagsStored M' k := by
  intro g' hg' s hs
  obtain ⟨g, hg, hgi⟩ := hsub g' hg'
  exact V g hg s (hgi s hs)

/-- The tags stay true when only instructions go. -/
theorem ExitsTrue.of_subset (V : ExitsTrue M)
    (hsub : ∀ g' ∈ M'.blockFunctions, ∃ g ∈ M.blockFunctions, ∀ i ∈ g'.instrs, i ∈ g.instrs) :
    ExitsTrue M' where
  unused g' hg' i hi v hv k hk := by
    rintro ⟨h', hh', s, hs, hst⟩
    obtain ⟨g, hg, hgi⟩ := hsub g' hg'
    obtain ⟨h, hh, hhi⟩ := hsub h' hh'
    exact V.unused g hg i (hgi i hi) v hv k hk ⟨h, hh, s, hhi s hs, hst⟩
  direct := V.direct.of_subset hsub

/-- The marking passes tag a store with the constant it stores. -/
theorem PreparedModule.tagsStored (P : PreparedModule)
    (h : runOnFunctions ARMMark.runOnFunction P.module = some M')
    (hk : k ∈ directTags) : TagsStored M' k := by
  intro g hg s hs hhas v hv
  obtain ⟨F, hF, -, hmark⟩ := exists_prepared h P.prepared hg
  obtain ⟨i, hi, his⟩ := hmark.exists_ins hs
  have hvi : i.storeTo? "PC" = some v := (his.storeTo?_eq "PC").symm.trans hv
  obtain ⟨c, hc, hmd⟩ := his.direct k hk hhas v hvi
  -- `hex` and `strtoll` are inverse below 2^63
  have hlt := (P.prepared F hF).constants i hi v c hvi hc
  cases v with
  | constInt w n =>
    obtain rfl := Option.some.inj hc
    refine ⟨w, n, rfl, ?_⟩
    rw [getHexMetadataFromIns, hmd]
    exact congrArg some (strtoll_hex_of_lt hlt)
  | _ => cases hc

theorem PreparedModule.exitsTrue (P : PreparedModule)
    (h : runOnFunctions ARMMark.runOnFunction P.module = some M') : ExitsTrue M' where
  unused g hg i hi v hv k hk := by
    rintro ⟨g', hg', s, hs, hst, hid⟩
    obtain ⟨F, hF, -, hmark⟩ := exists_prepared h P.prepared hg
    obtain ⟨F', hF', -, hmark'⟩ := exists_prepared h P.prepared hg'
    obtain ⟨j, hj, hij⟩ := hmark.exists_ins hi
    obtain ⟨s₀, hs₀, hss⟩ := hmark'.exists_ins hs
    exact P.unused F hF j hj v (hij.op ▸ hv) k hk
      ⟨F', hF', s₀, hs₀, (hss.isStoreTo_eq "PC").symm.trans hst, hss.id.symm.trans hid⟩
  direct := P.tagsStored h (by decide)

theorem StartsBehindTrace.mark (h : StartsBehindTrace F) (targets : List UInt64) :
    StartsBehindTrace (MarkFuncEntry.mark targets F) := by
  unfold MarkFuncEntry.mark
  split_ifs
  · rcases MarkFuncEntry.blocks_setEntryName F with heq | ⟨b, bs, s, hb, heq⟩
    · rwa [heq]
    · rw [heq]
      intro e he
      obtain rfl := Option.some.inj he
      exact h b (by rw [hb]; rfl)
  · exact h

theorem instrs_mark (targets : List UInt64) (F : Func) :
    (MarkFuncEntry.mark targets F).instrs = F.instrs := by
  unfold MarkFuncEntry.mark
  split_ifs
  · exact MarkFuncEntry.instrs_func_setEntryName F
  · rfl

namespace FinalPasses

variable {P : PreparedModule} (R : FinalPasses P.module)

/-- The last passes take instructions away and add none. -/
theorem exists_marked_of_traceless : ∀ g' ∈ R.traceless.blockFunctions,
    ∃ g ∈ R.marked.blockFunctions, ∀ i ∈ g'.instrs, i ∈ g.instrs := by
  intro g' hg'
  obtain ⟨targets, -, hentries⟩ := MarkFuncEntry.runOnModule_eq R.markfuncentry
  obtain ⟨hmem, hblock⟩ := List.mem_filter.mp hg'
  rw [R.rmbranchtrace, hentries] at hmem
  obtain ⟨g, hg, rfl⟩ := List.mem_map.mp hmem
  obtain ⟨f, hf, rfl⟩ := List.mem_map.mp hg
  refine ⟨f, List.mem_filter.mpr ⟨hf, ?_⟩, fun i hi =>
    instrs_mark targets f ▸ mem_instrs_eraseTraces hi⟩
  exact (MarkFuncEntry.isBlockFunction_mark targets f).symm.trans hblock

/-- **What `BuildFunctions` gets is a tagged module, and the tags of direct calls and jumps are
true.** -/
theorem exists_tagged : ∃ T : TaggedModule, T.module = R.traceless ∧ ExitsTrue R.traceless ∧
    ∀ k ∈ directTags, TagsStored R.traceless k := by
  obtain ⟨targets, -, hentries⟩ := MarkFuncEntry.runOnModule_eq R.markfuncentry
  have hstarts : ∀ g ∈ (MarkFuncEntry.TaggedModule.mark (P.marked R.armmark) targets).module.blockFunctions,
      StartsBehindTrace g := by
    intro g hg
    obtain ⟨hmem, hblock⟩ := List.mem_filter.mp hg
    obtain ⟨f, hf, rfl⟩ := List.mem_map.mp hmem
    rw [MarkFuncEntry.isBlockFunction_mark] at hblock
    obtain ⟨F, hF, -, hmark⟩ :=
      exists_prepared R.armmark P.prepared (List.mem_filter.mpr ⟨hf, hblock⟩)
    exact (hmark.startsBehindTrace (P.startsBehindTrace F hF)).mark targets
  have htagged : ((MarkFuncEntry.TaggedModule.mark (P.marked R.armmark) targets).eraseTraces
      hstarts).module = R.traceless := by
    rw [R.rmbranchtrace, hentries]
    rfl
  exact ⟨_, htagged, (P.exitsTrue R.armmark).of_subset R.exists_marked_of_traceless,
    fun k hk => (P.tagsStored R.armmark hk).of_subset R.exists_marked_of_traceless⟩

end FinalPasses

/-! ## Three block-functions -/

def boundsOf (pcStart pcEnd : UInt64) : Metadata :=
  [tagPC .BB_pcStart pcStart, tagPC .BB_pcEnd pcEnd]

/-- A branch is traced, and `0x8000` jumps to `0xa000`. -/
def tracedJump : Func :=
  exitFunc "void-tcg-llvm-tb-0-8000" "entry" 1
    [⟨some 10, .store (.constInt 8 1) (.constCast (.constInt 64 0x1000)), boundsOf 0x8000 0x8004⟩,
      ⟨some 11, .load (.global "R3"), boundsOf 0x8000 0x8004⟩]
    ⟨some 12, .store (.constInt 32 0xa000) (.global "PC"), boundsOf 0x8000 0x8004⟩

/-- `0xa000` returns through `LR`. -/
def returnsLR : Func :=
  exitFunc "void-tcg-llvm-tb-1-a000" "entry" 2
    [⟨some 20, .load (.global "LR"), boundsOf 0xa000 0xa004⟩,
      ⟨some 21, .binop .and (.inst 20) (.constInt 32 0xfffffffe), boundsOf 0xa000 0xa004⟩]
    ⟨some 22, .store (.inst 21) (.global "PC"), boundsOf 0xa000 0xa004⟩

/-- `0x8004` calls `0xa000`. -/
def linksLR : Func :=
  exitFunc "void-tcg-llvm-tb-2-8004" "entry" 3
    [⟨some 30, .store (.constInt 32 0x8008) (.global "LR"), boundsOf 0x8004 0x8008⟩]
    ⟨some 31, .store (.constInt 32 0xa000) (.global "PC"), boundsOf 0x8004 0x8008⟩

theorem preparedBlock_exit {b : BasicBlock} {pre : List Instr} {s r : Instr}
    (heq : b.instrs = pre ++ [s, r]) (hpre : ∀ i ∈ pre, i.isTerminator = false ∧
      i.has .INS_fakeReturn = false ∧ i.isStoreTo "PC" = false)
    (hs : s.isStoreTo "PC" = true ∧ s.has .INS_fakeReturn = false) (hr : r.op = .ret none)
    (hfake : r.has .INS_fakeReturn = true) : PreparedBlock b :=
  .exit (show b.instrs = pre ++ s :: ([] ++ [r]) from heq)
    (fun i hi => ⟨(hpre i hi).1, (hpre i hi).2.1, (hpre i hi).2.2⟩) (by simp) hs.1 hs.2
    ⟨none, hr⟩ hfake

theorem constants_of_all {F : Func}
    (hall : ∀ s ∈ F.instrs, ((s.storeTo? "PC").bind Value.constInt?).all (·.toNat < 2 ^ 63) =
      true) :
    ∀ s ∈ F.instrs, ∀ v c, s.storeTo? "PC" = some v → v.constInt? = some c → c.toNat < 2 ^ 63 := by
  intro s hs v c hv hc
  have h := hall s hs
  rw [hv, Option.bind_some, hc] at h
  exact of_decide_eq_true h

theorem prepared_traced : ∀ F ∈ [tracedJump, returnsLR, linksLR], Prepared F := by
  intro F hF
  simp only [List.mem_cons, List.not_mem_nil, or_false] at hF
  rcases hF with rfl | rfl | rfl
  all_goals
    refine ⟨by decide, by decide, fun b hb => ?_, by decide, by decide, by decide, by decide,
      constants_of_all (by decide)⟩
    obtain rfl := List.mem_singleton.mp hb
    exact preparedBlock_exit rfl (by decide) (by decide) rfl rfl

theorem blockFunctions_traced : (⟨[tracedJump, returnsLR, linksLR]⟩ : Module).blockFunctions =
    [tracedJump, returnsLR, linksLR] := by
  have h0 : tracedJump.isBlockFunction = true := by decide
  have h1 : returnsLR.isBlockFunction = true := by decide
  have h2 : linksLR.isBlockFunction = true := by decide
  simp [Module.blockFunctions, h0, h1, h2]

def tracedModule : PreparedModule where
  module := ⟨[tracedJump, returnsLR, linksLR]⟩
  prepared := by
    rw [blockFunctions_traced]
    exact prepared_traced
  startsBehindTrace := by
    rw [blockFunctions_traced]
    intro F hF e he
    simp only [List.mem_cons, List.not_mem_nil, or_false] at hF
    rcases hF with rfl | rfl | rfl <;>
      (obtain rfl := Option.some.inj he; exact ⟨_, rfl, by decide⟩)
  start_inj := by
    have h0 : getPCStartOfFunc tracedJump = some 0x8000 := by decide
    have h1 : getPCStartOfFunc returnsLR = some 0xa000 := by decide
    have h2 : getPCStartOfFunc linksLR = some 0x8004 := by decide
    rw [blockFunctions_traced]
    simp [h0, h1, h2]
  ids_nodup := by
    rw [blockFunctions_traced]
    simp [tracedJump, returnsLR, linksLR, exitFunc, Func.blockIds]
  unused := by
    unfold ExitId
    rw [blockFunctions_traced]
    have hid : ∀ g ∈ [tracedJump, returnsLR, linksLR], ∀ s ∈ g.instrs, s.isStoreTo "PC" = true →
        s.id ∈ [some 12, some 22, some 31] := by
      decide
    have hop : ∀ g ∈ [tracedJump, returnsLR, linksLR], ∀ i ∈ g.instrs, ∀ k ∈ [12, 22, 31],
      Value.inst k ∉ i.op.operands := by decide
    rintro g hg i hi v hv k rfl ⟨g', hg', s, hs, hstore, hk⟩
    have hmem := hid g' hg' s hs hstore
    rw [hk] at hmem
    exact hop g hg i hi k (by simpa using hmem) hv

def tracedMarked : Module :=
  (runOnFunctions ARMMark.runOnFunction tracedModule.module).get (by decide)

def tracedEntries : Module := (MarkFuncEntry.runOnModule tracedMarked).get (by decide)

def tracedTraceless : Module :=
  ⟨tracedEntries.funcs.map fun f => (RemoveBranchTrace.runOnFunction f).1⟩

/-- The passes get through. -/
def tracedRun : FinalPasses tracedModule.module where
  marked := tracedMarked
  entries := tracedEntries
  traceless := tracedTraceless
  armmark := (Option.some_get _).symm
  markfuncentry := (Option.some_get _).symm
  rmbranchtrace := rfl

theorem exists_tagged_tracedRun : ∃ T : TaggedModule, T.module = tracedTraceless ∧
    ExitsTrue tracedTraceless ∧ ∀ k ∈ directTags, TagsStored tracedTraceless k :=
  tracedRun.exists_tagged

end Bin2llvm.BuildFunctions
