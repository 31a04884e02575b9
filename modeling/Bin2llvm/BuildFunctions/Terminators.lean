import Bin2llvm.BuildFunctions.Tagged

/-!
# Bin2llvm.BuildFunctions.Terminators — do built functions have one terminator in each block?

`fixupIndirectJumps` removes the fake return of every indirect jump it collected, but skips a switch
whose index value it does not find before the switch is created.  Such a block is left without a
terminator.

* `makeFunctionForward_wellFormed_iff`: a function is built and well-formed exactly when the index
  value of every complete switch is found.
-/

namespace Bin2llvm

/-- Every block ends in its only terminator, and nothing goes back to the entry block. -/
structure Func.WellFormed (f : Func) : Prop where
  terminated : ∀ b ∈ f.blocks, b.Terminated
  entry : ∀ e, f.blocks.head? = some e → ∀ i ∈ f.instrs, e.id ∉ i.op.successors

theorem Instr.successors_of_not_isTerminator {i : Instr} (h : i.isTerminator = false) :
    i.op.successors = [] := by
  unfold Instr.isTerminator at h
  cases ho : i.op <;> simp_all [Op.isTerminator, Op.successors]

namespace BuildFunctions

open FixOverlappedBBs

variable {b : BasicBlock} {pre mid : List Instr} {s r t : Instr} {k : ExitKind} {m₀ m₁ m₂ : BBMap}
variable {fakeBB : BlockId}

/-! ## Terminators -/

theorem terminated_fresh {is : List Instr} (h : ∀ i ∈ is, i.isTerminator = false) {o : Op}
    (ho : o.isTerminator = true) (heq : b.instrs = is ++ [Instr.fresh o]) : b.Terminated :=
  ⟨is, Instr.fresh o, heq, ho, h⟩

theorem InnerShape.terminated (h : InnerShape b pre t) : b.Terminated :=
  ⟨pre, t, h.instrs, h.term.terminator, fun i hi => (h.pre_plain i hi).notTerminator⟩

namespace ExitShape

variable (e : ExitShape k b pre s mid r)

include e

theorem body_notTerminator : ∀ i ∈ pre ++ s :: mid, i.isTerminator = false := by
  intro i hi
  rcases List.mem_append.mp hi with hi | hi
  · exact (e.pre_plain i hi).notTerminator
  · rcases List.mem_cons.mp hi with rfl | hi
    · exact e.store.isTerminator
    · exact (e.mid_plain i hi).notTerminator

theorem rest_notTerminator : ∀ i ∈ pre ++ mid, i.isTerminator = false := by
  intro i hi
  rcases List.mem_append.mp hi with hi | hi
  · exact (e.pre_plain i hi).notTerminator
  · exact (e.mid_plain i hi).notTerminator

theorem terminated : b.Terminated := by
  obtain ⟨v, hv⟩ := e.ret.isRet
  refine ⟨pre ++ s :: mid, r, by rw [e.instrs]; simp, ?_, e.body_notTerminator⟩
  simp [Instr.isTerminator, hv, Op.isTerminator]

end ExitShape

theorem switchOp_eq (m₂ : BBMap) (fakeBB : BlockId) (v : Value) (h : SwitchTagsRead s) :
    ∃ d cs, switchOp m₂ fakeBB s v = some (.switch v d cs) := by
  obtain ⟨default_pc, cnt, idx, pcs, hd, hn, hi, hp⟩ := h
  exact ⟨_, _, by simp [switchOp, hd, hn, hi, hp]; exact ⟨rfl, rfl⟩⟩

/-- What an indirect jump gets. -/
theorem indirectTerms_eq (m₂ : BBMap) (fakeBB : BlockId) (hread : switchComplete s = true →
    SwitchTagsRead s) (is : List Instr) :
    (∃ o, indirectTerms m₂ fakeBB is s = [o] ∧ o.isTerminator = true) ∧
        (switchComplete s = true → ∃ v, getValueSwitchedOn is s = some (some v)) ∨
      indirectTerms m₂ fakeBB is s = [] ∧ switchComplete s = true ∧
        ¬ ∃ v, getValueSwitchedOn is s = some (some v) := by
  unfold indirectTerms switchTerms
  by_cases hc : switchComplete s = true
  · rw [if_pos hc, if_pos hc]
    rcases hv : getValueSwitchedOn is s with _ | _ | v
    · exact Or.inr ⟨rfl, hc, by simp⟩
    · exact Or.inr ⟨rfl, hc, by simp⟩
    · obtain ⟨d, cs, hsw⟩ := switchOp_eq m₂ fakeBB v (hread hc)
      exact Or.inl ⟨⟨.switch v d cs, by simp [hsw], rfl⟩, fun _ => ⟨v, rfl⟩⟩
  · rw [if_neg hc]
    exact Or.inl ⟨⟨.br fakeBB, rfl, rfl⟩, fun h => absurd h hc⟩

/-- After the fixups an exit has its one terminator, unless it is a switch whose index value was not
found. -/
theorem ExitShape.terminated_finalBlock_iff (e : ExitShape k b pre s mid r)
    (hread : s.has .INS_indirectJump = true → switchComplete s = true → SwitchTagsRead s) :
    (finalBlock m₀ m₁ m₂ fakeBB b).Terminated ↔
      (k = .indirectJump → switchComplete s = true →
        ∃ v, getValueSwitchedOn b.instrs s = some (some v)) := by
  cases k with
  | call =>
    refine iff_of_true ?_ (by simp)
    rw [e.finalBlock_call]
    cases hc : callTarget m₀ s with
    | some bb =>
      exact terminated_fresh e.body_notTerminator (o := .br bb) rfl
        (by simp [e.callsBlock_of_some hc])
    | none =>
      obtain ⟨v, hv⟩ := e.ret.isRet
      refine ⟨pre ++ markUnresolved m₀ s :: mid, r, by simp [e.callsBlock_of_none hc], ?_,
        fun i hi => ?_⟩
      · simp [Instr.isTerminator, hv, Op.isTerminator]
      · have hs : (markUnresolved m₀ s).isTerminator = false := by
          rw [Instr.isTerminator, op_markUnresolved]
          exact e.store.isTerminator
        rcases List.mem_append.mp hi with hi | hi
        · exact (e.pre_plain i hi).notTerminator
        · rcases List.mem_cons.mp hi with rfl | hi
          · exact hs
          · exact (e.mid_plain i hi).notTerminator
  | directJump =>
    refine iff_of_true ?_ (by simp)
    rw [e.finalBlock_directJump]
    cases hj : jumpTarget m₁ s with
    | some u =>
      obtain ⟨s', bb⟩ := u
      obtain ⟨rfl, -⟩ := jumpTarget_eq_some hj
      exact terminated_fresh e.rest_notTerminator (o := .br bb) rfl
        (by simp [e.jumpsBlock_of_some hj])
    | none => rw [e.jumpsBlock_of_none hj]; exact e.terminated
  | indirectJump =>
    rw [e.finalBlock_indirectJump]
    have hk : s.has .INS_indirectJump = true := e.store.hasTag_self
    -- a switch, a branch, or nothing where no value was found
    rcases indirectTerms_eq m₂ fakeBB (hread hk) b.instrs with ⟨⟨o, ho, hterm⟩, hfound⟩ |
      ⟨hnil, hc, hno⟩
    · refine iff_of_true ?_ (fun _ => hfound)
      exact terminated_fresh e.body_notTerminator (o := o) hterm (by simp [ho])
    · refine iff_of_false ?_ (fun h => hno (h rfl hc))
      rintro ⟨is, t, heq, ht, -⟩
      have hmem : t ∈ pre ++ s :: mid := by
        rw [hnil] at heq
        simp only [List.map_nil, List.append_nil] at heq
        rw [heq]
        simp
      rw [e.body_notTerminator t hmem] at ht
      simp at ht
  | ret =>
    refine iff_of_true ?_ (by simp)
    exact terminated_fresh e.rest_notTerminator (o := .ret none) rfl (by simp [e.finalBlock_ret])

theorem mem_append_fresh {is : List Instr} {o : Op} {i : Instr} (hi : i ∈ is ++ [Instr.fresh o]) :
    i ∈ is ∨ i.op = o := by
  rcases List.mem_append.mp hi with hi | hi
  · exact .inl hi
  · exact .inr (by rw [List.mem_singleton.mp hi]; rfl)

/-- An instruction of an exit after the fixups is an old one, up to its metadata, or a new
terminator. -/
theorem ExitShape.mem_finalBlock (e : ExitShape k b pre s mid r) {i : Instr}
    (hi : i ∈ (finalBlock m₀ m₁ m₂ fakeBB b).instrs) : (∃ j ∈ b.instrs, i.op = j.op) ∨
      (∃ bb, callTarget m₀ s = some bb ∧ i.op = .br bb) ∨ (∃ bb, jumpTarget m₁ s = some (s, bb) ∧
        i.op = .br bb) ∨
      (k = .indirectJump ∧ i.op ∈ indirectTerms m₂ fakeBB b.instrs s) ∨ i.op = .ret none := by
  -- what stays of the block, with the store and without it
  have hbody : ∀ j ∈ pre ++ s :: mid, ∃ j' ∈ b.instrs, j.op = j'.op := by
    intro j hj
    rw [e.instrs, ← List.cons_append, ← List.append_assoc]
    exact ⟨j, List.mem_append_left _ hj, rfl⟩
  have hrest : ∀ j ∈ pre ++ mid, ∃ j' ∈ b.instrs, j.op = j'.op := fun j hj =>
    hbody j ((List.mem_append.mp hj).elim (List.mem_append_left _) fun h => List.mem_append_right _
      (List.mem_cons_of_mem _ h))
  cases k with
  | call =>
    rw [e.finalBlock_call] at hi
    cases hc : callTarget m₀ s with
    | some bb =>
      rw [e.callsBlock_of_some hc] at hi
      rcases mem_append_fresh (show i ∈ (pre ++ s :: mid) ++
        [Instr.fresh (.br bb)] by simpa using hi) with hi | hi
      · exact Or.inl (hbody i hi)
      · exact Or.inr (Or.inl ⟨bb, rfl, hi⟩)
    | none =>
      rw [e.callsBlock_of_none hc] at hi
      refine Or.inl ?_
      rw [e.instrs]
      rcases List.mem_append.mp hi with hi | hi
      · exact ⟨i, List.mem_append_left _ hi, rfl⟩
      · rcases List.mem_cons.mp hi with rfl | hi
        · exact ⟨s, List.mem_append_right _ List.mem_cons_self, op_markUnresolved m₀ s⟩
        · exact ⟨i, List.mem_append_right _ (List.mem_cons_of_mem _ hi), rfl⟩
  | directJump =>
    rw [e.finalBlock_directJump] at hi
    cases hj : jumpTarget m₁ s with
    | some u =>
      obtain ⟨s', bb⟩ := u
      obtain ⟨rfl, -⟩ := jumpTarget_eq_some hj
      rw [e.jumpsBlock_of_some hj] at hi
      rcases mem_append_fresh (show i ∈ (pre ++ mid) ++
        [Instr.fresh (.br bb)] by simpa using hi) with hi | hi
      · exact Or.inl (hrest i hi)
      · exact Or.inr (Or.inr (Or.inl ⟨bb, rfl, hi⟩))
    | none =>
      rw [e.jumpsBlock_of_none hj] at hi
      exact Or.inl ⟨i, hi, rfl⟩
  | indirectJump =>
    rw [e.finalBlock_indirectJump] at hi
    rcases List.mem_append.mp (show i ∈ (pre ++ s :: mid) ++
        (indirectTerms m₂ fakeBB b.instrs s).map Instr.fresh by simpa using hi) with hi | hi
    · exact Or.inl (hbody i hi)
    · obtain ⟨o, ho, rfl⟩ := List.mem_map.mp hi
      exact Or.inr (Or.inr (Or.inr (Or.inl ⟨rfl, ho⟩)))
  | ret =>
    rw [e.finalBlock_ret] at hi
    rcases mem_append_fresh (show i ∈ (pre ++ mid) ++
      [Instr.fresh (.ret none)] by simpa using hi) with hi | hi
    · exact Or.inl (hrest i hi)
    · exact Or.inr (Or.inr (Or.inr (Or.inr hi)))

/-! ## Successors -/

theorem lookup_mem_blockIds {f : Func} {m : BBMap} (hm : buildBBMap f = some m) {pc : UInt64}
    {bb : BlockId} (h : m.lookup pc = some bb) : bb ∈ f.blockIds := by
  rw [lookup_buildBBMap hm] at h
  obtain ⟨b, hb, rfl⟩ := Option.map_eq_some_iff.mp h
  exact Func.mem_blockIds (List.mem_of_find?_eq_some hb)

/-- The successors of what an indirect jump gets are blocks of the map or the one for unknown
targets. -/
theorem successors_indirectTerms {P : BlockId → Prop} (hP : ∀ pc bb, m₂.lookup pc = some bb → P bb)
    (hfake : P fakeBB) {is : List Instr} {o : Op} (ho : o ∈ indirectTerms m₂ fakeBB is s) :
    ∀ bb ∈ o.successors, P bb := by
  have hor : ∀ pc, P (blockOr m₂ fakeBB pc) := by
    intro pc
    unfold blockOr
    cases h : m₂.lookup pc with
    | none => exact hfake
    | some bb => exact hP pc bb h
  have hcases : ∀ idx pcs i, ∀ c ∈ casesFrom m₂ fakeBB idx i pcs, P c.2 := by
    intro idx pcs
    induction pcs with
    | nil => intro i c hc; simp [casesFrom] at hc
    | cons pc pcs ih =>
      intro i c hc
      rcases List.mem_cons.mp hc with rfl | hc
      · exact hor pc
      · exact ih (i + 1) c hc
  unfold indirectTerms switchTerms at ho
  split_ifs at ho
  · obtain ⟨v, -, hsw⟩ := Option.bind_eq_some_iff.mp (Option.mem_toList.mp ho)
    unfold switchOp at hsw
    simp only [Option.bind_eq_bind, Option.bind_eq_some_iff, Option.pure_def,
      Option.some.injEq] at hsw
    obtain ⟨d, -, cnt, -, idx, -, pcs, -, rfl⟩ := hsw
    intro bb hbb
    rcases List.mem_cons.mp hbb with rfl | hbb
    · exact hor d
    · obtain ⟨c, hc, rfl⟩ := List.mem_map.mp hbb
      exact hcases idx pcs 0 c hc
  · rw [List.mem_singleton.mp ho]
    intro bb hbb
    rw [List.mem_singleton.mp hbb]
    exact hfake

namespace Explored

variable {T : TaggedModule} {bbs : List Func} {hasIndirectJump : Bool}
variable (E : Explored T bbs hasIndirectJump)
  (name : String)

include E

/-- No inlined instruction leaves the function. -/
theorem successors_inlined {b : BasicBlock}
    (hb : b ∈ (inlineBBs name bbs hasIndirectJump).1.blocks) :
    ∀ i ∈ b.instrs, ∀ bb ∈ i.op.successors,
      bb ∈ (inlineBBs name bbs hasIndirectJump).1.blockIds := by
  intro i hi bb hbb
  rcases (E.mem_blocks name).mp hb with ⟨g, hg, hbg⟩ | ⟨-, rfl⟩
  · have := (T.tagged g (E.sub g hg)).successors i (mem_instrs.mpr ⟨b, hbg, hi⟩) bb hbb
    obtain ⟨c, hc, rfl⟩ := List.mem_map.mp this
    exact Func.mem_blockIds ((E.mem_blocks name).mpr (Or.inl ⟨g, hg, hc⟩))
  · rw [List.mem_singleton.mp (show i ∈ [Instr.fresh (.ret none)] from hi)] at hbb
    simp [Instr.fresh, Op.successors] at hbb

/-- Every branch of the finished function goes to one of its blocks. -/
theorem successors_final (hm : Maps (inlineBBs name bbs hasIndirectJump).1 m₀ m₁ m₂)
    {b : BasicBlock} (hb : b ∈ (inlineBBs name bbs hasIndirectJump).1.blocks) :
    ∀ i ∈ (finalBlock m₀ m₁ m₂ (fakeId bbs) b).instrs, ∀ bb ∈ i.op.successors,
      bb ∈ (inlineBBs name bbs hasIndirectJump).1.blockIds := by
  have hold := E.successors_inlined name hb
  have hids1 : ((inlineBBs name bbs hasIndirectJump).1.mapBlocks (callsBlock m₀)).blockIds =
      (inlineBBs name bbs hasIndirectJump).1.blockIds := Func.blockIds_mapBlocks fun b => by simp
  have hids2 : ((inlineBBs name bbs hasIndirectJump).1.mapBlocks fun b =>
      jumpsBlock m₁ (callsBlock m₀ b)).blockIds =
      (inlineBBs name bbs hasIndirectJump).1.blockIds := Func.blockIds_mapBlocks fun b => by simp
  rcases E.shape name hb with ⟨pre, t, h⟩ | ⟨k, pre, s, mid, r, e⟩
  · rwa [h.finalBlock_eq]
  · intro i hi
    obtain ⟨j, hj, hop⟩ | ⟨bb, hc, hop⟩ | ⟨bb, hj, hop⟩ | ⟨rfl, hop⟩ | hop := e.mem_finalBlock hi
    · rw [hop]
      exact hold j hj
    · rw [hop]
      unfold callTarget at hc
      split_ifs at hc
      obtain ⟨pc, -, hl⟩ := Option.bind_eq_some_iff.mp hc
      intro x hx
      rw [List.mem_singleton.mp hx]
      exact lookup_mem_blockIds hm.calls hl
    · rw [hop]
      obtain ⟨-, -, pc, -, hl⟩ := jumpTarget_eq_some hj
      intro x hx
      rw [List.mem_singleton.mp hx]
      exact hids1 ▸ lookup_mem_blockIds hm.jumps hl
    · refine successors_indirectTerms (fun pc bb hl =>
        hids2 ▸ lookup_mem_blockIds hm.indirect hl) ?_ hop
      refine Func.mem_blockIds (b := fakeBlock bbs) ((E.mem_blocks name).mpr (Or.inr ⟨?_, rfl⟩))
      rcases (E.mem_blocks name).mp hb with ⟨g, hg, hbg⟩ | ⟨h, -⟩
      · exact E.indirect g hg s (mem_instrs.mpr ⟨b, hbg, e.mem_store⟩) e.store.hasTag_self
      · exact h
    · rw [hop]
      simp [Op.successors]

end Explored

/-! ## The entry block -/

/-- The entry fix-up: whatever jumps to the entry block jumps behind the new one. -/
theorem wellFormed_fixupEntry_iff {f : Func} (hentry : isEntryPoint f = true)
    (hsucc : ∀ i ∈ f.instrs, ∀ bb ∈ i.op.successors, bb ∈ f.blockIds) :
    (fixupEntry f).WellFormed ↔ ∀ b ∈ f.blocks, b.Terminated := by
  obtain ⟨name, blocks⟩ := f
  cases blocks with
  | nil => simp [isEntryPoint] at hentry
  | cons e bs =>
    have hname : e.name = "func_entry_point" := by simpa [isEntryPoint] using hentry
    unfold fixupEntry
    simp only [hname, true_and]
    by_cases hu : hasUses ⟨name, e :: bs⟩ e.id = true
    · rw [if_pos hu]
      constructor
      · intro h b hb
        exact h.terminated b (List.mem_cons_of_mem _ hb)
      · intro h
        refine ⟨fun b hb => ?_, fun b hb i hi hmem => ?_⟩
        · rcases List.mem_cons.mp hb with rfl | hb
          · exact ⟨[], _, rfl, rfl, by simp⟩
          · exact h b hb
        · obtain rfl := Option.some.inj hb
          -- the new block has an identity no branch of the function goes to
          have hfresh : ∀ bb ∈ (⟨name, e :: bs⟩ : Func).blockIds,
              bb ≠ (⟨name, e :: bs⟩ : Func).freshBlockId :=
            fun bb hbb => Nat.ne_of_lt (Func.lt_freshBlockId hbb)
          obtain ⟨c, hc, hic⟩ := mem_instrs.mp hi
          rcases List.mem_cons.mp hc with rfl | hc
          · rw [List.mem_singleton.mp hic] at hmem
            have : (⟨name, e :: bs⟩ : Func).freshBlockId = e.id := by
              simpa [Op.successors] using hmem
            exact hfresh e.id (by simp [Func.blockIds]) this.symm
          · exact hfresh _ (hsucc i (mem_instrs.mpr ⟨c, hc, hic⟩) _ hmem) rfl
    · rw [if_neg hu]
      refine ⟨fun h => h.terminated, fun h => ⟨h, fun b hb i hi hmem => hu ?_⟩⟩
      obtain rfl : e = b := by simpa using hb
      exact List.any_eq_true.mpr ⟨i, hi, by simpa using hmem⟩

/-- The index value of every complete switch of the block is found. -/
def SwitchesFound (b : BasicBlock) : Prop :=
  ∀ s ∈ b.instrs, s.has .INS_indirectJump = true → switchComplete s = true →
    ∃ v, getValueSwitchedOn b.instrs s = some (some v)

namespace Explored

variable {T : TaggedModule} {bbs : List Func} {hasIndirectJump : Bool}
variable (E : Explored T bbs hasIndirectJump)
  (name : String)

include E

theorem terminated_final_iff {b : BasicBlock}
    (hb : b ∈ (inlineBBs name bbs hasIndirectJump).1.blocks) :
    (finalBlock m₀ m₁ m₂ (fakeId bbs) b).Terminated ↔ SwitchesFound b := by
  rcases E.shape name hb with ⟨pre, t, h⟩ | ⟨k, pre, s, mid, r, e⟩
  · refine iff_of_true (by rw [h.finalBlock_eq]; exact h.terminated) fun s hs hind => ?_
    exact absurd (h.untagged s hs) (not_untagged (k := .indirectJump) hind)
  · rw [e.terminated_finalBlock_iff ((E.ready name hb).ok s e.mem_store).switch]
    constructor
    · intro h s' hs' hind hc
      obtain ⟨rfl, hk⟩ := e.eq_store hs' (j := .indirectJump) hind
      exact h hk.symm hc
    · rintro h rfl hc
      exact h s e.mem_store e.store.hasTag_self hc

/-- The block for unknown targets has no switch. -/
theorem switchesFound_blocks_iff :
    (∀ b ∈ (inlineBBs name bbs hasIndirectJump).1.blocks, SwitchesFound b) ↔
      ∀ g ∈ bbs, ∀ b ∈ g.blocks, SwitchesFound b := by
  constructor
  · intro h g hg b hb
    exact h b ((E.mem_blocks name).mpr (Or.inl ⟨g, hg, hb⟩))
  · intro h b hb
    rcases (E.mem_blocks name).mp hb with ⟨g, hg, hbg⟩ | ⟨-, rfl⟩
    · exact h g hg b hbg
    · intro s hs hind
      rw [List.mem_singleton.mp (show s ∈ [Instr.fresh (.ret none)] from hs)] at hind
      simp [Instr.fresh, Instr.has, Instr.getMetadata] at hind

/-- The finished function is an entry point of which no branch leaves the function. -/
theorem wellFormed_final_iff (hm : Maps (inlineBBs name bbs hasIndirectJump).1 m₀ m₁ m₂)
    {all : List (UInt64 × Func)} {startBB : Func}
    (hexplore : exploreBB all startBB = some (bbs, hasIndirectJump))
    (hentry : isEntryPoint startBB = true) :
    (fixupEntry ((inlineBBs name bbs hasIndirectJump).1.mapBlocks
      (finalBlock m₀ m₁ m₂ (fakeId bbs)))).WellFormed ↔
      ∀ g ∈ bbs, ∀ b ∈ g.blocks, SwitchesFound b := by
  have hpoint : isEntryPoint ((inlineBBs name bbs hasIndirectJump).1.mapBlocks
      (finalBlock m₀ m₁ m₂ (fakeId bbs))) = true := by
    unfold isEntryPoint at hentry ⊢
    cases he : startBB.blocks.head? with
    | none => rw [he] at hentry; simp at hentry
    | some e =>
      rw [he] at hentry
      rw [Func.blocks_mapBlocks, List.head?_map, head?_inlineBBs hexplore name he]
      simpa [finalBlock] using hentry
  rw [wellFormed_fixupEntry_iff hpoint ?_, ← E.switchesFound_blocks_iff name, Func.blocks_mapBlocks,
    List.forall_mem_map]
  · exact forall₂_congr fun b hb => E.terminated_final_iff name hb
  · intro i hi
    rw [Func.blockIds_mapBlocks fun b => by simp [finalBlock]]
    obtain ⟨b, hb, hib⟩ := mem_instrs.mp hi
    obtain ⟨c, hc, rfl⟩ := List.mem_map.mp hb
    exact E.successors_final name hm hc i hib

end Explored

/-- **A function is built and well-formed exactly when the index value of every complete switch in
it is found.** -/
theorem makeFunctionForward_wellFormed_iff (T : TaggedModule) {all : List (UInt64 × Func)}
    (hall : allBBs T.module = some all) {startBB : Func}
    (hstart : startBB ∈ T.module.blockFunctions) (hentry : isEntryPoint startBB = true)
    {bbs : List Func} {hasIndirectJump : Bool}
    (hexplore : exploreBB all startBB = some (bbs, hasIndirectJump)) (name : String) :
    (∃ f, makeFunctionForward all name startBB = some f ∧ (fixupEntry f).WellFormed) ↔
      ∀ g ∈ bbs, ∀ b ∈ g.blocks, ∀ s ∈ b.instrs, s.has .INS_indirectJump = true →
        switchComplete s = true → ∃ v, getValueSwitchedOn b.instrs s = some (some v) := by
  have E := explored T hall hstart hexplore
  obtain ⟨m₀, m₁, m₂, hm, hmake⟩ := E.makeFunctionForward_eq name hexplore
  have hwf := E.wellFormed_final_iff name hm hexplore hentry
  constructor
  · rintro ⟨f, hf, hwell⟩
    obtain ⟨-, rfl⟩ := (hmake f).mp hf
    exact hwf.mp hwell
  · intro h
    have hends : SwitchSearchEnds (inlineBBs name bbs hasIndirectJump).1 := by
      intro b hb s hs hind hc
      obtain ⟨v, hv⟩ := (E.switchesFound_blocks_iff name).mpr h b hb s hs hind hc
      rw [hv]
      rfl
    exact ⟨_, (hmake _).mpr ⟨hends, rfl⟩, hwf.mpr h⟩

/-! ## A jump table -/

def tagPC (k : MDKind) (pc : UInt64) : MDKind × MDNode := (k, .str (hex pc))

/-- A block-function of one exit: computations, a store to `PC`, and the fake return. -/
def exitFunc (name bbName : String) (bb : BlockId) (pre : List Instr) (s : Instr) : Func :=
  ⟨name, [⟨bb, bbName, pre ++ [s, ⟨none, .ret none, [(.INS_fakeReturn, .str "true")]⟩]⟩]⟩

/-- `0x8000` jumps through a table with entries of `2 ^ shift` bytes, to `0x9000` in all cases. -/
def tableJump (shift : UInt64) : Func :=
  exitFunc "void-tcg-llvm-tb-0-8000" "func_entry_point" 1
    [⟨some 10, .load (.global "R3"), [tagPC .BB_pcStart 0x8000]⟩,
      ⟨some 11, .binop .shl (.inst 10) (.constInt 32 shift), [tagPC .BB_pcStart 0x8000]⟩,
      ⟨some 12, .load (.inst 11), [tagPC .BB_pcStart 0x8000]⟩]
    ⟨some 13, .store (.inst 12) (.global "PC"),
      [tagPC .BB_pcStart 0x8000, (.INS_indirectJump, .str "true"),
      tagPC .INS_switch_cnt 1, tagPC (.INS_switch_case 0) 0x9000, tagPC .INS_switch_default 0x9000,
      tagPC .INS_switch_idx_start 0]⟩

/-- `0x9000` jumps to `0xa000` and does nothing else. -/
def onlyJump : Func :=
  exitFunc "void-tcg-llvm-tb-1-9000" "entry" 2 []
    ⟨some 20, .store (.constInt 32 0xa000) (.global "PC"),
      [tagPC .BB_pcStart 0x9000, tagPC .INS_directJump 0xa000]⟩

/-- `0xa000` returns. -/
def onlyReturn : Func :=
  exitFunc "void-tcg-llvm-tb-2-a000" "entry" 3 [⟨some 29, .load (.global "LR"),
    [tagPC .BB_pcStart 0xa000]⟩]
    ⟨some 30, .store (.inst 29) (.global "PC"),
      [tagPC .BB_pcStart 0xa000, (.INS_return, .str "true")]⟩

theorem taggedFunc_exitFunc {name bbName : String} {bb : BlockId} {pre : List Instr} {s : Instr}
    {k : ExitKind} (pc : UInt64) (hs : ExitStore k s) (hpre : ∀ i ∈ pre, Plain i)
    (hpc : ∀ i ∈ pre ++ [s], getBBStart i = some pc)
    (hidx : (getHexMetadataFromIns s .INS_switch_idx_start).isSome ∨
      s.has .INS_switch_idx_start = false)
    (hpreidx : ∀ i ∈ pre, i.has .INS_switch_idx_start = false)
    (hname : bbName ≠ "fake_indirect_bb") : TaggedFunc (exitFunc name bbName bb pre s) := by
  have hmem : ∀ i ∈ (exitFunc name bbName bb pre s).instrs,
      i ∈ pre ++ [s] ∨ i = ⟨none, .ret none, [(.INS_fakeReturn, .str "true")]⟩ := by
    intro i hi
    simpa [exitFunc, Func.instrs, or_assoc] using hi
  have hstart : getPCStartOfFunc (exitFunc name bbName bb pre s) = some pc := by
    cases pre with
    | nil => exact hpc s (by simp)
    | cons i pre => exact hpc i (by simp)
  refine ⟨⟨pc, hstart⟩, fun b hb => Or.inr ?_, fun i hi h => ?_, fun i hi h => ?_, fun b hb => ?_,
    fun i hi t ht => ?_⟩
  · rw [List.mem_singleton.mp (show b ∈ [_] from hb)]
    exact ⟨k, pre, s, [], _, rfl, hpre, by simp, hs, ⟨none, rfl⟩, fun k => by cases k <;> rfl, rfl⟩
  · rcases hmem i hi with hi | rfl
    · rw [hpc i hi, hstart]
    · simp [Instr.has, Instr.getMetadata] at h
  · rcases hmem i hi with hi | rfl
    · rcases List.mem_append.mp hi with hi | hi
      · rw [hpreidx i hi] at h; simp at h
      · rw [List.mem_singleton.mp hi] at h ⊢
        exact hidx.resolve_right (by simp [h])
    · simp [Instr.has, Instr.getMetadata] at h
  · rw [List.mem_singleton.mp (show b ∈ [_] from hb)]
    exact hname
  · have hnil : i.op.successors = [] := by
      rcases hmem i hi with hi | rfl
      · refine Instr.successors_of_not_isTerminator ?_
        rcases List.mem_append.mp hi with hi | hi
        · exact (hpre i hi).notTerminator
        · exact List.mem_singleton.mp hi ▸ hs.isTerminator
      · rfl
    rw [hnil] at ht
    simp at ht

theorem taggedFunc_tableJump (shift : UInt64) : TaggedFunc (tableJump shift) := by
  have hpc : getHexMetadataFromIns ⟨none, .unreachable, [tagPC .BB_pcStart 0x8000]⟩ .BB_pcStart =
      some 0x8000 := by
    decide
  have hplain : ∀ id o, Op.isTerminator o = false → Plain ⟨id, o, [tagPC .BB_pcStart 0x8000]⟩ :=
      fun id o ho =>
    ⟨ho, fun k => by cases k <;> rfl, rfl⟩
  refine taggedFunc_exitFunc (k := .indirectJump) 0x8000 ⟨rfl, fun k =>
    by cases k <;> rfl, rfl⟩ ?_ ?_ (Or.inl rfl) ?_ (by decide)
  · simpa using ⟨hplain _ _ rfl, hplain _ _ rfl, hplain _ _ rfl⟩
  · simpa [getBBStart, getHexMetadataFromIns, Instr.getMetadata, tagPC] using hpc
  · simp [Instr.has, Instr.getMetadata, tagPC]

theorem taggedFunc_onlyJump : TaggedFunc onlyJump :=
  taggedFunc_exitFunc (k := .directJump) 0x9000 ⟨rfl, fun k => by cases k <;> rfl, rfl⟩
    (by simp) (by decide) (Or.inr rfl) (by simp) (by decide)

theorem taggedFunc_onlyReturn : TaggedFunc onlyReturn :=
  taggedFunc_exitFunc (k := .ret) 0xa000 ⟨rfl, fun k => by cases k <;> rfl, rfl⟩
    (by simpa using ⟨rfl, fun k => by cases k <;> rfl, rfl⟩) (by decide) (Or.inr rfl)
    (by decide) (by decide)

/-- The module of a function at `0x8000` and of `0xa000`, where it goes. -/
def callModule (f : Func) (hf : TaggedFunc f) (hname : f.name = "void-tcg-llvm-tb-0-8000")
    (hstart : getPCStartOfFunc f = some 0x8000) (hids : f.blockIds.Nodup ∧ 3 ∉ f.blockIds) :
    TaggedModule where
  module := ⟨[f, onlyReturn]⟩
  tagged := by
    intro g hg
    rcases List.mem_pair.mp (List.mem_of_mem_filter hg) with rfl | rfl
    · exact hf
    · exact taggedFunc_onlyReturn
  start_inj := by
    have h : getPCStartOfFunc onlyReturn = some 0xa000 := by decide
    intro g hg g' hg' heq
    rcases List.mem_pair.mp (List.mem_of_mem_filter hg) with rfl | rfl <;>
      rcases List.mem_pair.mp (List.mem_of_mem_filter hg') with rfl | rfl
    · rfl
    · rw [hstart, h] at heq
      simp at heq
    · rw [hstart, h] at heq
      simp at heq
    · rfl
  ids_nodup := by
    have h1 : f.isBlockFunction = true := by
      unfold Func.isBlockFunction
      rw [hname]
      decide
    have h2 : onlyReturn.isBlockFunction = true := by decide
    have h3 : onlyReturn.blockIds = [3] := rfl
    simpa [Module.blockFunctions, h1, h2, h3, List.nodup_append] using ⟨hids.1, fun a ha h =>
      hids.2 (h ▸ ha)⟩

theorem blockFunctions_tableJump (shift : UInt64) :
    (⟨[tableJump shift, onlyJump, onlyReturn]⟩ : Module).blockFunctions = [tableJump shift,
      onlyJump, onlyReturn] := by
  have h0 : Func.isBlockFunction (tableJump shift) = true :=
    show strstr "void-tcg-llvm-tb-0-8000" "void-tcg-llvm-tb" = true by decide
  have h1 : Func.isBlockFunction onlyJump = true := by decide
  have h2 : Func.isBlockFunction onlyReturn = true := by decide
  simp [Module.blockFunctions, h0, h1, h2]

/-- A table jump, with all of its targets. -/
def tableModule (shift : UInt64) : TaggedModule where
  module := ⟨[tableJump shift, onlyJump, onlyReturn]⟩
  tagged := by
    rw [blockFunctions_tableJump]
    simpa using ⟨taggedFunc_tableJump shift, taggedFunc_onlyJump, taggedFunc_onlyReturn⟩
  start_inj := by
    have h0 : getPCStartOfFunc (tableJump shift) = some 0x8000 :=
      show some (strtoll (hex 0x8000)) = _ by decide
    have h1 : getPCStartOfFunc onlyJump = some 0x9000 := by decide
    have h2 : getPCStartOfFunc onlyReturn = some 0xa000 := by decide
    rw [blockFunctions_tableJump]
    simp [h0, h1, h2]
  ids_nodup := by
    rw [blockFunctions_tableJump]
    simp [tableJump, onlyJump, onlyReturn, exitFunc, Func.blockIds]

/-- With entries of 8 bytes the index is not found, and the entry block ends without a
terminator. -/
theorem tableJump_not_wellFormed :
    allBBs (tableModule 3).module = some [(0xa000, onlyReturn), (0x9000, onlyJump),
      (0x8000, tableJump 3)] ∧
      ∃ f, makeFunctionForward [(0xa000, onlyReturn), (0x9000, onlyJump),
        (0x8000, tableJump 3)] "final-func"
        (tableJump 3) = some f ∧ ¬ (fixupEntry f).WellFormed := by
  refine ⟨by decide, ⟨"final-func", [⟨1, "func_entry_point", (tableJump 3).instrs.take 4⟩,
    ⟨2, "entry", [Instr.fresh (.br 3)]⟩,
    ⟨3, "entry", onlyReturn.instrs.take 1 ++ [Instr.fresh (.ret none)]⟩,
    ⟨4, "fake_indirect_bb", [Instr.fresh (.ret none)]⟩]⟩, by decide, fun h => ?_⟩
  obtain ⟨is, t, heq, ht, -⟩ := h.terminated ⟨1, "func_entry_point",
    (tableJump 3).instrs.take 4⟩ (by decide)
  have hno : ∀ i ∈ (tableJump 3).instrs.take 4, i.isTerminator = false := by decide
  have hmem : t ∈ (tableJump 3).instrs.take 4 := by
    have : t ∈ is ++ [t] := by simp
    rwa [← heq] at this
  rw [hno t hmem] at ht
  simp at ht

/-- With entries of 4 bytes the index is found. -/
theorem tableJump_wellFormed :
    ∃ f, makeFunctionForward [(0xa000, onlyReturn), (0x9000, onlyJump),
      (0x8000, tableJump 2)] "final-func" (tableJump 2) = some f ∧ (fixupEntry f).WellFormed := by
  have hexplore : exploreBB [(0xa000, onlyReturn), (0x9000, onlyJump), (0x8000, tableJump 2)]
      (tableJump 2) = some ([tableJump 2, onlyJump, onlyReturn], true) := by decide
  refine (makeFunctionForward_wellFormed_iff (tableModule 2) (by decide) (by decide)
    (by decide) hexplore "final-func").mpr ?_
  have hfound : ∀ g ∈ [tableJump 2, onlyJump, onlyReturn], ∀ b ∈ g.blocks, ∀ s ∈ b.instrs,
      s.has .INS_indirectJump = true → getValueSwitchedOn b.instrs s = some (some (.inst 10)) := by
      decide
  exact fun g hg b hb s hs hind _ => ⟨.inst 10, hfound g hg b hb s hs hind⟩

end BuildFunctions

end Bin2llvm
