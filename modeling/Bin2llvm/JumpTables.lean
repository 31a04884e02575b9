import Bin2llvm.RecursiveDescentDisassembler
import Bin2llvm.ReplaceConstantLoads
import Bin2llvm.BuildFunctions.Linking

/-!
# Bin2llvm.JumpTables — one jump table, read by two programs

The disassembler reads the entries of a jump table from the memory of the emulator and schedules
them without the thumb bit.  `ReplaceConstantLoads` reads them from the segment files and tags the
store to `PC`, and `BuildFunctions` makes the tags a switch.

* `loadedPC_eq`: both read the same, in the byte order of the host, from entries in a segment
  without the thumb bit.
* `lookup_casesFrom`: the values of a switch are distinct.
* `jumpTable_linked`: from the table to the switch.
-/

namespace Bin2llvm.JumpTables

open FixOverlappedBBs RecursiveDescentDisassembler ReplaceConstantLoads BuildFunctions

/-! ## The entries -/

variable {o : Options} {G : Guest} {cfg : Config} {info : JumpTableInfo}

/-- What the disassembler schedules for an entry. -/
def scheduledPC (G : Guest) (info : JumpTableInfo) (i : ℕ) : Option UInt64 :=
  (info.entryAddr i).map fun addr => realPC (readMemoryConcrete G addr)

/-- What `ReplaceConstantLoads` records for it. -/
def recordedPC (o : Options) (info : JumpTableInfo) (i : ℕ) : Option UInt64 :=
  (info.entryAddr i).bind (loadedPC o)

/-- The entry is in a segment, and its thumb bit is clear. -/
structure PlainEntry (o : Options) (G : Guest) (addr : UInt64) : Prop where
  inside : ∃ p ∈ o.memoryPools, p.inside addr = true
  even : readMemoryConcrete G addr &&& 1 = 0

theorem realPC_of_even {v : UInt64} (h : v &&& 1 = 0) : realPC v = v := by
  have hsplit : v &&& (~~~1 ||| 1) = v &&& ~~~1 ||| v &&& 1 :=
    UInt64.toBitVec_inj.mp BitVec.and_or_distrib_left
  have hall : v &&& (~~~1 ||| 1) = v := UInt64.toBitVec_inj.mp BitVec.and_allOnes
  rw [hall, h, UInt64.or_zero] at hsplit
  exact hsplit.symm

/-- Both programs read the same. -/
theorem loadedPC_eq (hpools : ∀ p ∈ o.memoryPools, p.Agrees G.memory)
    (hlittle : o.isBigEndian = false) {addr pc : UInt64} (hplain : PlainEntry o G addr)
    (h : loadedPC o addr = some pc) : pc = realPC (readMemoryConcrete G addr) := by
  obtain ⟨v, hv, rfl⟩ := Option.map_eq_some_iff.mp h
  obtain ⟨p, hp, hin⟩ := hplain.inside
  cases v with
  | none =>
    unfold getMemoryValue at hv
    split at hv
    case h_1 hfind => exact absurd hin (List.find?_eq_none.mp hfind p hp)
    case h_2 => obtain ⟨w, -, hw⟩ := Option.map_eq_some_iff.mp hv; cases hw
  | some v =>
    rw [realPC_of_even hplain.even, Option.getD_some, word_of_getMemoryValue hpools hv, hlittle]
    rfl

/-- Every entry is among the targets of the block. -/
theorem readMemoryConcrete_mem {pc : UInt64} {tb : TranslationBlock} {pcs : List UInt64}
    {cnt i : ℕ} {addr : UInt64} (hinfo : jumpTableOf cfg pc tb = some info)
    (hpcs : allPossiblePCs G cfg pc tb = some pcs) (hcnt : info.cnt_entries = some cnt)
    (hi : i < cnt) (haddr : info.entryAddr i = some addr) : readMemoryConcrete G addr ∈ pcs := by
  unfold allPossiblePCs at hpcs
  rw [hinfo] at hpcs
  obtain ⟨addrs, haddrs, rfl⟩ := Option.map_eq_some_iff.mp hpcs
  have hmem : addr ∈ addrs := by
    unfold JumpTableInfo.entryAddrs at haddrs
    rw [hcnt, Option.bind_eq_bind, Option.bind_some] at haddrs
    obtain ⟨b, hb, hib⟩ := OptionMapM.exists_of_mem haddrs (List.mem_range.mpr hi)
    rwa [Option.some.inj (haddr.symm.trans hib)]
  exact List.mem_append_right _ (List.mem_append_left _ (List.mem_map_of_mem hmem))

/-! ## The switch -/

/-- Where a switch with the default `d` and the cases `cs` goes. -/
def dispatch (d : BlockId) (cs : List (UInt64 × BlockId)) (w : UInt64) : BlockId :=
  (cs.lookup w).getD d

/-- The `i32` value of the `i`-th case. -/
def caseValue (idx_start : UInt64) (i : ℕ) : UInt64 := (idx_start + UInt64.ofNat i) % 0x100000000

theorem casesFrom_cons (m : BBMap) (fakeBB : BlockId) (idx pc : UInt64) (i : ℕ)
    (pcs : List UInt64) : casesFrom m fakeBB idx i (pc :: pcs) =
      (caseValue idx i, blockOr m fakeBB pc) :: casesFrom m fakeBB idx (i + 1) pcs := rfl

theorem caseValue_inj {idx : UInt64} {i j : ℕ} (hi : i < 2 ^ 32) (hj : j < 2 ^ 32)
    (h : caseValue idx i = caseValue idx j) : i = j := by
  have h' := congrArg UInt64.toNat h
  have hidx := idx.toNat_lt
  unfold caseValue at h'
  rw [UInt64.toNat_mod, UInt64.toNat_mod, UInt64.toNat_add, UInt64.toNat_add, UInt64.toNat_ofNat',
    UInt64.toNat_ofNat', show (0x100000000 : UInt64).toNat = 2 ^ 32 from rfl] at h'
  omega

theorem lookup_casesFrom_of_ne {m : BBMap} {fakeBB : BlockId} {idx : UInt64} {pcs : List UInt64}
    {i : ℕ} {w : UInt64} (h : ∀ n < pcs.length, w ≠ caseValue idx (i + n)) :
    (casesFrom m fakeBB idx i pcs).lookup w = none := by
  induction pcs generalizing i with
  | nil => rfl
  | cons pc pcs ih =>
    have hne : w ≠ caseValue idx i := h 0 (Nat.succ_pos _)
    rw [casesFrom_cons, List.lookup_cons, beq_eq_false_iff_ne.mpr hne]
    refine ih fun n hn => ?_
    rw [Nat.add_right_comm]
    exact h (n + 1) (Nat.succ_lt_succ hn)

/-- No case hides another one. -/
theorem lookup_casesFrom {m : BBMap} {fakeBB : BlockId} {idx : UInt64} {pcs : List UInt64}
    {i n : ℕ} {pc : UInt64} (hlen : i + pcs.length < 2 ^ 32) (hn : pcs[n]? = some pc) :
    (casesFrom m fakeBB idx i pcs).lookup (caseValue idx (i + n)) = some (blockOr m fakeBB pc) := by
  induction pcs generalizing i n with
  | nil => cases hn
  | cons p pcs ih =>
    rw [List.length_cons] at hlen
    rw [casesFrom_cons, List.lookup_cons]
    cases n with
    | zero =>
      obtain rfl : p = pc := Option.some.inj hn
      rw [Nat.add_zero, beq_self_eq_true]
    | succ n =>
      have hlt : n < pcs.length := (List.getElem?_eq_some_iff.mp (List.getElem?_cons_succ ▸ hn)).1
      have hne : caseValue idx (i + (n + 1)) ≠ caseValue idx i := fun heq => by
        have := caseValue_inj (by omega) (by omega) heq
        omega
      rw [beq_eq_false_iff_ne.mpr hne, show i + (n + 1) = i + 1 + n by omega]
      exact ih (by omega) hn

/-! ## From the table to the switch -/

/-- The tags of a jump table with `cnt` entries. -/
def switchKinds (cnt : ℕ) : List MDKind :=
  [.INS_switch_cnt, .INS_switch_default, .INS_switch_idx_start] ++ (List.range cnt).map
    .INS_switch_case

/-- What the two programs do with the entries: the disassembler has them among the targets `pcs`,
and the store `s` is tagged with what is scheduled for the plain ones. -/
structure EntriesAgree (o : Options) (G : Guest) (info : JumpTableInfo) (cnt : ℕ)
    (pcs : List UInt64) (s : Instr) : Prop where
  scheduled : ∀ i < cnt, ∃ addr, info.entryAddr i = some addr ∧ readMemoryConcrete G addr ∈ pcs
  recorded : ∀ i < cnt, ∀ addr, info.entryAddr i = some addr → PlainEntry o G addr →
    getHexMetadataFromIns s (.INS_switch_case i) = some (realPC (readMemoryConcrete G addr))

/-- A switch with the default `d` and the cases `cs` sends the index values of the table to the
blocks of its entries, and other values to the block of the default; a program counter that is not
in the map has the block `fakeBB`. -/
structure Switches (m : BBMap) (fakeBB : BlockId) (info : JumpTableInfo) (cnt : ℕ)
    (s : Instr) (d : BlockId) (cs : List (UInt64 × BlockId)) : Prop where
  inRange : ∀ i < cnt, ∃ pc, getHexMetadataFromIns s (.INS_switch_case i) = some pc ∧
    dispatch d cs (caseValue (throughHex info.idx_start) i) = blockOr m fakeBB pc
  outside : ∀ w, (∀ i < cnt, w ≠ caseValue (throughHex info.idx_start) i) →
    dispatch d cs w = blockOr m fakeBB (throughHex info.default_case_pc)

/-- The map that `fixupIndirectJumps` works with finds the entry blocks of the functions that have
kept their starts, and nothing at a program counter where no function starts. -/
structure FindsStarts (bbs : List Func) (m : BBMap) : Prop where
  kept : ∀ h ∈ bbs, ¬ LosesStart bbs h → ∀ start, getPCStartOfFunc h = some start →
    ∀ e, h.blocks.head? = some e → m.lookup start = some e.id
  unknown : ∀ start, (∀ h ∈ bbs, getPCStartOfFunc h ≠ some start) → m.lookup start = none

theorem tableTags_of_getMetadata {cnt : ℕ} {s s₁ : Instr} (h : TableTags o info cnt s₁)
    (heq : ∀ k ∈ switchKinds cnt, s.getMetadata k = s₁.getMetadata k) : TableTags o info cnt s := by
  have hget : ∀ k ∈ switchKinds cnt, getHexMetadataFromIns s k = getHexMetadataFromIns s₁ k := by
    intro k hk
    rw [getHexMetadataFromIns, heq k hk]
    rfl
  refine ⟨?_, ?_, ?_, fun i hi => ?_⟩
  · rw [hget _ (by simp [switchKinds]), h.cnt_eq]
  · rw [hget _ (by simp [switchKinds]), h.default_eq]
  · rw [hget _ (by simp [switchKinds]), h.idx_start_eq]
  · rw [hget _ (by simpa [switchKinds] using hi)]
    exact h.case_eq i hi

theorem entriesAgree_of_tableTags {cnt : ℕ} {s : Instr} (h : TableTags o info cnt s)
    (hpools : ∀ p ∈ o.memoryPools, p.Agrees G.memory) (hlittle : o.isBigEndian = false)
    {pc : UInt64} {tb : TranslationBlock} {pcs : List UInt64}
    (hinfo : jumpTableOf cfg pc tb = some info) (hpcs : allPossiblePCs G cfg pc tb = some pcs)
    (hcnt : info.cnt_entries = some cnt) : EntriesAgree o G info cnt pcs s := by
  refine ⟨fun i hi => ?_, fun i hi addr haddr hplain => ?_⟩
  · obtain ⟨addr, -, haddr, -, -⟩ := h.case_eq i hi
    exact ⟨addr, haddr, readMemoryConcrete_mem hinfo hpcs hcnt hi haddr⟩
  · obtain ⟨addr', pc', haddr', hload, hcase⟩ := h.case_eq i hi
    obtain rfl : addr' = addr := Option.some.inj (haddr'.symm.trans haddr)
    rw [hcase, loadedPC_eq hpools hlittle hplain hload]

theorem switchComplete_of_tableTags {cnt : ℕ} {s : Instr} (h : TableTags o info cnt s) :
    switchComplete s = true := by
  unfold switchComplete
  rw [has_of_getHexMetadata h.default_eq, has_of_getHexMetadata h.cnt_eq,
    has_of_getHexMetadata h.idx_start_eq]
  rfl

theorem nextPCList_of_tableTags {cnt : ℕ} {s : Instr} (hs : ExitStore .indirectJump s)
    (h : TableTags o info cnt s) {pcs : List UInt64}
    (hpcs : switchCasePCs s (UInt64.ofNat cnt) = some pcs) :
    nextPCList s = some (pcs ++ [throughHex info.default_case_pc]) := by
  have hcall : isCall s = false := hs.hasTag_ne (j := .call) (by simp)
  have hdir : s.has .INS_directJump = false := hs.hasTag_ne (j := .directJump) (by simp)
  have hind : s.has .INS_indirectJump = true := hs.hasTag_self
  unfold nextPCList
  rw [hcall, hdir, hind, has_of_getHexMetadata h.cnt_eq, h.cnt_eq, h.default_eq]
  simp [hpcs]

theorem toNat_ofNat_cnt {cnt : ℕ} (h : info.cnt_entries = some cnt) :
    (UInt64.ofNat cnt).toNat = cnt := by
  have hlt := (JumpTableInfo.cnt_entries_le h).2
  rw [UInt64.toNat_ofNat', Nat.mod_eq_of_lt (by omega)]

theorem switches_of_tableTags {cnt : ℕ} {s : Instr} (h : TableTags o info cnt s)
    (hcnt : info.cnt_entries = some cnt) {pcs : List UInt64}
    (hpcs : switchCasePCs s (UInt64.ofNat cnt) = some pcs) (m : BBMap) (fakeBB : BlockId) :
    Switches m fakeBB info cnt s (blockOr m fakeBB (throughHex info.default_case_pc))
      (casesFrom m fakeBB (throughHex info.idx_start) 0 pcs) := by
  have hlt := (JumpTableInfo.cnt_entries_le hcnt).2
  have hnat := toNat_ofNat_cnt hcnt
  have hlen : pcs.length = cnt := by
    rw [← (OptionMapM.mapM_eq_some_iff.mp hpcs).length_eq, List.length_range, hnat]
  refine ⟨fun i hi => ?_, fun w hw => ?_⟩
  · obtain ⟨addr, pc, -, -, hcase⟩ := h.case_eq i hi
    have hi' : pcs[i]? = some pc := by rw [switchCasePCs_getElem? hpcs (by omega), hcase]
    have hlook : (casesFrom m fakeBB (throughHex info.idx_start) 0 pcs).lookup
        (caseValue (throughHex info.idx_start) (0 + i)) = some (blockOr m fakeBB pc) :=
          lookup_casesFrom (by omega) hi'
    rw [Nat.zero_add] at hlook
    exact ⟨pc, hcase, by rw [dispatch, hlook, Option.getD_some]⟩
  · rw [dispatch, lookup_casesFrom_of_ne fun n hn => ?_, Option.getD_none]
    rw [Nat.zero_add]
    exact hw n (by omega)

/-- **From the table to the switch.**  With little-endian segments, entries in a segment whose thumb
bit is clear are scheduled, tagged and looked up as the same program counter.  The switch that is
built sends every index value to the block that the map of `fixupIndirectJumps` holds for its entry,
all other values to that of the default, and what is not in the map to the block for indirect
jumps. -/
theorem jumpTable_linked (hpools : ∀ p ∈ o.memoryPools, p.Agrees G.memory)
    (hlittle : o.isBigEndian = false) {cnt : ℕ} (hcnt : info.cnt_entries = some cnt) {pc : UInt64}
    {tb : TranslationBlock} {pcs : List UInt64} (hinfo : jumpTableOf cfg pc tb = some info)
    (hpcs : allPossiblePCs G cfg pc tb = some pcs) {s₀ s₁ : Instr}
    (htable : tableOf o s₀ = some (some info)) (hann : annotateStore o s₀ = some s₁)
    (T : TaggedModule) {all : List (UInt64 × Func)} (hall : allBBs T.module = some all)
    {startBB : Func} (hstart : startBB ∈ T.module.blockFunctions) {bbs : List Func}
    {hasIndirectJump : Bool} (hexplore : exploreBB all startBB = some (bbs, hasIndirectJump))
    {name : String} {f : Func} (hf : makeFunctionForward all name startBB = some f) {g : Func}
    (hg : g ∈ bbs) {b : BasicBlock} (hb : b ∈ g.blocks) {s : Instr} (hs : s ∈ b.instrs)
    (hind : s.has .INS_indirectJump = true)
    (htags : ∀ k ∈ switchKinds cnt, s.getMetadata k = s₁.getMetadata k) {v : Value}
    (hv : getValueSwitchedOn b.instrs s = some (some v)) :
    EntriesAgree o G info cnt pcs s ∧
      (∀ i < cnt, ∀ h ∈ T.module.blockFunctions,
        getHexMetadataFromIns s (.INS_switch_case i) = getPCStartOfFunc h → h ∈ bbs) ∧
      fakeBlock bbs ∈ f.blocks ∧
      ∃ m₀ m₁ m₂ d cs, Maps (inlineBBs name bbs hasIndirectJump).1 m₀ m₁ m₂ ∧ FindsStarts bbs m₂ ∧
        CloneEndsWith f b (.switch v d cs) ∧ Switches m₂ (fakeId bbs) info cnt s d cs := by
  obtain ⟨cnt', hcnt', htags₁⟩ := tableTags_annotateStore hann htable
  obtain rfl : cnt' = cnt := Option.some.inj (hcnt'.symm.trans hcnt)
  have htt := tableTags_of_getMetadata htags₁ htags
  have E := explored T hall hstart hexplore
  obtain ⟨m₀, m₁, m₂, hm, hmake⟩ := E.makeFunctionForward_eq name hexplore
  obtain ⟨-, hfeq⟩ := (hmake f).mp hf
  obtain ⟨pre, mid, r, hshape⟩ := E.exists_exitShape (k := .indirectJump) hg hb hs hind
  have hsi : s ∈ g.instrs := mem_instrs.mpr ⟨b, hb, hs⟩
  -- the switch is built from the tags
  obtain ⟨default_pc, n, idx, casePCs, hd, hn, hi, hp, hend⟩ :=
    E.clone_switch name hg hb hfeq hs hind (switchComplete_of_tableTags htt) hv
  obtain rfl : throughHex info.default_case_pc = default_pc :=
    Option.some.inj (htt.default_eq.symm.trans hd)
  obtain rfl : UInt64.ofNat cnt' = n := Option.some.inj (htt.cnt_eq.symm.trans hn)
  obtain rfl : throughHex info.idx_start = idx := Option.some.inj (htt.idx_start_eq.symm.trans hi)
  have hfinds : FindsStarts bbs m₂ := ⟨fun h hh hkept start hstart e he =>
    (E.lookup_indirect_iff name hm hh hstart he).mpr hkept, fun _ hno =>
      E.lookup_indirect_eq_none name hm hno⟩
  refine ⟨entriesAgree_of_tableTags htt hpools hlittle hinfo hpcs hcnt, fun i hi h hh hcase => ?_,
    ?_, m₀, m₁, m₂, _, _, hm, hfinds, hend, switches_of_tableTags htt hcnt hp m₂ (fakeId bbs)⟩
  · -- the cases of the tag are among the targets of the store
    have hnext := nextPCList_of_tableTags hshape.store htt hp
    obtain ⟨addr, pc', -, -, hcase'⟩ := htt.case_eq i hi
    refine E.closed g hg s hsi hshape.store.toPC _ hnext pc' (List.mem_append_left _ ?_) h hh
      (hcase.symm.trans hcase')
    refine List.mem_of_getElem? (i := i) ?_
    rw [switchCasePCs_getElem? hp (by rwa [toNat_ofNat_cnt hcnt]), hcase']
  · -- the block for indirect jumps is added, and no fixup touches it
    have hfake : fakeBlock bbs ∈ (inlineBBs name bbs hasIndirectJump).1.blocks :=
      (E.mem_blocks name).mpr (Or.inr ⟨E.indirect g hg s hsi hind, rfl⟩)
    have hfinal : finalBlock m₀ m₁ m₂ (fakeId bbs) (fakeBlock bbs) = fakeBlock bbs :=
      (innerShape_fakeBlock bbs).finalBlock_eq
    rw [hfeq, ← hfinal]
    exact List.mem_map_of_mem hfake

/-! ## A table of two entries -/

/-- The table at `0x7000`: index value 3 goes to `0xa000`, 4 to `0xb000`. -/
def tableAt7000 : JumpTableInfo := ⟨0x8000, 0x8010, 0x800c, 0xa000, 0x7000, 3, 4⟩

/-- A segment of eight bytes at `0x7000`, and a memory with these bytes. -/
def wordsAt7000 (isBigEndian : Bool) : Options :=
  ⟨[⟨[0x00, 0xa0, 0x00, 0x00, 0x00, 0xb0, 0x00, 0x00], 0x7000⟩], isBigEndian, [tableAt7000]⟩

def guestAt7000 : Guest where
  translate _ _ := ⟨0x8010, [], none, .undefined⟩
  memory addr := if addr = 0x7001 then 0xa0 else if addr = 0x7005 then 0xb0 else 0
  isValidCodeAccess _ := true

def configAt7000 : Config := ⟨.empty, [tableAt7000], []⟩

theorem wordsAt7000_agrees (isBigEndian : Bool) :
    ∀ p ∈ (wordsAt7000 isBigEndian).memoryPools, p.Agrees guestAt7000.memory := by
  intro p hp k b hk
  obtain rfl := List.mem_singleton.mp hp
  match k with
  | 0 | 1 | 2 | 3 | 4 | 5 | 6 | 7 => exact Eq.trans (by decide) (Option.some.inj hk)
  | k + 8 => simp at hk

/-- The indirect jump of `0x8000` before it is annotated. -/
def plainStore : Instr :=
  ⟨some 13, .store (.inst 12) (.global "PC"), [tagPC .BB_pcStart 0x8000, tagPC .INS_currPC 0x800c,
    (.INS_indirectJump, .str "true")]⟩

/-- The same with the tags of the table. -/
def annotatedStore : Instr :=
  ⟨some 13, .store (.inst 12) (.global "PC"),
    [tagPC .BB_pcStart 0x8000, (.INS_indirectJump, .str "true"),
    tagPC .INS_switch_cnt 2, tagPC (.INS_switch_case 0) 0xa000, tagPC (.INS_switch_case 1) 0xb000,
    tagPC .INS_switch_default 0xa000, tagPC .INS_switch_idx_start 3]⟩

/-- `0x8000` jumps through the table, whose second entry is not in the module. -/
def jumpAt7000 : Func :=
  exitFunc "void-tcg-llvm-tb-0-8000" "func_entry_point" 1
    [⟨some 10, .load (.global "R3"), [tagPC .BB_pcStart 0x8000]⟩,
      ⟨some 11, .binop .shl (.inst 10) (.constInt 32 2), [tagPC .BB_pcStart 0x8000]⟩,
      ⟨some 12, .load (.inst 11), [tagPC .BB_pcStart 0x8000]⟩] annotatedStore

theorem taggedFunc_jumpAt7000 : TaggedFunc jumpAt7000 :=
  taggedFunc_exitFunc (k := .indirectJump) 0x8000 ⟨rfl, fun k => by cases k <;> rfl, rfl⟩
    (by
      simpa using ⟨⟨rfl, fun k => by cases k <;> rfl, rfl⟩, ⟨rfl, fun k => by cases k <;> rfl, rfl⟩,
        rfl, fun k => by cases k <;> rfl, rfl⟩)
    (by decide) (Or.inl (by decide)) (by decide) (by decide)

def jumpModule : TaggedModule :=
  callModule jumpAt7000 taggedFunc_jumpAt7000 rfl (by decide) (by decide)

/-- The jump of `0x8000` through this table: 3 goes to the block of `0xa000`, 4 to the block for
indirect jumps, and other values to the block of `0xa000`. -/
theorem tableAt7000_linked :
    ∃ f, makeFunctionForward [(0xa000, onlyReturn), (0x8000, jumpAt7000)] "final-func" jumpAt7000 =
      some f ∧
      PlainEntry (wordsAt7000 false) guestAt7000 0x7000 ∧
      PlainEntry (wordsAt7000 false) guestAt7000 0x7004 ∧
      ∃ d cs, CloneEndsWith f ⟨1, "func_entry_point", jumpAt7000.instrs⟩ (.switch (.inst 10) d cs) ∧
        dispatch d cs 3 = 3 ∧ dispatch d cs 4 = 4 ∧ ∀ w, w ≠ 3 → w ≠ 4 → dispatch d cs w = 3 := by
  obtain ⟨f, hf⟩ := Option.isSome_iff_exists.mp (show (makeFunctionForward [(0xa000, onlyReturn),
    (0x8000, jumpAt7000)] "final-func" jumpAt7000).isSome = true by decide)
  have hcnt : tableAt7000.cnt_entries = some 2 := by decide
  have hinfo : jumpTableOf configAt7000 0x8000 (guestAt7000.translate 0x8000 false) =
    some tableAt7000 := by decide
  have hpcs : allPossiblePCs guestAt7000 configAt7000 0x8000 (guestAt7000.translate 0x8000 false) =
      some [0xa000, 0xb000, 0xa000] := by decide
  have htable : tableOf (wordsAt7000 false) plainStore = some (some tableAt7000) := by decide
  obtain ⟨s₁, hann⟩ := Option.isSome_iff_exists.mp
    (show (annotateStore (wordsAt7000 false) plainStore).isSome = true by decide)
  have hexplore : exploreBB [(0xa000, onlyReturn), (0x8000, jumpAt7000)] jumpAt7000 =
      some ([jumpAt7000, onlyReturn], true) := by decide
  -- the tags that the store has when functions are built
  have htags : ∀ k ∈ switchKinds 2, annotatedStore.getMetadata k = s₁.getMetadata k := by
    have h : ∀ k ∈ switchKinds 2, (annotateStore (wordsAt7000 false) plainStore).map
        (·.getMetadata k) = some (annotatedStore.getMetadata k) := by decide
    intro k hk
    have hk' := h k hk
    rw [hann] at hk'
    exact (Option.some.inj hk').symm
  have hg : jumpAt7000 ∈ [jumpAt7000, onlyReturn] := by decide
  have hb : ⟨1, "func_entry_point", jumpAt7000.instrs⟩ ∈ jumpAt7000.blocks := by decide
  have hs : annotatedStore ∈ jumpAt7000.instrs := by decide
  have hv : getValueSwitchedOn jumpAt7000.instrs annotatedStore = some (some (.inst 10)) := by
    decide
  obtain ⟨-, -, -, m₀, m₁, m₂, d, cs, -, hfinds, hend, hsw⟩ :=
    jumpTable_linked (wordsAt7000_agrees false) rfl hcnt hinfo
    hpcs htable hann jumpModule (by decide) (by decide) hexplore hf hg hb hs (by decide) htags hv
  -- `0xa000` is known to the block map, and `0xb000` is not
  have hkept : ¬ LosesStart [jumpAt7000, onlyReturn] onlyReturn := by
    have hno : ∀ s ∈ onlyReturn.instrs, s.has .INS_directJump = false := by decide
    rintro ⟨e, s, he, hs, hdir, -⟩
    rw [hno s (mem_instrs.mpr ⟨e, List.mem_of_head? he, hs⟩)] at hdir
    cases hdir
  have hblock : blockOr m₂ 4 0xa000 = 3 := by
    rw [blockOr, hfinds.kept onlyReturn (by decide) hkept 0xa000 (by decide) _ rfl]
    rfl
  have hfake : blockOr m₂ 4 0xb000 = 4 := by
    rw [blockOr, hfinds.unknown 0xb000 (by decide)]
    rfl
  refine ⟨f, hf, ⟨⟨_, List.mem_singleton.mpr rfl, by decide⟩, by decide⟩,
    ⟨⟨_, List.mem_singleton.mpr rfl, by decide⟩, by decide⟩, d, cs, hend, ?_, ?_, fun w h3 h4 => ?_⟩
  · obtain ⟨pc, hpc, hto⟩ := hsw.inRange 0 (by decide)
    obtain rfl : 0xa000 = pc := Option.some.inj ((by decide : _ = _).symm.trans hpc)
    exact hto.trans hblock
  · obtain ⟨pc, hpc, hto⟩ := hsw.inRange 1 (by decide)
    obtain rfl : 0xb000 = pc := Option.some.inj ((by decide : _ = _).symm.trans hpc)
    exact hto.trans hfake
  · refine (hsw.outside w fun i hi => ?_).trans hblock
    rcases (show i = 0 ∨ i = 1 by omega) with rfl | rfl
    · exact h3
    · exact h4

/-- With big-endian segments, and for an entry outside the segments, another program counter is
recorded than the disassembler schedules.  The index value of an unknown program counter does not go
to the default. -/
theorem tables_differ :
    (∀ p ∈ (wordsAt7000 true).memoryPools, p.Agrees guestAt7000.memory) ∧
      scheduledPC guestAt7000 tableAt7000 0 = some 0xa000 ∧
      recordedPC (wordsAt7000 true) tableAt7000 0 = some 0xa00000 ∧
      recordedPC ⟨[], false, [tableAt7000]⟩ tableAt7000 0 = some 0xdeadbeef ∧
      ∃ f, makeFunctionForward [(0xa000, onlyReturn), (0x8000, jumpAt7000)] "final-func"
        jumpAt7000 = some f ∧
        (f.instrs.map Instr.op)[4]? = some (.switch (.inst 10) 3 [(3, 3), (4, 4)]) ∧
        dispatch 3 [(3, 3), (4, 4)] 4 = 4 := by
  let f : Func := ⟨"final-func", [
    ⟨1, "func_entry_point", jumpAt7000.instrs.take 4 ++
      [Instr.fresh (.switch (.inst 10) 3 [(3, 3), (4, 4)])]⟩,
    ⟨3, "entry", onlyReturn.instrs.take 1 ++ [Instr.fresh (.ret none)]⟩,
    ⟨4, "fake_indirect_bb", [Instr.fresh (.ret none)]⟩]⟩
  exact ⟨wordsAt7000_agrees true, by decide, by decide, by decide, f, by decide,
    by decide, by decide⟩

end Bin2llvm.JumpTables
