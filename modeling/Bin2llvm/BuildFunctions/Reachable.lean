import Bin2llvm.BuildFunctions.Explore

/-!
# Bin2llvm.BuildFunctions.Reachable — what a function is built from

* `Leads`: the program counters a tagged store to `PC` leads to.
* `Follows`: from one block-function to another.
* `exploreBB_spec`: `exploreBB` ends with what can be reached so, once each, and tells indirect
  jumps.
-/

namespace Bin2llvm.BuildFunctions

open FixOverlappedBBs

/-- The call return, the direct jump, or the cases and the default of a solved switch. -/
inductive Leads (s : Instr) : UInt64 → Prop
  | callReturn {pc : UInt64} : isCall s = true → getHexMetadataFromIns s .INS_callReturn =
    some pc → Leads s pc
  | directJump {pc : UInt64} : isCall s = false → getHexMetadataFromIns s .INS_directJump =
    some pc → Leads s pc
  | switchCase {pc cnt : UInt64} {n : ℕ} : isIndirectJump s = true →
      getHexMetadataFromIns s .INS_switch_cnt = some cnt → n < cnt.toNat →
      getHexMetadataFromIns s (.INS_switch_case n) = some pc → Leads s pc
  | switchDefault {pc : UInt64} : isIndirectJump s = true → s.has .INS_switch_cnt = true →
      getHexMetadataFromIns s .INS_switch_default = some pc → Leads s pc

/-- `f` leads to the start of `g`. -/
def Follows (M : Module) (f g : Func) : Prop :=
  g ∈ M.blockFunctions ∧ ∃ s ∈ storesToPC f, ∃ pc, Leads s pc ∧ getPCStartOfFunc g = some pc

/-- A store to `PC` with the tags of a call, a direct jump, an indirect jump, solved or not, or a
return. -/
structure TaggedStore (s : Instr) : Prop where
  call : isCall s = true → (getHexMetadataFromIns s .INS_callReturn).isSome
  directJump : isCall s = false → s.has .INS_directJump = true →
    (getHexMetadataFromIns s .INS_directJump).isSome
  switch : isIndirectJump s = true → s.has .INS_switch_cnt = true →
    (getHexMetadataFromIns s .INS_switch_default).isSome ∧ ∃ cnt,
      getHexMetadataFromIns s .INS_switch_cnt = some cnt ∧
      ∀ n < cnt.toNat, (getHexMetadataFromIns s (.INS_switch_case n)).isSome
  any : isCall s = true ∨ s.has .INS_directJump = true ∨ s.has .INS_indirectJump = true ∨
    s.has .INS_return = true

/-- The block-functions have distinct starts, their stores to `PC` are tagged, and nothing else is
tagged as an indirect jump. -/
structure TaggedBBs (M : Module) : Prop where
  start : ∀ f ∈ M.blockFunctions, (getPCStartOfFunc f).isSome
  start_inj : ∀ f ∈ M.blockFunctions, ∀ g ∈ M.blockFunctions,
    getPCStartOfFunc f = getPCStartOfFunc g → f = g
  stores : ∀ f ∈ M.blockFunctions, ∀ s ∈ storesToPC f, TaggedStore s
  indirect : ∀ f ∈ M.blockFunctions, ∀ i ∈ f.instrs, i.has .INS_indirectJump = true →
    i.isStoreTo "PC" = true

/-- The block-functions of a function that starts with `startBB`. -/
structure ExploredFrom (M : Module) (startBB : Func) (bbs : List Func)
    (hasIndirectJump : Bool) : Prop where
  nodup : bbs.Nodup
  head : bbs.head? = some startBB
  reachable : ∀ g, g ∈ bbs ↔ Relation.ReflTransGen (Follows M) startBB g
  indirect : hasIndirectJump = true ↔ ∃ f ∈ bbs, ∃ i ∈ f.instrs, i.has .INS_indirectJump = true ∧
    isCall i = false ∧ i.has .INS_directJump = false

variable {M : Module} {all : List (UInt64 × Func)} {startBB f g : Func} {s : Instr}
variable {pcs : List UInt64} {pc : UInt64}

/-! ## One store -/

theorem mem_switchCasePCs {cnt : UInt64} (h : switchCasePCs s cnt = some pcs) :
    pc ∈ pcs ↔ ∃ n < cnt.toNat, getHexMetadataFromIns s (.INS_switch_case n) = some pc := by
  unfold switchCasePCs at h
  constructor
  · intro hpc
    obtain ⟨n, hn, hcase⟩ := OptionMapM.exists_of_mem_result h hpc
    exact ⟨n, List.mem_range.mp hn, hcase⟩
  · rintro ⟨n, hn, hcase⟩
    obtain ⟨pc', hpc', hcase'⟩ := OptionMapM.exists_of_mem h (List.mem_range.mpr hn)
    obtain rfl := Option.some.inj (hcase'.symm.trans hcase)
    exact hpc'

theorem isSome_switchCasePCs {cnt : UInt64} : (switchCasePCs s cnt).isSome ↔
    ∀ n < cnt.toNat, (getHexMetadataFromIns s (.INS_switch_case n)).isSome := by
  unfold switchCasePCs
  rw [OptionMapM.isSome_mapM]
  exact forall_congr' fun n => imp_congr_left List.mem_range

/-- The asserts at a store hold when it is tagged. -/
theorem taggedStore_iff : TaggedStore s ↔ (nextPCList s).isSome := by
  unfold nextPCList
  split_ifs with hcall hjump hind hcnt hret
  · have hind : isIndirectJump s = false := by simp [isIndirectJump, hcall]
    have hsplit : TaggedStore s ↔ (getHexMetadataFromIns s .INS_callReturn).isSome :=
      ⟨fun h => h.call hcall, fun h => ⟨fun _ => h, by simp [hcall], by simp [hind], Or.inl hcall⟩⟩
    rw [hsplit]
    cases getHexMetadataFromIns s .INS_callReturn <;> simp
  · have hind : isIndirectJump s = false := by simp [isIndirectJump, hjump]
    have hsplit : TaggedStore s ↔ (getHexMetadataFromIns s .INS_directJump).isSome :=
      ⟨fun h => h.directJump (Bool.not_eq_true _ ▸ hcall) hjump,
        fun h => ⟨by simp [hcall], fun _ _ => h, by simp [hind], Or.inr (Or.inl hjump)⟩⟩
    rw [hsplit]
    cases getHexMetadataFromIns s .INS_directJump <;> simp
  · have hi : isIndirectJump s = true := by simp [isIndirectJump, hcall, hjump, hind]
    have hsplit : TaggedStore s ↔ (getHexMetadataFromIns s .INS_switch_default).isSome ∧
        ∃ cnt, getHexMetadataFromIns s .INS_switch_cnt = some cnt ∧
        (switchCasePCs s cnt).isSome := by
      simp only [isSome_switchCasePCs]
      exact ⟨fun h => h.switch hi hcnt,
        fun h => ⟨by simp [hcall], by simp [hjump], fun _ _ => h, Or.inr (Or.inr (Or.inl hind))⟩⟩
    rw [hsplit]
    cases getHexMetadataFromIns s .INS_switch_cnt with
    | none => simp
    | some cnt =>
      cases hcases : switchCasePCs s cnt with
      | none => simp [hcases]
      | some cases => cases getHexMetadataFromIns s .INS_switch_default <;> simp [hcases]
  · exact iff_of_true ⟨by simp [hcall], by simp [hjump], by simp [hcnt],
      Or.inr (Or.inr (Or.inl hind))⟩ rfl
  · have hi : isIndirectJump s = false := by simp [isIndirectJump, hind]
    exact iff_of_true ⟨by simp [hcall], by simp [hjump], by simp [hi],
      Or.inr (Or.inr (Or.inr hret))⟩ rfl
  -- a store without a tag
  · refine iff_of_false (fun h => ?_) nofun
    rcases h.any with h | h | h | h
    · exact hcall h
    · exact hjump h
    · exact hind h
    · exact hret h

instance (s : Instr) : Decidable (TaggedStore s) := decidable_of_iff' _ taggedStore_iff

/-! What a store leads to, by its tags. -/

theorem leads_of_call (hcall : isCall s = true) :
    Leads s pc ↔ getHexMetadataFromIns s .INS_callReturn = some pc := by
  refine ⟨fun h => ?_, .callReturn hcall⟩
  cases h with
  | callReturn _ hr => exact hr
  | directJump hno _ => rw [hcall] at hno; cases hno
  | switchCase hi _ _ _ => simp [isIndirectJump, hcall] at hi
  | switchDefault hi _ _ => simp [isIndirectJump, hcall] at hi

theorem leads_of_directJump (hcall : isCall s = false) (hjump : s.has .INS_directJump = true) :
    Leads s pc ↔ getHexMetadataFromIns s .INS_directJump = some pc := by
  refine ⟨fun h => ?_, .directJump hcall⟩
  cases h with
  | callReturn hyes _ => rw [hcall] at hyes; cases hyes
  | directJump _ hr => exact hr
  | switchCase hi _ _ _ => simp [isIndirectJump, hjump] at hi
  | switchDefault hi _ _ => simp [isIndirectJump, hjump] at hi

theorem leads_of_switch {cnt : UInt64} (hi : isIndirectJump s = true)
    (hcnt : getHexMetadataFromIns s .INS_switch_cnt = some cnt) : Leads s pc ↔
      (∃ n < cnt.toNat, getHexMetadataFromIns s (.INS_switch_case n) = some pc) ∨
        getHexMetadataFromIns s .INS_switch_default = some pc := by
  have htags : isCall s = false ∧ s.has .INS_directJump = false := by
    simp only [isIndirectJump, Bool.and_eq_true, Bool.not_eq_true'] at hi
    exact hi.1
  constructor
  · intro h
    cases h with
    | callReturn hyes _ => rw [htags.1] at hyes; cases hyes
    | directJump _ hr => exact absurd (has_of_getHexMetadata hr) (by simp [htags.2])
    | switchCase _ hc hn hcase =>
      obtain rfl := Option.some.inj (hc.symm.trans hcnt)
      exact Or.inl ⟨_, hn, hcase⟩
    | switchDefault _ _ hd => exact Or.inr hd
  · rintro (⟨n, hn, hcase⟩ | hdflt)
    · exact .switchCase hi hcnt hn hcase
    · exact .switchDefault hi (has_of_getHexMetadata hcnt) hdflt

theorem not_leads (hcall : isCall s = false) (hjump : s.has .INS_directJump = false)
    (hswitch : isIndirectJump s = true → s.has .INS_switch_cnt = false) : ¬ Leads s pc := by
  intro h
  cases h with
  | callReturn hyes _ => rw [hcall] at hyes; cases hyes
  | directJump _ hr => exact absurd (has_of_getHexMetadata hr) (by simp [hjump])
  | switchCase hi hc _ _ => exact absurd (has_of_getHexMetadata hc) (by simp [hswitch hi])
  | switchDefault hi hc _ => exact absurd hc (by simp [hswitch hi])

/-- The list of a store holds what it leads to. -/
theorem mem_nextPCList (h : nextPCList s = some pcs) : pc ∈ pcs ↔ Leads s pc := by
  unfold nextPCList at h
  split_ifs at h with hcall hjump hind hcnt hret
  · obtain ⟨pc', hpc', hpcs⟩ := Option.bind_eq_some_iff.mp h
    obtain rfl : [pc'] = pcs := Option.some.inj hpcs
    rw [List.mem_singleton, leads_of_call hcall, hpc', Option.some.injEq, eq_comm]
  · obtain ⟨pc', hpc', hpcs⟩ := Option.bind_eq_some_iff.mp h
    obtain rfl : [pc'] = pcs := Option.some.inj hpcs
    rw [List.mem_singleton, leads_of_directJump (Bool.not_eq_true _ ▸ hcall) hjump, hpc',
      Option.some.injEq, eq_comm]
  · have hi : isIndirectJump s = true := by simp [isIndirectJump, hcall, hjump, hind]
    obtain ⟨cnt, hcnt', h⟩ := Option.bind_eq_some_iff.mp h
    obtain ⟨cases, hcases, h⟩ := Option.bind_eq_some_iff.mp h
    obtain ⟨dflt, hdflt, h⟩ := Option.bind_eq_some_iff.mp h
    obtain rfl : cases ++ [dflt] = pcs := Option.some.inj h
    rw [List.mem_append, List.mem_singleton, mem_switchCasePCs hcases,
      leads_of_switch hi hcnt', hdflt, Option.some.injEq, eq_comm (a := pc)]
  · obtain rfl : [] = pcs := Option.some.inj h
    exact iff_of_false List.not_mem_nil (not_leads (by simpa using hcall) (by simpa using hjump)
      fun _ => by simpa using hcnt)
  · obtain rfl : [] = pcs := Option.some.inj h
    exact iff_of_false List.not_mem_nil (not_leads (by simpa using hcall) (by simpa using hjump)
      fun hi => by simp [isIndirectJump, hind] at hi)

/-! ## The walk -/

theorem TaggedBBs.isSome_allBBs (h : TaggedBBs M) : (allBBs M).isSome := by
  refine OptionMapM.isSome_foldlM (fun f hf all => ?_) []
  obtain ⟨pc, hpc⟩ := Option.isSome_iff_exists.mp (h.start f hf)
  rw [hpc]
  rfl

theorem TaggedBBs.isSome_targets (h : TaggedBBs M) (hf : f ∈ M.blockFunctions) :
    (targets f).isSome := by
  unfold targets
  rw [Option.isSome_map, OptionMapM.isSome_mapM]
  exact fun s hs => taggedStore_iff.mp (h.stores f hf s hs)

/-- The edges of the walk. -/
theorem TaggedBBs.edge_iff (h : TaggedBBs M) (hall : allBBs M = some all)
    (hf : f ∈ M.blockFunctions) : Worklist.Edge (nextBBs all) f g ↔ Follows M f g := by
  obtain ⟨pcs, hpcs⟩ := Option.isSome_iff_exists.mp (h.isSome_targets hf)
  have hmem (pc : UInt64) : pc ∈ pcs ↔ ∃ s ∈ storesToPC f, Leads s pc := by
    unfold targets at hpcs
    obtain ⟨pcss, hpcss, rfl⟩ := Option.map_eq_some_iff.mp hpcs
    rw [List.mem_flatten]
    constructor
    · rintro ⟨l, hl, hpc⟩
      obtain ⟨s, hs, hsl⟩ := OptionMapM.exists_of_mem_result hpcss hl
      exact ⟨s, hs, (mem_nextPCList hsl).mp hpc⟩
    · rintro ⟨s, hs, hleads⟩
      obtain ⟨l, hl, hsl⟩ := OptionMapM.exists_of_mem hpcss hs
      exact ⟨l, hl, (mem_nextPCList hsl).mpr hleads⟩
  unfold Worklist.Edge Follows nextBBs
  rw [hpcs]
  simp only [Option.map_some, Option.some.injEq, exists_eq_left', List.mem_filterMap,
    lookup_allBBs h.start_inj hall, hmem]
  constructor
  · rintro ⟨pc, ⟨s, hs, hleads⟩, hg, hpc⟩
    exact ⟨hg, s, hs, pc, hleads, hpc⟩
  · rintro ⟨hg, s, hs, pc, hleads, hpc⟩
    exact ⟨pc, ⟨s, hs, hleads⟩, hg, hpc⟩

/-- Nothing but block-functions of the module is reached. -/
theorem mem_of_follows (hstart : startBB ∈ M.blockFunctions)
    (h : Relation.ReflTransGen (Follows M) startBB g) : g ∈ M.blockFunctions := by
  cases h with
  | refl => exact hstart
  | tail _ hlast => exact hlast.1

/-- **`exploreBB` ends and returns what can be reached from the start, once each and the start
first; it reports the indirect jumps.** -/
theorem exploreBB_spec (h : TaggedBBs M) (hstart : startBB ∈ M.blockFunctions) :
    ∃ all bbs hasIndirectJump, allBBs M = some all ∧ exploreBB all startBB = some (bbs,
      hasIndirectJump) ∧ ExploredFrom M startBB bbs hasIndirectJump := by
  obtain ⟨all, hall⟩ := Option.isSome_iff_exists.mp h.isSome_allBBs
  have hends : (exploreBB all startBB).isSome :=
    exploreBB_isSome (h.isSome_targets hstart) fun p hp =>
      h.isSome_targets ((mem_allBBs hall).mp hp).1
  obtain ⟨⟨bbs, hasIndirectJump⟩, hexplore⟩ := Option.isSome_iff_exists.mp hends
  obtain ⟨hwalk, hindirect⟩ := exploreBB_eq_some hexplore
  -- on what is reached, the edges of the walk are those of the stores
  have hreach (g : Func) : g ∈ bbs ↔ Relation.ReflTransGen (Follows M) startBB g := by
    rw [Worklist.mem_explore_iff hwalk]
    constructor
    · intro hg
      induction hg with
      | refl => exact .refl
      | tail _ hedge ih => exact ih.tail ((h.edge_iff hall (mem_of_follows hstart ih)).mp hedge)
    · intro hg
      induction hg with
      | refl => exact .refl
      | tail hpath hfollows ih =>
        exact ih.tail ((h.edge_iff hall (mem_of_follows hstart hpath)).mpr hfollows)
  refine ⟨all, bbs, hasIndirectJump, hall, hexplore, exploreBB_nodup hexplore,
    exploreBB_head? hexplore, hreach, ?_⟩
  rw [hindirect, List.any_eq_true]
  refine exists_congr fun f => and_congr_right fun hf => ?_
  have hblock : f ∈ M.blockFunctions := mem_of_follows hstart ((hreach f).mp hf)
  rw [List.any_eq_true]
  constructor
  · rintro ⟨i, hi, hjump⟩
    simp only [isIndirectJump, Bool.and_eq_true, Bool.not_eq_true'] at hjump
    exact ⟨i, (List.mem_filter.mp hi).1, hjump.2, hjump.1.1, hjump.1.2⟩
  · rintro ⟨i, hi, hind, hcall, hjump⟩
    refine ⟨i, List.mem_filter.mpr ⟨hi, h.indirect f hblock i hi hind⟩, ?_⟩
    simp [isIndirectJump, hind, hcall, hjump]

/-- A block at `0x8000` that goes on to `0x8004`. -/
def switchEntry : Func :=
  ⟨"tcg-llvm-tb-void-tcg-llvm-tb-0-8000", [⟨1, "entry", [
    ⟨some 1, .store (.constInt 32 0x8004) (.global "PC"),
      [(.BB_pcStart, .str (hex 0x8000)), (.INS_directJump, .str (hex 0x8004))]⟩]⟩]⟩

/-- A switch at `0x8004` back to `0x8000` and to itself; its default is not known. -/
def switchBack : Func :=
  ⟨"tcg-llvm-tb-void-tcg-llvm-tb-1-8004", [⟨2, "entry", [
    ⟨some 2, .store (.arg 0) (.global "PC"), [(.BB_pcStart, .str (hex 0x8004)),
      (.INS_indirectJump, .str (hex 0xdeadbeef)), (.INS_switch_cnt, .str (hex 2)),
      (.INS_switch_case 0, .str (hex 0x8000)), (.INS_switch_case 1, .str (hex 0x8004)),
      (.INS_switch_default, .str (hex 0x9000))]⟩]⟩]⟩

def switchLoop : Module := ⟨[switchEntry, switchBack]⟩

theorem taggedBBs_switchLoop : TaggedBBs switchLoop := ⟨by decide, by decide, by decide, by decide⟩

theorem exploreBB_switchLoop : ∃ all bbs hasIndirectJump, allBBs switchLoop = some all ∧
    exploreBB all switchEntry = some (bbs, hasIndirectJump) ∧
    ExploredFrom switchLoop switchEntry bbs hasIndirectJump :=
  exploreBB_spec taggedBBs_switchLoop (by decide)

end Bin2llvm.BuildFunctions
