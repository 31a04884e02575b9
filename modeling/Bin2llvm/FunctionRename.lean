import Bin2llvm.ARMMark
import Bin2llvm.DeadCode
import Bin2llvm.LinkedModule
import Bin2llvm.MarkFuncEntry
import Bin2llvm.RemoveExtraStoreToPC

/-!
# Bin2llvm.FunctionRename — naming the linked functions

The pass names a linked function after the tag `INS_currPC` of the first instruction of its entry
block.  The tag is the program counter that `-rmexterstoretopc` counted up to that instruction, and
the first instruction is the first one that the passes before have left.

* `runOnModule`: the pass, on the functions of a module one after the other.
* `tagAt_eq`: the tag of an instruction is the last constant stored to `PC` before it, or the start.
* `namedByStarts_iff`: the functions are named after their starts exactly when the first instruction
  left of each was translated at the start.
-/

namespace Bin2llvm.FunctionRename

open FixOverlappedBBs BuildFunctions Linker MarkFuncEntry RemoveExtraStoreToPC

/-! ## The pass -/

/-- A reference to the function `old` follows its name. -/
def renameRef (old name : String) : Value → Value
  | .func g => .func (if g = old then name else g)
  | .constCast v => .constCast (renameRef old name v)
  | .constExpr o l r => .constExpr o (renameRef old name l) (renameRef old name r)
  | v => v

/-- The names that function `k` cannot take.  `symbols` are those of the global variables and the
declarations. -/
def takenNames (symbols : List String) (M : Module) (k : ℕ) : List String :=
  symbols ++ (M.funcs.eraseIdx k).map Func.name

/-- `F.setName(newName)`, for the function `k`. -/
def setName (symbols : List String) (M : Module) (k : ℕ) (F : Func) (newName : String) : Module :=
  let name := uniqueName (takenNames symbols M k) newName
  ⟨(M.funcs.set k { F with name := name }).map
    (Func.mapInstrs (Instr.mapValues (renameRef F.name name)))⟩

def newName (pcStart : UInt64) : String := "Function_" ++ hex pcStart

/-- The function `k` of the module. -/
def runOnFunction (symbols : List String) (M : Module) (k : ℕ) : Option Module :=
  match M.funcs[k]? with
  | none => some M
  | some F =>
    if strstr F.name "linked-final" then
      match F.blocks.head?.bind fun b => b.instrs.head? with
      | none => some M
      | some ins =>
        if ins.has .INS_currPC then do
          let pcStart ← getHexMetadataFromIns ins .INS_currPC
          pure (setName symbols M k F (newName pcStart))
        else some M
    else some M

/-- The first `n` functions. -/
def runTo (symbols : List String) (M : Module) (n : ℕ) : Option Module :=
  (List.range n).foldlM (runOnFunction symbols) M

def runOnModule (symbols : List String) (M : Module) : Option Module :=
  runTo symbols M M.funcs.length

/-! ## Where the tag comes from -/

/-- The tag `-rmexterstoretopc` sets at the instruction `n` of a block-function. -/
def tagAt (G : Func) (n : ℕ) : Option MDNode := do
  let pcStart ← getPCStartOfFunc G
  let ins ← ((setCurrPCs pcStart G.blocks).flatMap BasicBlock.instrs)[n]?
  ins.getMetadata .INS_currPC

/-- The program counter the instruction `n` was translated at: the last constant stored to `PC`
before it, or the start of the block-function. -/
def guestPC (G : Func) (n : ℕ) : Option UInt64 :=
  if n < G.instrs.length then
    (getPCStartOfFunc G).map fun pcStart => ((G.instrs.take n).filterMap pcValue).getLastD pcStart
  else none

/-- The tag of the first instruction of the entry block. -/
def frontTag (F : Func) : Option MDNode :=
  (F.blocks.head?.bind fun b => b.instrs.head?).bind fun ins => ins.getMetadata .INS_currPC

/-- The first instruction of the entry block carries the tag that the instruction `n` of the
block-function `G` got, or none. -/
def HasOrigin (F : Func) : Option (Func × ℕ) → Prop
  | some (G, n) => ∃ t, tagAt G n = some t ∧ frontTag F = some t
  | none => frontTag F = none

/-- What the passes after the linker make of its output: the functions keep their names, and
whatever is left of them keeps its tags. -/
structure Optimized (final M : Module) (origin : ℕ → Option (Func × ℕ)) : Prop where
  names : M.funcs.map Func.name = final.funcs.map Func.name
  front : ∀ k F, M.funcs[k]? = some F → HasOrigin F (origin k)

/-- Every function has the name of its own start, and no two have the same name. -/
structure NamedByStarts (all : FuncsMap) (out : Module) : Prop where
  names : out.funcs.map Func.name = all.map fun p => newName p.1
  distinct : (out.funcs.map Func.name).Nodup

variable {symbols : List String} {M M' M₀ out : Module} {F : Func} {k n : ℕ} {p q : UInt64}

theorem getElem?_setCurrPC (pc : UInt64) (is : List Instr) (n : ℕ) : (setCurrPC pc is)[n]? =
    is[n]?.map fun ins => ins.setMetadata .INS_currPC
    (.str (hex ((is.take n).foldl nextPC pc))) := by
  induction is generalizing pc n with
  | nil => rfl
  | cons ins is ih =>
    cases n with
    | zero => rfl
    | succ n =>
      show (setCurrPC (nextPC pc ins) is)[n]? = _
      rw [ih]
      rfl

theorem setCurrPC_append (pc : UInt64) (is js : List Instr) :
    setCurrPC pc (is ++ js) = setCurrPC pc is ++ setCurrPC (is.foldl nextPC pc) js := by
  induction is generalizing pc with
  | nil => rfl
  | cons ins is ih => exact congrArg (List.cons _) (ih _)

/-- The basic blocks are tagged as one list of instructions. -/
theorem flatMap_setCurrPCs (pc : UInt64) (bbs : List BasicBlock) :
    (setCurrPCs pc bbs).flatMap BasicBlock.instrs = setCurrPC pc
      (bbs.flatMap BasicBlock.instrs) := by
  induction bbs generalizing pc with
  | nil => rfl
  | cons bb bbs ih =>
    rw [setCurrPCs, List.flatMap_cons, List.flatMap_cons, ih, setCurrPC_append]

theorem foldl_nextPC (pc : UInt64) (is : List Instr) :
    is.foldl nextPC pc = (is.filterMap pcValue).getLastD pc := by
  induction is using List.reverseRecOn with
  | nil => rfl
  | append_singleton is ins ih =>
    rw [List.foldl_append, List.foldl_cons, List.foldl_nil, List.filterMap_append, ih]
    unfold nextPC
    cases hv : pcValue ins with
    | none => simp [hv]
    | some v => simp [hv]

/-- **The tag of an instruction is the program counter it was translated at.** -/
theorem tagAt_eq (G : Func) (n : ℕ) : tagAt G n = (guestPC G n).map fun pc => .str (hex pc) := by
  unfold tagAt guestPC
  cases hstart : getPCStartOfFunc G with
  | none => simp
  | some pcStart =>
    simp only [Option.bind_eq_bind, Option.bind_some, flatMap_setCurrPCs, getElem?_setCurrPC]
    show ((G.instrs[n]?).map _).bind _ = _
    by_cases hn : n < G.instrs.length
    · rw [if_pos hn, List.getElem?_eq_getElem hn]
      simp [foldl_nextPC, Func.instrs]
    · rw [if_neg hn, List.getElem?_eq_none (by omega)]
      rfl

/-! ## Names -/

theorem newName_injective : Function.Injective newName :=
  fun _ _ h => hex_injective (append_left_cancel h)

theorem newName_ne_linked (p : UInt64) (s : String) : "linked-final-func-" ++ s ≠ newName p := by
  intro h
  have hlist := congrArg String.toList h
  simp [newName, String.toList_append] at hlist

/-- A name made unique is not the one of another start: the text of a program counter has at least
eight digits. -/
theorem uniqueName_newName_iff {taken : List String} (hp : p.toNat < 2 ^ 32) :
    uniqueName taken (newName q) = newName p ↔ q = p ∧ newName p ∉ taken := by
  constructor
  · intro h
    rcases uniqueName_cases taken (newName q) with ⟨heq, hfree⟩ | ⟨-, s, hs, heq⟩
    · obtain rfl : q = p := newName_injective (heq.symm.trans h)
      exact ⟨rfl, hfree⟩
    · rw [heq] at h
      have hlist := congrArg String.toList h
      rw [newName, newName, String.append_assoc, String.toList_append, String.toList_append,
        String.toList_append] at hlist
      have hlen := congrArg List.length (List.append_cancel_left hlist)
      rw [List.length_append, toList_hex, toList_hex,
        HexText.length_printHex (by decide) (hp.trans_eq (by norm_num))] at hlen
      have hq := HexText.le_length_printHex 8 q.toNat
      have hnil : s.toList = [] := List.length_eq_zero_iff.mp (by omega)
      exact absurd (String.toList_inj.mp hnil) hs
  · rintro ⟨rfl, hfree⟩
    exact uniqueName_eq_iff.mpr hfree

theorem strtoll_hex_eq_iff (hp : p.toNat < 2 ^ 32) : strtoll (hex q) = p ↔ q = p := by
  rw [strtoll_hex]
  split_ifs with hq
  · exact Iff.rfl
  · have h63 : (0x7fffffffffffffff : UInt64).toNat = 2 ^ 63 - 1 := by decide
    constructor
    · rintro rfl
      omega
    · rintro rfl
      omega

/-! ## One function -/

/-- What the pass does with a linked function is decided by the tag at its front. -/
theorem runOnFunction_eq (hF : M.funcs[k]? = some F) (hname : strstr F.name "linked-final" = true) :
    runOnFunction symbols M k = match frontTag F with
      | none => some M
      | some (.str s) => some (setName symbols M k F (newName (strtoll s)))
      | some _ => none := by
  unfold runOnFunction frontTag
  rw [hF]
  simp only [hname, if_true]
  cases F.blocks.head?.bind fun b => b.instrs.head? with
  | none => rfl
  | some ins =>
    unfold Instr.has getHexMetadataFromIns
    simp only [Option.bind_some]
    cases ins.getMetadata .INS_currPC with
    | none => rfl
    | some t => cases t <;> rfl

@[simp] theorem frontTag_mapValues (σ : Value → Value) (F : Func) :
    frontTag (F.mapInstrs (Instr.mapValues σ)) = frontTag F := by
  unfold frontTag Func.mapInstrs
  cases F.blocks with
  | nil => rfl
  | cons b bs =>
    cases hb : b.instrs with
    | nil => simp [BasicBlock.mapInstrs, hb]
    | cons i is => simp [BasicBlock.mapInstrs, hb]

theorem names_setName (F : Func) (name : String) :
    (setName symbols M k F name).funcs.map Func.name =
      (M.funcs.map Func.name).set k (uniqueName (takenNames symbols M k) name) := by
  unfold setName
  rw [List.map_map, List.map_set]
  rfl

theorem frontTags_setName (hF : M.funcs[k]? = some F) (name : String) :
    (setName symbols M k F name).funcs.map frontTag = M.funcs.map frontTag := by
  unfold setName
  have htags : ∀ σ, frontTag ∘ Func.mapInstrs (Instr.mapValues σ) = frontTag :=
    fun σ => funext (frontTag_mapValues σ)
  rw [List.map_map, htags, List.map_set]
  show (M.funcs.map frontTag).set k (frontTag F) = _
  refine List.ext_getElem? fun j => ?_
  by_cases hj : k = j
  · subst hj
    rw [List.getElem?_set_self', List.getElem?_map, hF]
    rfl
  · rw [List.getElem?_set_ne hj]

/-- One function: the tags stay, and so do the names of the others. -/
structure Step (k : ℕ) (M M' : Module) : Prop where
  tags : M'.funcs.map frontTag = M.funcs.map frontTag
  names : ∀ j, j ≠ k → (M'.funcs.map Func.name)[j]? = (M.funcs.map Func.name)[j]?

theorem Step.refl (k : ℕ) (M : Module) : Step k M M := ⟨rfl, fun _ _ => rfl⟩

theorem step_setName (hF : M.funcs[k]? = some F) (name : String) :
    Step k M (setName symbols M k F name) where
  tags := frontTags_setName hF name
  names j hj := by rw [names_setName, List.getElem?_set_ne (Ne.symm hj)]

theorem step_runOnFunction (h : runOnFunction symbols M k = some M') : Step k M M' := by
  unfold runOnFunction at h
  cases hF : M.funcs[k]? with
  | none =>
    rw [hF] at h
    obtain rfl := Option.some.inj h
    exact Step.refl k M
  | some F =>
    rw [hF] at h
    simp only at h
    split_ifs at h with hname
    · cases hfront : F.blocks.head?.bind fun b => b.instrs.head? with
      | none =>
        rw [hfront] at h
        obtain rfl := Option.some.inj h
        exact Step.refl k M
      | some ins =>
        rw [hfront] at h
        simp only at h
        split_ifs at h with hhas
        · obtain ⟨pcStart, -, h⟩ := Option.bind_eq_some_iff.mp h
          obtain rfl := Option.some.inj h
          exact step_setName hF _
        · obtain rfl := Option.some.inj h
          exact Step.refl k M
    · obtain rfl := Option.some.inj h
      exact Step.refl k M

theorem strstr_clone (f : Func) : strstr (clone f).name "linked-final" = true := by
  unfold strstr
  rw [decide_eq_true_iff]
  show _ <:+: ("linked-final-func-" ++ f.name).toList
  rw [String.toList_append]
  exact (List.IsPrefix.trans (by decide) (List.prefix_append _ _)).isInfix

/-- When a linked function gets the name of the start `p`. -/
theorem named_iff (hF : M.funcs[k]? = some F) {f : Func} (hname : F.name = (clone f).name)
    (hp : p.toNat < 2 ^ 32) (hpc : ∀ t, frontTag F = some t → ∃ pc, t = .str (hex pc)) :
    (∃ M', runOnFunction symbols M k = some M' ∧ (M'.funcs.map Func.name)[k]? = some (newName p)) ↔
      frontTag F = some (.str (hex p)) ∧ newName p ∉ takenNames symbols M k := by
  have hlen : k < (M.funcs.map Func.name).length := by
    rw [List.length_map]
    exact (List.getElem?_eq_some_iff.mp hF).1
  rw [runOnFunction_eq hF (by rw [hname]; exact strstr_clone f)]
  cases ht : frontTag F with
  | none =>
    refine iff_of_false ?_ (by simp)
    rintro ⟨M', hM', hnew⟩
    obtain rfl := Option.some.inj hM'
    rw [List.getElem?_map, hF, Option.map_some, Option.some.injEq, hname] at hnew
    exact newName_ne_linked p f.name hnew
  | some t =>
    obtain ⟨pc, rfl⟩ := hpc t ht
    simp only [Option.some.injEq, MDNode.str.injEq, exists_eq_left', names_setName,
      List.getElem?_set_self hlen, uniqueName_newName_iff hp, strtoll_hex_eq_iff hp,
        hex_injective.eq_iff]

/-! ## All functions -/

theorem runTo_succ (symbols : List String) (M : Module) (n : ℕ) :
    runTo symbols M (n + 1) = (runTo symbols M n).bind fun M' => runOnFunction symbols M' n := by
  unfold runTo
  rw [List.range_succ, List.foldlM_append]
  refine congrArg (Option.bind _) (funext fun M' => ?_)
  cases hstep : runOnFunction symbols M' n <;> simp [hstep]

/-- The functions that have not come yet are as they were, but for the references. -/
theorem untouched_runTo (h : runTo symbols M₀ n = some M) :
    M.funcs.map frontTag = M₀.funcs.map frontTag ∧
      ∀ j, n ≤ j → (M.funcs.map Func.name)[j]? = (M₀.funcs.map Func.name)[j]? := by
  induction n generalizing M with
  | zero =>
    obtain rfl : M₀ = M := Option.some.inj h
    exact ⟨rfl, fun _ _ => rfl⟩
  | succ n ih =>
    rw [runTo_succ] at h
    obtain ⟨M', hM', hstep⟩ := Option.bind_eq_some_iff.mp h
    obtain ⟨htags, hnames⟩ := ih hM'
    have hs := step_runOnFunction hstep
    exact ⟨hs.tags.trans htags, fun j hj => (hs.names j (by omega)).trans (hnames j (by omega))⟩

/-- Names once given stay. -/
theorem exists_runTo {m : ℕ} (hnm : n ≤ m) (h : runTo symbols M₀ m = some M') :
    ∃ M, runTo symbols M₀ n = some M ∧
      ∀ j, j < n → (M'.funcs.map Func.name)[j]? = (M.funcs.map Func.name)[j]? := by
  induction m, hnm using Nat.le_induction generalizing M' with
  | base => exact ⟨M', h, fun _ _ => rfl⟩
  | succ m hm ih =>
    rw [runTo_succ] at h
    obtain ⟨M₁, hM₁, hstep⟩ := Option.bind_eq_some_iff.mp h
    obtain ⟨M, hM, hnames⟩ := ih hM₁
    exact ⟨M, hM, fun j hj => ((step_runOnFunction hstep).names j (by omega)).trans (hnames j hj)⟩

/-- A name is taken by a symbol or by another function. -/
theorem not_mem_takenNames {name : String} : name ∉ takenNames symbols M k ↔
    name ∉ symbols ∧ ∀ j, j ≠ k → (M.funcs.map Func.name)[j]? ≠ some name := by
  unfold takenNames
  rw [← List.eraseIdx_map, List.mem_append, List.mem_eraseIdx_iff_getElem?, not_or]
  simp only [not_exists, not_and, ne_eq]

/-- A run that has named the first `n` functions after their starts. -/
def NamedTo (symbols : List String) (all : FuncsMap) (M₀ : Module) (n : ℕ) : Prop :=
  ∃ M, runTo symbols M₀ n = some M ∧
    ∀ j, j < n → (M.funcs.map Func.name)[j]? = all[j]?.map fun p => newName p.1

theorem NamedTo.mono {all : FuncsMap} {m : ℕ} (h : NamedTo symbols all M₀ m) (hnm : n ≤ m) :
    NamedTo symbols all M₀ n := by
  obtain ⟨M', hM', hnamed⟩ := h
  obtain ⟨M, hM, hnames⟩ := exists_runTo hnm hM'
  exact ⟨M, hM, fun j hj => (hnames j hj).symm.trans (hnamed j (by omega))⟩

section Linked

variable {files : List Module} {all : FuncsMap} {final : Module} {cnt : ℕ}
variable {origin : ℕ → Option (Func × ℕ)}

theorem names_linked (hlink : LinksAll files all final cnt) (hopt : Optimized final M origin) :
    M.funcs.map Func.name = all.map fun p => (clone p.2).name := by
  rw [hopt.names, hlink.funcs, List.map_map]
  rfl

/-- The tag at the front of a function is the program counter one of its instructions was translated
at. -/
theorem HasOrigin.frontTag_eq (h : HasOrigin F (origin k)) :
    frontTag F = ((origin k).bind fun o => guestPC o.1 o.2).map fun pc => .str (hex pc) := by
  cases ho : origin k with
  | none =>
    rw [ho] at h
    exact h
  | some o =>
    obtain ⟨G, n⟩ := o
    rw [ho] at h
    obtain ⟨t, htag, hfront⟩ := h
    rw [hfront, ← htag, tagAt_eq]
    rfl

variable (hlink : LinksAll files all final cnt) (hopt : Optimized final M₀ origin)
include hlink hopt

/-- A function as the pass comes to it. -/
theorem exists_next {P : UInt64 × Func} (h : runTo symbols M₀ n = some M) (hP : all[n]? = some P) :
    ∃ F, M.funcs[n]? = some F ∧ F.name = (clone P.2).name ∧
      frontTag F = ((origin n).bind fun o => guestPC o.1 o.2).map fun pc => .str (hex pc) := by
  obtain ⟨htags, hnames⟩ := untouched_runTo h
  have hname : (M.funcs.map Func.name)[n]? = some (clone P.2).name := by
    rw [hnames n (Nat.le_refl n), names_linked hlink hopt, List.getElem?_map, hP]
    rfl
  rw [List.getElem?_map] at hname
  obtain ⟨F, hF, hFname⟩ := Option.map_eq_some_iff.mp hname
  refine ⟨F, hF, hFname, ?_⟩
  have htag := congrArg (fun l => l[n]?) htags
  simp only [List.getElem?_map, hF, Option.map_some] at htag
  obtain ⟨F₀, hF₀, heq⟩ := Option.map_eq_some_iff.mp htag.symm
  rw [← heq]
  exact (hopt.front n F₀ hF₀).frontTag_eq

/-- No other function has the name of the next one's start, if those before it have the names of
theirs. -/
theorem ne_newName_of_named {P : UInt64 × Func} (h : runTo symbols M₀ n = some M)
    (hP : all[n]? = some P) (hnamed : ∀ j, j < n →
      (M.funcs.map Func.name)[j]? = all[j]?.map fun p => newName p.1) (j : ℕ) (hj : j ≠ n) :
    (M.funcs.map Func.name)[j]? ≠ some (newName P.1) := by
  intro hname
  by_cases hlt : j < n
  · rw [hnamed j hlt] at hname
    obtain ⟨Q, hQ, hsame⟩ := Option.map_eq_some_iff.mp hname
    have hkey : Q.1 = P.1 := newName_injective hsame
    have hkeys : (all.map Prod.fst)[j]? = (all.map Prod.fst)[n]? := by
      rw [List.getElem?_map, List.getElem?_map, hQ, hP, Option.map_some, Option.map_some, hkey]
    have hjlen : j < (all.map Prod.fst).length := by
      rw [List.length_map]
      exact (List.getElem?_eq_some_iff.mp hQ).1
    exact hj ((List.getElem?_inj hjlen hlink.starts).mp hkeys)
  · rw [(untouched_runTo h).2 j (by omega), names_linked hlink hopt, List.getElem?_map] at hname
    obtain ⟨Q, -, hsame⟩ := Option.map_eq_some_iff.mp hname
    exact newName_ne_linked P.1 Q.2.name hsame

/-- One more function. -/
theorem namedTo_succ_iff {P : UInt64 × Func} (h : NamedTo symbols all M₀ n) (hP : all[n]? = some P)
    (hp : P.1.toNat < 2 ^ 32) : NamedTo symbols all M₀ (n + 1) ↔
      newName P.1 ∉ symbols ∧ ((origin n).bind fun o => guestPC o.1 o.2) = some P.1 := by
  obtain ⟨M, hM, hnamed⟩ := h
  obtain ⟨F, hF, hname, htag⟩ := exists_next hlink hopt hM hP
  have hstep : NamedTo symbols all M₀ (n + 1) ↔
      ∃ M', runOnFunction symbols M n = some M' ∧ (M'.funcs.map Func.name)[n]? =
      some (newName P.1) := by
    unfold NamedTo
    rw [runTo_succ, hM, Option.bind_some]
    refine exists_congr fun M' => and_congr_right fun hM' => ⟨fun hn => ?_, fun hn j hj => ?_⟩
    · rw [hn n (by omega), hP]
      rfl
    -- the names before stay as they are
    · by_cases hjn : j = n
      · subst hjn
        rw [hn, hP]
        rfl
      · rw [(step_runOnFunction hM').names j hjn, hnamed j (by omega)]
  have hpc : ∀ t, frontTag F = some t → ∃ pc, t = .str (hex pc) := by
    intro t ht
    obtain ⟨pc, -, rfl⟩ := Option.map_eq_some_iff.mp (htag.symm.trans ht)
    exact ⟨pc, rfl⟩
  have htag_iff : frontTag F = some (.str (hex P.1)) ↔
      ((origin n).bind fun o => guestPC o.1 o.2) = some P.1 := by
    rw [htag, Option.map_eq_some_iff]
    constructor
    · rintro ⟨pc, hpc, heq⟩
      rw [hpc, hex_injective (MDNode.str.inj heq)]
    · intro hpc
      exact ⟨_, hpc, rfl⟩
  have hfree : newName P.1 ∉ takenNames symbols M n ↔ newName P.1 ∉ symbols :=
    not_mem_takenNames.trans (and_iff_left (ne_newName_of_named hlink hopt hM hP hnamed))
  rw [hstep, named_iff hF hname hp hpc, htag_iff, hfree, and_comm]

/-- The functions up to the `n`th. -/
theorem namedTo_iff (h32 : ∀ P ∈ all, P.1.toNat < 2 ^ 32) (hn : n ≤ all.length) :
    NamedTo symbols all M₀ n ↔ ∀ k P, k < n → all[k]? = some P →
      newName P.1 ∉ symbols ∧ ((origin k).bind fun o => guestPC o.1 o.2) = some P.1 := by
  induction n with
  | zero => exact iff_of_true ⟨M₀, rfl, by omega⟩ (by omega)
  | succ n ih =>
    obtain ⟨P, hP⟩ : ∃ P, all[n]? = some P := ⟨all[n], List.getElem?_eq_getElem (by omega)⟩
    have hp := h32 P (List.mem_of_getElem? hP)
    constructor
    · intro h k Q hk hQ
      have hprev : NamedTo symbols all M₀ n := h.mono (by omega)
      by_cases hkn : k = n
      · subst hkn
        obtain rfl := Option.some.inj (hP.symm.trans hQ)
        exact (namedTo_succ_iff hlink hopt hprev hP hp).mp h
      · exact (ih (by omega)).mp hprev k Q (by omega) hQ
    · intro h
      have hprev := (ih (by omega)).mpr fun k Q hk hQ => h k Q (by omega) hQ
      exact (namedTo_succ_iff hlink hopt hprev hP hp).mpr (h n P (by omega) hP)

theorem namedByStarts_iff_namedTo :
    (∃ out, runOnModule symbols M₀ = some out ∧ NamedByStarts all out) ↔
      NamedTo symbols all M₀ all.length := by
  have hlen : M₀.funcs.length = all.length := by
    simpa using congrArg List.length (names_linked hlink hopt)
  unfold runOnModule NamedTo
  rw [hlen]
  refine exists_congr fun out => and_congr_right fun hout => ⟨fun h j _ => ?_, fun h => ?_⟩
  · rw [h.names, List.getElem?_map]
  · have hnames : out.funcs.map Func.name = all.map fun p => newName p.1 := by
      refine List.ext_getElem? fun j => ?_
      by_cases hj : j < all.length
      · rw [h j hj, List.getElem?_map]
      · rw [(untouched_runTo hout).2 j (by omega), List.getElem?_eq_none (by simp; omega),
          List.getElem?_eq_none (by simp; omega)]
    refine ⟨hnames, ?_⟩
    have hmap : (all.map fun p => newName p.1) = (all.map Prod.fst).map newName := by simp
    rw [hnames, hmap]
    exact hlink.starts.map newName_injective

/-- **The pass names every linked function after its own start exactly when what the other passes
have left of the function begins with an instruction that was translated at the start, and no other
symbol has one of these names.** Guest program counters have 32 bits. -/
theorem namedByStarts_iff (h32 : ∀ P ∈ all, P.1.toNat < 2 ^ 32) :
    (∃ out, runOnModule symbols M₀ = some out ∧ NamedByStarts all out) ↔
      ∀ k P, all[k]? = some P →
        newName P.1 ∉ symbols ∧ ∃ G n, origin k = some (G, n) ∧ guestPC G n = some P.1 := by
  rw [namedByStarts_iff_namedTo hlink hopt, namedTo_iff hlink hopt h32 (Nat.le_refl _)]
  refine forall_congr' fun k => forall_congr' fun P => ⟨fun h hP => ?_, fun h _ hP => ?_⟩
  · obtain ⟨hsym, horigin⟩ := h (List.getElem?_eq_some_iff.mp hP).1 hP
    obtain ⟨⟨G, n⟩, ho, hpc⟩ := Option.bind_eq_some_iff.mp horigin
    exact ⟨hsym, G, n, ho, hpc⟩
  · obtain ⟨hsym, G, n, ho, hpc⟩ := h hP
    exact ⟨hsym, Option.bind_eq_some_iff.mpr ⟨(G, n), ho, hpc⟩⟩

end Linked

/-! ## A first guest instruction that leaves nothing -/

def savedAt (pcStart : UInt64) (id : Option InstId) (o : Op) : Instr :=
  ⟨id, o, [(.BB_pcStart, .str (hex pcStart)), (.BB_pcEnd, .str (hex (pcStart + 4)))]⟩

/-- Two guest instructions: what is left of the first, and a second one that sets `R0` and goes to
`R3`. -/
def setsR0After (first : List Op) : Func := ⟨"void-tcg-llvm-tb-0-8000", [⟨1, "func_entry_point",
  savedAt 0x8000 none (.store (.constInt 32 0x8000) (.global "PC")) :: first.map
  (savedAt 0x8000 none) ++ [savedAt 0x8000 none (.store (.constInt 32 0x8004) (.global "PC")),
   savedAt 0x8000 none (.store (.constInt 32 1) (.global "R0")),
   savedAt 0x8000 (some 1) (.load (.global "R3")),
   savedAt 0x8000 none (.store (.inst 1) (.global "PC")),
   ⟨none, .ret none, [(.INS_fakeReturn, .str "true")]⟩]⟩]⟩

/-- The block-function, tagged and built. -/
def built (G : Func) : Option Module := do
  let (F, _) ← RemoveExtraStoreToPC.runOnFunction G
  let F ← ARMMark.runOnFunction F
  BuildFunctions.runOnModule ⟨[F]⟩

/-- What is left of both, `front` of the first one. -/
def setsR0 (front : List Instr) : Func := ⟨"final-func-void-tcg-llvm-tb-0-8000", [
  ⟨1, "func_entry_point", front ++ [
    (savedAt 0x8000 none (.store (.constInt 32 1) (.global "R0"))).setMetadata .INS_currPC
    (.str (hex 0x8004)), (savedAt 0x8000 (some 1) (.load (.global "R3"))).setMetadata .INS_currPC
    (.str (hex 0x8004)),
      ((savedAt 0x8000 none (.store (.inst 1) (.global "PC"))).setMetadata .INS_currPC
      (.str (hex 0x8004))).setMetadata .INS_indirectJump (.str (hex 0xdeadbeef)),
    Instr.fresh (.br 2)]⟩,
  ⟨2, "fake_indirect_bb", [Instr.fresh (.ret none)]⟩]⟩

/-- The first guest instruction sets `R1`. -/
def setsR1 : Op := .store (.constInt 32 2) (.global "R1")

def setsR1Front : List Instr :=
  [(savedAt 0x8000 none setsR1).setMetadata .INS_currPC (.str (hex 0x8000))]

/-- The linked function, after `-dce`. -/
def optimized (f : Func) : Module := ⟨[(linkedFunc [(0x8000, f)] f).dce fun _ => false]⟩

theorem linksAll_single {f : Func} (h : startOf f = some p) :
    LinksAll [⟨[f]⟩] [(p, f)] ⟨[linkedFunc [(p, f)] f]⟩ 1 where
  starts := by simp
  first pc := by
    have hinputs : inputs [⟨[f]⟩] = [f] := rfl
    rw [hinputs]
    by_cases hpc : pc = p
    · subst hpc
      simp [h]
    · simp [h, List.lookup_cons, beq_eq_false_iff_ne.mpr hpc, Ne.symm hpc]
  funcs := rfl
  names := by simp
  count := by simp [inputs, h]

theorem optimized_single {f : Func} {origin : ℕ → Option (Func × ℕ)}
    (h : HasOrigin ((linkedFunc [(0x8000, f)] f).dce fun _ => false) (origin 0)) :
    Optimized ⟨[linkedFunc [(0x8000, f)] f]⟩ (optimized f) origin where
  names := rfl
  front k F hF := by
    cases k with
    | zero =>
      obtain rfl := Option.some.inj hF
      exact h
    | succ k => cases hF

/-- With a first guest instruction that leaves a store. -/
theorem namedByStarts_setsR1 : built (setsR0After [setsR1]) = some ⟨[setsR0 setsR1Front]⟩ ∧
    ∃ out, runOnModule [] (optimized (setsR0 setsR1Front)) = some out ∧
      NamedByStarts [(0x8000, setsR0 setsR1Front)] out := by
  refine ⟨by decide, (namedByStarts_iff (linksAll_single (by decide))
    (@optimized_single _ (fun _ => some (setsR0After [setsR1], 1)) ⟨_, rfl, by decide⟩)
      (by decide)).mpr ?_⟩
  intro k P hP
  cases k with
  | zero =>
    obtain rfl := Option.some.inj hP
    exact ⟨by decide, _, _, rfl, by decide⟩
  | succ k => cases hP

/-- With a first guest instruction that leaves nothing the function gets the address of the second
one. -/
theorem not_namedByStarts_nop : built (setsR0After []) = some ⟨[setsR0 []]⟩ ∧
    link [⟨[setsR0 []]⟩] = some ⟨[linkedFunc [(0x8000, setsR0 [])] (setsR0 [])]⟩ ∧
    LinksAll [⟨[setsR0 []]⟩] [(0x8000, setsR0 [])] ⟨[linkedFunc [(0x8000, setsR0 [])] (setsR0 [])]⟩
    1 ∧ Optimized ⟨[linkedFunc [(0x8000, setsR0 [])] (setsR0 [])]⟩ (optimized (setsR0 []))
      (fun _ => some (setsR0After [], 2)) ∧
    ¬ ∃ out, runOnModule [] (optimized (setsR0 [])) = some out ∧
    NamedByStarts [(0x8000, setsR0 [])] out := by
  refine ⟨by decide, by decide, linksAll_single (by decide), optimized_single ⟨_, rfl, by decide⟩,
    ?_⟩
  rintro ⟨out, hout, h⟩
  have hnames : (runOnModule [] (optimized (setsR0 []))).map (fun M => M.funcs.map Func.name) =
      some [newName 0x8004] := by decide
  rw [hout, Option.map_some, h.names] at hnames
  exact absurd (newName_injective (List.singleton_inj.mp (Option.some.inj hnames))) (by decide)

end Bin2llvm.FunctionRename
