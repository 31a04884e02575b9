import Bin2llvm.ARMMark

/-!
# Bin2llvm.CallReturns — which stores `ARMMarkCall` takes for calls

A call stores the end of the block to `LR` and then the target to `PC`.  The pass keeps the last
constant that was stored to `LR`, also when something computed is stored there after it.

* `getElem?_markInstrs`: what the pass makes of one instruction.
* `noteLR_foldl`: what it remembers of those before.
* `marksCalls_iff`: when it marks the calls and nothing else.
-/

namespace Bin2llvm.ARMMarkCall

open FixOverlappedBBs BuildFunctions

/-- The value of the last store to `LR`. -/
def lastStoreLR (before : List Instr) : Option Value :=
  before.reverse.findSome? fun ins => ins.storeTo? "LR"

/-- The value of the last store of a constant to `LR`. -/
def lastConstLR (before : List Instr) : Option UInt64 :=
  before.reverse.findSome? fun ins => (ins.storeTo? "LR").bind Value.constInt?

/-- The end of the block, or that in thumb mode. -/
def IsReturnAddress (pcEnd v : UInt64) : Prop := v = pcEnd ∨ v = pcEnd + 1

instance (pcEnd v : UInt64) : Decidable (IsReturnAddress pcEnd v) :=
  inferInstanceAs (Decidable (v = pcEnd ∨ v = pcEnd + 1))

/-- The last value that the instructions before store to `LR` is the return address `v`. -/
def Returns (pcEnd : UInt64) (before : List Instr) (v : UInt64) : Prop :=
  (lastStoreLR before).bind Value.constInt? = some v ∧ IsReturnAddress pcEnd v

/-- What becomes of a store to `PC` after the instructions before it. -/
structure MarkedRight (pcEnd : UInt64) (before : List Instr) (o : Instr) : Prop where
  isCall_iff : isCall o = true ↔ ∃ v, Returns pcEnd before v
  callReturn : isCall o = true →
    ∃ v, Returns pcEnd before v ∧ o.getMetadata .INS_callReturn = some (.str (hex (v &&& ~~~1)))

/-- Every store to `PC` is marked right. -/
def MarksCalls (pcEnd : UInt64) (F F' : Func) : Prop :=
  List.Forall₂ (fun b b' => b'.instrs.length = b.instrs.length ∧
    ∀ before i rest, b.instrs = before ++ i :: rest → i.isStoreTo "PC" = true →
      ∃ o, b'.instrs[before.length]? = some o ∧ MarkedRight pcEnd before o) F.blocks F'.blocks

/-- What is stored to `LR` last is computed, and the last constant before that is a return
address. -/
def StaleLR (pcEnd : UInt64) (before : List Instr) : Prop :=
  (∃ val, lastStoreLR before = some val ∧ val.constInt? = none) ∧
    ∃ v, lastConstLR before = some v ∧ IsReturnAddress pcEnd v

variable {F : Func} {pcEnd v : UInt64} {lr : Option UInt64} {i o : Instr}
variable {before rest : List Instr} {val : Value}

/-! ## What the pass remembers -/

theorem lastStoreLR_append_singleton (before : List Instr) (i : Instr) :
    lastStoreLR (before ++ [i]) = (i.storeTo? "LR").or (lastStoreLR before) := by
  unfold lastStoreLR
  rw [List.reverse_append, List.reverse_singleton, List.singleton_append, List.findSome?_cons]
  cases i.storeTo? "LR" <;> rfl

theorem lastConstLR_append_singleton (before : List Instr) (i : Instr) :
    lastConstLR (before ++ [i]) = ((i.storeTo? "LR").bind Value.constInt?).or
      (lastConstLR before) := by
  unfold lastConstLR
  rw [List.reverse_append, List.reverse_singleton, List.singleton_append, List.findSome?_cons]
  cases (i.storeTo? "LR").bind Value.constInt? <;> rfl

/-- A computed store is passed over. -/
theorem noteLR_foldl (before : List Instr) : before.foldl noteLR none = lastConstLR before := by
  induction before using List.reverseRecOn with
  | nil => rfl
  | append_singleton before i ih =>
    rw [List.foldl_append, List.foldl_cons, List.foldl_nil, ih, lastConstLR_append_singleton]
    unfold noteLR
    cases i.storeTo? "LR" with
    | none => rfl
    | some val => cases hc : val.constInt? <;> simp [hc]

/-- The last store is the last constant, unless it stores something computed. -/
theorem lastConstLR_of_lastStoreLR (h : lastStoreLR before = some val)
    (hc : val.constInt? = some v) : lastConstLR before = some v := by
  induction before using List.reverseRecOn with
  | nil => cases h
  | append_singleton before i ih =>
    rw [lastStoreLR_append_singleton] at h
    rw [lastConstLR_append_singleton]
    cases hs : i.storeTo? "LR" with
    | none =>
      rw [hs, Option.none_or] at h
      exact ih h
    | some val' =>
      rw [hs] at h
      obtain rfl := Option.some.inj h
      rw [Option.bind_some, hc]
      rfl

theorem lastConstLR_of_none (h : lastStoreLR before = none) : lastConstLR before = none := by
  unfold lastStoreLR at h
  unfold lastConstLR
  rw [List.findSome?_eq_none_iff] at h ⊢
  intro i hi
  rw [h i hi]
  rfl

/-! ## One instruction -/

theorem returnsTo_iff : returnsTo pcEnd v = true ↔ IsReturnAddress pcEnd v := by
  unfold returnsTo IsReturnAddress
  rw [Bool.or_eq_true, beq_iff_eq, beq_iff_eq, eq_comm (a := pcEnd) (b := v)]
  refine or_congr Iff.rfl ⟨fun h => ?_, fun h => ?_⟩
  · rw [h, UInt64.sub_add_cancel]
  · rw [h, UInt64.add_sub_cancel]

theorem getElem?_markInstrs (before : List Instr) (lr : Option UInt64) :
    (markInstrs pcEnd lr (before ++ i :: rest))[before.length]? =
      some (markIns pcEnd (before.foldl noteLR lr) i) := by
  induction before generalizing lr with
  | nil => rfl
  | cons j before ih => exact ih (noteLR lr j)

theorem length_markInstrs (is : List Instr) (lr : Option UInt64) :
    (markInstrs pcEnd lr is).length = is.length := by
  induction is generalizing lr with
  | nil => rfl
  | cons i is ih => exact congrArg (· + 1) (ih (noteLR lr i))

theorem callReturn_tagCall (v : UInt64) (val : Value) (i : Instr) :
    (tagCall v val i).getMetadata .INS_callReturn = some (.str (hex (v &&& ~~~1))) := by
  unfold tagCall
  cases val.constInt? <;> exact Instr.getMetadata_setMetadata_self _ _ _

/-- A store to `PC` becomes a call if what is remembered is a return address. -/
theorem markIns_eq (pcEnd : UInt64) (lr : Option UInt64) (hval : i.storeTo? "PC" = some val) :
    (∃ v, lr = some v ∧ IsReturnAddress pcEnd v ∧ markIns pcEnd lr i = tagCall v val i) ∨
    (∀ v, lr = some v → ¬ IsReturnAddress pcEnd v) ∧ markIns pcEnd lr i = i := by
  unfold markIns
  rw [hval]
  cases lr with
  | none => exact Or.inr ⟨nofun, rfl⟩
  | some v =>
    by_cases h : IsReturnAddress pcEnd v
    · exact Or.inl ⟨v, rfl, h, if_pos (returnsTo_iff.mpr h)⟩
    · refine Or.inr ⟨fun v' hv' => Option.some.inj hv' ▸ h, if_neg fun hr =>
        h (returnsTo_iff.mp hr)⟩

theorem isCall_markIns_iff (hi : isCall i = false) (hpc : i.isStoreTo "PC" = true) :
    isCall (markIns pcEnd lr i) = true ↔ ∃ v, lr = some v ∧ IsReturnAddress pcEnd v := by
  obtain ⟨val, hval⟩ := Instr.isStoreTo_iff.mp hpc
  rcases markIns_eq pcEnd lr hval with ⟨v, hlr, hv, heq⟩ | ⟨hno, heq⟩
  · rw [heq, ARMMark.isCall_tagCall]
    exact ⟨fun _ => ⟨v, hlr, hv⟩, fun _ => rfl⟩
  · rw [heq, hi]
    refine ⟨nofun, ?_⟩
    rintro ⟨v, hlr, hv⟩
    exact absurd hv (hno v hlr)

/-- A return address is remembered when it was stored last, or is stale. -/
theorem exists_lastConstLR_iff : (∃ v, lastConstLR before = some v ∧ IsReturnAddress pcEnd v) ↔
    (∃ v, Returns pcEnd before v) ∨ StaleLR pcEnd before := by
  constructor
  · rintro ⟨v, hlast, hv⟩
    cases hs : lastStoreLR before with
    | none =>
      rw [lastConstLR_of_none hs] at hlast
      cases hlast
    | some val =>
      cases hc : val.constInt? with
      | none => exact Or.inr ⟨⟨val, hs, hc⟩, v, hlast, hv⟩
      | some v' =>
        obtain rfl : v' = v := Option.some.inj ((lastConstLR_of_lastStoreLR hs hc).symm.trans hlast)
        exact Or.inl ⟨v', by rw [hs]; exact hc, hv⟩
  · rintro (⟨v, hlast, hv⟩ | ⟨-, hstale⟩)
    · obtain ⟨val, hs, hc⟩ := Option.bind_eq_some_iff.mp hlast
      exact ⟨v, lastConstLR_of_lastStoreLR hs hc, hv⟩
    · exact hstale

theorem StaleLR.not_returns (h : StaleLR pcEnd before) : ¬ Returns pcEnd before v := by
  rintro ⟨hlast, -⟩
  obtain ⟨⟨val, hs, hc⟩, -⟩ := h
  rw [hs, Option.bind_some, hc] at hlast
  cases hlast

/-- **One store to `PC` is marked right exactly when what is in `LR` is not stale.** -/
theorem markedRight_iff (hi : isCall i = false) (hpc : i.isStoreTo "PC" = true) :
    MarkedRight pcEnd before (markIns pcEnd (lastConstLR before) i) ↔ ¬ StaleLR pcEnd before := by
  have hcall : isCall (markIns pcEnd (lastConstLR before) i) = true ↔
      ∃ v, lastConstLR before = some v ∧ IsReturnAddress pcEnd v := isCall_markIns_iff hi hpc
  rw [exists_lastConstLR_iff] at hcall
  constructor
  · rintro ⟨hiff, -⟩ hstale
    obtain ⟨v, hv⟩ := hiff.mp (hcall.mpr (Or.inr hstale))
    exact hstale.not_returns hv
  · intro hstale
    refine ⟨hcall.trans (or_iff_left hstale), fun ho => ?_⟩
    obtain ⟨v, hv⟩ := (hcall.mp ho).resolve_right hstale
    obtain ⟨val, hval⟩ := Instr.isStoreTo_iff.mp hpc
    obtain ⟨w, hs, hc⟩ := Option.bind_eq_some_iff.mp hv.1
    have hlast := lastConstLR_of_lastStoreLR hs hc
    rcases markIns_eq pcEnd (lastConstLR before) hval with ⟨v', hv', -, heq⟩ | ⟨hno, -⟩
    · obtain rfl : v = v' := Option.some.inj (hlast.symm.trans hv')
      exact ⟨v, hv, by rw [heq, callReturn_tagCall]⟩
    · exact absurd hv.2 (hno v hlast)

/-! ## Functions -/

/-- **The pass marks the calls, and nothing else, exactly when no basic block stores to `PC` after it has stored
something computed to `LR` over a return address.** -/
theorem marksCalls_iff (hstart : (getPCStartOfFunc F).isSome) (hend : getPCEndOfFunc F = some pcEnd)
    (hun : ∀ i ∈ F.instrs, isCall i = false) : (∃ F', runOnFunction F = some F' ∧ MarksCalls pcEnd F F') ↔
      ∀ b ∈ F.blocks, ∀ before i rest, b.instrs = before ++ i :: rest → i.isStoreTo "PC" = true →
        ¬ StaleLR pcEnd before := by
  obtain ⟨pcStart, hpc⟩ := Option.isSome_iff_exists.mp hstart
  have hrun : runOnFunction F = some (F.mapBlocks fun b => { b with instrs := markInstrs pcEnd none b.instrs }) := by
    simp [runOnFunction, hpc, hend]
  have hmarks : MarksCalls pcEnd F (F.mapBlocks fun b => { b with instrs := markInstrs pcEnd none b.instrs }) ↔
      ∀ b ∈ F.blocks, ∀ before i rest, b.instrs = before ++ i :: rest → i.isStoreTo "PC" = true →
        ¬ StaleLR pcEnd before := by
    unfold MarksCalls Func.mapBlocks
    rw [List.forall₂_map_right_iff, List.forall₂_same]
    refine forall₂_congr fun b hb => ?_
    rw [and_iff_right (length_markInstrs b.instrs none)]
    refine forall₃_congr fun before i rest => forall₂_congr fun hb' hstore => ?_
    have hi : isCall i = false := hun i (List.mem_flatMap.mpr ⟨b, hb, by rw [hb']; simp⟩)
    rw [← markedRight_iff hi hstore, hb', getElem?_markInstrs, noteLR_foldl]
    simp
  rw [← hmarks, hrun]
  simp

/-- A return address is stored to `LR` at `0x8000`, and overwritten before the jump. -/
def overwritten (val : Value) : Func :=
  ⟨"tcg-llvm-tb-void-tcg-llvm-tb-0-8000", [⟨1, "entry", [
    ⟨some 1, .load (.global "R4"), [(.BB_pcStart, .str (hex 0x8000)),
      (.BB_pcEnd, .str (hex 0x800c))]⟩,
    ⟨some 2, .store (.constInt 32 0x800c) (.global "LR"), []⟩,
    ⟨some 3, .store val (.global "LR"), []⟩,
    ⟨some 4, .store (.constInt 32 0x9000) (.global "PC"), []⟩,
    ⟨some 5, .ret none, [(.INS_fakeReturn, .str "true")]⟩]⟩]⟩

/-- Over it a constant is stored. -/
theorem marksCalls_overwritten : ∃ F', runOnFunction (overwritten (.constInt 32 0)) = some F' ∧
    MarksCalls 0x800c (overwritten (.constInt 32 0)) F' := by
  have hend : getPCEndOfFunc (overwritten (.constInt 32 0)) = some 0x800c := by decide
  refine (marksCalls_iff (by decide) hend (by decide)).mpr ?_
  rintro b hb before i rest heq - ⟨⟨val, hs, hc⟩, -⟩
  have hconst : ∀ b ∈ (overwritten (.constInt 32 0)).blocks, ∀ i ∈ b.instrs,
      (i.storeTo? "LR").all (fun val => val.constInt?.isSome) = true := by decide
  obtain ⟨j, hj, hval⟩ := List.exists_of_findSome?_eq_some hs
  have hall := hconst b hb j (by rw [heq]; exact List.mem_append_left _ (List.mem_reverse.mp hj))
  rw [hval] at hall
  simp [hc] at hall

/-- Over it the value of `R4` is stored; the jump becomes a call that returns. -/
theorem not_marksCalls_overwritten : getPCStartOfFunc (overwritten (.inst 1)) = some 0x8000 ∧
    getPCEndOfFunc (overwritten (.inst 1)) = some 0x800c ∧
    (∀ i ∈ (overwritten (.inst 1)).instrs, isCall i = false) ∧
    ¬ ∃ F', runOnFunction (overwritten (.inst 1)) = some F' ∧
    MarksCalls 0x800c (overwritten (.inst 1)) F' := by
  refine ⟨by decide, by decide, by decide, ?_⟩
  rintro ⟨F', hF', hmarks⟩
  have hrun : runOnFunction (overwritten (.inst 1)) =
      some ((overwritten (.inst 1)).mapBlocks fun b =>
      { b with instrs := markInstrs 0x800c none b.instrs }) := by decide
  obtain rfl := Option.some.inj (hrun.symm.trans hF')
  obtain ⟨-, hplace⟩ := (List.forall₂_cons.mp hmarks).1
  obtain ⟨o, ho, hright⟩ := hplace [_, _, _] _ _ rfl rfl
  obtain rfl := Option.some.inj ho
  obtain ⟨v, hlast, -⟩ := hright.isCall_iff.mp (by decide)
  cases hlast

end Bin2llvm.ARMMarkCall
