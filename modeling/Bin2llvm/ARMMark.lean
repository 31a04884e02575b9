import Bin2llvm.BuildFunctions.Explore

/-!
# Bin2llvm.ARMMark — marking calls, returns and jumps

The passes `ARMMarkCall`, `ARMMarkReturn` and `ARMMarkJumps` on a block-function.  Each recognises a
shape of its own among the stores to `PC`: a constant was stored to `LR` before, the value comes
from `LR`, anything that is left.  A failed `assert` is `none`.

* `lastLR`: what `ARMMarkCall` remembers when it comes to an instruction.
* `marks`: the tags the three passes give to a store to `PC`.
* `armMark_wellMarked_iff`: the passes tag every store to `PC` in one way exactly when no store is
  both a call and a return.
-/

namespace Bin2llvm

/-- The instructions without their metadata. -/
def Func.ops (f : Func) : List (Option InstId × Op) := f.instrs.map fun i => (i.id, i.op)

/-- The operation of the instruction that computes `v`. -/
def Func.opOf (f : Func) (v : Value) : Option Op := v.inst?.bind fun k => f.ops.lookup (some k)

open FixOverlappedBBs BuildFunctions

/-! ## ARMMarkCall -/

namespace ARMMarkCall

/-- `hasLRStore` and `lrVal` after an instruction: a computed store to `LR` leaves them alone. -/
def noteLR (lr : Option UInt64) (ins : Instr) : Option UInt64 :=
  match ins.storeTo? "LR" with
  | some val => val.constInt? <|> lr
  | none => lr

/-- `lrVal` is the end of the block, maybe with the thumb bit. -/
def returnsTo (pcEnd lrVal : UInt64) : Bool := pcEnd == lrVal || pcEnd == lrVal - 1

def tagCall (lrVal : UInt64) (val : Value) (ins : Instr) : Instr :=
  let callReturn := hex (lrVal &&& 0xfffffffffffffffe)
  match val.constInt? with
  | some n =>
    (ins.setMetadata .INS_directCall (.str (hex n))).setMetadata .INS_callReturn (.str callReturn)
  | none =>
    (ins.setMetadata .INS_indirectCall (.str (hex 0xdeadbeef))).setMetadata .INS_callReturn
    (.str callReturn)

def markIns (pcEnd : UInt64) (lr : Option UInt64) (ins : Instr) : Instr :=
  match ins.storeTo? "PC", lr with
  | some val, some lrVal => if returnsTo pcEnd lrVal then tagCall lrVal val ins else ins
  | _, _ => ins

/-- The loop over the instructions of a block. -/
def markInstrs (pcEnd : UInt64) : Option UInt64 → List Instr → List Instr
  | _, [] => []
  | lr, ins :: is => markIns pcEnd lr ins :: markInstrs pcEnd (noteLR lr ins) is

def runOnFunction (F : Func) : Option Func := do
  let _ ← getPCStartOfFunc F
  let pcEnd ← getPCEndOfFunc F
  pure (F.mapBlocks fun b => { b with instrs := markInstrs pcEnd none b.instrs })

end ARMMarkCall

/-! ## ARMMarkReturn -/

namespace ARMMarkReturn

/-- `usesLR`: `LR & c`, or the bits of a call whose result is also stored to `LR`. -/
def usesLR (F : Func) (val : Value) : Bool :=
  match F.opOf val with
  | some (.binop .and a b) =>
    match F.opOf a, b.constInt? with
    | some (.load p), some _ => p.global? == some "LR"
    | some (.call _ _), _ => F.ops.any fun o => o.2 == .store a (.global "LR")
    | _, _ => false
  | _ => false

/-- A store to `PC` of a value that comes from `LR`. -/
def isReturn (F : Func) (ins : Instr) : Bool :=
  match ins.storeTo? "PC" with
  | some val => val.constInt?.isNone && usesLR F val
  | none => false

def markIns (F : Func) (ins : Instr) : Option Instr :=
  if isReturn F ins then
    if isCall ins then none else some (ins.setMetadata .INS_return (.str "true"))
  else some ins

/-- The loop over the instructions of a block, which renames the block for every return. -/
def markInstrs (F : Func) : List Instr → String → Option (List Instr × String)
  | [], name => some ([], name)
  | ins :: is, name => do
    let ins' ← markIns F ins
    let (is', name') ← markInstrs F is (if isReturn F ins then "func_return_bb_" ++ name else name)
    pure (ins' :: is', name')

def markBlock (F : Func) (b : BasicBlock) : Option BasicBlock := do
  let (is, name) ← markInstrs F b.instrs b.name
  pure { b with instrs := is, name := name }

def runOnFunction (F : Func) : Option Func := do
  let _ ← getPCStartOfFunc F
  let _ ← getPCEndOfFunc F
  let blocks ← F.blocks.mapM (markBlock F)
  pure { F with blocks := blocks }

end ARMMarkReturn

/-! ## ARMMarkJumps -/

namespace ARMMarkJumps

def tagJump (val : Value) (ins : Instr) : Instr :=
  match val.constInt? with
  | some n => ins.setMetadata .INS_directJump (.str (hex n))
  | none => ins.setMetadata .INS_indirectJump (.str (hex 0xdeadbeef))

/-- Stores to `PC` that are neither calls nor returns. -/
def markIns (ins : Instr) : Instr :=
  match ins.storeTo? "PC" with
  | some val => if isCall ins || ins.has .INS_return then ins else tagJump val ins
  | none => ins

def runOnFunction (F : Func) : Func := F.mapInstrs markIns

end ARMMarkJumps

/-! ## The three passes -/

namespace ARMMark

def runOnFunction (F : Func) : Option Func := do
  let F ← ARMMarkCall.runOnFunction F
  let F ← ARMMarkReturn.runOnFunction F
  pure (ARMMarkJumps.runOnFunction F)

/-- How a store to `PC` is tagged. -/
def exitTags : List MDKind := [.INS_directCall, .INS_indirectCall, .INS_return, .INS_directJump,
    .INS_indirectJump]

/-- The tags `BuildFunctions` reads. -/
def controlTags : List MDKind := exitTags ++ [.INS_callReturn, .INS_switch_cnt]

def Unmarked (i : Instr) : Prop := ∀ k ∈ controlTags, i.has k = false

instance (i : Instr) : Decidable (Unmarked i) :=
  inferInstanceAs (Decidable (∀ k ∈ controlTags, i.has k = false))

/-- What the passes should leave. -/
structure WellMarked (F F' : Func) : Prop where
  ops : F'.ops = F.ops
  one : ∀ i ∈ F'.instrs, i.isStoreTo "PC" = true → ∃! k, k ∈ exitTags ∧ i.has k = true
  direct : ∀ i ∈ F'.instrs, ∀ k ∈ [MDKind.INS_directCall, .INS_directJump], ∀ n,
    i.getMetadata k = some n →
    ∃ val c, i.storeToGlobal? = some (val, "PC") ∧ val.constInt? = some c ∧ n = .str (hex c)
  callReturn : ∀ i ∈ F'.instrs, isCall i = true → (getHexMetadataFromIns i .INS_callReturn).isSome
  others : ∀ i ∈ F'.instrs, i.isStoreTo "PC" = false → Unmarked i
  explore : (targets F').isSome

/-- What `ARMMarkCall` remembers after the instructions before. -/
def lastLR (pre : List Instr) : Option UInt64 := pre.foldl ARMMarkCall.noteLR none

variable {F F' : Func} {pcEnd : UInt64} {lr : Option UInt64} {i o : Instr} {val : Value}

/-! ## One instruction -/

/-- The three passes at one instruction. -/
def markIns (F : Func) (pcEnd : UInt64) (lr : Option UInt64) (i : Instr) : Option Instr :=
  (ARMMarkReturn.markIns F (ARMMarkCall.markIns pcEnd lr i)).map ARMMarkJumps.markIns

/-- A store to `PC` that `ARMMarkCall` takes for an indirect call and `ARMMarkReturn` for a
return. -/
def CallAndReturn (F : Func) (pcEnd : UInt64) (lr : Option UInt64) (i : Instr) : Prop :=
  ∃ val, i.storeTo? "PC" = some val ∧ val.constInt? = none ∧
    lr.any (ARMMarkCall.returnsTo pcEnd) = true ∧ ARMMarkReturn.usesLR F val = true

/-- What the passes should leave of an instruction. -/
structure WellMarkedIns (i o : Instr) : Prop where
  id : o.id = i.id
  op : o.op = i.op
  one : o.isStoreTo "PC" = true → ∃! k, k ∈ exitTags ∧ o.has k = true
  direct : ∀ k ∈ [MDKind.INS_directCall, .INS_directJump], ∀ n, o.getMetadata k = some n →
    ∃ val c, o.storeToGlobal? = some (val, "PC") ∧ val.constInt? = some c ∧ n = .str (hex c)
  callReturn : isCall o = true → (getHexMetadataFromIns o .INS_callReturn).isSome
  others : o.isStoreTo "PC" = false → Unmarked o
  explore : o.isStoreTo "PC" = true → (nextPCList o).isSome

theorem Unmarked.has_setMetadata (h : Unmarked i) (k : MDKind) (n : MDNode) {k' : MDKind}
    (hk' : k' ∈ controlTags) : (i.setMetadata k n).has k' = decide (k' = k) := by
  by_cases hk : k' = k
  · subst hk
    simp
  · rw [Instr.has_setMetadata_of_ne i hk, h k' hk']
    simp [hk]

theorem mem_controlTags {k : MDKind} (h : k ∈ exitTags) : k ∈ controlTags :=
  List.mem_append_left _ h

/-- With one exit tag there is exactly one. -/
theorem Unmarked.one (h : Unmarked i) {k : MDKind} (hk : k ∈ exitTags) (n : MDNode) :
    ∃! k', k' ∈ exitTags ∧ (i.setMetadata k n).has k' = true := by
  refine ⟨k, ⟨hk, Instr.has_setMetadata_self i k n⟩, ?_⟩
  rintro k' ⟨hk', hhas⟩
  rw [h.has_setMetadata k n (mem_controlTags hk')] at hhas
  exact of_decide_eq_true hhas

theorem Unmarked.getMetadata_eq_none (h : Unmarked i) {k : MDKind} (hk : k ∈ controlTags) :
    i.getMetadata k = none := by
  have := h k hk
  unfold Instr.has at this
  simpa using this

theorem isCall_tagCall (l : UInt64) (val : Value) (i : Instr) :
    isCall (ARMMarkCall.tagCall l val i) = true := by
  unfold ARMMarkCall.tagCall isCall
  cases val.constInt? <;> simp [Instr.has_setMetadata_of_ne]

@[simp] theorem storeTo?_tagCall (l : UInt64) (val : Value) (i : Instr) (g : String) :
    (ARMMarkCall.tagCall l val i).storeTo? g = i.storeTo? g := by
  unfold ARMMarkCall.tagCall
  cases val.constInt? <;> rfl

theorem Unmarked.isCall (h : Unmarked i) : isCall i = false := by
  simp [BuildFunctions.isCall, h .INS_directCall (by decide), h .INS_indirectCall (by decide)]

/-- An instruction that is no store to `PC` is left alone. -/
theorem markIns_of_none (h : i.storeTo? "PC" = none) : markIns F pcEnd lr i = some i := by
  simp [markIns, ARMMarkCall.markIns, ARMMarkReturn.markIns, ARMMarkReturn.isReturn,
    ARMMarkJumps.markIns, h]

/-- The three passes at an untagged store to `PC`. -/
theorem markIns_of_some (hi : Unmarked i) (h : i.storeTo? "PC" = some val) : markIns F pcEnd lr i =
    if lr.any (ARMMarkCall.returnsTo pcEnd) then
      if val.constInt?.isNone && ARMMarkReturn.usesLR F val then none
      else some (ARMMarkCall.tagCall (lr.getD 0) val i)
    else if val.constInt?.isNone && ARMMarkReturn.usesLR F val then
    some (i.setMetadata .INS_return (.str "true")) else some (ARMMarkJumps.tagJump val i) := by
  have hret : i.has .INS_return = false := hi .INS_return (by decide)
  by_cases hcall : lr.any (ARMMarkCall.returnsTo pcEnd) = true
  · obtain ⟨l, rfl⟩ : ∃ l, lr = some l := by
      cases lr with
      | none => simp at hcall
      | some l => exact ⟨l, rfl⟩
    have hto : ARMMarkCall.returnsTo pcEnd l = true := by simpa using hcall
    simp only [markIns, ARMMarkCall.markIns, h, hto, if_true, ARMMarkReturn.markIns,
      ARMMarkReturn.isReturn, storeTo?_tagCall, isCall_tagCall, Option.any_some, Option.getD_some]
    split_ifs
    · rfl
    · simp [ARMMarkJumps.markIns, h, isCall_tagCall]
  · have hkeep : ARMMarkCall.markIns pcEnd lr i = i := by
      cases lr with
      | none => simp [ARMMarkCall.markIns, h]
      | some l =>
        have hto : ARMMarkCall.returnsTo pcEnd l = false := by simpa using hcall
        simp [ARMMarkCall.markIns, h, hto]
    simp only [markIns, hkeep, ARMMarkReturn.markIns, ARMMarkReturn.isReturn, h, hcall, hi.isCall,
      Bool.false_eq_true, if_false]
    split_ifs
    · simp [ARMMarkJumps.markIns, h]
    · simp [ARMMarkJumps.markIns, h, hi.isCall, hret]

theorem direct_mem : ∀ k ∈ [MDKind.INS_directCall, .INS_directJump], k ∈ controlTags := by decide

theorem wellMarkedIns_self (hi : Unmarked i) (h : i.storeTo? "PC" = none) : WellMarkedIns i i where
  id := rfl
  op := rfl
  one hpc := by
    obtain ⟨v, hv⟩ := Instr.isStoreTo_iff.mp hpc
    rw [h] at hv
    simp at hv
  direct k hk n hn := by
    rw [hi.getMetadata_eq_none (direct_mem k hk)] at hn
    simp at hn
  callReturn hc := by
    rw [hi.isCall] at hc
    simp at hc
  others _ := hi
  explore hpc := by
    obtain ⟨v, hv⟩ := Instr.isStoreTo_iff.mp hpc
    rw [h] at hv
    simp at hv

theorem isStoreTo_of_storeTo? {g : String} (h : i.storeTo? g = some val) : i.isStoreTo g = true :=
  Instr.isStoreTo_iff.mpr ⟨val, h⟩

theorem not_isStoreTo_false {g : String} (h : i.storeTo? g = some val) :
    ¬ i.isStoreTo g = false := by
  simp [isStoreTo_of_storeTo? h]

/-- One tag, for a return or a jump. -/
theorem wellMarkedIns_single (hi : Unmarked i) (h : i.storeTo? "PC" = some val) {k : MDKind}
    (hk : k ∈ [MDKind.INS_return, .INS_directJump, .INS_indirectJump]) (n : MDNode)
    (hn : k = .INS_directJump → ∃ c, val.constInt? = some c ∧ n = .str (hex c)) :
    WellMarkedIns i (i.setMetadata k n) where
  id := rfl
  op := rfl
  one _ := hi.one ((by decide : ∀ k ∈ [MDKind.INS_return, .INS_directJump, .INS_indirectJump],
    k ∈ exitTags) k hk) n
  direct k' hk' m hm := by
    by_cases heq : k' = k
    · subst heq
      obtain rfl : n = m := by simpa using hm
      have hjump : k' = .INS_directJump := by
        simp only [List.mem_cons, List.not_mem_nil, or_false] at hk hk'
        rcases hk' with rfl | rfl
        · simp at hk
        · rfl
      obtain ⟨c, hc, hnc⟩ := hn hjump
      exact ⟨val, c, by simpa using Instr.storeTo?_eq_some.mp h, hc, hnc⟩
    · rw [Instr.getMetadata_setMetadata_of_ne i heq,
        hi.getMetadata_eq_none (direct_mem k' hk')] at hm
      simp at hm
  callReturn hc := by
    rw [isCall, hi.has_setMetadata _ _ (by decide), hi.has_setMetadata _ _ (by decide)] at hc
    simp only [List.mem_cons, List.not_mem_nil, or_false] at hk
    rcases hk with rfl | rfl | rfl <;> simp at hc
  others hpc := absurd hpc (not_isStoreTo_false (by simpa using h))
  explore _ := by
    have hhas := fun (k' : MDKind) (hk' : k' ∈ controlTags) => hi.has_setMetadata k n hk'
    simp only [List.mem_cons, List.not_mem_nil, or_false] at hk
    rcases hk with rfl | rfl | rfl
    · simp [nextPCList, isCall, hhas .INS_directCall (by decide),
        hhas .INS_indirectCall (by decide), hhas .INS_directJump (by decide),
          hhas .INS_indirectJump (by decide)]
    · obtain ⟨c, -, rfl⟩ := hn rfl
      simp [nextPCList, isCall, hhas .INS_directCall (by decide),
        hhas .INS_indirectCall (by decide), getHexMetadata_setMetadata]
    · simp [nextPCList, isCall, hhas .INS_directCall (by decide),
        hhas .INS_indirectCall (by decide), hhas .INS_directJump (by decide),
          hhas .INS_switch_cnt (by decide)]

/-- The tag of a call, and its return. -/
theorem wellMarkedIns_call (hi : Unmarked i) (h : i.storeTo? "PC" = some val) {k : MDKind}
    (hk : k ∈ [MDKind.INS_directCall, .INS_indirectCall]) (n : MDNode) (s : String)
    (hn : k = .INS_directCall → ∃ c, val.constInt? = some c ∧ n = .str (hex c)) :
    WellMarkedIns i ((i.setMetadata k n).setMetadata .INS_callReturn (.str s)) where
  id := rfl
  op := rfl
  one _ := by
    have hkeep : ∀ k' ∈ exitTags, ((i.setMetadata k n).setMetadata .INS_callReturn
        (.str s)).has k' = (i.setMetadata k n).has k' := fun k' hk' =>
      Instr.has_setMetadata_of_ne _ (by rintro rfl; revert hk'; decide) _
    obtain ⟨k', ⟨hk', hhas⟩, huniq⟩ :=
      hi.one ((by decide : ∀ k ∈ [MDKind.INS_directCall, .INS_indirectCall], k ∈ exitTags) k hk) n
    exact ⟨k', ⟨hk', by rw [hkeep k' hk', hhas]⟩, fun j hj =>
      huniq j ⟨hj.1, by rw [← hkeep j hj.1, hj.2]⟩⟩
  direct k' hk' m hm := by
    rw [Instr.getMetadata_setMetadata_of_ne _ (by rintro rfl; revert hk'; decide)] at hm
    by_cases heq : k' = k
    · subst heq
      obtain rfl : n = m := by simpa using hm
      have hcall : k' = .INS_directCall := by
        simp only [List.mem_cons, List.not_mem_nil, or_false] at hk hk'
        rcases hk' with rfl | rfl
        · rfl
        · simp at hk
      obtain ⟨c, hc, hnc⟩ := hn hcall
      exact ⟨val, c, by simpa using Instr.storeTo?_eq_some.mp h, hc, hnc⟩
    · rw [Instr.getMetadata_setMetadata_of_ne i heq,
        hi.getMetadata_eq_none (direct_mem k' hk')] at hm
      simp at hm
  callReturn _ := by
    rw [getHexMetadata_setMetadata]
    rfl
  others hpc := absurd hpc (not_isStoreTo_false (by simpa using h))
  explore _ := by
    have hcall : isCall ((i.setMetadata k n).setMetadata .INS_callReturn (.str s)) = true := by
      simp only [List.mem_cons, List.not_mem_nil, or_false] at hk
      rcases hk with rfl | rfl <;> simp [isCall, Instr.has_setMetadata_of_ne]
    simp [nextPCList, hcall, getHexMetadata_setMetadata]

/-- **The passes stop exactly at a store that is a call and a return, and mark every other one
well.** -/
theorem markIns_spec (hi : Unmarked i) :
    (markIns F pcEnd lr i = none ↔ CallAndReturn F pcEnd lr i) ∧
      ∀ o, markIns F pcEnd lr i = some o → WellMarkedIns i o := by
  cases h : i.storeTo? "PC" with
  | none =>
    rw [markIns_of_none h]
    refine ⟨iff_of_false (by simp) ?_, ?_⟩
    · rintro ⟨val, hv, -⟩
      rw [h] at hv
      simp at hv
    · rintro o ho
      obtain rfl : i = o := by simpa using ho
      exact wellMarkedIns_self hi h
  | some val =>
    have hbad : CallAndReturn F pcEnd lr i ↔ lr.any (ARMMarkCall.returnsTo pcEnd) = true ∧
        (val.constInt?.isNone && ARMMarkReturn.usesLR F val) = true := by
      simp only [CallAndReturn, h, Option.some.injEq, Bool.and_eq_true, Option.isNone_iff_eq_none]
      constructor
      · rintro ⟨_, rfl, h1, h2, h3⟩
        exact ⟨h2, h1, h3⟩
      · rintro ⟨h2, h1, h3⟩
        exact ⟨val, rfl, h1, h2, h3⟩
    rw [markIns_of_some hi h, hbad]
    -- both tags, a call, a return, or a jump
    split_ifs with hcall hret hret
    · simp [hcall, hret]
    · refine ⟨by simp [hret], fun o ho => ?_⟩
      rw [← Option.some.inj ho]
      unfold ARMMarkCall.tagCall
      cases hc : val.constInt? with
      | some n => exact wellMarkedIns_call hi h (by decide) _ _ fun _ => ⟨n, hc, rfl⟩
      | none => exact wellMarkedIns_call hi h (by decide) _ _ (by simp)
    · refine ⟨by simp [hcall], fun o ho => ?_⟩
      rw [← Option.some.inj ho]
      exact wellMarkedIns_single hi h (by decide) _ (by simp)
    · refine ⟨by simp [hcall], fun o ho => ?_⟩
      rw [← Option.some.inj ho]
      unfold ARMMarkJumps.tagJump
      cases hc : val.constInt? with
      | some n => exact wellMarkedIns_single hi h (by decide) _ fun _ => ⟨n, hc, rfl⟩
      | none => exact wellMarkedIns_single hi h (by decide) _ (by simp)

/-! ## Blocks -/

/-- The three passes over the instructions of a block. -/
def markInstrs (F : Func) (pcEnd : UInt64) : Option UInt64 → List Instr → Option (List Instr)
  | _, [] => some []
  | lr, i :: is => do
    let o ← markIns F pcEnd lr i
    let os ← markInstrs F pcEnd (ARMMarkCall.noteLR lr i) is
    pure (o :: os)

theorem markInstrs_eq (is : List Instr) (lr : Option UInt64) (name : String) :
    (ARMMarkReturn.markInstrs F (ARMMarkCall.markInstrs pcEnd lr is) name).map (fun r =>
      r.1.map ARMMarkJumps.markIns) = markInstrs F pcEnd lr is := by
  induction is generalizing lr name with
  | nil => rfl
  | cons i is ih =>
    simp only [ARMMarkCall.markInstrs, ARMMarkReturn.markInstrs, markInstrs, markIns]
    -- what the block is called plays no part
    generalize (if ARMMarkReturn.isReturn F (ARMMarkCall.markIns pcEnd lr i) then
      "func_return_bb_" ++ name else name) = name'
    rw [← ih _ name']
    cases ARMMarkReturn.markIns F (ARMMarkCall.markIns pcEnd lr i) with
    | none => rfl
    | some o =>
      cases ARMMarkReturn.markInstrs F
        (ARMMarkCall.markInstrs pcEnd (ARMMarkCall.noteLR lr i) is) name' <;> rfl

/-- The passes go through a block that holds no store which is a call and a return. -/
theorem markInstrs_isSome {is : List Instr} (h : ∀ i ∈ is, Unmarked i) :
    (markInstrs F pcEnd lr is).isSome ↔ ∀ pre i post, is = pre ++ i :: post →
      ¬ CallAndReturn F pcEnd (pre.foldl ARMMarkCall.noteLR lr) i := by
  induction is generalizing lr with
  | nil => simp [markInstrs]
  | cons a is ih =>
    have ha : markIns F pcEnd lr a = none ↔ CallAndReturn F pcEnd lr a :=
      (markIns_spec (h a List.mem_cons_self)).1
    have ih := @ih (ARMMarkCall.noteLR lr a) fun i hi => h i (List.mem_cons_of_mem _ hi)
    have hsplit : (markInstrs F pcEnd lr (a :: is)).isSome ↔ (markIns F pcEnd lr a).isSome ∧
        (markInstrs F pcEnd (ARMMarkCall.noteLR lr a) is).isSome := by
      rw [markInstrs]
      cases markIns F pcEnd lr a with
      | none => simp
      | some o => cases markInstrs F pcEnd (ARMMarkCall.noteLR lr a) is <;> simp
    rw [hsplit, ih, Option.isSome_iff_ne_none, ne_eq, ha]
    constructor
    · rintro ⟨hbad, hrest⟩ pre i post heq
      cases pre with
      | nil =>
        obtain ⟨rfl, -⟩ := List.cons.inj heq
        exact hbad
      | cons c pre =>
        obtain ⟨rfl, rfl⟩ := List.cons.inj heq
        exact hrest pre i post rfl
    · intro hall
      exact ⟨hall [] a is rfl, fun pre i post heq => hall (a :: pre) i post (by rw [heq]; rfl)⟩

theorem markInstrs_wellMarked {is os : List Instr} (h : ∀ i ∈ is, Unmarked i)
    (hr : markInstrs F pcEnd lr is = some os) : List.Forall₂ WellMarkedIns is os := by
  induction is generalizing lr os with
  | nil =>
    obtain rfl : [] = os := by simpa [markInstrs] using hr
    exact List.Forall₂.nil
  | cons a is ih =>
    rw [markInstrs] at hr
    obtain ⟨o, ho, hr⟩ := Option.bind_eq_some_iff.mp hr
    obtain ⟨os', hos, hr⟩ := Option.bind_eq_some_iff.mp hr
    obtain rfl : o :: os' = os := Option.some.inj hr
    exact List.Forall₂.cons ((markIns_spec (h a List.mem_cons_self)).2 o ho)
      (ih (fun i hi => h i (List.mem_cons_of_mem _ hi)) hos)

/-- The three passes over a block. -/
def markBlock (F : Func) (pcEnd : UInt64) (b : BasicBlock) : Option BasicBlock :=
  (ARMMarkReturn.markBlock F { b with instrs := ARMMarkCall.markInstrs pcEnd none b.instrs }).map
    (BasicBlock.mapInstrs ARMMarkJumps.markIns)

theorem instrs_markBlock (b : BasicBlock) :
    (markBlock F pcEnd b).map BasicBlock.instrs = markInstrs F pcEnd none b.instrs := by
  rw [← markInstrs_eq b.instrs none b.name]
  unfold markBlock ARMMarkReturn.markBlock
  cases ARMMarkReturn.markInstrs F (ARMMarkCall.markInstrs pcEnd none b.instrs) b.name <;> rfl

/-! ## Functions -/

theorem ops_markCall :
    (F.mapBlocks fun b => { b with instrs := ARMMarkCall.markInstrs pcEnd none b.instrs }).ops =
      F.ops := by
  have hins : ∀ (lr : Option UInt64) (i : Instr), ((ARMMarkCall.markIns pcEnd lr i).id,
      (ARMMarkCall.markIns pcEnd lr i).op) = (i.id, i.op) := by
    intro lr i
    unfold ARMMarkCall.markIns ARMMarkCall.tagCall
    split
    · split_ifs
      · split <;> rfl
      · rfl
    · rfl
  have hblock : ∀ (is : List Instr) (lr : Option UInt64), (ARMMarkCall.markInstrs pcEnd lr is).map
      (fun i => (i.id, i.op)) = is.map fun i => (i.id, i.op) := by
    intro is
    induction is with
    | nil => exact fun _ => rfl
    | cons i is ih => exact fun lr => congrArg₂ List.cons (hins lr i) (ih _)
  unfold Func.ops Func.instrs Func.mapBlocks
  rw [List.flatMap_map, List.map_flatMap, List.map_flatMap]
  exact List.flatMap_congr fun b _ => hblock b.instrs none

theorem usesLR_congr {G : Func} (h : G.ops = F.ops) (v : Value) :
    ARMMarkReturn.usesLR G v = ARMMarkReturn.usesLR F v := by
  have hop : G.opOf = F.opOf := by
    funext v
    unfold Func.opOf
    rw [h]
  unfold ARMMarkReturn.usesLR
  rw [hop, h]

theorem markBlock_congr {G : Func} (h : G.ops = F.ops) :
    ARMMarkReturn.markBlock G = ARMMarkReturn.markBlock F := by
  have hret : ARMMarkReturn.isReturn G = ARMMarkReturn.isReturn F := by
    funext i
    unfold ARMMarkReturn.isReturn
    simp only [usesLR_congr h]
  have hins : ARMMarkReturn.markIns G = ARMMarkReturn.markIns F := by
    funext i
    unfold ARMMarkReturn.markIns
    rw [hret]
  have hinstrs : ∀ is name, ARMMarkReturn.markInstrs G is name = ARMMarkReturn.markInstrs
      F is name := by
    intro is
    induction is with
    | nil => exact fun _ => rfl
    | cons i is ih => exact fun name => by simp only [ARMMarkReturn.markInstrs, hins, hret, ih]
  funext b
  simp only [ARMMarkReturn.markBlock, hinstrs]

/-- Calls are marked without touching the other metadata. -/
theorem getHexMetadataFromFunc_markCall {k : MDKind} (hk : k ∉ controlTags) : getHexMetadataFromFunc
    (F.mapBlocks fun b => { b with instrs := ARMMarkCall.markInstrs pcEnd none b.instrs }) k =
      getHexMetadataFromFunc F k := by
  have hins : ∀ (lr : Option UInt64) (i : Instr),
      getHexMetadataFromIns (ARMMarkCall.markIns pcEnd lr i) k = getHexMetadataFromIns i k := by
    intro lr i
    have hne : ∀ k' ∈ controlTags, k ≠ k' := fun k' hk' => by
      rintro rfl
      exact hk hk'
    have hmd : (ARMMarkCall.markIns pcEnd lr i).getMetadata k = i.getMetadata k := by
      unfold ARMMarkCall.markIns ARMMarkCall.tagCall
      split
      · split_ifs
        · split <;> rw [Instr.getMetadata_setMetadata_of_ne _ (hne _ (by decide)),
            Instr.getMetadata_setMetadata_of_ne _ (hne _ (by decide))]
        · rfl
      · rfl
    unfold getHexMetadataFromIns
    rw [hmd]
  unfold getHexMetadataFromFunc Func.mapBlocks
  cases F.blocks with
  | nil => rfl
  | cons b bs =>
    cases hb : b.instrs with
    | nil => simp [hb, ARMMarkCall.markInstrs]
    | cons i is => simp [hb, ARMMarkCall.markInstrs, hins]

/-- The three passes go over the blocks one by one. -/
theorem runOnFunction_eq (hstart : (getPCStartOfFunc F).isSome) (hend : getPCEndOfFunc F = some pcEnd) :
    runOnFunction F = (F.blocks.mapM (markBlock F pcEnd)).map fun bs => { F with blocks := bs } := by
  obtain ⟨pcStart, hpc⟩ := Option.isSome_iff_exists.mp hstart
  have hcall : ARMMarkCall.runOnFunction F =
      some (F.mapBlocks fun b => { b with instrs := ARMMarkCall.markInstrs pcEnd none b.instrs }) := by
    simp [ARMMarkCall.runOnFunction, hpc, hend]
  have hkeep : ∀ k ∉ controlTags, getHexMetadataFromFunc
      (F.mapBlocks fun b => { b with instrs := ARMMarkCall.markInstrs pcEnd none b.instrs }) k =
        getHexMetadataFromFunc F k := fun k hk => getHexMetadataFromFunc_markCall hk
  have hpc' := (hkeep .BB_pcStart (by decide)).trans hpc
  have hend' := (hkeep .BB_pcEnd (by decide)).trans hend
  unfold runOnFunction
  rw [hcall, Option.bind_eq_bind, Option.bind_some]
  unfold ARMMarkReturn.runOnFunction getPCStartOfFunc getPCEndOfFunc
  rw [hpc', hend', markBlock_congr ops_markCall]
  simp only [Option.bind_eq_bind, Option.bind_some, Option.pure_def, Func.mapBlocks, List.mapM_map]
  unfold markBlock
  rw [← OptionMapM.map_mapM]
  show ((F.blocks.mapM fun b => ARMMarkReturn.markBlock F
    { b with instrs := ARMMarkCall.markInstrs pcEnd none b.instrs }).bind _).bind _ = _
  cases F.blocks.mapM fun b => ARMMarkReturn.markBlock F
    { b with instrs := ARMMarkCall.markInstrs pcEnd none b.instrs } <;> rfl

theorem WellMarkedIns.ops_eq {is os : List Instr} (h : List.Forall₂ WellMarkedIns is os) :
    os.map (fun o => (o.id, o.op)) = is.map fun i => (i.id, i.op) := by
  induction h with
  | nil => rfl
  | cons hi _ ih => exact congrArg₂ List.cons (Prod.ext hi.id hi.op) ih

/-- Instruction by instruction, what the passes leave of a function. -/
theorem wellMarked_of_forall₂ {bs : List BasicBlock}
    (h : List.Forall₂ (fun b b' => List.Forall₂ WellMarkedIns b.instrs b'.instrs) F.blocks bs) :
    WellMarked F { F with blocks := bs } := by
  have hinstrs : List.Forall₂ WellMarkedIns F.instrs (bs.flatMap BasicBlock.instrs) :=
    List.rel_flatMap h fun _ _ hb => hb
  have hmem := Lists.exists_of_mem_right hinstrs
  refine ⟨?_, fun o ho => ?_, fun o ho => ?_, fun o ho => ?_, fun o ho => ?_, ?_⟩
  · exact WellMarkedIns.ops_eq hinstrs
  · obtain ⟨i, -, hi⟩ := hmem o ho
    exact hi.one
  · obtain ⟨i, -, hi⟩ := hmem o ho
    exact hi.direct
  · obtain ⟨i, -, hi⟩ := hmem o ho
    exact hi.callReturn
  · obtain ⟨i, -, hi⟩ := hmem o ho
    exact hi.others
  · unfold targets
    rw [Option.isSome_map, OptionMapM.isSome_mapM]
    intro o ho
    obtain ⟨ho, hpc⟩ := List.mem_filter.mp ho
    obtain ⟨i, -, hi⟩ := hmem o ho
    exact hi.explore hpc

/-- **The three passes mark a block-function well exactly when no store to `PC` that comes after a
constant return address in `LR` stores a value taken from `LR`.** -/
theorem armMark_wellMarked_iff (hstart : (getPCStartOfFunc F).isSome)
    (hend : getPCEndOfFunc F = some pcEnd) (hun : ∀ i ∈ F.instrs, Unmarked i) :
    (∃ F', runOnFunction F = some F' ∧ WellMarked F F') ↔
      ∀ b ∈ F.blocks, ∀ pre i post, b.instrs = pre ++ i :: post →
      ¬ CallAndReturn F pcEnd (lastLR pre) i := by
  have hunb : ∀ b ∈ F.blocks, ∀ i ∈ b.instrs, Unmarked i := fun b hb i hi =>
    hun i (List.mem_flatMap.mpr ⟨b, hb, hi⟩)
  have hsome : (runOnFunction F).isSome ↔
      ∀ b ∈ F.blocks, (markInstrs F pcEnd none b.instrs).isSome := by
    rw [runOnFunction_eq hstart hend, Option.isSome_map, OptionMapM.isSome_mapM]
    refine forall₂_congr fun b _ => ?_
    rw [← instrs_markBlock, Option.isSome_map]
  have hcond : (runOnFunction F).isSome ↔
      ∀ b ∈ F.blocks, ∀ pre i post, b.instrs = pre ++ i :: post →
      ¬ CallAndReturn F pcEnd (lastLR pre) i :=
    hsome.trans (forall₂_congr fun b hb => markInstrs_isSome (hunb b hb))
  rw [← hcond]
  constructor
  · rintro ⟨F', hF', -⟩
    rw [hF']
    rfl
  · intro h
    obtain ⟨F', hF'⟩ := Option.isSome_iff_exists.mp h
    refine ⟨F', hF', ?_⟩
    rw [runOnFunction_eq hstart hend] at hF'
    obtain ⟨bs, hbs, rfl⟩ := Option.map_eq_some_iff.mp hF'
    refine wellMarked_of_forall₂ ?_
    have hpairs := OptionMapM.mapM_eq_some_iff.mp hbs
    rw [List.forall₂_iff_get] at hpairs ⊢
    refine ⟨hpairs.1, fun n h₁ h₂ => ?_⟩
    have hrun : (markBlock F pcEnd (F.blocks.get ⟨n, h₁⟩)).map BasicBlock.instrs = _ :=
      instrs_markBlock _
    rw [hpairs.2 n h₁ h₂] at hrun
    exact markInstrs_wellMarked (hunb _ (List.get_mem _ _)) hrun.symm

/-- `blx` through the register `r` at `0x8000`: the target is read, `LR` is set, then `PC`. -/
def blx (r : String) : Func :=
  ⟨"tcg-llvm-tb-void-tcg-llvm-tb-0-8000", [⟨1, "entry", [
    ⟨some 1, .load (.global r), [(.BB_pcStart, .str (hex 0x8000)), (.BB_pcEnd, .str (hex 0x8004))]⟩,
    ⟨some 2, .binop .and (.inst 1) (.constInt 32 0xfffffffe), []⟩,
    ⟨some 3, .store (.constInt 32 0x8004) (.global "LR"), []⟩,
    ⟨some 4, .store (.inst 2) (.global "PC"), []⟩,
    ⟨some 5, .ret none, [(.INS_fakeReturn, .str "true")]⟩]⟩]⟩

/-- `blx lr` is marked as a call, and then runs into the assertion of `ARMMarkReturn`. -/
theorem blx_LR_not_wellMarked : getPCStartOfFunc (blx "LR") = some 0x8000 ∧
    getPCEndOfFunc (blx "LR") = some 0x8004 ∧
    (∀ i ∈ (blx "LR").instrs, Unmarked i) ∧ ¬ ∃ F', runOnFunction (blx "LR") = some F' ∧
    WellMarked (blx "LR") F' := by
  refine ⟨by decide, by decide, by decide, ?_⟩
  rintro ⟨F', hF', -⟩
  have hnone : runOnFunction (blx "LR") = none := by decide
  rw [hnone] at hF'
  simp at hF'

theorem blx_R3_wellMarked : ∃ F', runOnFunction (blx "R3") = some F' ∧
    WellMarked (blx "R3") F' := by
  refine (armMark_wellMarked_iff (by decide) (show getPCEndOfFunc (blx "R3") =
    some 0x8004 by decide) (by decide)).mpr ?_
  rintro b hb pre i post heq ⟨val, hval, -, -, huses⟩
  have hno : ∀ b ∈ (blx "R3").blocks, ∀ i ∈ b.instrs,
      (i.storeTo? "PC").all (fun v => !ARMMarkReturn.usesLR (blx "R3") v) = true := by decide
  have := hno b hb i (by rw [heq]; simp)
  rw [hval] at this
  simp [huses] at this

end ARMMark

end Bin2llvm
