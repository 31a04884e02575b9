import Bin2llvm.BlockPasses
import Bin2llvm.BuildFunctions.Prepared
import Bin2llvm.ErasingPasses
import Bin2llvm.RunPassesPre

/-!
# Bin2llvm.BuildFunctions.LeavesOnce — which blocks the first passes prepare

`BuildFunctions` needs basic blocks that store to `PC` once, before a fake return, or not at all.
`TransformBBToVoid` makes the fake returns, and `RemoveExtraStoreToPC` removes constant stores only.

* `LeavesOnce`: the computed stores of a block, and its last one.
* `VoidBlock`: a block whose returns are fake.
* `FirstPasses.prepared_iff`: what the passes leave is prepared exactly when every block leaves
  once.
-/

namespace Bin2llvm.BuildFunctions

open RemoveExtraStoreToPC (pcStores pcValue isExtra eraseExtra setCurrPC Processed)

/-- Behind a computed value nothing is stored to `PC`, and it is stored by a block that returns.
Such a block does store to `PC`. -/
def LeavesOnce (b : BasicBlock) : Prop :=
  if b.returns then ∃ vs v, pcStores b.instrs = vs ++ [v] ∧ ∀ u ∈ vs, u.constInt?.isSome = true
  else ∀ u ∈ pcStores b.instrs, u.constInt?.isSome = true

/-- One terminator, and the returns are the fake returns. -/
structure VoidBlock (b : BasicBlock) : Prop where
  terminated : b.Terminated
  fake : ∀ i ∈ b.instrs, i.has .INS_fakeReturn = true ↔ ∃ v, i.op = .ret v

variable {f f' : Func} {b b' : BasicBlock} {i o t : Instr} {is os : List Instr} {pc : UInt64}

/-! ## Prepared blocks -/

theorem returns_iff (heq : b.instrs = is ++ [t]) (ht : t.isTerminator = true) :
    b.returns = true ↔ ∃ v, t.op = .ret v := by
  have hterm : b.terminator? = some t := by
    rw [BasicBlock.terminator?, heq, List.getLast?_concat]
    simp [ht]
  unfold BasicBlock.returns
  rw [hterm, Option.any_some]
  cases hop : t.op <;> simp

theorem pcStores_append (is js : List Instr) : pcStores (is ++ js) = pcStores is ++ pcStores js :=
  List.filterMap_append

theorem pcStores_eq_nil : pcStores is = [] ↔ ∀ i ∈ is, i.isStoreTo "PC" = false := by
  unfold pcStores
  rw [List.filterMap_eq_nil_iff]
  refine forall₂_congr fun i _ => ?_
  rw [Bool.eq_false_iff, ne_eq, Instr.isStoreTo_iff, not_exists, Option.eq_none_iff_forall_ne_some]

theorem VoidBlock.quiet (h : VoidBlock b) (hi : i ∈ b.instrs) (hterm : i.isTerminator = false)
    (hPC : i.isStoreTo "PC" = false) : Quiet i := by
  refine ⟨hterm, Bool.eq_false_iff.mpr fun hfake => ?_, hPC⟩
  obtain ⟨v, hv⟩ := (h.fake i hi).mp hfake
  rw [Instr.isTerminator, hv] at hterm
  cases hterm

/-- **A block is prepared when it has as many stores to `PC` as it has returns.** -/
theorem VoidBlock.preparedBlock_iff (h : VoidBlock b) :
    PreparedBlock b ↔ (pcStores b.instrs).length = if b.returns then 1 else 0 := by
  constructor
  · intro hb
    cases hb with
    | @inner pre t heq hpre hterm hfake =>
      -- a terminator that is no fake return is no return
      have hnoret : ¬ b.returns = true := fun hret => by
        have hf := (h.fake t (by simp [heq])).mpr ((returns_iff heq hterm).mp hret)
        rw [hfake] at hf
        cases hf
      have hnil : pcStores b.instrs = [] := by
        rw [heq, pcStores_append, pcStores_eq_nil.mpr fun i hi => (hpre i hi).notToPC,
          pcStores_eq_nil.mpr fun i hi => List.mem_singleton.mp hi ▸ notToPC_of_isTerminator hterm]
        rfl
      rw [hnil, if_neg hnoret]
      rfl
    | @exit pre mid s r heq hpre hmid htoPC hs hret hfake =>
      obtain ⟨v, hv⟩ := hret
      have hterm : r.isTerminator = true := by rw [Instr.isTerminator, hv]; rfl
      have hret : b.returns = true :=
        (returns_iff (show b.instrs = pre ++ s :: mid ++ [r] by simp [heq]) hterm).mpr ⟨v, hv⟩
      obtain ⟨u, hu⟩ := Instr.isStoreTo_iff.mp htoPC
      have hone : pcStores b.instrs = [u] := by
        rw [heq, List.append_cons, pcStores_append, pcStores_append, pcStores_append,
          pcStores_eq_nil.mpr fun i hi => (hpre i hi).notToPC, pcStores_eq_nil.mpr fun i hi =>
            (hmid i hi).notToPC,
          pcStores_eq_nil.mpr fun i hi => List.mem_singleton.mp hi ▸ notToPC_of_isTerminator hterm]
        simp [pcStores, hu]
      rw [hone, if_pos hret]
      rfl
  · intro hlen
    -- the block is split at its only store, and at its terminator
    obtain ⟨is, t, heq, hterm, his⟩ := h.terminated
    have hmem : ∀ i ∈ is, i ∈ b.instrs := fun i hi => by rw [heq]; exact List.mem_append_left _ hi
    have hlast : pcStores b.instrs = pcStores is := by
      rw [heq, pcStores_append,
        pcStores_eq_nil.mpr fun i hi => List.mem_singleton.mp hi ▸ notToPC_of_isTerminator hterm,
          List.append_nil]
    rw [hlast] at hlen
    by_cases hret : b.returns = true
    · rw [if_pos hret] at hlen
      obtain ⟨v, hv⟩ := (returns_iff heq hterm).mp hret
      obtain ⟨u, hu⟩ := List.length_eq_one_iff.mp hlen
      obtain ⟨pre, s, mid, rfl, hpre, hs, hmid⟩ := List.filterMap_eq_cons_iff.mp hu
      have hpre' : ∀ i ∈ pre, i.isStoreTo "PC" = false :=
          fun i hi => Bool.eq_false_iff.mpr fun hst => by
        obtain ⟨w, hw⟩ := Instr.isStoreTo_iff.mp hst
        rw [hpre i hi] at hw
        cases hw
      have hmid' : ∀ i ∈ mid, i.isStoreTo "PC" = false := pcStores_eq_nil.mp hmid
      have hsPC : s.isStoreTo "PC" = true := Instr.isStoreTo_iff.mpr ⟨u, hs⟩
      have hsplit : b.instrs = pre ++ s :: (mid ++ [t]) := by rw [heq]; simp
      refine .exit hsplit (fun i hi => ?_) (fun i hi => ?_) hsPC ?_ ⟨v, hv⟩ ?_
      · exact h.quiet (hmem i (by simp [hi])) (his i (by simp [hi])) (hpre' i hi)
      · exact h.quiet (hmem i (by simp [hi])) (his i (by simp [hi])) (hmid' i hi)
      · refine Bool.eq_false_iff.mpr fun hfake => ?_
        obtain ⟨w, hw⟩ := (h.fake s (hmem s (by simp))).mp hfake
        have := his s (by simp)
        rw [Instr.isTerminator, hw] at this
        cases this
      · exact (h.fake t (by simp [heq])).mpr ⟨v, hv⟩
    · rw [if_neg hret] at hlen
      have hno := pcStores_eq_nil.mp (List.length_eq_zero_iff.mp hlen)
      refine .inner heq (fun i hi => h.quiet (hmem i hi) (his i hi) (hno i hi)) hterm
        (Bool.eq_false_iff.mpr fun hf => ?_)
      exact hret ((returns_iff heq hterm).mpr ((h.fake t (by simp [heq])).mp hf))


/-! ## TransformBBToVoid -/

theorem constInt?_mapArg (v : Value) : (TransformBBToVoid.mapArg v).constInt? = v.constInt? := by
  cases v <;> rfl

theorem pcStores_cloneIns (is : List Instr) :
    pcStores (is.map TransformBBToVoid.cloneIns) = (pcStores is).map TransformBBToVoid.mapArg := by
  have hglobal : ∀ (p : Value) (g : String), TransformBBToVoid.mapArg p = .global g ↔
      p = .global g := by
    intro p g
    cases p <;> simp [TransformBBToVoid.mapArg, TransformBBToVoid.paramType]
  have hins : ∀ i : Instr, (TransformBBToVoid.cloneIns i).storeTo? "PC" =
      (i.storeTo? "PC").map TransformBBToVoid.mapArg := by
    intro i
    obtain ⟨id, op, md⟩ := i
    cases op with
    | store v p =>
      cases p with
      | global g =>
        show (if g = "PC" then some (TransformBBToVoid.mapArg v) else none) = (if g = "PC" then
          some v else none).map _
        split_ifs <;> rfl
      | _ => rfl
    | _ => rfl
  unfold pcStores
  rw [List.filterMap_map, List.map_filterMap]
  exact congrArg (List.filterMap · is) (funext hins)

/-- **The returns of the new function are the fake returns.** -/
theorem voidBlock_cloneIns (hb : b.Terminated)
    (hfake : ∀ i ∈ b.instrs, i.has .INS_fakeReturn = false) :
    VoidBlock (b.mapInstrs TransformBBToVoid.cloneIns) ∧
      (b.mapInstrs TransformBBToVoid.cloneIns).returns = b.returns := by
  -- a return is cloned to a fake return, and its value is dropped
  have hclone : ∀ i ∈ b.instrs, (∃ v, i.op = .ret v) ∧ TransformBBToVoid.cloneIns i =
      ⟨none, .ret none, [(.INS_fakeReturn, .str "true")]⟩ ∨
      (¬ ∃ v, i.op = .ret v) ∧ TransformBBToVoid.cloneIns i =
      i.mapValues TransformBBToVoid.mapArg := by
    intro i _
    unfold TransformBBToVoid.cloneIns
    split
    · next v hop => exact .inl ⟨⟨v, hop⟩, rfl⟩
    · next hop => exact .inr ⟨fun ⟨v, hv⟩ => hop v hv, rfl⟩
  have hret : ∀ i ∈ b.instrs, (∃ v, (TransformBBToVoid.cloneIns i).op = .ret v) ↔
      ∃ v, i.op = .ret v := by
    intro i hi
    rcases hclone i hi with ⟨h, heq⟩ | ⟨h, heq⟩
    · rw [heq]
      exact iff_of_true ⟨none, rfl⟩ h
    · rw [heq]
      refine iff_of_false (fun ⟨v, hv⟩ => h ?_) h
      rw [Instr.op_mapValues] at hv
      cases hop : i.op with
      | ret u => exact ⟨u, rfl⟩
      | _ => rw [hop] at hv; cases hv
  have hterm : ∀ i ∈ b.instrs, (TransformBBToVoid.cloneIns i).isTerminator = i.isTerminator := by
    intro i hi
    rcases hclone i hi with ⟨⟨v, hv⟩, heq⟩ | ⟨-, heq⟩
    · rw [heq, Instr.isTerminator, Instr.isTerminator, hv]
      rfl
    · rw [heq, Instr.isTerminator_mapValues]
  obtain ⟨is, t, heq, ht, his⟩ := hb
  have hinstrs : (b.mapInstrs TransformBBToVoid.cloneIns).instrs =
      is.map TransformBBToVoid.cloneIns ++ [TransformBBToVoid.cloneIns t] := by
    simp [BasicBlock.mapInstrs, heq]
  have htb : t ∈ b.instrs := by simp [heq]
  have ht' : (TransformBBToVoid.cloneIns t).isTerminator = true := (hterm t htb).trans ht
  refine ⟨⟨⟨_, _, hinstrs, ht', fun i hi => ?_⟩, fun i hi => ?_⟩, ?_⟩
  · obtain ⟨j, hj, rfl⟩ := List.mem_map.mp hi
    rw [hterm j (by simp [heq, hj])]
    exact his j hj
  · obtain ⟨j, hj, rfl⟩ := List.mem_map.mp hi
    rw [hret j hj]
    rcases hclone j hj with ⟨h, hj'⟩ | ⟨h, hj'⟩
    · rw [hj']
      exact iff_of_true rfl h
    · refine iff_of_false ?_ h
      rw [hj']
      exact Bool.eq_false_iff.mp (hfake j hj)
  · rw [Bool.eq_iff_iff, returns_iff hinstrs ht', returns_iff heq ht]
    exact hret t htb

/-! ## Other tags -/

/-- The same instruction, with other tags. -/
structure Retagged (i o : Instr) : Prop where
  op : o.op = i.op
  fake : o.has .INS_fakeReturn = i.has .INS_fakeReturn

theorem Retagged.refl (i : Instr) : Retagged i i := ⟨rfl, rfl⟩

theorem retagged_setMetadata (i : Instr) {k : MDKind} (hk : .INS_fakeReturn ≠ k) (n : MDNode) :
    Retagged i (i.setMetadata k n) := ⟨rfl, Instr.has_setMetadata_of_ne i hk n⟩

/-- A block with other tags. -/
def RetaggedBlock (b b' : BasicBlock) : Prop := List.Forall₂ Retagged b.instrs b'.instrs

theorem RetaggedBlock.refl (b : BasicBlock) : RetaggedBlock b b :=
  List.forall₂_same.mpr fun i _ => .refl i

theorem RetaggedBlock.trans {b'' : BasicBlock} (h : RetaggedBlock b b')
    (h' : RetaggedBlock b' b'') : RetaggedBlock b b'' :=
  Lists.forall₂_comp (fun _ _ _ h h' => ⟨h'.op.trans h.op, h'.fake.trans h.fake⟩) h h'

theorem pcStores_retagged (h : List.Forall₂ Retagged is os) : pcStores os = pcStores is := by
  unfold pcStores
  induction h with
  | nil => rfl
  | cons hi _ ih =>
    rw [List.filterMap_cons, List.filterMap_cons, ih]
    unfold Instr.storeTo? Instr.storeToGlobal?
    rw [hi.op]

theorem RetaggedBlock.voidBlock (h : RetaggedBlock b b') (hb : VoidBlock b) :
    VoidBlock b' ∧ b'.returns = b.returns := by
  obtain ⟨is, t, heq, hterm, his⟩ := hb.terminated
  have hinstrs : List.Forall₂ Retagged b.instrs b'.instrs := h
  have hsplit := hinstrs
  rw [heq] at hsplit
  obtain ⟨os, ts, hos, hos', hts⟩ := Lists.exists_append hsplit
  obtain ⟨t', none, ht', hnil, rfl⟩ := List.forall₂_cons_left_iff.mp hts
  obtain rfl := List.forall₂_nil_left_iff.mp hnil
  have hterm' : t'.isTerminator = true := by rw [Instr.isTerminator, ht'.op]; exact hterm
  refine ⟨⟨⟨os, t', hos, hterm', fun o ho => ?_⟩, fun o ho => ?_⟩, ?_⟩
  · obtain ⟨i, hi, hio⟩ := Lists.exists_of_mem_right hos' o ho
    rw [Instr.isTerminator, hio.op]
    exact his i hi
  · obtain ⟨i, hi, hio⟩ := Lists.exists_of_mem_right hinstrs o ho
    rw [hio.fake, hio.op]
    exact hb.fake i hi
  · rw [Bool.eq_iff_iff, returns_iff hos hterm', returns_iff heq hterm, ht'.op]

namespace TagInstPc

open Bin2llvm.TagInstPc (tagStores tagBlock updateLastPc runOnFunction)

theorem retagged_tagStores {pcs : List UInt32} (h : tagStores is = some (os, pcs)) :
    List.Forall₂ Retagged is os := by
  induction is generalizing os pcs with
  | nil =>
    obtain ⟨rfl, -⟩ := Prod.mk.inj (Option.some.inj h)
    exact .nil
  | cons i is ih =>
    rw [tagStores] at h
    obtain ⟨⟨rest, pcs'⟩, hrest, h⟩ := Option.bind_eq_some_iff.mp h
    split_ifs at h
    · obtain ⟨pc, -, h⟩ := Option.map_eq_some_iff.mp h
      obtain ⟨rfl, -⟩ := Prod.mk.inj h
      exact .cons (retagged_setMetadata i (by decide) _) (ih hrest)
    · obtain ⟨rfl, -⟩ := Prod.mk.inj (Option.some.inj h)
      exact .cons (.refl i) (ih hrest)

theorem retagged_updateLastPc {pc : UInt32} (h : updateLastPc b pc = some b') :
    RetaggedBlock b b' := by
  unfold updateLastPc at h
  obtain ⟨term, hterm, h⟩ := Option.bind_eq_some_iff.mp h
  have hnew : RetaggedBlock b
      { b with instrs := b.instrs.dropLast ++ [term.setMetadata .lastpc (.int pc.toUInt64)] } := by
    obtain ⟨hlast, -⟩ := Option.filter_eq_some_iff.mp hterm
    unfold RetaggedBlock
    conv_lhs => rw [← List.dropLast_append_getLast? term hlast]
    exact List.rel_append (RetaggedBlock.refl ⟨b.id, b.name, b.instrs.dropLast⟩)
      (.cons (retagged_setMetadata term (by decide) _) .nil)
  dsimp only at h
  split at h
  · obtain rfl := Option.some.inj h
    split_ifs
    · exact .refl b
    · exact hnew
  · cases h
  · obtain rfl := Option.some.inj h
    exact hnew

/-- The pass only adds tags. -/
theorem retagged_runOnFunction (h : runOnFunction f = some f') :
    List.Forall₂ RetaggedBlock f.blocks f'.blocks := by
  obtain ⟨tagged, htagged, h⟩ := Option.bind_eq_some_iff.mp h
  have hblocks : List.Forall₂ (fun b r => RetaggedBlock b r.1) f.blocks tagged := by
    refine (OptionMapM.mapM_eq_some_iff.mp htagged).imp fun b r hr => ?_
    unfold tagBlock at hr
    split_ifs at hr
    obtain ⟨⟨is, pcs⟩, his, rfl⟩ := Option.map_eq_some_iff.mp hr
    exact retagged_tagStores his
  cases tagged with
  | nil =>
    obtain rfl := Option.some.inj h
    exact List.forall₂_same.mpr fun b _ => .refl b
  | cons r tagged =>
    obtain ⟨e, he, rfl⟩ := Option.map_eq_some_iff.mp h
    obtain ⟨entry, bbs, hentry, hbbs, heq⟩ := List.forall₂_cons_right_iff.mp hblocks
    rw [heq]
    refine .cons (hentry.trans ?_) (List.forall₂_map_right_iff.mpr hbbs)
    exact OptionMapM.foldlM_preserves (P := fun _ e => RetaggedBlock r.1 e)
      (fun _ _ _ _ hb hstep => hb.trans (retagged_updateLastPc hstep)) (.refl r.1) he

end TagInstPc


/-! ## RemoveExtraStoreToPC -/

/-- The values whose stores stay. -/
def keptStores (isExitBB : Bool) : List Value → List Value
  | [] => []
  | v :: vs => if v.constInt?.isSome && (!vs.isEmpty || !isExitBB) then keptStores isExitBB vs
    else v :: keptStores isExitBB vs

theorem pcStores_eraseExtra (isExitBB : Bool) (is : List Instr) :
    pcStores (eraseExtra isExitBB is) = keptStores isExitBB (pcStores is) := by
  induction is with
  | nil => rfl
  | cons i is ih =>
    have hcons : ∀ js, pcStores (i :: js) = (i.storeTo? "PC").toList ++ pcStores js := fun js => by
      unfold pcStores
      rw [List.filterMap_cons]
      cases i.storeTo? "PC" <;> rfl
    rw [eraseExtra, hcons]
    cases hs : i.storeTo? "PC" with
    | none =>
      have hextra : isExtra isExitBB i is = false := by simp [isExtra, pcValue, hs]
      rw [hextra, if_neg (by simp), hcons, hs, ih]
      rfl
    | some v =>
      have hextra : isExtra isExitBB i is = (v.constInt?.isSome &&
          (!(pcStores is).isEmpty || !isExitBB)) := by
        simp [isExtra, pcValue, hs]
      rw [hextra]
      show _ = keptStores isExitBB (v :: pcStores is)
      rw [keptStores]
      split_ifs
      · exact ih
      · rw [hcons, hs, ih]
        rfl

theorem keptStores_false (vs : List Value) :
    keptStores false vs = [] ↔ ∀ u ∈ vs, u.constInt?.isSome = true := by
  induction vs with
  | nil => simp [keptStores]
  | cons v vs ih =>
    rw [keptStores, List.forall_mem_cons, ← ih]
    by_cases hv : v.constInt?.isSome = true <;> simp [hv]

theorem keptStores_ne_nil {vs : List Value} (h : vs ≠ []) : keptStores true vs ≠ [] := by
  induction vs with
  | nil => exact absurd rfl h
  | cons v vs ih =>
    cases vs with
    | nil => simp [keptStores]
    | cons w vs =>
      rw [keptStores]
      split_ifs
      · exact ih (List.cons_ne_nil w vs)
      · exact List.cons_ne_nil _ _

theorem keptStores_true (vs : List Value) :
    (keptStores true vs).length = 1 ↔ ∃ ws v, vs = ws ++ [v] ∧ ∀ u ∈ ws,
      u.constInt?.isSome = true := by
  induction vs with
  | nil => simp [keptStores]
  | cons v vs ih =>
    cases vs with
    | nil => exact iff_of_true (by simp [keptStores]) ⟨[], v, rfl, by simp⟩
    | cons w vs =>
      have hpos : 0 < (keptStores true (w :: vs)).length :=
        List.length_pos_iff.mpr (keptStores_ne_nil (List.cons_ne_nil w vs))
      have hlast : (∃ ws u, v :: w :: vs = ws ++ [u] ∧ ∀ u ∈ ws, u.constInt?.isSome = true) ↔
          v.constInt?.isSome = true ∧ ∃ ws u, w :: vs = ws ++ [u] ∧ ∀ u ∈ ws,
          u.constInt?.isSome = true := by
        constructor
        · rintro ⟨ws, u, heq, hws⟩
          cases ws with
          | nil => simp at heq
          | cons x ws =>
            obtain ⟨rfl, htail⟩ := List.cons.inj heq
            exact ⟨hws v List.mem_cons_self, ws, u, htail, (List.forall_mem_cons.mp hws).2⟩
        · rintro ⟨hv, ws, u, heq, hws⟩
          exact ⟨v :: ws, u, by rw [heq]; rfl, List.forall_mem_cons.mpr ⟨hv, hws⟩⟩
      rw [keptStores, hlast, ← ih]
      by_cases hv : v.constInt?.isSome = true
      · rw [if_pos (by simp [hv])]
        exact (and_iff_right hv).symm
      · rw [if_neg (by simp [hv]), List.length_cons]
        exact iff_of_false (by omega) fun h => hv h.1

theorem keptStores_map (isExitBB : Bool) (vs : List Value) :
    keptStores isExitBB (vs.map TransformBBToVoid.mapArg) =
      (keptStores isExitBB vs).map TransformBBToVoid.mapArg := by
  induction vs with
  | nil => rfl
  | cons v vs ih =>
    rw [List.map_cons, keptStores, keptStores, constInt?_mapArg, ih, List.isEmpty_map]
    split_ifs <;> rfl

/-- One store is kept in a block that returns, and none in another one. -/
theorem leavesOnce_iff :
    LeavesOnce b ↔ (keptStores b.returns (pcStores b.instrs)).length = if b.returns then
      1 else 0 := by
  unfold LeavesOnce
  cases b.returns with
  | true => exact (keptStores_true _).symm
  | false => exact (List.length_eq_zero_iff.trans (keptStores_false _)).symm

theorem eraseExtra_concat (isExitBB : Bool) (ht : t.isTerminator = true) (is : List Instr) :
    ∃ js, eraseExtra isExitBB (is ++ [t]) = js ++ [t] ∧ ∀ j ∈ js, j ∈ is := by
  induction is with
  | nil =>
    have hno : isExtra isExitBB t [] = false := by
      simp [isExtra, RemoveExtraStoreToPC.pcValue_of_isTerminator ht]
    exact ⟨[], by simp [eraseExtra, hno], by simp⟩
  | cons i is ih =>
    obtain ⟨js, hjs, hsub⟩ := ih
    rw [List.cons_append, eraseExtra, hjs]
    split_ifs
    · exact ⟨js, rfl, fun j hj => List.mem_cons_of_mem _ (hsub j hj)⟩
    · exact ⟨i :: js, rfl, List.forall_mem_cons.mpr ⟨List.mem_cons_self,
        fun j hj => List.mem_cons_of_mem _ (hsub j hj)⟩⟩

theorem voidBlock_eraseExtra (isExitBB : Bool) (hb : VoidBlock b) :
    VoidBlock { b with instrs := eraseExtra isExitBB b.instrs } ∧
      BasicBlock.returns { b with instrs := eraseExtra isExitBB b.instrs } = b.returns := by
  obtain ⟨is, t, heq, ht, his⟩ := hb.terminated
  obtain ⟨js, hjs, hsub⟩ := eraseExtra_concat isExitBB ht is
  have hinstrs : eraseExtra isExitBB b.instrs = js ++ [t] := by rw [heq, hjs]
  refine ⟨⟨⟨js, t, hinstrs, ht, fun j hj => his j (hsub j hj)⟩, fun i hi => hb.fake i ?_⟩, ?_⟩
  · have hi' : i ∈ js ++ [t] := hinstrs ▸ hi
    rw [heq]
    rcases List.mem_append.mp hi' with hi' | hi'
    · exact List.mem_append_left _ (hsub i hi')
    · exact List.mem_append_right _ hi'
  · exact Bool.eq_iff_iff.mpr ((returns_iff hinstrs ht).trans (returns_iff heq ht).symm)

theorem retagged_setCurrPC (pc : UInt64) (is : List Instr) :
    List.Forall₂ Retagged is (setCurrPC pc is) := by
  induction is generalizing pc with
  | nil => exact .nil
  | cons i is ih => exact .cons (retagged_setMetadata i (by decide) _) (ih _)

theorem voidBlock_processed (hb : VoidBlock b) (h : Processed b b') :
    VoidBlock b' ∧ b'.returns = b.returns ∧ pcStores b'.instrs = keptStores b.returns
      (pcStores b.instrs) := by
  obtain ⟨pc, rfl⟩ := h
  have hretag : RetaggedBlock b { b with instrs := setCurrPC pc b.instrs } :=
    retagged_setCurrPC pc b.instrs
  obtain ⟨hvoid, hret⟩ := hretag.voidBlock hb
  obtain ⟨hvoid', hret'⟩ := voidBlock_eraseExtra b.returns hvoid
  refine ⟨hvoid', hret'.trans hret, ?_⟩
  rw [pcStores_eraseExtra, RemoveExtraStoreToPC.pcStores_setCurrPC]

/-! ## S2EDeleteInstructionCount -/

theorem filter_keeps {p : Instr → Bool} (hterm : ∀ i, i.isTerminator = true → p i = true)
    (hPC : ∀ i, i.isStoreTo "PC" = true → p i = true) (hb : VoidBlock b) :
    VoidBlock { b with instrs := b.instrs.filter p } ∧
      BasicBlock.returns { b with instrs := b.instrs.filter p } = b.returns ∧
      pcStores (b.instrs.filter p) = pcStores b.instrs := by
  obtain ⟨is, t, heq, ht, his⟩ := hb.terminated
  have hinstrs : b.instrs.filter p = is.filter p ++ [t] := by
    rw [heq, List.filter_append, List.filter_cons_of_pos (hterm t ht), List.filter_nil]
  refine ⟨⟨⟨is.filter p, t, hinstrs, ht, fun i hi => his i (List.mem_of_mem_filter hi)⟩,
    fun i hi => hb.fake i (List.mem_of_mem_filter hi)⟩, ?_, ?_⟩
  · exact Bool.eq_iff_iff.mpr ((returns_iff hinstrs ht).trans (returns_iff heq ht).symm)
  · unfold pcStores
    rw [List.filterMap_filter]
    refine List.filterMap_congr fun i _ => ?_
    split_ifs with hp
    · rfl
    · refine (Option.eq_none_iff_forall_ne_some.mpr fun v hv => ?_).symm
      exact hp (hPC i (Instr.isStoreTo_iff.mpr ⟨v, hv⟩))

/-- A terminator and a store to `PC` are not erased. -/
theorem not_isErasable (h : i.isTerminator = true ∨ i.isStoreTo "PC" = true) :
    S2EDeleteInstructionCount.isErasable i = false := by
  refine Bool.eq_false_iff.mpr fun he => ?_
  rcases S2EDeleteInstructionCount.isErased_cases (of_decide_eq_true he) with ⟨v, g, hg, hop⟩ |
    ⟨args, hop⟩ <;> rcases h with h | h
  · rw [Instr.isTerminator, hop] at h
    cases h
  · obtain ⟨w, hw⟩ := Instr.isStoreTo_iff.mp h
    have hg' : g = "PC" := by
      unfold Instr.storeTo? Instr.storeToGlobal? at hw
      rw [hop] at hw
      simp at hw
      exact hw.1
    rw [hg'] at hg
    exact absurd hg (by decide)
  · rw [Instr.isTerminator, hop] at h
    cases h
  · obtain ⟨w, hw⟩ := Instr.isStoreTo_iff.mp h
    unfold Instr.storeTo? Instr.storeToGlobal? at hw
    rw [hop] at hw
    cases hw

/-! ## The passes -/

/-- The passes in front of the marking passes, on a function whose blocks do not overlap with
others. -/
structure FirstPasses (f : Func) where
  tagged : Func
  lastStores : Func
  uncounted : Func
  erased : Bool
  tagInstPc : Bin2llvm.TagInstPc.runOnFunction (TransformBBToVoid.newFunc f) = some tagged
  rmexterstoretopc : RemoveExtraStoreToPC.runOnFunction tagged = some (lastStores, erased)
  s2edeleteinstructioncount : S2EDeleteInstructionCount.runOnFunction lastStores = some uncounted

/-- **The passes prepare a function exactly when each of its blocks leaves once**: the only values
computed for `PC` are the last ones of the blocks that return. -/
theorem FirstPasses.prepared_iff (r : FirstPasses f) (hf : ∀ b ∈ f.blocks, b.Terminated)
    (hfake : ∀ i ∈ f.instrs, i.has .INS_fakeReturn = false) :
    (∀ b ∈ r.uncounted.blocks, PreparedBlock b) ↔ ∀ b ∈ f.blocks, LeavesOnce b := by
  -- block by block, what each pass leaves of the stores to `PC`
  have hvoid : List.Forall₂ (fun b b' => VoidBlock b' ∧ (LeavesOnce b' ↔ LeavesOnce b)) f.blocks
      (TransformBBToVoid.newFunc f).blocks := by
    refine List.forall₂_map_right_iff.mpr (List.forall₂_same.mpr fun b hb => ?_)
    obtain ⟨hv, hret⟩ := voidBlock_cloneIns (hf b hb) fun i hi =>
      hfake i (List.mem_flatMap.mpr ⟨b, hb, hi⟩)
    refine ⟨hv, ?_⟩
    rw [leavesOnce_iff, leavesOnce_iff, hret]
    show (keptStores b.returns (pcStores (b.instrs.map TransformBBToVoid.cloneIns))).length = _ ↔ _
    rw [pcStores_cloneIns, keptStores_map, List.length_map]
  have htagged : List.Forall₂ (fun b b' => VoidBlock b' ∧ (LeavesOnce b' ↔ LeavesOnce b)) f.blocks
      r.tagged.blocks := by
    refine Lists.forall₂_comp (fun b b' b'' hb hb' =>
      ?_) hvoid (TagInstPc.retagged_runOnFunction r.tagInstPc)
    obtain ⟨hv, hret⟩ := hb'.voidBlock hb.1
    refine ⟨hv, Iff.trans ?_ hb.2⟩
    unfold LeavesOnce
    rw [hret, pcStores_retagged hb']
  have hlast : List.Forall₂ (fun b b' => VoidBlock b' ∧ (PreparedBlock b' ↔ LeavesOnce b)) f.blocks
      r.lastStores.blocks := by
    refine Lists.forall₂_comp (fun b b' b'' hb hb' => ?_) htagged
      (RemoveExtraStoreToPC.processed r.rmexterstoretopc)
    obtain ⟨hv, hret, hstores⟩ := voidBlock_processed hb.1 hb'
    refine ⟨hv, hv.preparedBlock_iff.trans ?_⟩
    rw [hret, hstores, ← leavesOnce_iff]
    exact hb.2
  have hall : List.Forall₂ (fun b b' => PreparedBlock b' ↔
      LeavesOnce b) f.blocks r.uncounted.blocks := by
    rw [S2EDeleteInstructionCount.runOnFunction_eq r.s2edeleteinstructioncount]
    refine List.forall₂_map_right_iff.mpr (hlast.imp fun b b' hb => Iff.trans ?_ hb.2)
    obtain ⟨hv, hret, hstores⟩ :=
      filter_keeps (p := fun i => !S2EDeleteInstructionCount.isErasable i)
      (fun i hi => by rw [not_isErasable (.inl hi)]; rfl) (fun i hi =>
        by rw [not_isErasable (.inr hi)]; rfl) hb.1
    refine hv.preparedBlock_iff.trans (Iff.trans ?_ hb.1.preparedBlock_iff.symm)
    rw [hret, ← hstores]
  constructor
  · intro h b hb
    obtain ⟨b', hb', hiff⟩ := Lists.exists_of_mem hall b hb
    exact hiff.mp (h b' hb')
  · intro h b' hb'
    obtain ⟨b, hb, hiff⟩ := Lists.exists_of_mem_right hall b' hb'
    exact hiff.mpr (h b hb)

instance : Decidable (LeavesOnce b) := decidable_of_iff _ leavesOnce_iff.symm

/-- `bx lr` at `0x8000`, in a block of its own. -/
def bxLr : Func := savedBlock "tcg-llvm-tb-0-8000" "0x00008000" (boundary "0x00008000" 0x8000 ++
  [savedIns "0x00008000" (.load (.global "R14")) (some 0),
    savedIns "0x00008000" (.store (.inst 0) (.global "PC")) none])

def bxLrPasses : FirstPasses bxLr := ⟨_, _, _, _, rfl, rfl, rfl⟩

theorem prepared_bxLr : ∃ r : FirstPasses bxLr, ∀ b ∈ r.uncounted.blocks, PreparedBlock b :=
  ⟨bxLrPasses, (bxLrPasses.prepared_iff
    (fun b hb => ⟨_, _, by obtain rfl := List.mem_singleton.mp hb; rfl, rfl, by decide⟩)
      (by decide)).mpr (by decide)⟩

end Bin2llvm.BuildFunctions
