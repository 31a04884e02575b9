import Bin2llvm.EnvAccesses
import Mathlib.Data.List.Nodup

/-!
# Bin2llvm.EnvPointers — what the pass takes for pointers to the CPU state

`S2ETransformPass` decides by the uses of a value whether it is erased.  What it has collected when
it comes to `cleanup` are accesses through pointers to the CPU state, and computations of such
pointers.

* `EnvPtr`: the values that are the environment pointer and a constant distance.
* `Sound`: what the lists hold.
* `exists_transformed`: they hold it in the end.
* `Transformed.unused`: nothing that stays uses what goes.
-/

namespace Bin2llvm.S2ETransformPass

section

variable {Ty : Type} (T : TypeInfo Ty) (f : Func)

/-- The environment pointer, at a distance. -/
inductive EnvPtr : Value → UInt64 → Prop
  | load {ins : Instr} {k : InstId} {p : Value} (hins : ins ∈ f.instrs) (hid : ins.id = some k)
      (hop : ins.op = .load p) (h : ArgPtr f p ∨ T.getName p = "env") : EnvPtr (.inst k) 0
  | cast {ins : Instr} {k : InstId} {v : Value} {opcode : ℕ} {offset : UInt64}
      (hins : ins ∈ f.instrs) (hid : ins.id = some k) (hop : ins.op = .other opcode [v])
      (hcast : isCast opcode = true) (h : EnvPtr v offset) : EnvPtr (.inst k) offset
  | add {ins : Instr} {k : InstId} {v : Value} {width : ℕ} {val offset : UInt64}
      (hins : ins ∈ f.instrs) (hid : ins.id = some k)
      (hop : ins.op = .binop .add v (.constInt width val)) (h : EnvPtr v offset) :
      EnvPtr (.inst k) (offset + getSExtValue width val)
  | gep {ins : Instr} {k : InstId} {v : Value} {indices : List Value} {total offset : UInt64}
      (hins : ins ∈ f.instrs) (hid : ins.id = some k)
      (hop : ins.op = .other GetElementPtr (v :: indices))
      (htotal : gepTotal (indices.zip (T.indexTypes k)) = some total) (h : EnvPtr v offset) :
      EnvPtr (.inst k) (offset + total)

/-- A cast has one operand, and every index of a `getelementptr` a type. -/
structure WellTyped : Prop where
  cast : ∀ ins ∈ f.instrs, ∀ opcode args, ins.op = .other opcode args → isCast opcode = true →
    ∃ v, args = [v]
  gep : ∀ ins ∈ f.instrs, ∀ k args, ins.id = some k → ins.op = .other GetElementPtr args →
    args.length ≤ (T.indexTypes k).length + 1

/-- The result is a pointer to the environment pointer, or into the CPU state. -/
def Address (k : InstId) : Prop := ArgPtr f (.inst k) ∨ ∃ offset, EnvPtr T f (.inst k) offset

/-- An access to the CPU state, and the global it goes to. -/
def Replaced (p : InstId × Value) : Prop :=
  ∃ ins ∈ f.instrs, ∃ ptr offset, ins.id = some p.1 ∧
    (ins.op = .load ptr ∨ ∃ v, ins.op = .store v ptr) ∧
    EnvPtr T f ptr offset ∧ globalOf p.2 = some (getGlobalName offset.toUInt32)

variable {f} (U : UseLists f)

/-- All uses of a value are erased, once for each operand, and none of them stores it. -/
structure UsesErased (eraseList : List InstId) (v : Value) : Prop where
  ids : ∀ u ∈ U.uses v, u.id.isSome = true
  sublist : ((U.uses v).filterMap Instr.id).Sublist eraseList
  notStored : ∀ u ∈ U.uses v, ∀ w p, u.op = .store w p → p = v

/-- What is erased is an access, or computes an address that nothing uses any more. -/
structure Sound (st : PassState Ty) : Prop where
  replaced : ∀ p ∈ st.replaceMap, Replaced T f p
  erased : ∀ k ∈ st.eraseList, (∃ ptr, (k, ptr) ∈ st.replaceMap) ∨
    Address T f k ∧ UsesErased U st.eraseList (.inst k)

/-- A part of the pass after which the lists hold what they are to hold. -/
def KeepsSound (process : Process Ty) : Prop :=
  ∀ {st b st'}, process st = some (b, st') → Sound T U st → Sound T U st'

/-- A use that succeeds is erased, and is no store of the value. -/
def ErasesUses (process : Instr → Process Ty) (v : Value) : Prop :=
  ∀ u st st', process u st = some (true, st') →
    (∃ k, u.id = some k ∧ (st.eraseList ++ [k]).Sublist st'.eraseList) ∧ ∀ w p, u.op = .store w p →
    p = v

end

section

variable {Ty : Type} {T : TypeInfo Ty} {f : Func} {U : UseLists f} {st st' : PassState Ty}
variable {v : Value} {b : Bool} {use ins : Instr} {k : InstId} {offset : UInt64}
variable {uses : List Instr} {process : Instr → Process Ty}

theorem EnvPtr.exists_inst (h : EnvPtr T f v offset) : ∃ k, v = .inst k := by
  cases h <;> exact ⟨_, rfl⟩

theorem Sound.nil (globals : List (String × Ty)) : Sound T U ⟨[], [], globals⟩ :=
  ⟨fun _ hp => absurd hp List.not_mem_nil, fun _ hk => absurd hk List.not_mem_nil⟩

theorem UsesErased.append {eraseList : List InstId} (h : UsesErased U eraseList v)
    (ks : List InstId) : UsesErased U (eraseList ++ ks) v :=
  ⟨h.ids, h.sublist.trans (List.sublist_append_left _ _), h.notStored⟩

/-- One more is erased. -/
theorem Sound.erase (h : Sound T U st) (hk : Address T f k)
    (huses : UsesErased U st.eraseList (.inst k)) :
    Sound T U { st with eraseList := st.eraseList ++ [k] } := by
  refine ⟨h.replaced, fun j hj => ?_⟩
  rcases List.mem_append.mp hj with hj | hj
  · exact (h.erased j hj).imp_right fun hj => ⟨hj.1, hj.2.append [k]⟩
  · obtain rfl := List.mem_singleton.mp hj
    exact .inr ⟨hk, huses.append [j]⟩

/-! ## The loops over uses -/

theorem keepsSound_forUses (h : ∀ use ∈ uses, KeepsSound T U (process use)) :
    KeepsSound T U (forUses process uses) := by
  induction uses with
  | nil =>
    intro st b st' hrun hst
    simp only [forUses, Option.some.injEq, Prod.mk.injEq] at hrun
    exact hrun.2 ▸ hst
  | cons use rest ih =>
    intro st b st' hrun hst
    obtain ⟨huse, hrest⟩ := List.forall_mem_cons.mp h
    obtain ⟨ok, oks, mid, hmid, hrun', -⟩ := forUses_cons hrun
    exact ih hrest hrun' (huse hmid hst)

/-- All uses succeed. -/
theorem forUses_true (h : ErasesUses process v)
    (hrun : forUses process uses st = some (true, st')) :
    (∀ u ∈ uses, u.id.isSome = true ∧ ∀ w p, u.op = .store w p → p = v) ∧
      (st.eraseList ++ uses.filterMap Instr.id).Sublist st'.eraseList := by
  induction uses generalizing st with
  | nil =>
    simp only [forUses, Option.some.injEq, Prod.mk.injEq] at hrun
    rw [← hrun.2]
    exact ⟨fun u hu => absurd hu List.not_mem_nil, by simp⟩
  | cons use rest ih =>
    obtain ⟨ok, oks, mid, huse, hrest, hboth⟩ := forUses_cons hrun
    obtain ⟨rfl, rfl⟩ : ok = true ∧ oks = true := by simpa using hboth.symm
    obtain ⟨⟨k, hid, hsub⟩, hstore⟩ := h use st mid huse
    obtain ⟨hall, hsub'⟩ := ih hrest
    refine ⟨List.forall_mem_cons.mpr ⟨⟨by rw [hid]; rfl, hstore⟩, hall⟩, ?_⟩
    rw [List.filterMap_cons_some hid, List.append_cons]
    exact (hsub.append_right _).trans hsub'

theorem usesErased_of_true (h : ErasesUses process v)
    (hrun : forUses process (U.uses v) st = some (true, st')) : UsesErased U st'.eraseList v := by
  obtain ⟨hall, hsub⟩ := forUses_true h hrun
  exact ⟨fun u hu => (hall u hu).1, (List.sublist_append_right _ _).trans hsub, fun u hu =>
    (hall u hu).2⟩

theorem keepsSound_eraseAfter (hkeeps : ∀ use ∈ U.uses (.inst k), KeepsSound T U (process use))
    (herases : ErasesUses process (.inst k)) (hk : Address T f k) :
    KeepsSound T U (eraseAfter k (forUses process (U.uses (.inst k)))) := by
  intro st b st' hrun hst
  obtain ⟨mid, hmid, rfl⟩ := eraseAfter_eq hrun
  have hsound := keepsSound_forUses hkeeps hmid hst
  cases b with
  | false => exact hsound
  | true => exact hsound.erase hk (usesErased_of_true herases hmid)

theorem sublist_eraseAfter {process : Process Ty} (hadds : OnlyAdds process)
    (h : eraseAfter k process st = some (true, st')) :
    (st.eraseList ++ [k]).Sublist st'.eraseList := by
  obtain ⟨mid, hmid, rfl⟩ := eraseAfter_eq h
  exact (hadds hmid).eraseList.sublist.append_right [k]

end

/-! ## The parts of the pass -/

section

variable {Ty : Type} [DecidableEq Ty] {T : TypeInfo Ty} {f : Func} {U : UseLists f}
variable {st st' : PassState Ty} {v : Value} {use ins : Instr} {k : InstId} {offset : UInt64}
variable {b : Bool}

theorem keepsSound_replaceAccess {ptr : Value} (hins : ins ∈ f.instrs) (hid : ins.id = some k)
    (haccess : ins.op = .load ptr ∨ ∃ v, ins.op = .store v ptr) (hptr : EnvPtr T f ptr offset) :
    KeepsSound T U (replaceAccess T k offset.toUInt32) := by
  intro st b st' hrun hst
  simp only [replaceAccess, Option.some.injEq, Prod.mk.injEq] at hrun
  obtain ⟨-, rfl⟩ := hrun
  obtain ⟨ty, hglobal, -⟩ := getOrInsertGlobal_spec st.globals (getGlobalName offset.toUInt32)
    (T.accessType k)
  have hnew : Replaced T f (k, (getOrInsertGlobal st.globals (getGlobalName offset.toUInt32)
      (T.accessType k)).1) :=
    ⟨ins, hins, ptr, offset, hid, haccess, hptr, hglobal⟩
  -- the access has an entry, an earlier one or the new one
  have hkey : ∃ ptr, (k, ptr) ∈ if (st.replaceMap.lookup k).isSome = true then st.replaceMap else
      st.replaceMap ++
        [(k, (getOrInsertGlobal st.globals (getGlobalName offset.toUInt32)
          (T.accessType k)).1)] := by
    split_ifs with hsome
    · obtain ⟨ptr, hptr⟩ := Option.isSome_iff_exists.mp hsome
      exact ⟨ptr, Lists.mem_of_lookup hptr⟩
    · exact ⟨_, List.mem_append_right _ (List.mem_singleton_self _)⟩
  refine ⟨fun p hp => ?_, fun j hj => ?_⟩
  · dsimp only at hp
    split_ifs at hp
    · exact hst.replaced p hp
    · rcases List.mem_append.mp hp with hp | hp
      · exact hst.replaced p hp
      · exact List.mem_singleton.mp hp ▸ hnew
  · rcases List.mem_append.mp hj with hj | hj
    · rcases hst.erased j hj with ⟨ptr, hptr⟩ | hj
      · refine .inl ⟨ptr, ?_⟩
        dsimp only
        split_ifs
        · exact hptr
        · exact List.mem_append_left _ hptr
      · exact .inr ⟨hj.1, hj.2.append [k]⟩
    · obtain rfl := List.mem_singleton.mp hj
      exact .inl hkey

/-- The indices of a total are constants. -/
theorem inst?_of_gepTotal {indices : List (Value × IndexType)} {total : UInt64}
    (h : gepTotal indices = some total) : ∀ p ∈ indices, p.1.inst? = none := by
  induction indices generalizing total with
  | nil => exact fun p hp => absurd hp List.not_mem_nil
  | cons p rest ih =>
    obtain ⟨v, ty⟩ := p
    cases v with
    | constInt width val =>
      obtain ⟨total', hrest, -⟩ := Option.map_eq_some_iff.mp h
      exact List.forall_mem_cons.mpr ⟨rfl, ih hrest⟩
    | _ => exact absurd h (by simp [gepTotal])

omit [DecidableEq Ty] in
theorem inst?_of_index {v : Value} {indices : List Value} {total : UInt64} (hwt : WellTyped T f)
    (hins : ins ∈ f.instrs) (hid : ins.id = some k)
    (hop : ins.op = .other GetElementPtr (v :: indices))
    (htotal : gepTotal (indices.zip (T.indexTypes k)) = some total) :
    ∀ u ∈ indices, u.inst? = none := by
  intro u hu
  have hle : indices.length ≤ (T.indexTypes k).length := by simpa using hwt.gep ins hins k _ hid hop
  obtain ⟨p, hp, rfl⟩ := List.mem_map.mp ((List.map_fst_zip hle).symm ▸ hu)
  exact inst?_of_gepTotal htotal p hp

/-- The sum of the indices is -1 if one of them is no constant. -/
theorem exists_gepTotal {indices : List (Value × IndexType)} {elementOffset offset : UInt32}
    (h : getGetElementPtrOffset elementOffset indices = some offset) (hne : offset ≠ 0xffffffff) :
    ∃ total, gepTotal indices = some total ∧ offset = elementOffset + total.toUInt32 := by
  induction indices generalizing elementOffset with
  | nil =>
    rw [getGetElementPtrOffset, Option.some.injEq] at h
    exact ⟨0, rfl, by simp [← h]⟩
  | cons p rest ih =>
    obtain ⟨v, ty⟩ := p
    cases v with
    | constInt width val =>
      rw [getGetElementPtrOffset] at h
      rw [gepTotal]
      by_cases hval : val = 0
      · rw [if_pos hval] at h
        obtain ⟨total, htotal, hoffset⟩ := ih h
        refine ⟨0 + total, ?_, by rw [UInt64.zero_add, hoffset]⟩
        rw [htotal, if_pos hval, Option.map_some]
      · rw [if_neg hval] at h
        obtain ⟨total, htotal, hoffset⟩ := ih h
        refine ⟨indexOffset ty width val + total, ?_, ?_⟩
        · rw [htotal, if_neg hval, Option.map_some]
        · rw [hoffset, UInt64.toUInt32_add, UInt32.add_assoc]
    | arg _ | inst _ => exact absurd (Option.some.inj h).symm hne
    | _ => exact absurd h (by simp [getGetElementPtrOffset])

theorem processEnvUse_some {fuel : ℕ} {envPointer : Value} {currentOffset : UInt32}
    (h : processEnvUse T U fuel envPointer use currentOffset st = some (b, st')) : ∃ n k,
      fuel = n + 1 ∧ use.id = some k := by
  cases fuel with
  | zero => exact absurd h (by simp [processEnvUse])
  | succ n =>
    rw [processEnvUse, Option.bind_eq_some_iff] at h
    obtain ⟨k, hk, -⟩ := h
    exact ⟨n, k, rfl, hk⟩

theorem erasesUses_processEnvUse (fuel : ℕ) (envPointer : Value) (currentOffset : UInt32) :
    ErasesUses (fun u => processEnvUse T U fuel envPointer u currentOffset) envPointer := by
  intro u st st' hrun
  constructor
  · rcases processEnvUse_cases hrun with ⟨hb, -⟩ | ⟨n, k, rfl, hk, -, ⟨offset, h⟩ | h⟩
    · cases hb
    · exact ⟨k, hk, sublist_eraseAfter (onlyAdds_forUses (fun u =>
        onlyAdds_processEnvUse n (.inst k) u offset) _) h⟩
    · simp only [replaceAccess, Option.some.injEq, Prod.mk.injEq] at h
      exact ⟨k, hk, by rw [← h.2]⟩
  · intro w p hop
    obtain ⟨n, k, rfl, hk⟩ := processEnvUse_some hrun
    by_contra hne
    simp [processEnvUse, hk, hop, hne] at hrun

theorem erasesUses_processArgUse (fuel : ℕ) (v : Value) :
    ErasesUses (processArgUse T U fuel) v := by
  intro u st st' hrun
  rcases processArgUse_cases hrun with ⟨hb, -⟩ | ⟨n, k, rfl, hk, -, h⟩
  · cases hb
  · refine ⟨⟨k, hk, ?_⟩, fun w p hop => ?_⟩
    · rcases h with h | h
      · exact sublist_eraseAfter (onlyAdds_forUses (onlyAdds_processArgUse n) _) h
      · exact sublist_eraseAfter (onlyAdds_forUses (fun u =>
          onlyAdds_processEnvUse n (.inst k) u 0) _) h
    · simp [processArgUse, hk, hop] at hrun

/-- A use of a pointer into the CPU state. -/
theorem keepsSound_processEnvUse (hwt : WellTyped T f) (fuel : ℕ) :
    ∀ {v : Value} {use : Instr} {offset : UInt64},
      use ∈ U.uses v → EnvPtr T f v offset →
      KeepsSound T U (processEnvUse T U fuel v use offset.toUInt32) := by
  induction fuel with
  | zero =>
    intro v use offset _ _ st b st' hrun
    exact absurd hrun (by simp [processEnvUse])
  | succ n ih =>
    intro v use offset huse hv st b st' hrun hst
    obtain ⟨hins, hoperand⟩ := U.mem_uses.mp huse
    -- the result of the instruction is a pointer at another distance
    have hstep : ∀ {k : InstId} {offset' : UInt64}, EnvPtr T f (.inst k) offset' →
        KeepsSound T U (eraseAfter k
          (forUses (fun u => processEnvUse T U n (.inst k) u offset'.toUInt32)
            (U.uses (.inst k)))) := fun hk =>
      keepsSound_eraseAfter (fun u hu => ih hu hk) (erasesUses_processEnvUse n _ _) (.inr ⟨_, hk⟩)
    rw [processEnvUse, Option.bind_eq_some_iff] at hrun
    obtain ⟨k, hid, hrun⟩ := hrun
    dsimp only at hrun
    split at hrun
    case h_1 opcode args hop =>
      rw [hop] at hoperand
      split_ifs at hrun with hcast hgep
      · obtain ⟨a, rfl⟩ := hwt.cast use hins opcode args hop hcast
        obtain rfl := List.mem_singleton.mp hoperand
        exact hstep (.cast hins hid hop hcast hv) hrun hst
      · subst hgep
        obtain ⟨o, ho, hrest⟩ := Option.bind_eq_some_iff.mp hrun
        split_ifs at hrest with hfailed
        · exact (eq_of_failed hrest).2 ▸ hst
        · obtain ⟨total, htotal, rfl⟩ := exists_gepTotal ho hfailed
          obtain ⟨a, indices, rfl⟩ : ∃ a indices, args = a :: indices :=
            List.exists_cons_of_ne_nil (List.ne_nil_of_mem hoperand)
          obtain ⟨j, rfl⟩ := hv.exists_inst
          rw [List.drop_one, List.tail_cons] at htotal
          -- an index is a constant, so the pointer is the base
          have hbase : (.inst j : Value) = a := by
            rcases List.mem_cons.mp hoperand with h | h
            · exact h
            · exact absurd (inst?_of_index hwt hins hid hop htotal _ h) (by simp [Value.inst?])
          subst hbase
          rw [UInt32.zero_add, ← UInt64.toUInt32_add] at hrest
          exact hstep (.gep hins hid hop htotal hv) hrest hst
      · exact (eq_of_failed hrun).2 ▸ hst
    case h_2 a width val hop =>
      obtain ⟨j, rfl⟩ := hv.exists_inst
      rw [hop] at hoperand
      obtain rfl : (.inst j : Value) = a := by simpa [Op.operands] using hoperand
      rw [← UInt64.toUInt32_add] at hrun
      exact hstep (.add hins hid hop hv) hrun hst
    case h_3 ptr hop =>
      rw [hop] at hoperand
      obtain rfl := List.mem_singleton.mp hoperand
      exact keepsSound_replaceAccess hins hid (.inl hop) hv hrun hst
    case h_4 w ptr hop =>
      split_ifs at hrun with hptr
      · exact keepsSound_replaceAccess hins hid (.inr ⟨w, hptr ▸ hop⟩) hv hrun hst
      · exact (eq_of_failed hrun).2 ▸ hst
    case h_5 => exact (eq_of_failed hrun).2 ▸ hst

/-- A use of a pointer to the environment pointer, or a load from `env`. -/
theorem keepsSound_processArgUse (hwt : WellTyped T f) (fuel : ℕ) : ∀ {use : Instr},
    (∃ v, ArgPtr f v ∧ use ∈ U.uses v) ∨ use ∈ f.instrs ∧ isEnvLoad T use = true →
      KeepsSound T U (processArgUse T U fuel use) := by
  induction fuel with
  | zero =>
    intro use _ st b st' hrun
    exact absurd hrun (by simp [processArgUse])
  | succ n ih =>
    intro use huse st b st' hrun hst
    have hins : use ∈ f.instrs := by
      rcases huse with ⟨v, -, hu⟩ | ⟨hins, -⟩
      · exact (U.mem_uses.mp hu).1
      · exact hins
    rw [processArgUse, Option.bind_eq_some_iff] at hrun
    obtain ⟨k, hid, hrun⟩ := hrun
    -- the result of the instruction is the argument, cast
    have hstep : ArgPtr f (.inst k) → KeepsSound T U
        (eraseAfter k (forUses (processArgUse T U n) (U.uses (.inst k)))) := fun hk =>
      keepsSound_eraseAfter (fun u hu => ih (.inl ⟨_, hk, hu⟩))
        (erasesUses_processArgUse n _) (.inl hk)
    dsimp only at hrun
    split at hrun
    case h_1 opcode args hop =>
      obtain ⟨v, hv, hu⟩ : ∃ v, ArgPtr f v ∧ use ∈ U.uses v := by
        rcases huse with h | ⟨-, h⟩
        · exact h
        · simp [isEnvLoad, hop] at h
      have hoperand := (U.mem_uses.mp hu).2
      rw [hop] at hoperand
      split_ifs at hrun with hcast hgep
      · obtain ⟨a, rfl⟩ := hwt.cast use hins opcode args hop hcast
        obtain rfl := List.mem_singleton.mp hoperand
        exact hstep (.cast hins hid hop hcast hv) hrun hst
      · subst hgep
        split at hrun
        case h_1 a width val =>
          split_ifs at hrun with hval
          · subst hval
            obtain rfl : v = a := by
              rcases List.mem_cons.mp hoperand with h | h
              · exact h
              · obtain rfl := List.mem_singleton.mp h
                cases hv
            exact hstep (.gep hins hid hop hv) hrun hst
          · exact (eq_of_failed hrun).2 ▸ hst
        · exact (eq_of_failed hrun).2 ▸ hst
      · exact (eq_of_failed hrun).2 ▸ hst
    case h_2 ptr hop =>
      -- what is loaded is the environment pointer
      have hk : EnvPtr T f (.inst k) 0 := by
        refine .load hins hid hop ?_
        rcases huse with ⟨v, hv, hu⟩ | ⟨-, h⟩
        · have hoperand := (U.mem_uses.mp hu).2
          rw [hop] at hoperand
          exact .inl (List.mem_singleton.mp hoperand ▸ hv)
        · exact .inr (by simpa [isEnvLoad, hop] using h)
      exact keepsSound_eraseAfter (fun u hu => keepsSound_processEnvUse hwt n hu hk)
        (erasesUses_processEnvUse n _ _) (.inr ⟨0, hk⟩) hrun hst
    case h_3 => exact (eq_of_failed hrun).2 ▸ hst

end

/-! ## The function after the pass -/

/-- What the pass has made of `f`, and what it has collected. -/
structure Transformed {Ty : Type} (T : TypeInfo Ty) {f : Func} (U : UseLists f) (f' : Func) where
  final : PassState Ty
  ok : Bool
  globalEnv : Value
  nodup : final.eraseList.Nodup
  sound : Sound T U final
  cpuState : globalOf globalEnv = some "CPUSTATE"
  argErased : ok = true → UsesErased U final.eraseList (.arg 0)
  func_eq : f' = let g := f.mapBlocks fun bb => { bb with instrs := bb.instrs.filterMap (newIns final (freshInstId f)) }
    if ok then g else insertLoad g ⟨some (freshInstId f), .load globalEnv, []⟩

theorem exists_transformed {Ty : Type} [DecidableEq Ty] {T : TypeInfo Ty} {f f' : Func} {U : UseLists f} {fuel : ℕ}
    {globals globals' : List (String × Ty)} (hwt : WellTyped T f)
    (h : runOnFunction T f U fuel globals = some (f', globals')) : Nonempty (Transformed T U f') := by
  simp only [runOnFunction, Option.bind_eq_bind, Option.bind_eq_some_iff, Prod.exists] at h
  obtain ⟨argOk, mid, hargs, envOk, final, henvs, h⟩ := h
  have hmid : Sound T U mid := keepsSound_forUses (fun u hu => keepsSound_processArgUse hwt fuel
    (.inl ⟨_, .arg, hu⟩)) hargs (.nil globals)
  have hfinal : Sound T U final := keepsSound_forUses (fun u hu => keepsSound_processArgUse hwt fuel
    (.inr (List.mem_filter.mp hu))) henvs hmid
  have hgrows : Grows mid final := onlyAdds_forUses (onlyAdds_processArgUse fuel) _ henvs
  obtain ⟨ty, hglobal, -⟩ := getOrInsertGlobal_spec final.globals "CPUSTATE" T.argType
  have hnd : final.eraseList.Nodup := by
    by_contra hnd
    rw [if_neg hnd] at h
    cases h
  rw [if_pos hnd, Option.some.injEq, Prod.mk.injEq] at h
  refine ⟨⟨final, argOk && envOk, _, hnd, hfinal, hglobal, fun hok => ?_, h.1.symm⟩⟩
  obtain ⟨rfl, -⟩ := (Bool.and_eq_true _ _).mp hok
  have huses := usesErased_of_true (erasesUses_processArgUse fuel (.arg 0)) hargs
  exact ⟨huses.ids, huses.sublist.trans hgrows.eraseList.sublist, huses.notStored⟩

/-- The instruction of this identity goes, and is no access. -/
def Gone {Ty : Type} (final : PassState Ty) (k : InstId) : Prop :=
  k ∈ final.eraseList ∧ final.replaceMap.lookup k = none

section

variable {Ty : Type} {T : TypeInfo Ty} {f f' : Func} {U : UseLists f} {ins i : Instr}
variable {k j : InstId} {v ptr : Value}
  {eraseList : List InstId}

theorem UsesErased.mem (h : UsesErased U eraseList v) (hins : ins ∈ f.instrs)
    (hv : v ∈ ins.op.operands) : ∃ k ∈ eraseList, ins.id = some k := by
  have hu : ins ∈ U.uses v := U.mem_uses.mpr ⟨hins, hv⟩
  obtain ⟨k, hk⟩ := Option.isSome_iff_exists.mp (h.ids ins hu)
  exact ⟨k, h.sublist.subset (List.mem_filterMap.mpr ⟨ins, hu, hk⟩), hk⟩

/-- A value that is used twice by an instruction is there twice. -/
theorem UsesErased.count_le_one (h : UsesErased U eraseList v) (hnd : eraseList.Nodup)
    (hins : ins ∈ f.instrs) (hv : v ∈ ins.op.operands) : ins.op.operands.count v ≤ 1 := by
  have hnd' : ((f.instrs.flatMap fun u => List.replicate (u.op.operands.count v) u).filterMap
      Instr.id).Nodup :=
    ((U.perm v).filterMap Instr.id).nodup_iff.mp (hnd.sublist h.sublist)
  obtain ⟨k, -, hk⟩ := h.mem hins hv
  rw [List.filterMap_flatMap, List.nodup_flatMap] at hnd'
  have hins' := hnd'.1 ins hins
  rw [List.filterMap_replicate_of_some hk, List.nodup_replicate] at hins'
  exact hins'

namespace Transformed

variable (R : Transformed T U f')

theorem address_of_gone (hk : Gone R.final k) :
    Address T f k ∧ UsesErased U R.final.eraseList (.inst k) := by
  rcases R.sound.erased k hk.1 with ⟨ptr, hptr⟩ | h
  · exact absurd hk.2 fun hnone => by simpa using List.lookup_eq_none_iff.mp hnone _ hptr
  · exact h

theorem replaced (h : R.final.replaceMap.lookup k = some ptr) : Replaced T f (k, ptr) :=
  R.sound.replaced _ (Lists.mem_of_lookup h)

/-- What is left in place uses nothing that goes. -/
theorem unused (hins : ins ∈ f.instrs) (hid : ∀ k, ins.id = some k → k ∉ R.final.eraseList)
    (hv : .inst k ∈ ins.op.operands) : ¬ Gone R.final k := by
  intro hk
  obtain ⟨j, hj, hid'⟩ := (R.address_of_gone hk).2.mem hins hv
  exact hid j hid' hj

/-- What a store stores does not go. -/
theorem unused_stored (hins : ins ∈ f.instrs)
    (hop : ins.op = .store (.inst k) ptr) : ¬ Gone R.final k := by
  intro hk
  have huses := (R.address_of_gone hk).2
  have hv : .inst k ∈ ins.op.operands := by simp [hop, Op.operands]
  have hptr := huses.notStored ins (U.mem_uses.mpr ⟨hins, hv⟩) _ _ hop
  have hcount := huses.count_le_one R.nodup hins hv
  simp [hop, hptr, Op.operands] at hcount

end Transformed

end

end Bin2llvm.S2ETransformPass
