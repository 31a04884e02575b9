import Bin2llvm.Semantics

/-!
# Bin2llvm.LoadAliasReplace — loads of globals replaced by stored values

`LoadAliasReplacePass` on a basic block.  It pairs every load of a global, the last one first, with
every store to the same global before it, the nearest one first, and then replaces the uses of the
loads pair by pair.  What is between the store and the load is not looked at.

* `runOnBasicBlock_eq`: the result, as one replacement of values.
* `preserves_iff`: the block computes what it did exactly when no call stands between a used load
  and the nearest store.
-/

namespace Bin2llvm.LoadAliasReplacePass

/-! ## The pass -/

/-- A load from a global. -/
def loadOf (i : Instr) : Option (InstId × String) :=
  match i.id, i.op with
  | some l, .load (.global g) => some (l, g)
  | _, _ => none

/-- The value the instruction at position `j` stores to `g`. -/
def storeAt (is : List Instr) (g : String) (j : ℕ) : Option Value :=
  is[j]?.bind fun i => i.storeTo? g

/-- The inner loop: the stores to `g` before position `j`, backwards. -/
def storesBefore (is : List Instr) (g : String) : ℕ → List ℕ
  | 0 => []
  | j + 1 => if (storeAt is g j).isSome then j :: storesBefore is g j else storesBefore is g j

/-- The outer loop: the pairs for the loads before position `j`, backwards. -/
def aliasesBefore (is : List Instr) : ℕ → List (InstId × ℕ)
  | 0 => []
  | j + 1 =>
    (match is[j]?.bind loadOf with
      | some (l, g) => (storesBefore is g j).map (l, ·)
      | none => []) ++ aliasesBefore is j

def aliases (is : List Instr) : List (InstId × ℕ) := aliasesBefore is is.length

/-- The block, and the values used in the rest of the function. -/
abbrev Code := List Instr × List Value

/-- `a.first->replaceAllUsesWith(a.second->getOperand(0))`, which asserts that the two differ. -/
def replaceAlias (c : Code) (a : InstId × ℕ) : Option Code :=
  match (c.1[a.2]?).map Instr.op with
  | some (.store w _) =>
    if w = .inst a.1 then none
    else some (c.1.map (Instr.mapValues (replaceValue (.inst a.1) w)),
      c.2.map (replaceValue (.inst a.1) w))
  | _ => none

def runOnBasicBlock (c : Code) : Option Code := (aliases c.1).foldlM replaceAlias c

/-! ## Straight-line code -/

/-- Loads, stores to globals, arithmetic, calls, and a terminator. -/
def Simple : Op → Prop
  | .store _ p => p.global?.isSome
  | .phi _ => False
  | _ => True

/-- A basic block in SSA form. -/
structure StraightLine (is : List Instr) : Prop where
  simple : ∀ i ∈ is, Simple i.op
  load : ∀ i ∈ is, ∀ p, i.op = .load p → i.id.isSome
  ids : ∀ (j k : ℕ) (i i' : Instr) (l : InstId), is[j]? = some i → is[k]? = some i' →
    i.id = some l → i'.id = some l → j = k
  order : ∀ (j k : ℕ) (i i' : Instr) (l : InstId), is[j]? = some i → is[k]? = some i' →
    i.id = some l → .inst l ∈ i'.op.operands → j < k

/-! ## Nearest stores -/

/-- The nearest store to `g` before position `j`, and what it stores. -/
def nearestStore (is : List Instr) (g : String) : ℕ → Option (ℕ × Value)
  | 0 => none
  | j + 1 =>
    match storeAt is g j with
    | some w => some (j, w)
    | none => nearestStore is g j

/-- What the load at position `j` is replaced by. -/
def substAt (is : List Instr) (j : ℕ) (v : Value) : Value :=
  match is[j]?.bind loadOf with
  | some (l, g) =>
    match nearestStore is g j with
    | some (_, w) => replaceValue (.inst l) w v
    | none => v
  | none => v

/-- All replacements of the loads before position `j`, the last load first. -/
def subst (is : List Instr) : ℕ → Value → Value
  | 0, v => v
  | j + 1, v => subst is j (substAt is j v)

variable {is : List Instr} {g : String} {j k l : ℕ} {w : Value} {i : Instr}

theorem loadOf_eq_some : loadOf i = some (l, g) ↔ i.id = some l ∧ i.op = .load (.global g) := by
  unfold loadOf
  split
  · rename_i l' g' hid hop
    rw [hid, hop]
    simp [eq_comm]
  · rename_i hno
    refine iff_of_false (by simp) ?_
    rintro ⟨hid, hop⟩
    exact hno l g hid hop

theorem storeAt_eq_some : storeAt is g j = some w ↔ ∃ i, is[j]? = some i ∧
    i.op = .store w (.global g) := by
  unfold storeAt
  rw [Option.bind_eq_some_iff]
  exact exists_congr fun i => and_congr_right fun _ => Instr.storeTo?_op

theorem nearestStore_spec (h : nearestStore is g j = some (k, w)) :
    k < j ∧ storeAt is g k = some w ∧ ∀ m, k < m → m < j → storeAt is g m = none := by
  induction j with
  | zero => simp [nearestStore] at h
  | succ j ih =>
    unfold nearestStore at h
    cases hj : storeAt is g j with
    | some v =>
      rw [hj] at h
      obtain ⟨rfl, rfl⟩ : j = k ∧ v = w := by simpa using h
      exact ⟨Nat.lt_succ_self j, hj, fun m h1 h2 => absurd h1 (by omega)⟩
    | none =>
      rw [hj] at h
      obtain ⟨hlt, hstore, hno⟩ := ih h
      refine ⟨by omega, hstore, fun m h1 h2 => ?_⟩
      rcases Nat.lt_succ_iff_lt_or_eq.mp h2 with h2 | rfl
      · exact hno m h1 h2
      · exact hj

theorem mem_storesBefore (h : k ∈ storesBefore is g j) : k < j ∧ ∃ w, storeAt is g k = some w := by
  induction j with
  | zero => simp [storesBefore] at h
  | succ j ih =>
    unfold storesBefore at h
    split_ifs at h with hj
    · rcases List.mem_cons.mp h with rfl | h
      · exact ⟨Nat.lt_succ_self k, Option.isSome_iff_exists.mp hj⟩
      · exact ⟨(ih h).1.trans (Nat.lt_succ_self j), (ih h).2⟩
    · exact ⟨(ih h).1.trans (Nat.lt_succ_self j), (ih h).2⟩

/-- The nearest store heads the list. -/
theorem head?_storesBefore : (storesBefore is g j).head? = (nearestStore is g j).map Prod.fst := by
  induction j with
  | zero => rfl
  | succ j ih =>
    unfold nearestStore storesBefore
    cases hj : storeAt is g j with
    | some v => rfl
    | none => exact ih

/-! ## The result -/

/-- The replacement leaves the operands of the instructions before position `m` alone. -/
def FixesBefore (is : List Instr) (m : ℕ) (σ : Value → Value) : Prop :=
  ∀ k < m, ∀ i, is[k]? = some i → ∀ v ∈ i.op.operands, σ v = v

/-- The code with all values replaced. -/
def mapCode (σ : Value → Value) (c : Code) : Code := (c.1.map (Instr.mapValues σ), c.2.map σ)

variable {σ : Value → Value} {rest : List Value} {m : ℕ}

theorem mapCode_mapCode (σ τ : Value → Value) (c : Code) :
    mapCode τ (mapCode σ c) = mapCode (τ ∘ σ) c := by
  unfold mapCode
  simp only [List.map_map, Prod.mk.injEq, and_true]
  exact List.map_congr_left fun i _ => Instr.mapValues_mapValues σ τ i

/-- A pair whose store has not been rewritten. -/
theorem replaceAlias_mapCode (hst : storeAt is g k = some w) (hσ : σ w = w) (hne : w ≠ .inst l) :
    replaceAlias (mapCode σ (is, rest))
      (l, k) = some (mapCode (replaceValue (.inst l) w ∘ σ) (is, rest)) := by
  obtain ⟨i, hi, hop⟩ := storeAt_eq_some.mp hst
  rw [← mapCode_mapCode]
  unfold replaceAlias mapCode
  simp [hi, hop, Op.mapValues, hσ, hne]

theorem StraightLine.not_uses (h : StraightLine is) (hi : is[j]? = some i)
    (hid : i.id = some l) (hk : k ≤ j) {i' : Instr} (hi' : is[k]? = some i') :
    .inst l ∉ i'.op.operands := fun hmem =>
  absurd (h.order j k i i' l hi hi' hid hmem) (by omega)

theorem mem_operands_of_storeAt (h : storeAt is g k = some w) :
    ∃ i, is[k]? = some i ∧ w ∈ i.op.operands := by
  obtain ⟨i, hi, hop⟩ := storeAt_eq_some.mp h
  exact ⟨i, hi, by simp [hop, Op.operands]⟩

/-- Once a load is replaced, its other pairs change nothing. -/
theorem foldlM_replaceAlias (h : StraightLine is) (hi : is[j]? = some i) (hid : i.id = some l)
    (hw : w ≠ .inst l) (hσ : FixesBefore is j σ) {ks : List ℕ}
    (hks : ∀ k ∈ ks, k < j ∧ ∃ v, storeAt is g k = some v) :
    (ks.map (l, ·)).foldlM replaceAlias (mapCode (replaceValue (.inst l) w ∘ σ) (is, rest)) =
      some (mapCode (replaceValue (.inst l) w ∘ σ) (is, rest)) := by
  induction ks with
  | nil => rfl
  | cons k ks ih =>
    obtain ⟨hlt, v, hv⟩ := hks k List.mem_cons_self
    obtain ⟨i', hi', hmem⟩ := mem_operands_of_storeAt hv
    have hvl : v ≠ .inst l := fun heq => h.not_uses hi hid hlt.le hi' (heq ▸ hmem)
    have hfix : (replaceValue (.inst l) w ∘ σ) v = v := by
      rw [Function.comp_apply, hσ k hlt i' hi' v hmem]
      exact if_neg hvl
    have hsame : replaceValue (.inst l) v ∘ replaceValue (.inst l) w ∘ σ = replaceValue
        (.inst l) w ∘ σ := by
      funext u
      refine if_neg ?_
      unfold Function.comp replaceValue
      split_ifs with hu
      · exact hw
      · exact hu
    rw [List.map_cons, List.foldlM_cons, replaceAlias_mapCode hv hfix hvl, hsame]
    exact ih fun k' hk' => hks k' (List.mem_cons_of_mem _ hk')

theorem substAt_of_nearest (hl : is[j]?.bind loadOf = some (l, g))
    (hn : nearestStore is g j = some (k, w)) : substAt is j = replaceValue (.inst l) w := by
  funext v
  simp only [substAt, hl, hn]

theorem substAt_of_noLoad (hl : is[j]?.bind loadOf = none) : substAt is j = id := by
  funext v
  simp only [substAt, hl, id_eq]

theorem substAt_of_noStore (hl : is[j]?.bind loadOf = some (l, g))
    (hn : nearestStore is g j = none) : substAt is j = id := by
  funext v
  simp only [substAt, hl, hn, id_eq]

/-- The pairs of the load at one position. -/
theorem foldlM_position (h : StraightLine is) (hσ : FixesBefore is j σ) :
    (match is[j]?.bind loadOf with
      | some (l, g) => (storesBefore is g j).map (l, ·)
      | none => []).foldlM replaceAlias (mapCode σ (is, rest)) =
        some (mapCode (substAt is j ∘ σ) (is, rest)) := by
  cases hl : is[j]?.bind loadOf with
  | none =>
    rw [substAt_of_noLoad hl]
    rfl
  | some p =>
    obtain ⟨l, g⟩ := p
    obtain ⟨i, hi, hload⟩ := Option.bind_eq_some_iff.mp hl
    obtain ⟨hid, -⟩ := loadOf_eq_some.mp hload
    cases hn : nearestStore is g j with
    | none =>
      rw [substAt_of_noStore hl hn]
      have hnil : storesBefore is g j = [] :=
        List.head?_eq_none_iff.mp (by rw [head?_storesBefore, hn]; rfl)
      simp only [hnil]
      rfl
    | some q =>
      obtain ⟨k, w⟩ := q
      obtain ⟨hlt, hst, -⟩ := nearestStore_spec hn
      obtain ⟨ks, hks⟩ := List.head?_eq_some_iff.mp
        (show (storesBefore is g j).head? = some k by rw [head?_storesBefore, hn]; rfl)
      obtain ⟨i', hi', hmem⟩ := mem_operands_of_storeAt hst
      have hwl : w ≠ .inst l := fun heq => h.not_uses hi hid hlt.le hi' (heq ▸ hmem)
      rw [substAt_of_nearest hl hn]
      simp only [hks, List.map_cons, List.foldlM_cons]
      rw [replaceAlias_mapCode hst (hσ k hlt i' hi' w hmem) hwl]
      exact foldlM_replaceAlias h hi hid hwl hσ fun k' hk' =>
        mem_storesBefore (hks ▸ List.mem_cons_of_mem _ hk')

theorem substAt_of_ne {v : Value} (h : ∀ i l, is[j]? = some i → i.id = some l → v ≠ .inst l) :
    substAt is j v = v := by
  unfold substAt
  split
  · rename_i l g hl
    obtain ⟨i, hi, hload⟩ := Option.bind_eq_some_iff.mp hl
    split
    · exact if_neg (h i l hi (loadOf_eq_some.mp hload).1)
    · rfl
  · rfl

theorem StraightLine.fixesBefore_substAt (h : StraightLine is) (hσ : FixesBefore is (j + 1) σ) :
    FixesBefore is j (substAt is j ∘ σ) := by
  intro k hk i hi v hv
  rw [Function.comp_apply, hσ k (hk.trans (Nat.lt_succ_self j)) i hi v hv]
  refine substAt_of_ne fun i' l hi' hid heq => ?_
  exact h.not_uses hi' hid hk.le hi (heq ▸ hv)

/-- **The result of the pass: all replacements, the last load first.** -/
theorem runOnBasicBlock_eq (h : StraightLine is) (rest : List Value) :
    runOnBasicBlock (is, rest) = some (mapCode (subst is is.length) (is, rest)) := by
  have key : ∀ m σ, FixesBefore is m σ →
      (aliasesBefore is m).foldlM replaceAlias (mapCode σ (is, rest)) =
      some (mapCode (subst is m ∘ σ) (is, rest)) := by
    intro m
    induction m with
    | zero => exact fun σ _ => rfl
    | succ m ih =>
      intro σ hσ
      have hfix : FixesBefore is m σ := fun k hk => hσ k (hk.trans (Nat.lt_succ_self m))
      rw [aliasesBefore, List.foldlM_append, foldlM_position h hfix]
      exact ih _ (h.fixesBefore_substAt hσ)
  have hid : mapCode (fun v => v) (is, rest) = (is, rest) := by
    have hmap : (Instr.mapValues fun v => v) = id := funext fun i => by
      show Instr.mk i.id (i.op.mapValues id) i.md = i
      rw [Op.mapValues_id]
    unfold mapCode
    rw [hmap]
    simp
  have := key is.length (fun v => v) fun _ _ _ _ _ _ => rfl
  rw [hid] at this
  exact this

/-! ## What the block computes -/

/-- The block computes the same values at every use, also in the rest of the function, and leaves
the same in every global, whatever calls do. -/
def Preserves (c c' : Code) : Prop :=
  ∀ (W E : Type) (_ : DecidableEq W) (I : Interp W E) (st : State W E),
    uses I st c'.1 = uses I st c.1 ∧
      (∀ g, (run I st c'.1).mem (I.leaf (.global g)) = (run I st c.1).mem (I.leaf (.global g))) ∧
      c'.2.map (eval I (run I st c'.1)) = c.2.map (eval I (run I st c.1))

def isCallOp : Op → Bool
  | .call _ _ => true
  | _ => false

/-- A call stands between the positions `k` and `j`. -/
def CallBetween (is : List Instr) (k j : ℕ) : Prop :=
  ∃ m, k < m ∧ m < j ∧ ∃ i, is[m]? = some i ∧ isCallOp i.op = true

/-- The result of the instruction is used, in the block or in the rest of the function. -/
def Used (c : Code) (l : InstId) : Prop := (∃ i ∈ c.1, .inst l ∈ i.op.operands) ∨ .inst l ∈ c.2

/-- The value is no load after a call that comes after the nearest store. -/
def Good (is : List Instr) (v : Value) : Prop :=
  ∀ j l g k w, v = .inst l → is[j]?.bind loadOf = some (l, g) → nearestStore is g j = some (k, w) →
    ¬ CallBetween is k j

/-- The value is not computed at position `m` or later. -/
def DefBefore (is : List Instr) (m : ℕ) (v : Value) : Prop :=
  ∀ (j : ℕ) (i : Instr) (l : InstId), is[j]? = some i → i.id = some l → v = .inst l → j < m

theorem DefBefore.mono {v : Value} (h : DefBefore is k v) (hkm : k ≤ m) : DefBefore is m v :=
  fun j i l hi hid hv => (h j i l hi hid hv).trans_le hkm

theorem StraightLine.defBefore (h : StraightLine is) (hi : is[m]? = some i) {v : Value}
    (hv : v ∈ i.op.operands) :
    DefBefore is m v := fun j i' l hi' hid heq => h.order j m i' i l hi' hi hid (heq ▸ hv)

theorem StraightLine.defBefore_stored (h : StraightLine is)
    (hst : storeAt is g k = some w) : DefBefore is k w := by
  obtain ⟨i, hi, hmem⟩ := mem_operands_of_storeAt hst
  exact h.defBefore hi hmem

theorem defBefore_length (is : List Instr) (v : Value) : DefBefore is is.length v :=
  fun _ _ _ hi _ _ => (List.getElem?_eq_some_iff.mp hi).1

/-- Later loads do not concern a value. -/
theorem subst_eq_of_defBefore {v : Value} (h : DefBefore is m v) {n : ℕ} (hn : m ≤ n) :
    subst is n v = subst is m v := by
  induction n, hn using Nat.le_induction with
  | base => rfl
  | succ n hn ih =>
    rw [subst, substAt_of_ne fun i l hi hid heq => absurd (h n i l hi hid heq) (by omega)]
    exact ih

/-- The result of an instruction that stands behind the loads is left alone. -/
theorem subst_inst (h : ∀ j < m, ∀ i, is[j]? = some i → i.id ≠ some l) :
    subst is m (.inst l) = .inst l := by
  induction m with
  | zero => rfl
  | succ m ih =>
    rw [subst, substAt_of_ne fun i l' hi hid heq => ?_]
    · exact ih fun j hj => h j (hj.trans (Nat.lt_succ_self m))
    · obtain rfl := Value.inst.inj heq
      exact h m (Nat.lt_succ_self m) i hi hid

theorem StraightLine.defBefore_subst (h : StraightLine is) {n : ℕ} (hn : n ≤ m) {v : Value}
    (hv : DefBefore is m v) : DefBefore is m (subst is n v) := by
  induction n generalizing v with
  | zero => exact hv
  | succ n ih =>
    refine ih (by omega) ?_
    cases hl : is[n]?.bind loadOf with
    | none => rwa [substAt_of_noLoad hl]
    | some p =>
      obtain ⟨l, g⟩ := p
      cases hs : nearestStore is g n with
      | none => rwa [substAt_of_noStore hl hs]
      | some q =>
        obtain ⟨k, w⟩ := q
        obtain ⟨hlt, hst, -⟩ := nearestStore_spec hs
        rw [substAt_of_nearest hl hs, replaceValue]
        split_ifs
        · exact (h.defBefore_stored hst).mono (by omega)
        · exact hv

section Runs

variable {W E : Type} [DecidableEq W] {I : Interp W E} {st : State W E}

theorem eval_run_of_defBefore {v : Value} (h : DefBefore is k v) (hkm : k ≤ m) :
    eval I (run I st (is.take m)) v = eval I (run I st (is.take k)) v := by
  induction m, hkm using Nat.le_induction with
  | base => rfl
  | succ m hkm ih =>
    cases hi : is[m]? with
    | none => rw [List.take_add_one, hi]; simpa using ih
    | some i =>
      rw [run_take_succ hi, ← ih]
      exact eval_exec_of_ne fun l hv hid => absurd (h m i l hi hid hv) (by omega)

/-- A memory cell no instruction of a range changes. -/
theorem mem_run_stable {x : W} (hkm : k ≤ m) (h : ∀ n, k ≤ n → n < m → ∀ i, is[n]? = some i →
    (exec I (run I st (is.take n)) i).mem x = (run I st (is.take n)).mem x) :
    (run I st (is.take m)).mem x = (run I st (is.take k)).mem x := by
  induction m, hkm using Nat.le_induction with
  | base => rfl
  | succ m hkm ih =>
    have ih := ih fun n h1 h2 => h n h1 (by omega)
    cases hi : is[m]? with
    | none => rw [List.take_add_one, hi]; simpa using ih
    | some i => rw [run_take_succ hi, h m hkm (Nat.lt_succ_self m) i hi, ih]

/-- Only stores to the global and calls change it. -/
theorem mem_exec_global (hs : Simple i.op) (hn : i.storeTo? g = none) (hc : isCallOp i.op = false)
    (st : State W E) : (exec I st i).mem (I.leaf (.global g)) = st.mem (I.leaf (.global g)) := by
  cases hop : i.op with
  | store v p =>
    rw [hop] at hs
    obtain ⟨g', hg'⟩ := Option.isSome_iff_exists.mp hs
    obtain rfl : p = .global g' := by
      cases p <;> simp [Value.global?] at hg'
      rw [hg']
    -- the store goes to another global
    have hne : g ≠ g' := by
      rintro rfl
      rw [Instr.storeTo?_op.mpr hop] at hn
      simp at hn
    have hmem : (exec I st i).mem = Function.update st.mem (I.leaf (.global g')) (eval I st v) := by
      unfold exec usesOf
      rw [hop]
      rfl
    rw [hmem]
    exact Function.update_of_ne (fun h => hne (I.global_inj g g' h)) _ _
  | call f args => rw [hop] at hc; simp [isCallOp] at hc
  | load p =>
    unfold exec usesOf
    rw [hop]
    rfl
  | binop o a b =>
    unfold exec usesOf
    rw [hop]
    rfl
  | phi inc => rw [hop] at hs; exact hs.elim
  | other n args =>
    unfold exec
    rw [hop]
    rfl
  | br d => unfold exec; rw [hop]; rfl
  | condBr c t e => unfold exec; rw [hop]; rfl
  | switch c d cs => unfold exec; rw [hop]; rfl
  | ret v => unfold exec; rw [hop]; rfl
  | unreachable => unfold exec; rw [hop]; rfl

/-- After a store the global holds the stored value. -/
theorem mem_run_store (hst : storeAt is g k = some w) :
    (run I st (is.take (k + 1))).mem (I.leaf (.global g)) = eval I (run I st (is.take k)) w := by
  obtain ⟨i, hi, hop⟩ := storeAt_eq_some.mp hst
  rw [run_take_succ hi]
  unfold exec usesOf
  rw [hop]
  exact Function.update_self _ _ _

/-- A load gets what the global holds. -/
theorem eval_run_load (hl : is[m]?.bind loadOf = some (l, g)) :
    eval I (run I st (is.take (m + 1)))
      (.inst l) = (run I st (is.take m)).mem (I.leaf (.global g)) := by
  obtain ⟨i, hi, hload⟩ := Option.bind_eq_some_iff.mp hl
  obtain ⟨hid, hop⟩ := loadOf_eq_some.mp hload
  rw [run_take_succ hi]
  unfold exec usesOf
  rw [hop, hid]
  exact Function.update_self _ _ _

/-- Without a call in between, a load gets what the nearest store stored. -/
theorem eval_load_of_nearest (h : StraightLine is) (hl : is[m]?.bind loadOf = some (l, g))
    (hn : nearestStore is g m = some (k, w)) (hcall : ¬ CallBetween is k m) :
    eval I (run I st (is.take (m + 1))) (.inst l) = eval I (run I st (is.take m)) w := by
  obtain ⟨hlt, hst, hno⟩ := nearestStore_spec hn
  rw [eval_run_load hl, eval_run_of_defBefore (h.defBefore_stored hst) hlt.le, ← mem_run_store hst]
  refine mem_run_stable hlt fun n h1 h2 i hi => ?_
  refine mem_exec_global (h.simple i (List.mem_of_getElem? hi)) ?_ ?_ _
  · have := hno n h1 h2
    unfold storeAt at this
    rwa [hi] at this
  · by_contra hc
    exact hcall ⟨n, h1, h2, i, hi, by simpa using hc⟩

/-- Good values keep their values under the replacement. -/
theorem eval_subst (h : StraightLine is) (hgood : ∀ k w g, storeAt is g k = some w → Good is w)
    {v : Value} (hm : m ≤ is.length) (hdef : DefBefore is m v) (hv : Good is v) :
    eval I (run I st (is.take m)) (subst is m v) = eval I (run I st (is.take m)) v := by
  induction m generalizing v with
  | zero => rfl
  | succ m ih =>
    have hi : is[m]? = some is[m] := List.getElem?_eq_getElem hm
    -- the values before the last instruction are covered by the induction
    have hstep : ∀ u, DefBefore is m u → Good is u →
        eval I (run I st (is.take (m + 1))) (subst is m u) = eval I (run I st (is.take m)) u := by
      intro u hu hgu
      rw [eval_run_of_defBefore (h.defBefore_subst le_rfl hu) (Nat.le_succ m)]
      exact ih (by omega) hu hgu
    rw [subst]
    by_cases hself : ∃ l, is[m].id = some l ∧ v = .inst l
    · obtain ⟨l, hid, rfl⟩ := hself
      have hkeep : subst is m (.inst l) = .inst l := subst_inst fun j hj i hij hid' =>
        absurd (h.ids j m i _ l hij hi hid' hid) hj.ne
      cases hl : is[m]?.bind loadOf with
      | none => rw [substAt_of_noLoad hl, id_eq, hkeep]
      | some p =>
        obtain ⟨l', g⟩ := p
        obtain rfl : l' = l := by
          rw [hi] at hl
          exact Option.some.inj ((loadOf_eq_some.mp hl).1.symm.trans hid)
        cases hn : nearestStore is g m with
        | none => rw [substAt_of_noStore hl hn, id_eq, hkeep]
        | some q =>
          obtain ⟨k, w⟩ := q
          obtain ⟨hlt, hst, -⟩ := nearestStore_spec hn
          rw [substAt_of_nearest hl hn, replaceValue, if_pos rfl,
            hstep w ((h.defBefore_stored hst).mono hlt.le) (hgood k w g hst),
            eval_load_of_nearest h hl hn (hv m l' g k w rfl hl hn)]
    -- the last instruction does not compute the value
    · have hdef' : DefBefore is m v := fun j i l hij hid hvl => by
        have hlt := hdef j i l hij hid hvl
        refine Nat.lt_of_le_of_ne (Nat.le_of_lt_succ hlt) ?_
        rintro rfl
        obtain rfl : is[j] = i := Option.some.inj (hi.symm.trans hij)
        exact hself ⟨l, hid, hvl⟩
      have hsame : substAt is m v = v := substAt_of_ne fun i l hij hid hvl =>
        absurd (hdef' m i l hij hid hvl) (lt_irrefl m)
      rw [hsame, hstep v hdef' hv, eval_run_of_defBefore hdef' (Nat.le_succ m)]

end Runs

/-! ## When it is right -/

theorem getElem?_mapCode (m : ℕ) :
    (mapCode σ (is, rest)).1[m]? = (is[m]?).map (Instr.mapValues σ) := by
  simp [mapCode]

/-- Two blocks go through the same states when rewritten instructions do what they did. -/
theorem run_take_mapCode {W E : Type} [DecidableEq W] {I : Interp W E} {st : State W E}
    (h : ∀ m i, is[m]? = some i → run I st ((mapCode σ (is, rest)).1.take m) =
      run I st (is.take m) →
      exec I (run I st (is.take m)) (i.mapValues σ) = exec I (run I st (is.take m)) i) (m : ℕ) :
    run I st ((mapCode σ (is, rest)).1.take m) = run I st (is.take m) := by
  induction m with
  | zero => rfl
  | succ m ih =>
    cases hi : is[m]? with
    | none =>
      rw [List.take_add_one, List.take_add_one, getElem?_mapCode, hi]
      simpa using ih
    | some i =>
      have hi' : (mapCode σ (is, rest)).1[m]? = some (i.mapValues σ) := by
        rw [getElem?_mapCode, hi]; rfl
      rw [run_take_succ hi, run_take_succ hi', ih, h m i hi ih]

theorem run_mapCode {W E : Type} [DecidableEq W] {I : Interp W E} {st : State W E}
    (h : ∀ m, run I st ((mapCode σ (is, rest)).1.take m) = run I st (is.take m)) :
    run I st (mapCode σ (is, rest)).1 = run I st is := by
  have := h is.length
  rwa [List.take_of_length_le (by simp [mapCode]), List.take_length] at this

/-- When all loads are good, every instruction reads and does what it did. -/
theorem preserves_of_good (h : StraightLine is)
    (hgood : ∀ v, (∃ i ∈ is, v ∈ i.op.operands) ∨ v ∈ rest → Good is v) :
    Preserves (is, rest) (mapCode (subst is is.length) (is, rest)) := by
  intro W E _ I st
  have hstored : ∀ k w g, storeAt is g k = some w → Good is w := fun k w g hst => by
    obtain ⟨i, hi, hmem⟩ := mem_operands_of_storeAt hst
    exact hgood w (Or.inl ⟨i, List.mem_of_getElem? hi, hmem⟩)
  have hat : ∀ m i, is[m]? = some i →
      usesOf I (run I st (is.take m)) (i.mapValues (subst is is.length)) =
      usesOf I (run I st (is.take m)) i ∧
      exec I (run I st (is.take m)) (i.mapValues (subst is is.length)) =
      exec I (run I st (is.take m)) i := by
    intro m i hi
    have hm : m < is.length := (List.getElem?_eq_some_iff.mp hi).1
    refine exec_mapValues fun v hv => ?_
    have hdef := h.defBefore hi hv
    rw [subst_eq_of_defBefore hdef hm.le]
    exact eval_subst h hstored hm.le hdef (hgood v (Or.inl ⟨i, List.mem_of_getElem? hi, hv⟩))
  -- so both runs pass through the same states
  have hrun : ∀ m, run I st ((mapCode (subst is is.length) (is, rest)).1.take m) =
      run I st (is.take m) :=
    run_take_mapCode fun m i hi _ => (hat m i hi).2
  have hfull := run_mapCode hrun
  refine ⟨List.ext_getElem? fun m => ?_, fun g => by rw [hfull], ?_⟩
  · rw [uses_getElem?, uses_getElem?, hrun, getElem?_mapCode]
    cases hi : is[m]? with
    | none => rfl
    | some i => exact congrArg some (hat m i hi).1
  · rw [hfull]
    show (rest.map (subst is is.length)).map _ = _
    rw [List.map_map]
    refine List.map_congr_left fun v hv => ?_
    have : eval I (run I st (is.take is.length)) (subst is is.length v) =
        eval I (run I st (is.take is.length)) v :=
      eval_subst h hstored le_rfl (defBefore_length is v) (hgood v (Or.inr hv))
    rwa [List.take_length] at this

/-! ## When it is wrong -/

def isCall (i : Instr) : Bool := isCallOp i.op

def bump : String ⊕ Bool → String ⊕ Bool
  | .inr true => .inr false
  | _ => .inr true

theorem bump_ne (x : String ⊕ Bool) : bump x ≠ x := by
  rcases x with g | b
  · exact Sum.inr_ne_inl
  · cases b <;> simp [bump]

/-- Calls are numbered; the call of number `n` changes the global `g`. -/
def adversary (g : String) (n : ℕ) : Interp (String ⊕ Bool) ℕ where
  leaf
    | .global h => .inl h
    | _ => .inr false
  binop _ _ _ := .inr false
  other _ _ := .inr false
  call _ mem e := (.inr false, if e = n then Function.update mem (.inl g) (bump (mem (.inl g)))
    else mem, e + 1)
  global_inj _ _ := Sum.inl.inj

/-- The calls before position `m`. -/
def callsBefore (is : List Instr) (m : ℕ) : ℕ := (is.take m).countP isCall

theorem callsBefore_succ (hi : is[m]? = some i) :
    callsBefore is (m + 1) = callsBefore is m + if isCall i = true then 1 else 0 := by
  unfold callsBefore
  rw [List.take_add_one, hi, List.countP_append]
  simp [List.countP_cons]

theorem callsBefore_mono (hkm : k ≤ m) : callsBefore is k ≤ callsBefore is m :=
  (List.take_prefix_take_left hkm).sublist.countP_le

section Adversary

variable {n : ℕ} {st : State (String ⊕ Bool) ℕ}

theorem ext_exec : (exec (adversary g n) st i).ext = st.ext + if isCall i = true then 1 else 0 := by
  obtain ⟨id, op, md⟩ := i
  cases op <;> rfl

theorem ext_run (h : st.ext = 0) : (run (adversary g n) st (is.take m)).ext = callsBefore is m := by
  induction m with
  | zero => exact h
  | succ m ih =>
    cases hi : is[m]? with
    | none =>
      have hlen := List.getElem?_eq_none_iff.mp hi
      unfold callsBefore at ih ⊢
      rw [List.take_of_length_le hlen] at ih
      rwa [List.take_of_length_le (hlen.trans (Nat.le_succ m))]
    | some i => rw [run_take_succ hi, ext_exec, ih, callsBefore_succ hi]

theorem mem_exec_adversary (hs : Simple i.op) (hn : i.storeTo? g = none) :
    (exec (adversary g n) st i).mem (.inl g) =
      if isCall i = true ∧ st.ext = n then bump (st.mem (.inl g)) else st.mem (.inl g) := by
  by_cases hc : isCall i = true
  · obtain ⟨id, op, md⟩ := i
    cases op with
    | call f args =>
      show (if st.ext = n then Function.update st.mem (.inl g) (bump (st.mem (.inl g)))
        else st.mem) (.inl g) = _
      by_cases he : st.ext = n
      · rw [if_pos he, if_pos ⟨rfl, he⟩, Function.update_self]
      · rw [if_neg he, if_neg fun h => he h.2]
    | _ => cases hc
  · rw [if_neg fun h => hc h.1]
    exact mem_exec_global (I := adversary g n) hs hn (by simpa [isCall] using hc) st

/-- The global holds something else at a load after the call. -/
theorem mem_run_adversary (h : StraightLine is) (hst : st.ext = 0)
    (hn : nearestStore is g j = some (k, w)) {c : ℕ} (hkc : k < c) (hcj : c < j) {ic : Instr}
    (hic : is[c]? = some ic) (hcall : isCall ic = true) (hN : n = callsBefore is c) :
    (run (adversary g n) st (is.take j)).mem (.inl g) =
      bump (eval (adversary g n) (run (adversary g n) st (is.take k)) w) := by
  obtain ⟨-, hstore, hno⟩ := nearestStore_spec hn
  have hexec : ∀ m i, k < m → m < j → is[m]? = some i →
      (exec (adversary g n) (run (adversary g n) st (is.take m)) i).mem (.inl g) =
        if isCall i = true ∧ callsBefore is m = n then
        bump ((run (adversary g n) st (is.take m)).mem (.inl g))
        else (run (adversary g n) st (is.take m)).mem (.inl g) := by
    intro m i h1 h2 hi
    have hnone : i.storeTo? g = none := by
      have := hno m h1 h2
      unfold storeAt at this
      rwa [hi] at this
    rw [mem_exec_adversary (h.simple i (List.mem_of_getElem? hi)) hnone, ext_run hst]
  -- up to the call the global holds what was stored
  have hbefore : (run (adversary g n) st (is.take c)).mem (.inl g) =
      eval (adversary g n) (run (adversary g n) st (is.take k)) w := by
    refine (mem_run_stable (Nat.succ_le_of_lt hkc) fun m h1 h2 i hi =>
      ?_).trans (mem_run_store hstore)
    rw [hexec m i h1 (h2.trans hcj) hi, if_neg]
    rintro ⟨hcall', hcount⟩
    have : callsBefore is (m + 1) ≤ callsBefore is c := callsBefore_mono h2
    rw [callsBefore_succ hi, if_pos hcall'] at this
    omega
  have hat : (run (adversary g n) st (is.take (c + 1))).mem (.inl g) =
      bump ((run (adversary g n) st (is.take c)).mem (.inl g)) := by
    rw [run_take_succ hic, hexec c ic hkc hcj hic, if_pos ⟨hcall, hN.symm⟩]
  -- behind it no other call is the `n`-th
  rw [← hbefore, ← hat]
  refine mem_run_stable (Nat.succ_le_of_lt hcj) fun m h1 h2 i hi => ?_
  rw [hexec m i (hkc.trans h1) h2 hi, if_neg]
  rintro ⟨-, hcount⟩
  have : callsBefore is (c + 1) ≤ callsBefore is m := callsBefore_mono h1
  rw [callsBefore_succ hic, if_pos hcall] at this
  omega

end Adversary

/-- Where the block computes the same, every instruction reads the same in the state the old code
reaches. -/
theorem Preserves.usesOf_eq {σ : Value → Value} (h : Preserves (is, rest) (mapCode σ (is, rest)))
    {W E : Type} [DecidableEq W] (I : Interp W E) (st : State W E) :
    (∀ m i, is[m]? = some i → usesOf I (run I st (is.take m)) (i.mapValues σ) =
      usesOf I (run I st (is.take m)) i) ∧
      ∀ v ∈ rest, eval I (run I st is) (σ v) = eval I (run I st is) v := by
  obtain ⟨huses, -, hrest⟩ := h W E _ I st
  have hread : ∀ m i, is[m]? = some i → run I st ((mapCode σ (is, rest)).1.take m) =
      run I st (is.take m) →
      usesOf I (run I st (is.take m)) (i.mapValues σ) = usesOf I (run I st (is.take m)) i := by
    intro m i hi hrun
    have := congrArg (fun l => l[m]?) huses
    simp only [uses_getElem?, getElem?_mapCode, hi, Option.map_some, hrun] at this
    exact Option.some.inj this
  have hrun := run_take_mapCode fun m i hi hprev => exec_eq_of_uses (hread m i hi hprev)
  refine ⟨fun m i hi => hread m i hi (hrun m), fun v hv => ?_⟩
  rw [run_mapCode hrun] at hrest
  have hmap : (rest.map σ).map (eval I (run I st is)) = rest.map (eval I (run I st is)) := hrest
  rw [List.map_map] at hmap
  exact List.map_inj_left.mp hmap v hv

/-- Behind a call the replaced load is used wrongly. -/
theorem not_preserves (h : StraightLine is) (hl : is[j]?.bind loadOf = some (l, g))
    (hn : nearestStore is g j = some (k, w)) (hused : Used (is, rest) l)
    (hcall : CallBetween is k j) :
    ¬ Preserves (is, rest) (mapCode (subst is is.length) (is, rest)) := by
  intro hpres
  obtain ⟨c, hkc, hcj, ic, hic, hop⟩ := hcall
  obtain ⟨hkj, hstore, -⟩ := nearestStore_spec hn
  obtain ⟨il, hil, hload⟩ := Option.bind_eq_some_iff.mp hl
  obtain ⟨hid, -⟩ := loadOf_eq_some.mp hload
  have hj : j < is.length := (List.getElem?_eq_some_iff.mp hil).1
  let I := adversary g (callsBefore is c)
  let st : State (String ⊕ Bool) ℕ := ⟨fun _ => .inr false, fun _ => .inr false, 0⟩
  obtain ⟨hblock, hrest⟩ := hpres.usesOf_eq I st
  have hdefw := h.defBefore_stored hstore
  have hdefl : DefBefore is (j + 1) (.inst l) := by
    intro j' i' l' hi' hid' heq
    obtain rfl := Value.inst.inj heq
    exact Nat.lt_succ_of_le (h.ids j' j i' il l hi' hil hid' hid).le
  -- the store keeps its value, and the load stands for it
  have hstored : eval I (run I st (is.take k)) (subst is is.length w) =
      eval I (run I st (is.take k)) w := by
    obtain ⟨is', his', hops⟩ := storeAt_eq_some.mp hstore
    have := hblock k is' his'
    unfold usesOf at this
    rw [Instr.op_mapValues, hops] at this
    exact (List.cons.inj this).1
  have hsubst : subst is is.length (.inst l) = subst is is.length w := by
    rw [subst_eq_of_defBefore hdefl hj, subst, substAt_of_nearest hl hn, replaceValue, if_pos rfl,
      subst_eq_of_defBefore (hdefw.mono hkj.le) hj.le]
  have hval : ∀ m, j < m → eval I (run I st (is.take m)) (.inst l) =
      bump (eval I (run I st (is.take k)) w) := by
    intro m hm
    rw [eval_run_of_defBefore hdefl hm, eval_run_load hl]
    exact mem_run_adversary h rfl hn hkc hcj hic hop rfl
  have hnew : ∀ m, j < m →
      eval I (run I st (is.take m)) (subst is is.length (.inst l)) =
      eval I (run I st (is.take k)) w := by
    intro m hm
    have hdef : DefBefore is k (subst is is.length w) := by
      rw [subst_eq_of_defBefore hdefw (hkj.trans hj).le]
      exact h.defBefore_subst le_rfl hdefw
    rw [hsubst, eval_run_of_defBefore hdef (hkj.trans hm).le, hstored]
  have hne : ∀ m, j < m →
      eval I (run I st (is.take m)) (subst is is.length (.inst l)) ≠ eval I (run I st (is.take m))
      (.inst l) := by
    intro m hm
    rw [hval m hm, hnew m hm]
    exact (bump_ne _).symm
  rcases hused with ⟨i, hi, hmem⟩ | hmem
  · obtain ⟨m, hm⟩ := List.mem_iff_getElem?.mp hi
    have huse := hblock m i hm
    unfold usesOf at huse
    rw [Instr.op_mapValues, Op.operands_mapValues, List.map_map] at huse
    exact hne m (h.order j m il i l hil hm hid hmem) (List.map_inj_left.mp huse _ hmem)
  · have := hne is.length hj
    rw [List.take_length] at this
    exact this (hrest _ hmem)

/-- **The pass keeps what a block computes, whatever calls do, exactly when no call stands between a
used load of a global and the nearest store to the global before it.** -/
theorem preserves_iff (h : StraightLine is) (rest : List Value) :
    (∃ c', runOnBasicBlock (is, rest) = some c' ∧ Preserves (is, rest) c') ↔
      ∀ j l g k w, is[j]?.bind loadOf = some (l, g) → nearestStore is g j = some (k, w) →
        Used (is, rest) l → ¬ CallBetween is k j := by
  constructor
  · rintro ⟨c', hrun, hpres⟩ j l g k w hl hn hused hcall
    rw [runOnBasicBlock_eq h rest, Option.some.injEq] at hrun
    subst hrun
    exact not_preserves h hl hn hused hcall hpres
  · intro hcond
    refine ⟨_, runOnBasicBlock_eq h rest, preserves_of_good h ?_⟩
    rintro v hv j l g k w rfl hl hn
    exact hcond j l g k w hl hn (hv.imp id id)

/-- A global is set, and read. -/
def setAndRead : List Instr :=
  [⟨none, .store (.constInt 32 5) (.global "R0"), []⟩, ⟨some 2, .load (.global "R0"), []⟩,
    ⟨none, .store (.inst 2) (.global "R1"), []⟩]

/-- A global is set, a function is called, and the global is read. -/
def setCallAndRead : List Instr :=
  [⟨none, .store (.constInt 32 5) (.global "R0"), []⟩,
    ⟨some 1, .call (.func "Function_0x00008000") [], []⟩,
    ⟨some 2, .load (.global "R0"), []⟩, ⟨none, .store (.inst 2) (.global "R1"), []⟩]

theorem straightLine_setAndRead : StraightLine setAndRead where
  simple := by simp [setAndRead, Simple, Value.global?]
  load := by simp [setAndRead]
  ids j k i i' l hi hk hid hid' := by
    rcases j with _ | _ | _ | j <;> rcases k with _ | _ | _ | k <;> cases hi <;>
      cases hk <;> simp_all
  order j k i i' l hi hk hid hmem := by
    rcases j with _ | _ | _ | j <;> rcases k with _ | _ | _ | k <;> cases hi <;> cases hk <;>
      simp_all [Op.operands]

theorem straightLine_setCallAndRead : StraightLine setCallAndRead where
  simple := by simp [setCallAndRead, Simple, Value.global?]
  load := by simp [setCallAndRead]
  ids j k i i' l hi hk hid hid' := by
    rcases j with _ | _ | _ | _ | j <;> rcases k with _ | _ | _ | _ | k <;> cases hi <;>
      cases hk <;> simp_all <;> exact absurd (hid.trans hid'.symm) (by decide)
  order j k i i' l hi hk hid hmem := by
    rcases j with _ | _ | _ | _ | j <;> rcases k with _ | _ | _ | _ | k <;>
      cases hi <;> cases hk <;> simp_all [Op.operands]

/-- Without the call the block computes what it did. -/
theorem preserves_setAndRead : ∃ c', runOnBasicBlock (setAndRead, []) = some c' ∧
    Preserves (setAndRead, []) c' := by
  refine (preserves_iff straightLine_setAndRead []).mpr ?_
  rintro j l g k w - - - ⟨m, -, -, i, hi, hop⟩
  rcases m with _ | _ | _ | m <;> cases hi <;> simp_all [isCallOp]

/-- **With the call it does not: `R1` gets the stored value also when the function changes
`R0`.** -/
theorem not_preserves_setCallAndRead :
    StraightLine setCallAndRead ∧ ∃ c', runOnBasicBlock (setCallAndRead, []) = some c' ∧
      ¬ Preserves (setCallAndRead, []) c' := by
  refine ⟨straightLine_setCallAndRead, (setCallAndRead.take 3 ++
    [⟨none, .store (.constInt 32 5) (.global "R1"), []⟩], []), by decide, fun h => ?_⟩
  have := (h _ _ inferInstance (adversary "R0" 0) ⟨fun _ => .inr false, fun _ => .inr false, 0⟩).1
  revert this
  decide

end Bin2llvm.LoadAliasReplacePass
