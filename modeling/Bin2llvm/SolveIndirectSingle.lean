import Bin2llvm.Metadata
import Bin2llvm.Lib.Lists
import Bin2llvm.Lib.OptionMapM

/-!
# Bin2llvm.SolveIndirectSingle — indirect stores solved by optimised modules

The pass collects the constant stores of the optimised modules under the name of the global and the
guest PC, and then solves the non-constant stores of the original module with them.  Modules are the
lists of their instructions, in the order of the loops over functions, blocks and instructions;
`replaceAllUsesWith` rewrites operands everywhere (constant expressions that contain the replaced
value are not rebuilt).

* `solve_agreed_iff`: the pass solves and replaces only stores on which the optimised modules agree
  exactly when they agree on every store it can look up, and on every other store of the same value.
* `solve_keeps`: the instructions stay, up to their operands and the annotation of stores.
-/

namespace Bin2llvm.SolveIndirectSingle

open FixOverlappedBBs

/-! ## The stores of the optimised modules -/

/-- A global (by name) and a guest PC. -/
abbrev Key := String × UInt64

/-- `m_directStores`, the latest insertion first. -/
abbrev DirectStores := List (Key × Value)

/-- One instruction of `expandDirectStoresWithModule`. -/
def expandDirectStore (directStores : DirectStores) (ins : Instr) : Option DirectStores :=
  match ins.storeToGlobal? with
  | some (val, gv) =>
    if ins.has .INS_currPC ∧ val.constInt?.isSome then do
      let pc ← getCurrentPCOfIns ins
      pure (((gv, pc), val) :: directStores)
    else some directStores
  | none => some directStores

def expandDirectStoresWithModule (directStores : DirectStores)
    (module : Module) : Option DirectStores :=
  module.instrs.foldlM expandDirectStore directStores

/-- `initialize`, on the modules of `-optfile` that could be loaded. -/
def initializeStores (optModules : List Module) : Option DirectStores :=
  optModules.foldlM expandDirectStoresWithModule []

def performReplaceOnTheseGlobals : List String := ["PC", "thumb"]

def performAnnotationOnTheseGlobals : List String := ["R0", "PC", "thumb"]

/-! ## Solving -/

/-- A printed line: the store that was solved, and the constant. -/
structure Solved where
  store : Instr
  gv : String
  pc : UInt64
  replaceWith : Value
  deriving DecidableEq, Repr

/-- The instructions before and after the loop's position, what was printed, and `m_solvedPCs`. -/
structure State where
  done : List Instr
  todo : List Instr
  log : List Solved
  solvedPCs : List UInt64
  deriving DecidableEq, Repr

/-- The rewriting of operands; a pointer does not have the type of the constant, which is
asserted. -/
def replaceAllUsesWith (value replaceWith : Value) : Option (Value → Value) :=
  match value with
  | .global _ | .func _ => none
  | _ => some (replaceValue value replaceWith)

/-- What happens to the operands of the module when a store to `gv` is solved. -/
def rewriting (gv : String) (value replaceWith : Value) : Option (Value → Value) :=
  if gv ∈ performReplaceOnTheseGlobals then replaceAllUsesWith value replaceWith else some id

/-- The store is one the pass looks up: not constant, with a PC, and to a global of one of the
lists. -/
def lookedUp (ins : Instr) : Option (Value × String) :=
  match ins.storeToGlobal? with
  | some (val, gv) =>
    if ins.has .INS_currPC ∧ val.constInt? = none ∧
        (gv ∈ performAnnotationOnTheseGlobals ∨ gv ∈ performReplaceOnTheseGlobals) then
        some (val, gv)
    else none
  | none => none

def annotate (ins : Instr) (gv : String) (n : UInt64) : Instr :=
  if gv ∈ performAnnotationOnTheseGlobals then ins.setMetadata .INS_computedValue (.str (hex n))
  else ins

/-- One instruction of `performAnnotations`. -/
def performAnnotation (directStores : DirectStores) (ins : Instr) (st : State) : Option State :=
  match lookedUp ins with
  | none => some { st with done := st.done ++ [ins] }
  | some (val, gv) => do
    let pc ← getCurrentPCOfIns ins
    match directStores.lookup (gv, pc) with
    | none => pure { st with done := st.done ++ [ins] }
    | some replaceWith => do
      let n ← replaceWith.constInt?
      let σ ← rewriting gv val replaceWith
      pure ⟨(st.done ++ [annotate ins gv n]).map (Instr.mapValues σ),
        st.todo.map (Instr.mapValues σ), st.log ++ [⟨ins, gv, pc, replaceWith⟩],
          st.solvedPCs ++ if gv = "PC" then [n] else []⟩

/-- The loops of `performAnnotations` over the functions of the module; `n` counts the instructions
left. -/
def performAnnotations (directStores : DirectStores) : ℕ → State → Option State
  | 0, st => some st
  | n + 1, st =>
    match st.todo with
    | [] => some st
    | ins :: todo =>
      ( performAnnotation directStores ins { st with todo := todo }).bind
      (performAnnotations directStores n)

/-- The pass on the instructions of a module. -/
def solve (optModules : List Module) (instrs : List Instr) : Option State := do
  let directStores ← initializeStores optModules
  performAnnotations directStores instrs.length ⟨[], instrs, [], []⟩

/-! ## Agreement -/

/-- The instruction stores `val` under the key. -/
def StoresAt (ins : Instr) (key : Key) (val : Value) : Prop :=
  ins.storeToGlobal? = some (val, key.1) ∧ getCurrentPCOfIns ins = some key.2

/-- Every store under the key in the optimised modules stores the constant `n`. -/
def AllStore (optModules : List Module) (key : Key) (n : UInt64) : Prop :=
  ∀ m ∈ optModules, ∀ ins ∈ m.instrs, ∀ val, StoresAt ins key val → val.constInt? = some n

/-- Some store under the key in the optimised modules stores a constant. -/
def HasConstant (optModules : List Module) (key : Key) : Prop :=
  ∃ m ∈ optModules, ∃ ins ∈ m.instrs, ∃ val, StoresAt ins key val ∧ val.constInt?.isSome

/-- What the pass should guarantee of a result: it solves and replaces a non-constant store with a
constant only if the optimised modules store nothing else under its key. -/
structure SolvesOnlyAgreed (optModules : List Module) (instrs : List Instr) (r : State) : Prop where
  solved : ∀ e ∈ r.log, ∃ n, e.replaceWith.constInt? = some n ∧ AllStore optModules (e.gv, e.pc) n
  solvedPCs : ∀ p ∈ r.solvedPCs, ∃ e ∈ r.log, e.gv = "PC" ∧ e.replaceWith.constInt? = some p ∧
    AllStore optModules (e.gv, e.pc) p
  replaced : ∀ (j : ℕ) (i o : Instr), instrs[j]? = some i → r.done[j]? = some o →
    ∀ key val n, StoresAt i key val →
    val.constInt? = none → (o.storeToGlobal?.bind fun p => p.1.constInt?) = some n →
    AllStore optModules key n

/-- The optimised modules agree on every store the pass can look up, and, if its value is replaced,
on every store of the same value. -/
def Agree (optModules : List Module) (instrs : List Instr) : Prop :=
  ∀ s ∈ instrs, ∀ key val, StoresAt s key val → lookedUp s = some (val, key.1) →
    HasConstant optModules key →
    ∃ n, AllStore optModules key n ∧ (key.1 ∈ performReplaceOnTheseGlobals →
      ∀ t ∈ instrs, ∀ key', StoresAt t key' val → AllStore optModules key' n)

variable {optModules : List Module} {instrs : List Instr} {directStores : DirectStores}

/-! ## What the map holds -/

theorem storesAt_unique {ins : Instr} {key key' : Key} {val val' : Value} (h : StoresAt ins key val)
    (h' : StoresAt ins key' val') : key = key' ∧ val = val' := by
  obtain ⟨h1, h2⟩ := h
  obtain ⟨h1', h2'⟩ := h'
  rw [h1] at h1'
  rw [h2] at h2'
  obtain ⟨rfl, hg⟩ := Prod.mk.inj (Option.some.inj h1')
  exact ⟨Prod.ext hg (Option.some.inj h2'), rfl⟩

theorem has_of_storesAt {ins : Instr} {key : Key} {val : Value} (h : StoresAt ins key val) :
    ins.has .INS_currPC = true :=
  has_of_getHexMetadata h.2

/-- One instruction adds at most its own constant. -/
theorem expandDirectStore_eq {ins : Instr} {ds ds' : DirectStores}
    (h : expandDirectStore ds ins = some ds') :
    (∃ key val, StoresAt ins key val ∧ val.constInt?.isSome ∧ ds' = (key, val) :: ds) ∨
      ds' = ds ∧ ∀ key val, StoresAt ins key val → val.constInt? = none := by
  unfold expandDirectStore at h
  cases hs : ins.storeToGlobal? with
  | none =>
    rw [hs] at h
    refine Or.inr ⟨by simpa using h.symm, fun key val hk => ?_⟩
    rw [hk.1] at hs
    simp at hs
  | some p =>
    obtain ⟨val, gv⟩ := p
    rw [hs] at h
    simp only at h
    split_ifs at h with hc
    · cases hpc : getCurrentPCOfIns ins with
      | none => rw [hpc] at h; simp at h
      | some pc =>
        rw [hpc] at h
        exact Or.inl ⟨(gv, pc), val, ⟨hs, hpc⟩, hc.2, by simpa using h.symm⟩
    · refine Or.inr ⟨by simpa using h.symm, fun key val' hk => ?_⟩
      have hval : val = val' := by
        have := hk.1
        rw [hs] at this
        exact (Prod.mk.inj (Option.some.inj this)).1
      have hno : ¬ val.constInt?.isSome = true := fun hv => hc ⟨has_of_storesAt hk, hv⟩
      subst hval
      simpa using hno

/-- The map holds exactly the constants of the optimised modules. -/
structure Collected (optInstrs : List Instr) (ds : DirectStores) : Prop where
  sound : ∀ key val, ds.lookup key = some val → val.constInt?.isSome ∧ ∃ ins ∈ optInstrs,
    StoresAt ins key val
  complete : ∀ ins ∈ optInstrs, ∀ key val, StoresAt ins key val → val.constInt?.isSome →
    (ds.lookup key).isSome

theorem Collected.step {optInstrs : List Instr} {ds ds' : DirectStores} {ins : Instr}
    (h : Collected optInstrs ds) (hstep : expandDirectStore ds ins = some ds') :
    Collected (optInstrs ++ [ins]) ds' := by
  rcases expandDirectStore_eq hstep with ⟨key₀, val₀, hat, hconst, rfl⟩ | ⟨rfl, hno⟩
  -- the new store is at the front, and hides an earlier one with its key
  · constructor
    · intro key val hl
      rw [List.lookup_cons] at hl
      by_cases hk : key = key₀
      · subst hk
        obtain rfl : val₀ = val := by simpa using hl
        exact ⟨hconst, ins, by simp, hat⟩
      · rw [beq_eq_false_iff_ne.mpr hk] at hl
        obtain ⟨hc, i, hi, hst⟩ := h.sound key val hl
        exact ⟨hc, i, List.mem_append_left _ hi, hst⟩
    · intro i hi key val hst hc
      rw [List.lookup_cons]
      by_cases hk : key = key₀
      · simp [hk]
      · rw [beq_eq_false_iff_ne.mpr hk]
        rcases List.mem_append.mp hi with hi | hi
        · exact h.complete i hi key val hst hc
        · rw [List.mem_singleton.mp hi] at hst
          exact absurd (storesAt_unique hst hat).1 hk
  · constructor
    · intro key val hl
      obtain ⟨hc, i, hi, hst⟩ := h.sound key val hl
      exact ⟨hc, i, List.mem_append_left _ hi, hst⟩
    · intro i hi key val hst hc
      rcases List.mem_append.mp hi with hi | hi
      · exact h.complete i hi key val hst hc
      · rw [List.mem_singleton.mp hi] at hst
        rw [hno key val hst] at hc
        simp at hc

theorem collected_initializeStores {ds : DirectStores} (h : initializeStores optModules = some ds) :
    Collected (optModules.flatMap Module.instrs) ds := by
  have hrun : (optModules.flatMap Module.instrs).foldlM expandDirectStore [] = some ds :=
    (OptionMapM.foldlM_flatMap optModules []).symm.trans h
  have hinit : Collected [] [] := ⟨by simp, by simp⟩
  exact OptionMapM.foldlM_preserves (fun _ _ _ _ hc hs => hc.step hs) hinit hrun

/-- A constant that is looked up is the one all stores agree on, if they do. -/
theorem lookup_eq_of_allStore {ds : DirectStores}
    (h : Collected (optModules.flatMap Module.instrs) ds) {key : Key}
    {val : Value} (hl : ds.lookup key = some val) {n : UInt64} (hall : AllStore optModules key n) :
    val.constInt? = some n := by
  obtain ⟨-, ins, hi, hst⟩ := h.sound key val hl
  obtain ⟨m, hm, him⟩ := List.mem_flatMap.mp hi
  exact hall m hm ins him val hst

theorem hasConstant_iff {ds : DirectStores} (h : Collected (optModules.flatMap Module.instrs) ds)
    {key : Key} :
    HasConstant optModules key ↔ ∃ val n, ds.lookup key = some val ∧ val.constInt? = some n := by
  constructor
  · rintro ⟨m, hm, ins, hi, val, hst, hc⟩
    obtain ⟨v, hv⟩ := Option.isSome_iff_exists.mp (h.complete ins (List.mem_flatMap.mpr ⟨m, hm,
      hi⟩) key val hst hc)
    obtain ⟨n, hn⟩ := Option.isSome_iff_exists.mp (h.sound key v hv).1
    exact ⟨v, n, hv, hn⟩
  · rintro ⟨val, n, hl, hn⟩
    obtain ⟨hc, ins, hi, hst⟩ := h.sound key val hl
    obtain ⟨m, hm, him⟩ := List.mem_flatMap.mp hi
    exact ⟨m, hm, ins, him, val, hst, hc⟩

/-! ## The loop -/

theorem lookedUp_eq_some {ins : Instr} {val : Value} {gv : String}
    (h : lookedUp ins = some (val, gv)) :
    ins.storeToGlobal? = some (val, gv) ∧ ins.has .INS_currPC = true ∧ val.constInt? = none ∧
      (gv ∈ performAnnotationOnTheseGlobals ∨ gv ∈ performReplaceOnTheseGlobals) := by
  unfold lookedUp at h
  cases hs : ins.storeToGlobal? with
  | none => rw [hs] at h; simp at h
  | some p =>
    rw [hs] at h
    simp only at h
    split_ifs at h with hc
    obtain ⟨rfl, rfl⟩ := Prod.mk.inj (Option.some.inj h)
    exact ⟨rfl, hc⟩

/-- A substitution that replaces values by constants only. -/
def ByConstants (σ : Value → Value) : Prop :=
  ∀ v, σ v = v ∨ v.constInt? = none ∧ (σ v).constInt?.isSome

theorem ByConstants.of_const {σ : Value → Value} (h : ByConstants σ) {v : Value}
    (hv : v.constInt?.isSome) : σ v = v := by
  rcases h v with h | ⟨h, -⟩
  · exact h
  · rw [h] at hv; simp at hv

theorem ByConstants.of_not_const {σ : Value → Value} (h : ByConstants σ) {v : Value}
    (hv : (σ v).constInt? = none) : σ v = v := by
  rcases h v with h | ⟨-, h⟩
  · exact h
  · rw [hv] at h; simp at h

theorem ByConstants.comp {τ σ : Value → Value} (hτ : ByConstants τ) (hσ : ByConstants σ) :
    ByConstants (τ ∘ σ) := by
  intro v
  rcases hσ v with hv | ⟨hv, hc⟩
  · rw [Function.comp_apply, hv]
    exact hτ v
  · rw [Function.comp_apply, hτ.of_const hc]
    exact Or.inr ⟨hv, hc⟩

theorem storeToGlobal?_store (id : Option InstId) (v p : Value) (md : Metadata) :
    (⟨id, .store v p, md⟩ : Instr).storeToGlobal? = p.global?.map fun g => (v, g) := by
  cases p <;> rfl

/-- Stores to globals stay stores to these globals. -/
theorem storeToGlobal?_mapValues {σ : Value → Value} (h : ByConstants σ)
    (hg : ∀ g, σ (.global g) = .global g) (ins : Instr) :
    (ins.mapValues σ).storeToGlobal? = ins.storeToGlobal?.map fun p => (σ p.1, p.2) := by
  have hglobal : ∀ p, (σ p).global? = p.global? := by
    intro p
    rcases h p with hp | ⟨-, hp⟩
    · rw [hp]
    · obtain ⟨w, n, hw⟩ : ∃ w n, σ p = .constInt w n := by
        cases hσ : σ p with
        | constInt w n => exact ⟨w, n, rfl⟩
        | _ => rw [hσ] at hp; simp [Value.constInt?] at hp
      have hne : ∀ g, p ≠ .global g := by
        rintro g rfl
        rw [hg g] at hw
        simp at hw
      rw [hw]
      cases p with
      | global g => exact absurd rfl (hne g)
      | _ => rfl
  obtain ⟨id, op, md⟩ := ins
  cases op with
  | store v p =>
    rw [storeToGlobal?_store]
    change (⟨id, .store (σ v) (σ p), md⟩ : Instr).storeToGlobal? = _
    rw [storeToGlobal?_store, hglobal, Option.map_map]
    rfl
  | _ => rfl

/-- The loop's invariant: `σ` has been applied to all instructions `is` of the module so far. -/
structure Inv (ds : DirectStores) (is : List Instr) (st : State) (σ : Value → Value) : Prop where
  byConstants : ByConstants σ
  global : ∀ g, σ (.global g) = .global g
  /-- a replaced value is the value of a solved store -/
  replaced : ∀ v, σ v = v ∨ ∃ e ∈ st.log, e.gv ∈ performReplaceOnTheseGlobals ∧
    StoresAt e.store (e.gv, e.pc) v ∧ e.replaceWith = σ v
  todo : st.todo = (is.drop st.done.length).map (Instr.mapValues σ)
  done : st.done.map Instr.op = (is.take st.done.length).map fun i => i.op.mapValues σ
  log : ∀ e ∈ st.log, e.store ∈ is ∧ ds.lookup (e.gv, e.pc) = some e.replaceWith ∧
    e.replaceWith.constInt?.isSome ∧
    ∃ val, StoresAt e.store (e.gv, e.pc) val ∧ lookedUp e.store = some (val, e.gv) ∧
      (e.gv ∈ performReplaceOnTheseGlobals → σ val = e.replaceWith)
  /-- every store the loop has passed was solved, or its value was replaced before, or it is not in
  the map -/
  passed : ∀ s ∈ is.take st.done.length, ∀ key val, StoresAt s key val →
    lookedUp s = some (val, key.1) →
    ∀ c, ds.lookup key = some c → (∃ e ∈ st.log, (e.gv, e.pc) = key ∧ e.store = s) ∨
    (σ val).constInt?.isSome
  solvedPCs : ∀ p ∈ st.solvedPCs, ∃ e ∈ st.log, e.gv = "PC" ∧ e.replaceWith.constInt? = some p

variable {ds : DirectStores} {is : List Instr} {st st' : State} {σ : Value → Value}

theorem inv_start : Inv ds is ⟨[], is, [], []⟩ id where
  byConstants _ := Or.inl rfl
  global _ := rfl
  replaced _ := Or.inl rfl
  todo := by
    have : Instr.mapValues id = id := funext fun i => by simp [Instr.mapValues, Op.mapValues_id]
    simp [this]
  done := rfl
  log e he := by simp at he
  passed s hs := by simp at hs
  solvedPCs p hp := by simp at hp

/-- The instruction at the loop's position, as it is in the module. -/
theorem Inv.head (h : Inv ds is st σ) {ins : Instr} {rest : List Instr}
    (ht : st.todo = ins :: rest) :
    ∃ i tl, is.drop st.done.length = i :: tl ∧ ins = i.mapValues σ ∧
      rest = tl.map (Instr.mapValues σ) ∧
      is.take (st.done.length + 1) = is.take st.done.length ++ [i] ∧ is.drop (st.done.length + 1) =
      tl ∧ i ∈ is := by
  have htodo := h.todo
  rw [ht] at htodo
  cases hd : is.drop st.done.length with
  | nil => rw [hd] at htodo; simp at htodo
  | cons i tl =>
    rw [hd, List.map_cons] at htodo
    obtain ⟨h1, h2⟩ := List.cons.inj htodo
    refine ⟨i, tl, rfl, h1, h2, ?_, ?_, List.mem_of_mem_drop (hd ▸ List.mem_cons_self)⟩
    · have hget : is[st.done.length]? = some i := by
        rw [← List.head?_drop, hd]
        rfl
      rw [List.take_add_one, hget]
      rfl
    · rw [← List.tail_drop, hd]
      rfl

/-- A looked-up store has not been changed. -/
theorem lookedUp_mapValues (hσ : ByConstants σ) (hg : ∀ g, σ (.global g) = .global g)
    {i : Instr} {val : Value} {gv : String}
    (h : lookedUp (i.mapValues σ) = some (val, gv)) : i.mapValues σ = i := by
  obtain ⟨hs, -, hc, -⟩ := lookedUp_eq_some h
  rw [storeToGlobal?_mapValues hσ hg] at hs
  obtain ⟨p, hp, heq⟩ := Option.map_eq_some_iff.mp hs
  obtain ⟨rfl, rfl⟩ := Prod.mk.inj heq
  have hval := hσ.of_not_const hc
  obtain ⟨id, op, md⟩ := i
  cases op with
  | store v q =>
    rw [storeToGlobal?_store] at hp
    obtain ⟨g, hq, rfl⟩ := Option.map_eq_some_iff.mp hp
    cases q with
    | global g' => simp [Instr.mapValues, Op.mapValues, hg, hval]
    | _ => simp [Value.global?] at hq
  | _ => simp [Instr.storeToGlobal?] at hp

/-- Nor has its value. -/
theorem eq_of_lookedUp_mapValues (hσ : ByConstants σ) (hg : ∀ g, σ (.global g) = .global g)
    {i : Instr} {val : Value} {gv : String} (h : lookedUp (i.mapValues σ) = some (val, gv)) :
    σ val = val := by
  have hsame := lookedUp_mapValues hσ hg h
  have hs := (lookedUp_eq_some h).1
  have hmap := storeToGlobal?_mapValues hσ hg i
  rw [hs, ← hsame, hs] at hmap
  exact (Prod.mk.inj (Option.some.inj hmap)).1.symm

/-- If a store is not looked up although it is one of the original module, its value has been
replaced. -/
theorem const_of_lookedUp_none (hσ : ByConstants σ) (hg : ∀ g, σ (.global g) = .global g)
    {i : Instr} {val : Value} {gv : String} (h : lookedUp (i.mapValues σ) = none)
    (h' : lookedUp i = some (val, gv)) : (σ val).constInt?.isSome := by
  obtain ⟨hs, hpc, -, hlist⟩ := lookedUp_eq_some h'
  unfold lookedUp at h
  rw [storeToGlobal?_mapValues hσ hg, hs] at h
  by_contra hc
  have hnone : (σ val).constInt? = none := by simpa using hc
  have hcond : (i.mapValues σ).has .INS_currPC = true ∧ (σ val).constInt? = none ∧
      (gv ∈ performAnnotationOnTheseGlobals ∨ gv ∈ performReplaceOnTheseGlobals) :=
        ⟨hpc, hnone, hlist⟩
  simp only [Option.map_some, if_pos hcond] at h
  simp at h

/-- Passing an instruction without solving it. -/
theorem Inv.skip (h : Inv ds is st σ) {ins : Instr} {rest : List Instr} (ht : st.todo = ins :: rest)
    (hpassed : ∀ i, ins = i.mapValues σ → ∀ key val, StoresAt i key val →
      lookedUp i = some (val, key.1) → ∀ c, ds.lookup key = some c → (σ val).constInt?.isSome) :
    Inv ds is { st with done := st.done ++ [ins], todo := rest } σ := by
  obtain ⟨i, tl, hdrop, hins, hrest, htake, hdrop', hi⟩ := h.head ht
  refine ⟨h.byConstants, h.global, h.replaced, ?_, ?_, h.log, ?_, h.solvedPCs⟩
  · simp only [List.length_append, List.length_singleton]
    rw [hdrop', hrest]
  · simp only [List.length_append, List.length_singleton, List.map_append,
      List.map_cons, List.map_nil]
    rw [htake, List.map_append, h.done, hins]
    rfl
  · intro s hs key val hat hlook c hc
    simp only [List.length_append, List.length_singleton] at hs
    rw [htake] at hs
    rcases List.mem_append.mp hs with hs | hs
    · exact h.passed s hs key val hat hlook c hc
    · obtain rfl := List.mem_singleton.mp hs
      exact Or.inr (hpassed s hins key val hat hlook c hc)

theorem op_annotate (ins : Instr) (gv : String) (n : UInt64) : (annotate ins gv n).op = ins.op := by
  unfold annotate
  split_ifs <;> rfl

/-- The rewriting of a solved store. -/
theorem rewriting_spec {val c : Value} {gv : String} {τ : Value → Value}
    (h : rewriting gv val c = some τ) :
    (∀ v, τ v = v ∨ gv ∈ performReplaceOnTheseGlobals ∧ v = val ∧ τ v = c) ∧
      (∀ g, τ (.global g) = .global g) ∧ (gv ∈ performReplaceOnTheseGlobals → τ val = c) := by
  unfold rewriting at h
  split_ifs at h with hrep
  · have hτ : τ = replaceValue val c ∧ ∀ g, val ≠ .global g := by
      unfold replaceAllUsesWith at h
      split at h
      · simp at h
      · simp at h
      · rename_i hno _
        exact ⟨(Option.some.inj h).symm, hno⟩
    obtain ⟨rfl, hne⟩ := hτ
    refine ⟨fun v => ?_, fun g => if_neg (Ne.symm (hne g)), fun _ => if_pos rfl⟩
    by_cases hv : v = val
    · exact Or.inr ⟨hrep, hv, if_pos hv⟩
    · exact Or.inl (if_neg hv)
  · obtain rfl := Option.some.inj h
    exact ⟨fun v => Or.inl rfl, fun _ => rfl, fun hr => absurd hr hrep⟩

theorem byConstants_rewriting {val c : Value} {gv : String} {τ : Value → Value}
    (h : rewriting gv val c = some τ) (hval : val.constInt? = none)
    (hc : c.constInt?.isSome) : ByConstants τ := by
  intro v
  rcases (rewriting_spec h).1 v with hv | ⟨-, rfl, hv⟩
  · exact Or.inl hv
  · exact Or.inr ⟨hval, hv ▸ hc⟩

/-- Solving a store. -/
theorem Inv.solve (h : Inv ds is st σ) {ins : Instr} {rest : List Instr}
    (ht : st.todo = ins :: rest) {val c : Value} {gv : String} {pc n : UInt64}
    (hlook : lookedUp ins = some (val, gv)) (hpc : getCurrentPCOfIns ins = some pc)
    (hl : ds.lookup (gv, pc) = some c) (hn : c.constInt? = some n) {τ : Value → Value}
    (hτ : rewriting gv val c = some τ) :
    Inv ds is ⟨(st.done ++ [annotate ins gv n]).map (Instr.mapValues τ),
      rest.map (Instr.mapValues τ), st.log ++ [⟨ins, gv, pc, c⟩], st.solvedPCs ++ if gv = "PC" then
        [n] else []⟩ (τ ∘ σ) := by
  obtain ⟨i, tl, hdrop, hins, hrest, htake, hdrop', hi⟩ := h.head ht
  have hsame : ins = i := hins.trans (lookedUp_mapValues h.byConstants h.global (hins ▸ hlook))
  obtain ⟨hs, -, hval, -⟩ := lookedUp_eq_some hlook
  have hat : StoresAt ins (gv, pc) val := ⟨hs, hpc⟩
  have hcs : c.constInt?.isSome := by rw [hn]; rfl
  obtain ⟨hτv, hτg, hτval⟩ := rewriting_spec hτ
  have hτc := byConstants_rewriting hτ hval hcs
  have hσval : σ val = val := eq_of_lookedUp_mapValues h.byConstants h.global (hins ▸ hlook)
  -- the sweep replaces by `τ` what `σ` has left
  have hcomp : ∀ f : List Instr, (f.map (Instr.mapValues σ)).map (Instr.mapValues τ) =
    f.map (Instr.mapValues (τ ∘ σ)) := by
    intro f
    simp [Instr.mapValues_mapValues]
  constructor
  case byConstants =>
    exact hτc.comp h.byConstants
  case global =>
    intro g
    rw [Function.comp_apply, h.global, hτg]
  case replaced =>
    intro v
    rcases h.replaced v with hv | ⟨e, he, hr, hst, heq⟩
    -- what the new entry replaces, and what stands from before
    · rcases hτv v with h' | ⟨hr, rfl, h'⟩
      · exact Or.inl (by rw [Function.comp_apply, hv, h'])
      · exact Or.inr
          ⟨_, List.mem_append_right _ (List.mem_singleton.mpr rfl), hr, hat,
            by rw [Function.comp_apply, hv, h']⟩
    · refine Or.inr ⟨e, List.mem_append_left _ he, hr, hst, ?_⟩
      obtain ⟨-, -, hce, -⟩ := h.log e he
      rw [Function.comp_apply, ← heq, hτc.of_const hce]
  case todo =>
    simp only [List.length_map, List.length_append, List.length_singleton]
    rw [hdrop', hrest, hcomp]
  case done =>
    simp only [List.length_map, List.length_append, List.length_singleton, List.map_append,
      List.map_cons, List.map_nil, List.map_map]
    rw [htake, List.map_append]
    congr 1
    · have := congrArg (List.map (Op.mapValues τ)) h.done
      simpa [Function.comp_def, Op.mapValues_mapValues] using this
    · simp [op_annotate, hins, Op.mapValues_mapValues]
  case log =>
    intro e he
    rcases List.mem_append.mp he with he | he
    · obtain ⟨hin, hlk, hce, v, hst, hlu, hrep⟩ := h.log e he
      refine ⟨hin, hlk, hce, v, hst, hlu, fun hr => ?_⟩
      rw [Function.comp_apply, hrep hr, hτc.of_const hce]
    · obtain rfl := List.mem_singleton.mp he
      refine ⟨hsame ▸ hi, hl, hcs, val, hat, hlook, fun hr => ?_⟩
      rw [Function.comp_apply, hσval, hτval hr]
  case passed =>
    intro s hs' key v hat' hlk c' hc'
    simp only [List.length_map, List.length_append, List.length_singleton] at hs'
    rw [htake] at hs'
    rcases List.mem_append.mp hs' with hs' | hs'
    · rcases h.passed s hs' key v hat' hlk c' hc' with ⟨e, he, hkey⟩ | hcv
      · exact Or.inl ⟨e, List.mem_append_left _ he, hkey⟩
      · exact Or.inr (by rw [Function.comp_apply, hτc.of_const hcv]; exact hcv)
    -- the instruction itself is passed now, and it is in the log
    · have hs : s = ins := (List.mem_singleton.mp hs').trans hsame.symm
      rw [hs] at hat'
      exact Or.inl ⟨_, List.mem_append_right _ (List.mem_singleton.mpr rfl),
        (storesAt_unique hat hat').1, hs.symm⟩
  case solvedPCs =>
    intro p hp
    rcases List.mem_append.mp hp with hp | hp
    · obtain ⟨e, he, hg, hv⟩ := h.solvedPCs p hp
      exact ⟨e, List.mem_append_left _ he, hg, hv⟩
    · split_ifs at hp with hg
      · rw [List.mem_singleton.mp hp]
        exact ⟨_, List.mem_append_right _ (List.mem_singleton.mpr rfl), hg, hn⟩
      · simp at hp

/-- What one instruction of the loop can do: it is passed, or it is a store that is solved. -/
theorem performAnnotation_cases {ins : Instr} (h : performAnnotation ds ins st = some st') :
    (st' = { st with done := st.done ++ [ins] } ∧ (lookedUp ins = none ∨ ∃ val gv pc,
        lookedUp ins = some (val, gv) ∧ getCurrentPCOfIns ins = some pc ∧
          ds.lookup (gv, pc) = none)) ∨
      ∃ val gv pc c n τ, lookedUp ins = some (val, gv) ∧ getCurrentPCOfIns ins = some pc ∧
        ds.lookup (gv, pc) = some c ∧ c.constInt? = some n ∧ rewriting gv val c = some τ ∧
        st' = ⟨(st.done ++ [annotate ins gv n]).map (Instr.mapValues τ),
          st.todo.map (Instr.mapValues τ), st.log ++ [⟨ins, gv, pc, c⟩],
            st.solvedPCs ++ if gv = "PC" then [n] else []⟩ := by
  unfold performAnnotation at h
  cases hlook : lookedUp ins with
  | none =>
    rw [hlook] at h
    exact Or.inl ⟨(Option.some.inj h).symm, Or.inl rfl⟩
  | some p =>
    obtain ⟨val, gv⟩ := p
    rw [hlook] at h
    obtain ⟨pc, hpc, h⟩ := Option.bind_eq_some_iff.mp h
    cases hl : ds.lookup (gv, pc) with
    | none =>
      rw [hl] at h
      exact Or.inl ⟨(Option.some.inj h).symm, Or.inr ⟨val, gv, pc, rfl, hpc, hl⟩⟩
    | some c =>
      rw [hl] at h
      obtain ⟨n, hn, h⟩ := Option.bind_eq_some_iff.mp h
      obtain ⟨τ, hτ, h⟩ := Option.bind_eq_some_iff.mp h
      exact Or.inr ⟨val, gv, pc, c, n, τ, rfl, hpc, hl, hn, hτ, (Option.some.inj h).symm⟩

/-- One instruction of the loop keeps the invariant. -/
theorem Inv.step (h : Inv ds is st σ) {ins : Instr} {rest : List Instr} (ht : st.todo = ins :: rest)
    (hstep : performAnnotation ds ins { st with todo := rest } = some st') :
    ∃ σ', Inv ds is st' σ' ∧ st'.todo.length = rest.length := by
  obtain ⟨rfl, hno⟩ | ⟨val, gv, pc, c, n, τ, hlook, hpc, hl, hn, hτ, rfl⟩ :=
    performAnnotation_cases hstep
  · refine ⟨σ, h.skip ht fun i hi key v hat hlk c hc => ?_, rfl⟩
    rcases hno with hnone | ⟨val, gv, pc, hlook, hpc, hl⟩
    · exact const_of_lookedUp_none h.byConstants h.global (hi ▸ hnone) hlk
    · -- the instruction is as in the module, and its key is not in the map
      have hsame : ins = i := hi.trans (lookedUp_mapValues h.byConstants h.global (hi ▸ hlook))
      obtain ⟨hs, -⟩ := lookedUp_eq_some hlook
      have hat' : StoresAt ins (gv, pc) val := ⟨hs, hpc⟩
      obtain ⟨rfl, -⟩ := storesAt_unique hat (hsame ▸ hat')
      rw [hl] at hc
      cases hc
  · exact ⟨τ ∘ σ, h.solve ht hlook hpc hl hn hτ, by simp⟩

/-- What every instruction of the loop keeps, the loop keeps, and it passes every instruction. -/
theorem performAnnotations_preserves {P : State → Prop} {n : ℕ}
    (hrun : performAnnotations ds n st = some st') (hlen : st.todo.length ≤ n)
    (hP : ∀ st st' ins rest, P st → st.todo = ins :: rest →
      performAnnotation ds ins { st with todo := rest } = some st' →
        P st' ∧ st'.todo.length = rest.length)
    (h : P st) : P st' ∧ st'.todo = [] := by
  induction n generalizing st with
  | zero =>
    obtain rfl := Option.some.inj hrun
    exact ⟨h, List.length_eq_zero_iff.mp (Nat.le_zero.mp hlen)⟩
  | succ n ih =>
    unfold performAnnotations at hrun
    cases ht : st.todo with
    | nil =>
      rw [ht] at hrun
      obtain rfl := Option.some.inj hrun
      exact ⟨h, ht⟩
    | cons ins rest =>
      rw [ht] at hrun
      obtain ⟨st₁, hstep, hrun⟩ := Option.bind_eq_some_iff.mp hrun
      obtain ⟨h₁, hlen₁⟩ := hP st st₁ ins rest h ht hstep
      rw [ht, List.length_cons] at hlen
      exact ih hrun (by omega) h₁

theorem Inv.run {n : ℕ} (h : Inv ds is st σ) (hlen : st.todo.length ≤ n)
    (hrun : performAnnotations ds n st = some st') : (∃ σ', Inv ds is st' σ') ∧ st'.todo = [] := by
  refine performAnnotations_preserves (P := fun st => ∃ σ, Inv ds is st σ) hrun hlen
    (fun st st' ins rest hst ht hstep => ?_) ⟨σ, h⟩
  obtain ⟨σ, hst⟩ := hst
  obtain ⟨σ', hst', hlen'⟩ := hst.step ht hstep
  exact ⟨⟨σ', hst'⟩, hlen'⟩

/-! ## The result -/

/-- A store of the module stores the rewritten value in the result. -/
theorem Inv.store (h : Inv ds is st σ) {i o : Instr} (hop : o.op = i.op.mapValues σ)
    {key : Key} {val : Value} (hat : StoresAt i key val) :
    o.storeToGlobal? = some (σ val, key.1) := by
  have hmap := storeToGlobal?_mapValues h.byConstants h.global i
  have hsame : o.storeToGlobal? = (i.mapValues σ).storeToGlobal? := by
    unfold Instr.storeToGlobal?
    rw [hop]
    rfl
  rw [hsame, hmap, hat.1]
  rfl

/-- `σ` is what the pass did to the operands, and `ds` the map it used. -/
structure Result (optModules : List Module) (instrs : List Instr) (r : State) (ds : DirectStores)
    (σ : Value → Value) : Prop where
  collected : Collected (optModules.flatMap Module.instrs) ds
  inv : Inv ds instrs r σ
  length : r.done.length = instrs.length
  store : ∀ (j : ℕ) (i o : Instr), instrs[j]? = some i → r.done[j]? = some o →
    ∀ key val, StoresAt i key val → o.storeToGlobal? = some (σ val, key.1)

theorem exists_result {r : State} (h : solve optModules instrs = some r) :
    ∃ ds σ, Result optModules instrs r ds σ := by
  unfold solve at h
  obtain ⟨ds, hds, hrun⟩ := Option.bind_eq_some_iff.mp h
  obtain ⟨⟨σ, hinv⟩, htodo⟩ := Inv.run inv_start (le_refl _) hrun
  have hdone := hinv.done
  have hrest := hinv.todo
  rw [htodo] at hrest
  have hdrop : instrs.drop r.done.length = [] := by simpa using hrest.symm
  have hle : instrs.length ≤ r.done.length := List.drop_eq_nil_iff.mp hdrop
  have hge : r.done.length ≤ instrs.length := by
    have := congrArg List.length hdone
    simp only [List.length_map, List.length_take] at this
    omega
  refine ⟨ds, σ, collected_initializeStores hds, hinv, le_antisymm hge hle,
    fun j i o hi ho key val hat => ?_⟩
  rw [List.take_of_length_le hle] at hdone
  have hop : o.op = i.op.mapValues σ := by
    have := congrArg (fun l : List Op => l[j]?) hdone
    simpa [hi, ho] using this
  exact hinv.store hop hat

/-- What the optimised modules agree on, if the pass did only what they agree on. -/
theorem Result.agree {r : State} (h : Result optModules instrs r ds σ)
    (hP : SolvesOnlyAgreed optModules instrs r) : Agree optModules instrs := by
  intro s hs key val hat hlook hconst
  obtain ⟨c, n, hl, hn⟩ := (hasConstant_iff h.collected).mp hconst
  have hval := (lookedUp_eq_some hlook).2.2.1
  -- what a store with the value of `s` stores in the end, all stores of its key store
  have hrep : ∀ t ∈ instrs, ∀ key', StoresAt t key' val → ∀ m, (σ val).constInt? = some m →
      AllStore optModules key' m := by
    intro t ht key' hat' m hm
    obtain ⟨j, hj, rfl⟩ := List.mem_iff_getElem.mp ht
    have hjo : j < r.done.length := by rw [h.length]; exact hj
    refine hP.replaced j _ _ (List.getElem?_eq_getElem hj) (List.getElem?_eq_getElem hjo) key' val
      m hat' hval ?_
    rw [h.store j _ _ (List.getElem?_eq_getElem hj) (List.getElem?_eq_getElem hjo) key' val hat']
    exact hm
  have hevent : ∀ e ∈ r.log, (e.gv, e.pc) = key → AllStore optModules key n := by
    intro e he hkey
    obtain ⟨m, hm, hall⟩ := hP.solved e he
    obtain ⟨-, hl', -⟩ := h.inv.log e he
    rw [hkey, hl] at hl'
    obtain rfl := Option.some.inj hl'
    rw [hn] at hm
    obtain rfl := Option.some.inj hm
    exact hkey ▸ hall
  by_cases hσ : (σ val).constInt?.isSome
  · obtain ⟨m, hm⟩ := Option.isSome_iff_exists.mp hσ
    exact ⟨m, hrep s hs key hat m hm, fun _ t ht key' hat' => hrep t ht key' hat' m hm⟩
  · have htake : s ∈ instrs.take r.done.length := by rwa [h.length, List.take_length]
    rcases h.inv.passed s htake key val hat hlook c hl with ⟨e, he, hkey, rfl⟩ | hc
    · refine ⟨n, hevent e he hkey, fun hr => absurd ?_ hσ⟩
      obtain ⟨-, -, hce, v, hat', -, hrep'⟩ := h.inv.log e he
      obtain ⟨-, rfl⟩ := storesAt_unique hat hat'
      rw [hrep' (by rw [← hkey] at hr; exact hr)]
      exact hce
    · exact absurd hc hσ

/-- The constant of a solved store is the one all stores of its key agree on, and those of the same
value with it. -/
theorem Result.log_agreed {r : State} (h : Result optModules instrs r ds σ)
    (hagree : Agree optModules instrs) {e : Solved} (he : e ∈ r.log) :
    ∃ n, e.replaceWith.constInt? = some n ∧ AllStore optModules (e.gv, e.pc) n ∧
      (e.gv ∈ performReplaceOnTheseGlobals → ∀ t ∈ instrs, ∀ key val,
        StoresAt e.store (e.gv, e.pc) val → StoresAt t key val → AllStore optModules key n) := by
  obtain ⟨hin, hl, hce, v, hat, hlook, -⟩ := h.inv.log e he
  obtain ⟨m, hm⟩ := Option.isSome_iff_exists.mp hce
  have hconst : HasConstant optModules (e.gv, e.pc) :=
    (hasConstant_iff h.collected).mpr ⟨_, m, hl, hm⟩
  obtain ⟨n, hall, hshare⟩ := hagree e.store hin (e.gv, e.pc) v hat hlook hconst
  refine ⟨n, lookup_eq_of_allStore h.collected hl hall, hall, fun hr t ht key val hat' hat'' => ?_⟩
  obtain ⟨-, rfl⟩ := storesAt_unique hat hat'
  exact hshare hr t ht key hat''

theorem Result.solvesOnlyAgreed {r : State} (h : Result optModules instrs r ds σ)
    (hagree : Agree optModules instrs) : SolvesOnlyAgreed optModules instrs r := by
  refine ⟨fun e he => ?_, fun p hp => ?_, fun j i o hi ho key val n hat hc hn => ?_⟩
  · obtain ⟨n, hn, hall, -⟩ := h.log_agreed hagree he
    exact ⟨n, hn, hall⟩
  · obtain ⟨e, he, hg, hp⟩ := h.inv.solvedPCs p hp
    obtain ⟨n, hn, hall, -⟩ := h.log_agreed hagree he
    rw [hp] at hn
    obtain rfl := Option.some.inj hn
    exact ⟨e, he, hg, hp, hall⟩
  · rw [h.store j i o hi ho key val hat] at hn
    have hn : (σ val).constInt? = some n := hn
    rcases h.inv.replaced val with hv | ⟨e, he, hr, hat', heq⟩
    · rw [hv, hc] at hn
      simp at hn
    · obtain ⟨m, hm, -, hshare⟩ := h.log_agreed hagree he
      rw [← heq, hm] at hn
      obtain rfl := Option.some.inj hn
      exact hshare hr i (List.mem_of_getElem? hi) key val hat' hat

/-- **The pass solves and replaces only agreed stores exactly when the optimised modules agree on
every store it can look up.** -/
theorem solve_agreed_iff {r : State} (h : solve optModules instrs = some r) :
    SolvesOnlyAgreed optModules instrs r ↔ Agree optModules instrs := by
  obtain ⟨ds, σ, hres⟩ := exists_result h
  exact ⟨hres.agree, hres.solvesOnlyAgreed⟩

/-! ## What is left of an instruction -/

/-- The operands may be rewritten, and a store may be annotated. -/
structure KeptIns (i o : Instr) : Prop where
  id : o.id = i.id
  op : ∃ σ, o.op = i.op.mapValues σ
  md : o.md = i.md ∨ ∃ v p, i.op = .store v p
  other : ∀ k, k ≠ .INS_computedValue → o.has k = i.has k

theorem KeptIns.refl (i : Instr) : KeptIns i i :=
  ⟨rfl, ⟨_, (Op.mapValues_id i.op).symm⟩, Or.inl rfl, fun _ _ => rfl⟩

theorem KeptIns.mapValues {i o : Instr} (h : KeptIns i o) (τ : Value → Value) :
    KeptIns i (o.mapValues τ) := by
  obtain ⟨σ, hσ⟩ := h.op
  refine ⟨h.id, ⟨τ ∘ σ, ?_⟩, h.md, h.other⟩
  rw [Instr.op_mapValues, hσ, Op.mapValues_mapValues]

theorem KeptIns.annotate {i o : Instr} (h : KeptIns i o) {v : Value} {gv : String}
    (hlook : lookedUp o = some (v, gv)) (n : UInt64) : KeptIns i (annotate o gv n) := by
  unfold SolveIndirectSingle.annotate
  split_ifs
  · refine ⟨h.id, h.op, Or.inr ?_, fun k hk => (Instr.has_setMetadata_of_ne o hk _).trans
      (h.other k hk)⟩
    obtain ⟨σ, hσ⟩ := h.op
    have hstore := (lookedUp_eq_some hlook).1
    unfold Instr.storeToGlobal? at hstore
    rw [hσ] at hstore
    cases hi : i.op with
    | store v p => exact ⟨v, p, rfl⟩
    | _ => rw [hi] at hstore; cases hstore
  · exact h

theorem KeptIns.isTerminator {i o : Instr} (h : KeptIns i o) : o.isTerminator = i.isTerminator := by
  obtain ⟨σ, hσ⟩ := h.op
  rw [Instr.isTerminator, hσ, Op.isTerminator_mapValues, Instr.isTerminator]

/-- What a pass appended and never refers to again has no operands to rewrite if it is a branch. -/
theorem KeptIns.eq_fresh_br {o : Instr} {d : BlockId} (h : KeptIns (Instr.fresh (.br d)) o) :
    o = Instr.fresh (.br d) := by
  obtain ⟨id, op, md⟩ := o
  obtain ⟨σ, hσ⟩ := h.op
  have hid : id = none := h.id
  have hop : op = .br d := hσ
  rcases h.md with hmd | ⟨v, p, hstore⟩
  · have hmd : md = [] := hmd
    rw [hid, hop, hmd]
    rfl
  · cases hstore

theorem performAnnotation_keeps {ins : Instr} {rest : List Instr}
    (h : List.Forall₂ KeptIns is (st.done ++ ins :: rest))
    (hstep : performAnnotation ds ins { st with todo := rest } = some st') :
    List.Forall₂ KeptIns is (st'.done ++ st'.todo) ∧ st'.todo.length = rest.length := by
  obtain ⟨rfl, -⟩ | ⟨val, gv, pc, c, n, τ, hlook, -, -, -, -, rfl⟩ := performAnnotation_cases hstep
  · exact ⟨by rwa [List.append_assoc], rfl⟩
  · refine ⟨?_, List.length_map _⟩
    rw [← List.map_append, List.append_assoc, List.singleton_append, List.forall₂_map_right_iff]
    obtain ⟨is₁, is₂, rfl, hdone, htodo⟩ := Lists.exists_append_right h
    obtain ⟨i, is₃, hi, hrest, rfl⟩ := List.forall₂_cons_right_iff.mp htodo
    have hall : List.Forall₂ KeptIns (is₁ ++ i :: is₃) (st.done ++ annotate ins gv n :: rest) :=
      List.rel_append hdone (List.Forall₂.cons (hi.annotate hlook n) hrest)
    exact hall.imp fun _ _ hk => hk.mapValues τ

/-- The pass keeps the instructions, one by one. -/
theorem solve_keeps {r : State} (h : solve optModules instrs = some r) :
    List.Forall₂ KeptIns instrs r.done := by
  obtain ⟨ds, -, hrun⟩ := Option.bind_eq_some_iff.mp h
  have hstart : List.Forall₂ KeptIns instrs instrs := List.forall₂_same.mpr fun i _ =>
    KeptIns.refl i
  obtain ⟨hend, htodo⟩ := performAnnotations_preserves
    (P := fun st => List.Forall₂ KeptIns instrs (st.done ++ st.todo)) hrun (le_refl _)
    (fun st st' ins rest hst ht hstep => performAnnotation_keeps (ht ▸ hst) hstep) hstart
  rwa [htodo, List.append_nil] at hend

/-! ## One block in two functions -/

/-- A store to `PC` by the guest instruction at `0x8000`. -/
def storePC (val : Value) : Instr :=
  ⟨some 1, .store val (.global "PC"), [(.INS_currPC, .str (hex 0x8000))]⟩

/-- The optimised clones of the block. -/
def clones (vals : List Value) : Module :=
  ⟨vals.map fun v => ⟨"final-func", [⟨1, "entry", [storePC v]⟩]⟩⟩

/-- In one clone the jump goes to `0x9000`, in the other to `0xa000`: the last one is taken. -/
theorem solve_disagreeing :
    ∃ r, solve [clones [.constInt 32 0x9000, .constInt 32 0xa000]] [storePC (.inst 2)] = some r ∧
      r.solvedPCs = [0xa000] ∧
      ¬ SolvesOnlyAgreed [clones [.constInt 32 0x9000, .constInt 32 0xa000]]
      [storePC (.inst 2)] r := by
  refine ⟨⟨[annotate (storePC (.constInt 32 0xa000)) "PC" 0xa000], [],
    [⟨storePC (.inst 2), "PC", 0x8000, .constInt 32 0xa000⟩],
    [0xa000]⟩, by decide, rfl, fun h => ?_⟩
  obtain ⟨n, hn, hall⟩ := h.solved _ List.mem_cons_self
  have hat : StoresAt (storePC (.constInt 32 0x9000)) ("PC", 0x8000) (.constInt 32 0x9000) :=
    ⟨rfl, by decide⟩
  have h1 := hall _ List.mem_cons_self _ (by decide) _ hat
  rw [← hn] at h1
  exact absurd h1 (by decide)

/-- Two clones that agree. -/
theorem solve_agreeing :
    ∃ r, solve [clones [.constInt 32 0x9000, .constInt 32 0x9000]] [storePC (.inst 2)] = some r ∧
      r.solvedPCs = [0x9000] ∧ SolvesOnlyAgreed [clones [.constInt 32 0x9000, .constInt 32 0x9000]]
        [storePC (.inst 2)] r := by
  refine ⟨⟨[annotate (storePC (.constInt 32 0x9000)) "PC" 0x9000], [],
    [⟨storePC (.inst 2), "PC", 0x8000, .constInt 32 0x9000⟩],
    [0x9000]⟩, by decide, rfl, (solve_agreed_iff (by decide)).mpr ?_⟩
  have hopt : ∀ m ∈ [clones [.constInt 32 0x9000, .constInt 32 0x9000]], ∀ ins ∈ m.instrs,
      ins = storePC (.constInt 32 0x9000) := by decide
  have hall : ∀ key, AllStore [clones [.constInt 32 0x9000, .constInt 32 0x9000]] key 0x9000 := by
    intro key m hm ins hi val hat
    rw [hopt m hm ins hi] at hat
    obtain ⟨hv, -⟩ := Prod.mk.inj (Option.some.inj hat.1)
    rw [← hv]
    rfl
  exact fun s _ key val _ _ _ => ⟨0x9000, hall key, fun _ t _ key' _ => hall key'⟩

end Bin2llvm.SolveIndirectSingle
