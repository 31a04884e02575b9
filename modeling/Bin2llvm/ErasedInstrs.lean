import Bin2llvm.Execution
import Bin2llvm.Lib.Lists
import Bin2llvm.Lib.Run

/-!
# Bin2llvm.ErasedInstrs — executions without instructions that nothing needs

Passes erase instructions whose results nothing uses and which change the memory only where nothing
looks.  `A` are the addresses in question and `V` the identities.

* `Agrees`: two points that are the same apart from `A` and `V`.
* `step_mapped`, `step_agrees`: the same instruction on both sides, with other operands or the same.
* `cases_of_step`: what a step does.
* `eraseInstrs`: a function without some of its instructions.
* `returns_erase_iff`: it returns when the function returns, with the same value, memory and world.
-/

namespace Bin2llvm.Execution

section

variable {W E : Type} (I : Interp W E) (K : Control W) (A : W → Prop) (V : InstId → Prop)

/-- The same results apart from `V`, the same memory apart from `A`, and the same world. -/
structure Agrees (p p' : Point W E) : Prop where
  done : ∀ k ∈ p.done, k ∈ p'.done ∨ V k
  env : ∀ k, ¬ V k → p'.st.env k = p.st.env k
  mem : ∀ a, ¬ A a → p'.st.mem a = p.st.mem a
  ext : p'.st.ext = p.st.ext

/-- The blocks were entered from the same block, at points that agree. -/
def EdgeAgrees (edge edge' : Option (BlockId × Point W E)) : Prop :=
  ∀ pred p, edge = some (pred, p) → ∃ p', edge' = some (pred, p') ∧ Agrees A V p p'

/-- Calls do not look at `A`. -/
def CallsIgnore : Prop := ∀ vs m m' e, (∀ a, ¬ A a → m' a = m a) →
    (I.call vs m' e).1 = (I.call vs m e).1 ∧
  (∀ a, ¬ A a → (I.call vs m' e).2.1 a = (I.call vs m e).2.1 a) ∧
  (I.call vs m' e).2.2 = (I.call vs m e).2.2

/-- The next instruction does not load from `A`. -/
def LoadsAvoid (c : Config W E) : Prop :=
  ∀ i is p, c.code = i :: is → i.op = .load p → ¬ A (eval I c.now.st p)

variable [DecidableEq W]

/-- An instruction that changes nothing but its result and the memory at `A`. -/
structure Silent (i : Instr) : Prop where
  notTerminator : i.op.isTerminator = false
  mem : ∀ (st : State W E) a, ¬ A a → (exec I st i).mem a = st.mem a
  ext : ∀ st : State W E, (exec I st i).ext = st.ext

/-- The function returns `o` without a load from `A`, and leaves the memory `m` apart from `A` and
the world `e`. -/
def Returns (f : Func) (st : State W E) (o : Option W) (m : W → W) (e : E) : Prop :=
  ∃ c₀ cs c, start f st = some c₀ ∧ Run (step I K f) c₀ cs c ∧ (∀ d ∈ cs, LoadsAvoid I A d) ∧
    outcome I c = some o ∧ (∀ a, ¬ A a → c.now.st.mem a = m a) ∧ c.now.st.ext = e

end

/-! ## Points that agree -/

section

variable {W E : Type} {I : Interp W E} {K : Control W} {A : W → Prop} {V : InstId → Prop}
variable {p p' q : Point W E} {i i' : Instr} {is is' : List Instr} {v : Value} {w : W}
variable {edge edge' : Option (BlockId × Point W E)} {f : Func} {c c' d : Config W E}
variable {st : State W E}

theorem Agrees.refl (p : Point W E) : Agrees A V p p :=
  ⟨fun _ hk => .inl hk, fun _ _ => rfl, fun _ _ => rfl, rfl⟩

theorem Agrees.symm (h : Agrees A V p p') (hdone : ∀ k ∈ p'.done, k ∈ p.done ∨
    V k) : Agrees A V p' p :=
  ⟨hdone, fun k hk => (h.env k hk).symm, fun a ha => (h.mem a ha).symm, h.ext.symm⟩

theorem Agrees.trans (h : Agrees A V p q) (h' : Agrees A V q p') : Agrees A V p p' where
  done k hk := (h.done k hk).elim (h'.done k) .inr
  env k hk := (h'.env k hk).trans (h.env k hk)
  mem a ha := (h'.mem a ha).trans (h.mem a ha)
  ext := h'.ext.trans h.ext

theorem Agrees.eval (h : Agrees A V p p') (hv : ∀ k, v = .inst k → ¬ V k) :
    eval I p'.st v = eval I p.st v :=
  eval_congr fun k hk => h.env k (hv k hk)

theorem Agrees.read (h : Agrees A V p p') (hv : ∀ k, v = .inst k → ¬ V k)
    (hw : p.read I v = some w) : p'.read I v = some w := by
  cases hk : v.inst? with
  | none =>
    rw [Point.read_of_leaf hk] at hw ⊢
    exact hw
  | some k =>
    obtain rfl : v = .inst k := by cases v <;> simp_all [Value.inst?]
    rw [Point.read_inst] at hw ⊢
    exact ⟨(h.done k hw.1).resolve_right (hv k rfl), (h.env k (hv k rfl)).trans hw.2⟩

theorem Agrees.done_cons (h : Agrees A V p p') (id : Option InstId) :
    ∀ k ∈ id.toList ++ p.done, k ∈ id.toList ++ p'.done ∨ V k := by
  intro k hk
  rcases List.mem_append.mp hk with hk | hk
  · exact .inl (List.mem_append_left _ hk)
  · exact (h.done k hk).imp_left (List.mem_append_right _)

theorem Agrees.set (h : Agrees A V p p') (id : Option InstId) (w : W) :
    Agrees A V (p.set id w) (p'.set id w) where
  done := h.done_cons id
  env k hk := setResult_congr (h.env k hk) (some w)
  mem := h.mem
  ext := h.ext

/-- Another function is started on one side. -/
theorem Agrees.enter (h : Agrees A V p p') (ks : List InstId) : Agrees A V ⟨p.st, []⟩ ⟨p'.st, ks⟩ :=
  ⟨fun _ hk => (nomatch hk), h.env, h.mem, h.ext⟩

theorem EdgeAgrees.none : EdgeAgrees A V none edge' := fun _ _ h => nomatch h

theorem EdgeAgrees.some (h : Agrees A V p p') (bb : BlockId) : EdgeAgrees A V (some (bb, p))
    (some (bb, p')) := by
  intro pred q hq
  obtain ⟨rfl, rfl⟩ := Prod.mk.inj (Option.some.inj hq)
  exact ⟨p', rfl, h⟩

/-- Points that differ in one result. -/
theorem agrees_of_setResult {id : Option InstId} (hid : ∀ k, id = Option.some k → V k)
    {r : Option W} (henv : q.st.env = setResult p.st.env id r)
    (hdone : q.done = id.toList ++ p.done) (hmem : ∀ a, ¬ A a → q.st.mem a = p.st.mem a)
    (hext : q.st.ext = p.st.ext) : Agrees A V q p ∧ Agrees A V p q := by
  have henv' : ∀ k, ¬ V k → q.st.env k = p.st.env k := fun k hk => by
    rw [henv, setResult_of_ne fun heq => hk (hid k heq)]
  refine ⟨⟨fun k hk => ?_, fun k hk => (henv' k hk).symm, fun a ha => (hmem a ha).symm, hext.symm⟩,
    ⟨fun k hk => .inl (by rw [hdone]; exact List.mem_append_right _ hk), henv', hmem, hext⟩⟩
  rw [hdone] at hk
  rcases List.mem_append.mp hk with hk | hk
  · exact .inr (hid k (Option.mem_toList.mp hk))
  · exact .inl hk

variable [DecidableEq W]

/-- Operations on memories that agree. -/
theorem effect_agrees (hcalls : CallsIgnore I A) (h : Agrees A V p p') (op : Op) (vs : List W)
    (hload : ∀ a x, op = .load a → vs = [x] → ¬ A x) :
    (effect I op vs p'.st).1 = (effect I op vs p.st).1 ∧
      (∀ a, ¬ A a → (effect I op vs p'.st).2.1 a = (effect I op vs p.st).2.1 a) ∧
      (effect I op vs p'.st).2.2 = (effect I op vs p.st).2.2 := by
  -- both memories are changed at the same address
  have hupdate : ∀ x y a, ¬ A a →
      Function.update p'.st.mem x y a = Function.update p.st.mem x y a := by
    intro x y a ha
    by_cases hax : a = x
    · rw [hax, Function.update_self, Function.update_self]
    · rw [Function.update_of_ne hax, Function.update_of_ne hax, h.mem a ha]
  have hrest : ((none : Option W) = none) ∧ (∀ a, ¬ A a → p'.st.mem a = p.st.mem a) ∧
      p'.st.ext = p.st.ext :=
    ⟨rfl, h.mem, h.ext⟩
  cases op with
  | call f args =>
    obtain ⟨hr, hm, he⟩ := hcalls vs p.st.mem p'.st.mem p.st.ext h.mem
    simp only [effect, h.ext]
    exact ⟨congrArg Option.some hr, hm, he⟩
  | load a =>
    rcases vs with _ | ⟨x, _ | ⟨y, vs⟩⟩
    · exact hrest
    · exact ⟨congrArg Option.some (h.mem x (hload a x rfl rfl)), h.mem, h.ext⟩
    · exact hrest
  | store a b =>
    rcases vs with _ | ⟨x, _ | ⟨y, _ | ⟨z, vs⟩⟩⟩
    · exact hrest
    · exact hrest
    · exact ⟨rfl, hupdate y x, h.ext⟩
    · exact hrest
  | binop o a b =>
    rcases vs with _ | ⟨x, _ | ⟨y, _ | ⟨z, vs⟩⟩⟩ <;> exact ⟨rfl, h.mem, h.ext⟩
  | other n as => exact ⟨rfl, h.mem, h.ext⟩
  | phi _ | br _ | condBr _ _ _ | switch _ _ _ | ret _ | unreachable =>
    rcases vs with _ | ⟨x, _ | ⟨y, vs⟩⟩ <;> exact hrest

/-- An operation on the same values on both sides. -/
theorem Agrees.exec (hcalls : CallsIgnore I A) (h : Agrees A V p p') (hid : i'.id = i.id)
    (heffect : ∀ vs, effect I i'.op vs p'.st = effect I i.op vs p'.st)
    (huses : usesOf I p'.st i' = usesOf I p.st i) (hload : ∀ a, i.op = .load a →
      ¬ A (Bin2llvm.eval I p.st a)) : Agrees A V (p.exec I i) (p'.exec I i') := by
  have hvs : ∀ a x, i.op = .load a → usesOf I p.st i = [x] → ¬ A x := by
    intro a x ha heq
    unfold usesOf at heq
    rw [ha] at heq
    exact (List.cons.inj heq).1 ▸ hload a ha
  obtain ⟨hr, hm, he⟩ := effect_agrees hcalls h i.op (usesOf I p.st i) hvs
  refine ⟨?_, fun k hk => ?_, ?_, ?_⟩
  · show ∀ k ∈ i.id.toList ++ p.done, k ∈ i'.id.toList ++ p'.done ∨ V k
    rw [hid]
    exact h.done_cons i.id
  · show setResult p'.st.env i'.id (effect I i'.op (usesOf I p'.st i') p'.st).1 k =
      setResult p.st.env i.id (effect I i.op (usesOf I p.st i) p.st).1 k
    rw [hid, heffect, huses, hr]
    exact setResult_congr (h.env k hk) _
  · show ∀ a, ¬ A a → (effect I i'.op (usesOf I p'.st i') p'.st).2.1 a = _
    rw [heffect, huses]
    exact hm
  · show (effect I i'.op (usesOf I p'.st i') p'.st).2.2 = _
    rw [heffect, huses]
    exact he

/-! ## The same instruction on both sides -/

omit [DecidableEq W] in
/-- The operands can be read on both sides, and are the same. -/
theorem usesOf_mapped {σ : Value → Value} (hop : i'.op = i.op.mapValues σ)
    (hread : ∀ v ∈ i.op.operands, ∀ w, p.read I v = some w → p'.read I (σ v) = some w)
    (hall : i.op.operands.all (fun v => (p.read I v).isSome) = true) :
    i'.op.operands.all (fun v => (p'.read I v).isSome) = true ∧
      usesOf I p'.st i' = usesOf I p.st i := by
  have hboth : ∀ v ∈ i.op.operands, ∃ w, p.read I v = Option.some w ∧
      p'.read I (σ v) = Option.some w := by
    intro v hv
    obtain ⟨w, hw⟩ := Option.isSome_iff_exists.mp (List.all_eq_true.mp hall v hv)
    exact ⟨w, hw, hread v hv w hw⟩
  unfold usesOf
  rw [hop, Op.operands_mapValues, List.map_map]
  constructor
  · refine List.all_eq_true.mpr fun v hv => ?_
    obtain ⟨u, hu, rfl⟩ := List.mem_map.mp hv
    obtain ⟨w, -, hw⟩ := hboth u hu
    rw [hw]
    rfl
  · refine List.map_congr_left fun v hv => ?_
    obtain ⟨w, hw, hw'⟩ := hboth v hv
    exact (Point.eval_of_read hw').trans (Point.eval_of_read hw).symm

/-- **A step at an instruction and at the one with other operands**: both sides go on at the same
block, or behind the instruction. -/
theorem step_mapped {σ : Value → Value} (hcalls : CallsIgnore I A) (hcode : c.code = i :: is)
    (hcode' : c'.code = i' :: is') (hid : i'.id = i.id) (hop : i'.op = i.op.mapValues σ)
    (hread : (∀ inc, i.op ≠ .phi inc) →
      ∀ v ∈ i.op.operands, ∀ w, c.now.read I v = Option.some w →
        c'.now.read I (σ v) = Option.some w)
    (hloads : LoadsAvoid I A c) (hnow : Agrees A V c.now c'.now)
    (hedge : ∀ pred p, c.edge = Option.some (pred, p) → ∃ p', c'.edge = Option.some (pred, p') ∧
      ∀ v ∈ i.op.operands, ∀ w, p.read I v = Option.some w → p'.read I (σ v) = Option.some w)
    (hstep : step I K f c = Option.some d) :
    (∃ bb, bb ∈ i.op.successors ∧ c.goto f bb = Option.some d ∧ ∀ f',
      step I K f' c' = c'.goto f' bb) ∨
      ∃ p p', d = { c with code := is, now := p } ∧ Agrees A V p p' ∧
        (p.done = i.id.toList ++ c.now.done ∧ p'.done = i.id.toList ++ c'.now.done) ∧
        ∀ f', step I K f' c' = Option.some { c' with code := is', now := p' } := by
  by_cases hterm : i.op.isTerminator = true
  · left
    -- a terminator goes to a block that the operation chooses by its value
    have hread := hread fun inc hinc => by rw [hinc] at hterm; cases hterm
    cases hi : i.op with
    | br bb =>
      exact ⟨bb, List.mem_singleton_self bb, by simpa [step, hcode, hi] using hstep,
        fun f' => by simp [step, hcode', hop, hi, Op.mapValues]⟩
    | condBr v t e =>
      simp only [step, hcode, hi, Option.bind_eq_bind] at hstep
      obtain ⟨w, hw, hgoto⟩ := Option.bind_eq_some_iff.mp hstep
      have hw' := hread v (by simp [hi, Op.operands]) w hw
      refine ⟨_, ?_, hgoto, fun f' => by simp [step, hcode', hop, hi, Op.mapValues, hw']⟩
      split_ifs <;> simp [Op.successors]
    | switch v dflt cs =>
      simp only [step, hcode, hi, Option.bind_eq_bind] at hstep
      obtain ⟨w, hw, hgoto⟩ := Option.bind_eq_some_iff.mp hstep
      have hw' := hread v (by simp [hi, Op.operands]) w hw
      refine ⟨_, ?_, hgoto, fun f' => by simp [step, hcode', hop, hi, Op.mapValues, hw']⟩
      unfold Control.select
      cases hfind : cs.find? fun q => K.isCase w q.1 with
      | none => simp [Op.successors]
      | some q =>
        have hq := List.mem_of_find?_eq_some hfind
        exact List.mem_cons_of_mem _ (List.mem_map.mpr ⟨q, hq, rfl⟩)
    | ret v => simp [step, hcode, hi] at hstep
    | unreachable => simp [step, hcode, hi] at hstep
    | _ => rw [hi] at hterm; cases hterm
  · right
    have hterm : i.op.isTerminator = false := by simpa using hterm
    by_cases hphi : ∃ inc, i.op = .phi inc
    -- a `phi` reads its value where the block was left
    · obtain ⟨inc, hi⟩ := hphi
      simp only [step, hcode, hi, Option.bind_eq_bind] at hstep
      obtain ⟨⟨pred, p⟩, hpred, hstep⟩ := Option.bind_eq_some_iff.mp hstep
      obtain ⟨v, hv, hstep⟩ := Option.bind_eq_some_iff.mp hstep
      obtain ⟨w, hw, hd⟩ := Option.bind_eq_some_iff.mp hstep
      obtain ⟨p', hpred', hread'⟩ := hedge pred p hpred
      have hmem : v ∈ i.op.operands := by
        rw [hi]
        exact List.mem_map.mpr ⟨(pred, v), Lists.mem_of_lookup hv, rfl⟩
      have hw' := hread' v hmem w hw
      refine ⟨_, c'.now.set i'.id w, (Option.some.inj hd).symm, ?_,
        ⟨rfl, by rw [← hid]; rfl⟩, fun f' => ?_⟩
      · rw [hid]
        exact hnow.set i.id w
      · simp [step, hcode', hop, hi, Op.mapValues, hpred', Lists.lookup_map_snd, hv, hw']
    -- the other instructions read all operands, and are executed
    · have hnophi : ∀ inc, i.op ≠ .phi inc := fun inc hinc => hphi ⟨inc, hinc⟩
      rw [step_of_plain hcode hnophi hterm] at hstep
      split_ifs at hstep with hall
      obtain ⟨hall', huses⟩ := usesOf_mapped hop (hread hnophi) hall
      refine ⟨_, c'.now.exec I i', (Option.some.inj hstep).symm, ?_,
        ⟨rfl, by rw [← hid]; rfl⟩, fun f' => ?_⟩
      · exact hnow.exec hcalls hid (fun vs => by rw [hop, effect_mapValues]) huses fun a ha =>
          hloads i is a hcode ha
      · rw [step_of_plain hcode' ?_ (by rw [hop, Op.isTerminator_mapValues, hterm]), if_pos hall']
        intro inc hinc
        cases hi : i.op <;> simp_all [Op.mapValues]

/-- **A step at the same instruction.** -/
theorem step_agrees (hcalls : CallsIgnore I A) (hcode : c.code = i :: is)
    (hcode' : c'.code = i' :: is') (hid : i'.id = i.id) (hop : i'.op = i.op)
    (hused : ∀ v ∈ i.op.operands, ∀ k, v = .inst k → ¬ V k) (hloads : LoadsAvoid I A c)
    (hnow : Agrees A V c.now c'.now) (hedge : EdgeAgrees A V c.edge c'.edge)
    (hstep : step I K f c = Option.some d) :
    (∃ bb, bb ∈ i.op.successors ∧ c.goto f bb = Option.some d ∧ ∀ f',
      step I K f' c' = c'.goto f' bb) ∨
      ∃ p p', d = { c with code := is, now := p } ∧ Agrees A V p p' ∧
        (p.done = i.id.toList ++ c.now.done ∧ p'.done = i.id.toList ++ c'.now.done) ∧
        ∀ f', step I K f' c' = Option.some { c' with code := is', now := p' } := by
  refine step_mapped hcalls hcode hcode' hid (hop.trans (Op.mapValues_id _).symm)
    (fun _ v hv w hw => hnow.read (hused v hv) hw) hloads hnow (fun pred p hp => ?_) hstep
  obtain ⟨p', hp', hag⟩ := hedge pred p hp
  exact ⟨p', hp', fun v hv w hw => hag.read (hused v hv) hw⟩

/-- What a step does: it enters a block, or goes on behind a phi or an instruction whose operands
are there. -/
theorem cases_of_step (hcode : c.code = i :: is) (hstep : step I K f c = Option.some d) :
    (i.op.isTerminator = true ∧ ∃ bb, c.goto f bb = Option.some d) ∨
      (∃ inc pred p v w, i.op = .phi inc ∧ c.edge = Option.some (pred, p) ∧
        inc.lookup pred = Option.some v ∧
        p.read I v = Option.some w ∧ d = { c with code := is, now := c.now.set i.id w }) ∨
      (∀ v ∈ i.op.operands, ∃ w, c.now.read I v = Option.some w) ∧ (∀ inc, i.op ≠ .phi inc) ∧
        d = { c with code := is, now := c.now.exec I i } := by
  unfold step at hstep
  rw [hcode] at hstep
  dsimp only at hstep
  split at hstep
  · next inc hop =>
    obtain ⟨⟨pred, p⟩, hp, hstep⟩ := Option.bind_eq_some_iff.mp hstep
    obtain ⟨v, hv, hstep⟩ := Option.bind_eq_some_iff.mp hstep
    obtain ⟨w, hw, hstep⟩ := Option.bind_eq_some_iff.mp hstep
    exact .inr (.inl ⟨inc, pred, p, v, w, hop, hp, hv, hw, (Option.some.inj hstep).symm⟩)
  · next hop => exact .inl ⟨by rw [hop]; rfl, _, hstep⟩
  · next hop =>
    obtain ⟨w, -, hgoto⟩ := Option.bind_eq_some_iff.mp hstep
    exact .inl ⟨by rw [hop]; rfl, _, hgoto⟩
  · next hop =>
    obtain ⟨w, -, hgoto⟩ := Option.bind_eq_some_iff.mp hstep
    exact .inl ⟨by rw [hop]; rfl, _, hgoto⟩
  · cases hstep
  · cases hstep
  · next hphi _ _ _ _ _ =>
    split_ifs at hstep with hall
    refine .inr (.inr ⟨fun v hv => ?_, fun inc hinc => hphi inc hinc, (Option.some.inj hstep).symm⟩)
    exact Option.isSome_iff_exists.mp (List.all_eq_true.mp hall v hv)

/-- **A step at a silent instruction.** -/
theorem step_silent (hi : Silent I A i) (hid : ∀ k, i.id = Option.some k → V k)
    (hcode : c.code = i :: is) (hstep : step I K f c = Option.some d) :
    ∃ p, d = { c with code := is, now := p } ∧ Agrees A V p c.now ∧ Agrees A V c.now p := by
  rcases cases_of_step hcode hstep with ⟨hterm, -⟩ | ⟨_, _, _, _, _, -, -, -, -, rfl⟩ | ⟨-, -, rfl⟩
  · exact absurd (hterm.symm.trans hi.notTerminator) (by decide)
  · exact ⟨_, rfl, agrees_of_setResult hid rfl rfl (fun _ _ => rfl) rfl⟩
  · exact ⟨_, rfl, agrees_of_setResult hid rfl rfl (hi.mem c.now.st) (hi.ext c.now.st)⟩

end

/-! ## Functions without some of their instructions -/

def eraseIf (erased : Instr → Bool) (f : Func) : Func :=
  f.mapBlocks fun b => { b with instrs := b.instrs.filter fun i => !erased i }

/-- The identities of the instructions that go. -/
def ErasedId (erased : Instr → Bool) (f : Func) (k : InstId) : Prop :=
  ∃ i ∈ f.instrs, erased i = true ∧ i.id = some k

/-- What goes is silent, and nothing that stays uses it. -/
structure Erasable {W E : Type} [DecidableEq W] (I : Interp W E) (A : W → Prop)
    (erased : Instr → Bool) (f : Func) : Prop where
  silent : ∀ i ∈ f.instrs, erased i = true → Silent I A i
  loads : ∀ i ∈ f.instrs, erased i = true → ∀ p, i.op = .load p → ∀ st : State W E,
    ¬ A (eval I st p)
  unused : ∀ i ∈ f.instrs, erased i = false → ∀ v ∈ i.op.operands, ∀ k, v = .inst k →
    ¬ ErasedId erased f k

/-- From `c` on, the function does not get stuck where something is erased. -/
def Unstuck {W E : Type} [DecidableEq W] (I : Interp W E) (K : Control W)
    (erased : Instr → Bool) (f : Func) (c : Config W E) : Prop :=
  ∀ cs d i is, Run (step I K f) c cs d → d.code = i :: is → erased i = true →
    (step I K f d).isSome = true

section

variable {W E : Type} {I : Interp W E} {K : Control W} {A : W → Prop} {erased : Instr → Bool}
variable {f : Func} {c c' d d' : Config W E} {i : Instr} {is : List Instr} {bb : BlockId}
variable {cs cs' : List (Config W E)} {st : State W E} {o : Option W} {m : W → W} {e : E}

/-- Both executions stand at the same place, the erased instructions aside. -/
structure Follows (A : W → Prop) (erased : Instr → Bool) (f : Func) (c c' : Config W E) : Prop where
  bb : c'.bb = c.bb
  code : c'.code = c.code.filter fun i => !erased i
  sub : ∀ i ∈ c.code, i ∈ f.instrs
  now : Agrees A (ErasedId erased f) c.now c'.now
  back : Agrees A (ErasedId erased f) c'.now c.now
  edge : EdgeAgrees A (ErasedId erased f) c.edge c'.edge
  edgeBack : EdgeAgrees A (ErasedId erased f) c'.edge c.edge

theorem find?_eraseIf (erased : Instr → Bool) (f : Func) (bb : BlockId) :
    (eraseIf erased f).blocks.find? (fun b => b.id = bb) = (f.blocks.find? fun b => b.id = bb).map
      fun b => { b with instrs := b.instrs.filter fun i => !erased i } := by
  unfold eraseIf Func.mapBlocks
  rw [List.find?_map]
  rfl

theorem Follows.goto (h : Follows A erased f c c') (hgoto : c.goto f bb = some d) :
    ∃ d', c'.goto (eraseIf erased f) bb = some d' ∧ Follows A erased f d d' := by
  obtain ⟨b, hb, rfl⟩ := Option.map_eq_some_iff.mp hgoto
  have hmem : b ∈ f.blocks := List.mem_of_find?_eq_some hb
  refine ⟨⟨bb, b.instrs.filter fun i => !erased i, c'.now, some (c'.bb, c'.now)⟩,
    by rw [Config.goto, find?_eraseIf, hb]; rfl, rfl, rfl, ?_, h.now, h.back, ?_, ?_⟩
  · exact fun i hi => List.mem_flatMap.mpr ⟨b, hmem, hi⟩
  · exact h.bb ▸ .some h.now c.bb
  · exact h.bb ▸ .some h.back c.bb

theorem isSome_goto_eraseIf (hgoto : (c'.goto (eraseIf erased f) bb).isSome = true) :
    (c.goto f bb).isSome = true := by
  unfold Config.goto at hgoto ⊢
  rw [find?_eraseIf] at hgoto
  simpa using hgoto

theorem start_eraseIf (erased : Instr → Bool) {c₀ : Config W E} (h : start f st = some c₀) :
    ∃ c₀', start (eraseIf erased f) st = some c₀' ∧ Follows A erased f c₀ c₀' := by
  obtain ⟨b, hb, rfl⟩ := Option.map_eq_some_iff.mp h
  refine ⟨⟨b.id, b.instrs.filter fun i => !erased i, ⟨st, []⟩, none⟩, ?_, rfl, rfl, ?_, .refl _,
    .refl _, .none, .none⟩
  · rw [start, eraseIf, Func.mapBlocks, List.head?_map, hb]
    rfl
  · exact fun i hi => List.mem_flatMap.mpr ⟨b, List.mem_of_head? hb, hi⟩

theorem Follows.code_keep (h : Follows A erased f c c') (hcode : c.code = i :: is)
    (hi : erased i = false) : c'.code = i :: is.filter fun i => !erased i := by
  rw [h.code, hcode, List.filter_cons_of_pos (by simp [hi])]

variable [DecidableEq W]

theorem Follows.skip (H : Erasable I A erased f) (h : Follows A erased f c c')
    (hcode : c.code = i :: is) (hi : erased i = true) (hstep : step I K f c = some d) :
    Follows A erased f d c' ∧ d.code = is := by
  have hmem : i ∈ f.instrs := h.sub i (by rw [hcode]; exact List.mem_cons_self)
  have hid : ∀ k, i.id = some k → ErasedId erased f k := fun k hk => ⟨i, hmem, hi, hk⟩
  obtain ⟨p, rfl, hp, hp'⟩ := step_silent (H.silent i hmem hi) hid hcode hstep
  refine ⟨⟨h.bb, ?_, fun j hj => h.sub j (by rw [hcode]; exact List.mem_cons_of_mem _ hj),
    hp.trans h.now, h.back.trans hp', h.edge, h.edgeBack⟩, rfl⟩
  rw [h.code, hcode, List.filter_cons_of_neg (by simp [hi])]

theorem Follows.used (H : Erasable I A erased f) (h : Follows A erased f c c')
    (hcode : c.code = i :: is) (hi : erased i = false) : ∀ v ∈ i.op.operands, ∀ k, v = .inst k →
    ¬ ErasedId erased f k :=
  H.unused i (h.sub i (by rw [hcode]; exact List.mem_cons_self)) hi

/-- An instruction that stays. -/
theorem Follows.step_keep (hcalls : CallsIgnore I A) (H : Erasable I A erased f)
    (h : Follows A erased f c c') (hcode : c.code = i :: is) (hi : erased i = false)
    (hloads : LoadsAvoid I A c) (hstep : step I K f c = some d) :
    ∃ d', step I K (eraseIf erased f) c' = some d' ∧ Follows A erased f d d' := by
  have hcode' := h.code_keep hcode hi
  have hused := h.used H hcode hi
  rcases step_agrees hcalls hcode hcode' rfl rfl hused hloads h.now h.edge hstep with
    ⟨bb, -, hgoto, hstep'⟩ | ⟨p, p', rfl, hp, ⟨hdone, hdone'⟩, hstep'⟩
  · obtain ⟨d', hd', hfollows⟩ := h.goto hgoto
    exact ⟨d', (hstep' _).trans hd', hfollows⟩
  · refine ⟨_, hstep' _, h.bb, rfl, fun j hj =>
      h.sub j (by rw [hcode]; exact List.mem_cons_of_mem _ hj), hp,
      hp.symm fun k hk => ?_, h.edge, h.edgeBack⟩
    rw [hdone'] at hk
    rw [hdone]
    exact h.back.done_cons i.id k hk

/-- The loads are the same. -/
theorem Follows.loadsAvoid_iff (H : Erasable I A erased f) (h : Follows A erased f c c')
    (hcode : c.code = i :: is) (hi : erased i = false) : LoadsAvoid I A c' ↔ LoadsAvoid I A c := by
  have heval : ∀ p, i.op = .load p → eval I c'.now.st p = eval I c.now.st p := fun p hp =>
    h.now.eval (h.used H hcode hi p (by rw [hp]; exact List.mem_singleton_self p))
  unfold LoadsAvoid
  rw [hcode, h.code_keep hcode hi]
  constructor
  · intro hl j js p hj hp
    obtain ⟨rfl, rfl⟩ := List.cons.inj hj
    rw [← heval p hp]
    exact hl i _ p rfl hp
  · intro hl j js p hj hp
    obtain ⟨rfl, rfl⟩ := List.cons.inj hj
    rw [heval p hp]
    exact hl i _ p rfl hp

theorem Follows.outcome_iff (H : Erasable I A erased f) (h : Follows A erased f c c')
    (hcode : c.code = i :: is) (hi : erased i = false) : outcome I c' = some o ↔
    outcome I c = some o := by
  have hread : ∀ v, i.op = .ret (some v) → c'.now.read I v = c.now.read I v := by
    intro v hv
    have hused := h.used H hcode hi v (by rw [hv]; exact List.mem_singleton_self v)
    refine Option.ext fun w => ⟨fun hw => h.back.read hused hw, fun hw => h.now.read hused hw⟩
  unfold outcome
  rw [hcode, h.code_keep hcode hi]
  cases hop : i.op with
  | ret v =>
    cases v with
    | none => simp only [hop]
    | some v => simp only [hop, hread v hop]
  | _ => simp only [hop]

/-- A step goes on behind the instruction, or at another block. -/
theorem step_code (h : step I K f c = some d) : (∃ i, c.code = i :: d.code ∧ d.bb = c.bb) ∨
    ∃ b, f.blocks.find? (fun b => b.id = d.bb) = some b ∧ d.code = b.instrs := by
  cases hcode : c.code with
  | nil => simp [step, hcode] at h
  | cons i is =>
    rcases cases_of_step hcode h with ⟨-, bb, hgoto⟩ | ⟨_, _, _, _, _, -, -, -, -, rfl⟩ |
      ⟨-, -, rfl⟩
    · obtain ⟨b, hb, rfl⟩ := Option.map_eq_some_iff.mp hgoto
      exact .inr ⟨b, hb, rfl⟩
    · exact .inl ⟨i, rfl, rfl⟩
    · exact .inl ⟨i, rfl, rfl⟩

/-- Only instructions of the function are executed. -/
theorem mem_instrs_of_run (hrun : Run (step I K f) c cs d) (h : ∀ i ∈ c.code, i ∈ f.instrs) :
    ∀ i ∈ d.code, i ∈ f.instrs := by
  refine hrun.preserves (Q := fun c => ∀ i ∈ c.code, i ∈ f.instrs) (fun a b ha hstep i hi => ?_) h
  rcases step_code hstep with ⟨j, hj, -⟩ | ⟨bb, hbb, hcode⟩
  · exact ha i (by rw [hj]; exact List.mem_cons_of_mem _ hi)
  · exact List.mem_flatMap.mpr ⟨bb, List.mem_of_find?_eq_some hbb, hcode ▸ hi⟩

/-- Instructions that read no results can always be executed. -/
theorem unstuck_of_leaves (hphi : ∀ i ∈ f.instrs, erased i = true → ∀ inc, i.op ≠ .phi inc)
    (hterm : ∀ i ∈ f.instrs, erased i = true → i.op.isTerminator = false)
    (hleaf : ∀ i ∈ f.instrs, erased i = true → ∀ v ∈ i.op.operands, v.inst? = none)
    {c₀ : Config W E} (hc₀ : start f st = some c₀) : Unstuck I K erased f c₀ := by
  intro cs d i is hrun hcode hi
  obtain ⟨b, hb, rfl⟩ := Option.map_eq_some_iff.mp hc₀
  have hmem : i ∈ f.instrs := mem_instrs_of_run hrun
    (fun j hj => List.mem_flatMap.mpr ⟨b, List.mem_of_head? hb, hj⟩) i
    (by rw [hcode]; exact List.mem_cons_self)
  rw [step_of_plain hcode (hphi i hmem hi) (hterm i hmem hi), if_pos]
  · rfl
  · refine List.all_eq_true.mpr fun v hv => ?_
    rw [Point.read_of_leaf (hleaf i hmem hi v hv)]
    rfl

/-- An execution of the function, as one without the erased instructions. -/
theorem Follows.run (hcalls : CallsIgnore I A) (H : Erasable I A erased f)
    (h : Follows A erased f c c') (hrun : Run (step I K f) c cs d)
    (hloads : ∀ x ∈ cs, LoadsAvoid I A x) :
    ∃ cs' d', Run (step I K (eraseIf erased f)) c' cs' d' ∧ (∀ x ∈ cs', LoadsAvoid I A x) ∧
      Follows A erased f d d' := by
  induction hrun generalizing c' with
  | refl c => exact ⟨[], c', .refl c', fun x hx => (nomatch hx), h⟩
  | @head c b _ _ hstep _ ih =>
    have ⟨hc, hrest⟩ := List.forall_mem_cons.mp hloads
    cases hcode : c.code with
    | nil => simp [step, hcode] at hstep
    | cons i is =>
      cases hi : erased i with
      | true => exact ih (h.skip H hcode hi hstep).1 hrest
      | false =>
        obtain ⟨b', hb', hfollows⟩ := h.step_keep hcalls H hcode hi hc hstep
        obtain ⟨cs', d', hcs', hloads', hd'⟩ := ih hfollows hrest
        refine ⟨c' :: cs', d', .head hb' hcs', List.forall_mem_cons.mpr ⟨?_, hloads'⟩, hd'⟩
        exact (h.loadsAvoid_iff H hcode hi).mpr hc

/-- The erased instructions that come next are executed. -/
theorem Follows.catchUp (H : Erasable I A erased f) (h : Follows A erased f c c')
    (hready : Unstuck I K erased f c) :
    ∃ cs d, Run (step I K f) c cs d ∧ (∀ x ∈ cs, LoadsAvoid I A x) ∧ Follows A erased f d c' ∧
      ∀ i is, d.code = i :: is → erased i = false := by
  induction hlen : c.code.length generalizing c with
  | zero =>
    refine ⟨[], c, .refl c, fun x hx => (nomatch hx), h, fun i is hcode => ?_⟩
    rw [hcode] at hlen
    cases hlen
  | succ n ih =>
    cases hcode : c.code with
    | nil => rw [hcode] at hlen; cases hlen
    | cons i is =>
      cases hi : erased i with
      | false =>
        refine ⟨[], c, .refl c, fun x hx => (nomatch hx), h, fun j js hj => ?_⟩
        obtain ⟨rfl, rfl⟩ := List.cons.inj (hcode.symm.trans hj)
        exact hi
      | true =>
        obtain ⟨b, hb⟩ := Option.isSome_iff_exists.mp (hready [] c i is (.refl c) hcode hi)
        obtain ⟨hfollows, hcodeb⟩ := h.skip H hcode hi hb
        have hmem : i ∈ f.instrs := h.sub i (by rw [hcode]; exact List.mem_cons_self)
        obtain ⟨cs, d, hcs, hloads, hd, hhead⟩ := ih hfollows
          (fun cs d j js hrun => hready (c :: cs) d j js (.head hb hrun))
          (by rw [hcodeb]; simpa [hcode] using hlen)
        refine ⟨c :: cs, d, .head hb hcs, List.forall_mem_cons.mpr ⟨?_, hloads⟩, hd, hhead⟩
        intro j js p hj hp
        obtain ⟨rfl, rfl⟩ := List.cons.inj (hcode.symm.trans hj)
        exact H.loads i hmem hi p hp c.now.st

/-- An instruction that stays, the other way round. -/
theorem Follows.step_back (hcalls : CallsIgnore I A) (H : Erasable I A erased f)
    (h : Follows A erased f c c') (hcode : c.code = i :: is) (hi : erased i = false)
    (hloads : LoadsAvoid I A c') (hstep : step I K (eraseIf erased f) c' = some d') :
    ∃ d, step I K f c = some d ∧ Follows A erased f d d' := by
  have hused := h.used H hcode hi
  have hsome : (step I K f c).isSome = true := by
    rcases step_agrees hcalls (h.code_keep hcode hi) hcode rfl rfl hused hloads h.back
        h.edgeBack hstep with
      ⟨bb, -, hgoto, hstep'⟩ | ⟨p, p', -, -, -, hstep'⟩
    · rw [hstep' f]
      exact isSome_goto_eraseIf (by rw [hgoto]; rfl)
    · rw [hstep' f]
      rfl
  obtain ⟨d, hd⟩ := Option.isSome_iff_exists.mp hsome
  obtain ⟨d'', hd'', hfollows⟩ :=
    h.step_keep hcalls H hcode hi ((h.loadsAvoid_iff H hcode hi).mp hloads) hd
  obtain rfl := Option.some.inj (hstep.symm.trans hd'')
  exact ⟨d, hd, hfollows⟩

/-- An execution without the erased instructions, as one of the function. -/
theorem Follows.run_back (hcalls : CallsIgnore I A) (H : Erasable I A erased f)
    (h : Follows A erased f c c') (hready : Unstuck I K erased f c)
    (hrun : Run (step I K (eraseIf erased f)) c' cs' d') (hloads : ∀ x ∈ cs', LoadsAvoid I A x) :
    ∃ cs d, Run (step I K f) c cs d ∧ (∀ x ∈ cs, LoadsAvoid I A x) ∧ Follows A erased f d d' ∧
      ∀ i is, d.code = i :: is → erased i = false := by
  induction hrun generalizing c with
  | refl c' => exact h.catchUp H hready
  | @head c' b' _ _ hstep _ ih =>
    have ⟨hc', hrest⟩ := List.forall_mem_cons.mp hloads
    obtain ⟨cs₁, e, hcs₁, hloads₁, he, hhead⟩ := h.catchUp H hready
    cases hcode : e.code with
    | nil =>
      have hnil : c'.code = [] := by rw [he.code, hcode]; rfl
      simp [step, hnil] at hstep
    | cons i is =>
      have hi := hhead i is hcode
      obtain ⟨b, hb, hfollows⟩ := he.step_back hcalls H hcode hi hc' hstep
      obtain ⟨cs₂, d, hcs₂, hloads₂, hd, hhead₂⟩ := ih hfollows (fun cs d j js hr =>
        hready (cs₁ ++ e :: cs) d j js (hcs₁.append (.head hb hr))) hrest
      refine ⟨cs₁ ++ e :: cs₂, d, hcs₁.append (.head hb hcs₂), ?_, hd, hhead₂⟩
      have he' : LoadsAvoid I A e := (he.loadsAvoid_iff H hcode hi).mp hc'
      intro x hx
      rcases List.mem_append.mp hx with hx | hx
      · exact hloads₁ x hx
      · exact List.forall_mem_cons.mpr ⟨he', hloads₂⟩ x hx

/-- Where an execution returns nothing is erased. -/
theorem exists_kept_of_outcome (H : Erasable I A erased f) (h : Follows A erased f c c')
    (ho : outcome I c = some o) : ∃ i is, c.code = i :: is ∧ erased i = false := by
  unfold outcome at ho
  cases hcode : c.code with
  | nil => rw [hcode] at ho; cases ho
  | cons i is =>
    refine ⟨i, is, rfl, Bool.eq_false_iff.mpr fun hi => ?_⟩
    have hterm := (H.silent i (h.sub i (by rw [hcode]; exact List.mem_cons_self)) hi).notTerminator
    rw [hcode] at ho
    cases hop : i.op with
    | ret v => rw [hop] at hterm; cases hterm
    | _ => simp [hop] at ho

theorem Returns.eraseIf (hcalls : CallsIgnore I A) (H : Erasable I A erased f)
    (h : Returns I K A f st o m e) : Returns I K A (eraseIf erased f) st o m e := by
  obtain ⟨c₀, cs, c, hc₀, hrun, hloads, ho, hm, he⟩ := h
  obtain ⟨c₀', hc₀', hfollows⟩ := start_eraseIf erased hc₀
  obtain ⟨cs', c', hrun', hloads', hc'⟩ := hfollows.run hcalls H hrun hloads
  obtain ⟨i, is, hcode, hi⟩ := exists_kept_of_outcome H hc' ho
  exact ⟨c₀', cs', c', hc₀', hrun', hloads', (hc'.outcome_iff H hcode hi).mpr ho,
    fun a ha => (hc'.now.mem a ha).trans (hm a ha), hc'.now.ext.trans he⟩

/-- **A function without the erased instructions returns when the function returns**, with the same
value, memory and world, if the function does not get stuck where something is erased. -/
theorem returns_eraseIf_iff (hcalls : CallsIgnore I A) (H : Erasable I A erased f)
    (hready : ∀ c₀, start f st = some c₀ → Unstuck I K erased f c₀) :
    Returns I K A (eraseIf erased f) st o m e ↔ Returns I K A f st o m e := by
  refine ⟨?_, Returns.eraseIf hcalls H⟩
  rintro ⟨c₀', cs', c', hc₀', hrun', hloads', ho, hm, he⟩
  obtain ⟨c₀, hc₀⟩ : ∃ c₀, start f st = some c₀ := by
    unfold start Execution.eraseIf Func.mapBlocks at hc₀'
    cases hb : f.blocks.head? with
    | none => simp [List.head?_map, hb] at hc₀'
    | some b => exact ⟨_, by rw [start, hb]; rfl⟩
  obtain ⟨c₀'', hc₀'', hfollows⟩ := start_eraseIf erased hc₀
  obtain rfl := Option.some.inj (hc₀'.symm.trans hc₀'')
  obtain ⟨cs, c, hrun, hloads, hc, hhead⟩ :=
    hfollows.run_back hcalls H (hready c₀ hc₀) hrun' hloads'
  cases hcode : c.code with
  | nil =>
    have hnil : c'.code = [] := by rw [hc.code, hcode]; rfl
    simp [outcome, hnil] at ho
  | cons i is =>
    exact ⟨c₀, cs, c, hc₀, hrun, hloads, (hc.outcome_iff H hcode (hhead i is hcode)).mp ho,
      fun a ha => (hc.back.mem a ha).trans (hm a ha), hc.back.ext.trans he⟩

end

end Bin2llvm.Execution
