import Bin2llvm.IR
import Bin2llvm.Lib.Expansion
import Bin2llvm.Lib.Lists
import Mathlib.Tactic.Abel

/-!
# Bin2llvm.S2EInlineHelpers — inlining the arithmetic helpers

The pass collects the calls to the helpers on a list of names and inlines them, until there are none
left.  LLVM's `InlineFunction` is a parameter.

* `runFuel`: the pass, with a bound on the number of rounds.
* `InlinesBodies`: what `InlineFunction` does, for callees with and without a body.
* `not_returns`: a call to a helper on the list that has no body is never inlined, and the pass
  never ends.
* `inlines_iff`: the pass ends, with no call left, if every helper it comes to has a body; and only
  then, if inlining copies all calls of a body.
-/

namespace Bin2llvm.S2EInlineHelpers

open Relation

/-! ## The pass -/

def INLINE_FUNCTIONS : List String := [
  "helper_add_setq", "helper_add_saturate", "helper_sub_saturate", "helper_double_saturate",
  "helper_add_usaturate", "helper_sub_usaturate", "helper_ssat", "helper_ssat16", "helper_usat",
  "helper_usat16", "helper_add_cc", "helper_adc_cc", "helper_sub_cc", "helper_sbc_cc",
  "helper_shl", "helper_shr", "helper_sar", "helper_shl_cc",
  "helper_shr_cc", "helper_sar_cc", "helper_ror_cc", "uadds", "uadd", "uaddl"]

/-- `getCalledFunction()`, by its name; none for indirect calls. -/
def calledFunction (call : Instr) : Option String :=
  match call.op with
  | .call (.func name) _ => some name
  | _ => none

def shouldInlineCall (call : Instr) : Bool :=
  match calledFunction call with
  | some name => name ≠ "" && INLINE_FUNCTIONS.contains name
  | none => false

def functionsToInline (f : Func) : List (Option InstId) :=
  (f.instrs.filter shouldInlineCall).map Instr.id

section

-- `InlineFunction` of a call, `none` where it returns false
variable (inlineFunction : Func → Option InstId → Option Func)

/-- The loop over the list, which the first failure leaves; and whether something was inlined. -/
def inlineCalls : Func → List (Option InstId) → Func × Bool
  | f, [] => (f, false)
  | f, call :: calls =>
    match inlineFunction f call with
    | none => (f, false)
    | some f' => ((inlineCalls f' calls).1, true)

/-- At most `n` rounds of `while (true)`. -/
def runFuel : ℕ → Func → Option (Func × Bool)
  | 0, _ => none
  | n + 1, f =>
    if functionsToInline f = [] then some (f, false)
    else
      let round := inlineCalls inlineFunction f (functionsToInline f)
      (runFuel n round.1).map fun r => (r.1, round.2 || r.2)

end

/-! ## What is assumed of `InlineFunction` -/

/-- A direct call, with the name of the function it calls. -/
def callSite? (ins : Instr) : Option (Option InstId × String) :=
  (calledFunction ins).map fun name => (ins.id, name)

def callSites (f : Func) : List (Option InstId × String) := f.instrs.filterMap callSite?

/-- The calls can be told apart. -/
def Numbered (f : Func) : Prop := ((callSites f).map Prod.fst).Nodup

instance (f : Func) : Decidable (Numbered f) := inferInstanceAs (Decidable (List.Nodup _))

/-- The functions that are called. -/
def callees (f : Func) : List String := (callSites f).map Prod.snd

/-- The function of this name, if it is not only declared. -/
def body (M : Module) (name : String) : Option Func :=
  (M.funcs.find? fun g => g.name = name).filter fun g => !g.blocks.isEmpty

/-- A callee without a body is not inlined.  The call of one with a body gives way to what is copied
from the body, and the calls in the copy are calls of the body: the inliner may have folded away
some of them. -/
structure InlinesBodies (M : Module) (inlineFunction : Func → Option InstId →
    Option Func) : Prop where
  declared : ∀ f call name, Numbered f → (call, name) ∈ callSites f → body M name = none →
    inlineFunction f call = none
  defined : ∀ f before call name after G, callSites f = before ++ (call, name) :: after →
    Numbered f →
    body M name = some G → ∃ f' copy, inlineFunction f call = some f' ∧
      callSites f' = before ++ copy ++ after ∧ Numbered f' ∧ (copy.map Prod.snd).Sublist (callees G)

/-- Every function that the body of a callee calls is called after inlining it. -/
def CopiesCalls (M : Module) (inlineFunction : Func → Option InstId → Option Func) : Prop :=
  ∀ f f' call name G, Numbered f → (call, name) ∈ callSites f → body M name = some G →
    inlineFunction f call = some f' → callees G ⊆ callees f'

/-- The helper `n` calls the helper `m`. -/
def HelperCalls (M : Module) (m n : String) : Prop :=
  m ∈ INLINE_FUNCTIONS ∧ n ∈ INLINE_FUNCTIONS ∧ ∃ G, body M n = some G ∧ m ∈ callees G

/-- The bodies of the helpers are not mutually recursive. -/
def Acyclic (M : Module) : Prop := ∀ n, ¬ TransGen (HelperCalls M) n n

/-- The helpers the pass can come to, from the calls of the function and of the bodies of such
helpers. -/
inductive Reaches (M : Module) (f : Func) : String → Prop
  | call {name : String} (hmem : name ∈ callees f)
    (hlisted : name ∈ INLINE_FUNCTIONS) : Reaches M f name
  | body {name callee : String} {G : Func} (h : Reaches M f name) (hbody : body M name = some G)
    (hmem : callee ∈ callees G) (hlisted : callee ∈ INLINE_FUNCTIONS) : Reaches M f callee

/-- The pass ends, and leaves no call to a helper on the list that has a body. -/
def Inlined (M : Module) (inlineFunction : Func → Option InstId → Option Func) (f : Func) : Prop :=
  ∃ n r, runFuel inlineFunction n f = some r ∧ ∀ name ∈ callees r.1, name ∈ INLINE_FUNCTIONS →
    body M name = none

variable {M : Module} {inlineFunction : Func → Option InstId → Option Func} {f f' : Func}
variable {name : String} {call : Option InstId}

theorem shouldInlineCall_iff (ins : Instr) :
    shouldInlineCall ins = true ↔ ∃ name, calledFunction ins = some name ∧
      name ∈ INLINE_FUNCTIONS := by
  have hempty : "" ∉ INLINE_FUNCTIONS := by decide
  unfold shouldInlineCall
  cases calledFunction ins with
  | none => simp
  | some name =>
    have hne : name ∈ INLINE_FUNCTIONS → name ≠ "" := by
      rintro hmem rfl
      exact hempty hmem
    simpa using hne

/-- The list of a round. -/
theorem functionsToInline_eq (f : Func) : functionsToInline f =
    ((callSites f).filter fun s => decide (s.2 ∈ INLINE_FUNCTIONS)).map Prod.fst := by
  unfold functionsToInline callSites
  induction f.instrs with
  | nil => rfl
  | cons ins is ih =>
    rw [List.filter_cons, List.filterMap_cons]
    unfold callSite? at ih ⊢
    by_cases hins : shouldInlineCall ins = true
    · obtain ⟨name, hname, hmem⟩ := (shouldInlineCall_iff ins).mp hins
      simp [hins, hname, hmem, ih]
    · cases hname : calledFunction ins with
      | none => simp [hins, ih]
      | some name =>
        have hmem : name ∉ INLINE_FUNCTIONS :=
          fun hmem => hins ((shouldInlineCall_iff ins).mpr ⟨name, hname, hmem⟩)
        simp [hins, hmem, ih]

theorem mem_functionsToInline : call ∈ functionsToInline f ↔
    ∃ name, (call, name) ∈ callSites f ∧ name ∈ INLINE_FUNCTIONS := by
  rw [functionsToInline_eq]
  simp

theorem nodup_functionsToInline (h : Numbered f) : (functionsToInline f).Nodup := by
  rw [functionsToInline_eq]
  exact List.Nodup.sublist (List.filter_sublist.map Prod.fst) h

theorem functionsToInline_eq_nil_iff : functionsToInline f = [] ↔
    ∀ name ∈ callees f, name ∉ INLINE_FUNCTIONS := by
  rw [functionsToInline_eq, List.map_eq_nil_iff, List.filter_eq_nil_iff]
  unfold callees
  rw [List.forall_mem_map]
  simp

/-! ## Inlining one call -/

/-- The call of a helper on the list that has a body is inlined. -/
structure Inlines (M : Module) (f : Func) (call : Option InstId) (name : String)
    (f' : Func) : Prop where
  site : (call, name) ∈ callSites f
  listed : name ∈ INLINE_FUNCTIONS
  defined : ∃ G, body M name = some G ∧ ∃ before copy after, callSites f = before ++ (call,
    name) :: after ∧
    callSites f' = before ++ copy ++ after ∧ (copy.map Prod.snd).Sublist (callees G)
  numbered : Numbered f'

theorem exists_inlines (hI : InlinesBodies M inlineFunction) (hf : Numbered f)
    (hsite : (call, name) ∈ callSites f) (hlisted : name ∈ INLINE_FUNCTIONS)
    (hbody : (body M name).isSome) :
    ∃ f', inlineFunction f call = some f' ∧ Inlines M f call name f' := by
  obtain ⟨G, hG⟩ := Option.isSome_iff_exists.mp hbody
  obtain ⟨before, after, hsplit⟩ := List.append_of_mem hsite
  obtain ⟨f', copy, hinline, hsites, hnum, hsub⟩ :=
    hI.defined f before call name after G hsplit hf hG
  exact ⟨f', hinline, hsite, hlisted, ⟨G, hG, before, copy, after, hsplit, hsites, hsub⟩, hnum⟩

/-- The other calls stay. -/
theorem Inlines.keeps (h : Inlines M f call name f') {s : Option InstId × String}
    (hs : s ∈ callSites f) (hne : s ≠ (call, name)) : s ∈ callSites f' := by
  obtain ⟨G, -, before, copy, after, hsplit, hsites, -⟩ := h.defined
  rw [hsplit] at hs
  rw [hsites]
  rcases List.mem_append.mp hs with hs | hs
  · simp [hs]
  · rcases List.mem_cons.mp hs with hs | hs
    · exact absurd hs hne
    · simp [hs]

/-- The new calls are calls of the body. -/
theorem Inlines.mem_callees (h : Inlines M f call name f') {n : String} (hn : n ∈ callees f') :
    n ∈ callees f ∨ ∃ G, body M name = some G ∧ n ∈ callees G := by
  obtain ⟨G, hG, before, copy, after, hsplit, hsites, hsub⟩ := h.defined
  unfold callees at hn ⊢
  rw [hsites] at hn
  rw [hsplit]
  simp only [List.map_append, List.mem_append, List.map_cons, List.mem_cons] at hn ⊢
  rcases hn with (hn | hn) | hn
  · exact Or.inl (Or.inl hn)
  · exact Or.inr ⟨G, hG, hsub.subset hn⟩
  · exact Or.inl (Or.inr (Or.inr hn))

/-- A helper reached afterwards was reached before. -/
theorem Inlines.reaches (h : Inlines M f call name f') {n : String}
    (hn : Reaches M f' n) : Reaches M f n := by
  induction hn with
  | call hmem hlisted =>
    rcases h.mem_callees hmem with hmem | ⟨G, hG, hmem⟩
    · exact Reaches.call hmem hlisted
    · exact Reaches.body (Reaches.call (List.mem_map_of_mem h.site) h.listed) hG hmem hlisted
  | body _ hbody hmem hlisted ih => exact Reaches.body ih hbody hmem hlisted

/-- A helper reached before is the inlined one, or it is still reached. -/
theorem Inlines.reaches_of_copies (h : Inlines M f call name f') (hf : Numbered f)
    (hcopy : CopiesCalls M inlineFunction) (hinline : inlineFunction f call = some f') {n : String}
    (hn : Reaches M f n) : n = name ∨ Reaches M f' n := by
  induction hn with
  | call hmem hlisted =>
    obtain ⟨⟨call', n⟩, hs, rfl⟩ := List.mem_map.mp hmem
    by_cases heq : (call', n) = (call, name)
    · exact Or.inl (congrArg Prod.snd heq)
    · exact Or.inr (Reaches.call (List.mem_map_of_mem (h.keeps hs heq)) hlisted)
  | body _ hbody hmem hlisted ih =>
    refine Or.inr ?_
    rcases ih with rfl | hreach
    · exact Reaches.call (hcopy f f' call _ _ hf h.site hbody hinline hmem) hlisted
    · exact Reaches.body hreach hbody hmem hlisted

/-- The helpers that are called, as often as they are. -/
def pending (f : Func) : Multiset String :=
  ((callees f).filter fun n => decide (n ∈ INLINE_FUNCTIONS) : List String)

theorem Inlines.cutExpand (h : Inlines M f call name f') : CutExpand (HelperCalls M) (pending f')
    (pending f) := by
  obtain ⟨G, hG, before, copy, after, hsplit, hsites, hsub⟩ := h.defined
  refine ⟨((copy.map Prod.snd).filter fun n => decide (n ∈ INLINE_FUNCTIONS) : List String), name,
    ?_, ?_⟩
  · intro n hn
    obtain ⟨hmem, hlisted⟩ := List.mem_filter.mp (Multiset.mem_coe.mp hn)
    exact ⟨of_decide_eq_true hlisted, h.listed, G, hG, hsub.subset hmem⟩
  · unfold pending callees
    have hlisted : decide (name ∈ INLINE_FUNCTIONS) = true := decide_eq_true h.listed
    rw [hsplit, hsites]
    simp only [List.map_append, List.map_cons, List.filter_append, List.filter_cons,
      hlisted, if_true, ← Multiset.coe_add, ← Multiset.cons_coe, ← Multiset.singleton_add]
    abel

theorem pending_eq_zero_iff : pending f = 0 ↔ functionsToInline f = [] := by
  rw [functionsToInline_eq_nil_iff]
  unfold pending
  rw [Multiset.coe_eq_zero, List.filter_eq_nil_iff]
  simp

theorem wellFounded_helperCalls (h : Acyclic M) : WellFounded (HelperCalls M) :=
  Expansion.wellFounded_of_acyclic INLINE_FUNCTIONS (fun _ _ hr => ⟨hr.1, hr.2.1⟩) h

/-! ## A round -/

/-- One successful step of the inner loop. -/
def InlinesOne (M : Module) (inlineFunction : Func → Option InstId → Option Func)
    (f f' : Func) : Prop :=
  Numbered f ∧ ∃ call name, inlineFunction f call = some f' ∧ Inlines M f call name f'

/-- The list of calls of the function that are still to be inlined. -/
structure ToInline (f : Func) (calls : List (Option InstId)) : Prop where
  nodup : calls.Nodup
  sites : ∀ c ∈ calls, ∃ n, (c, n) ∈ callSites f ∧ n ∈ INLINE_FUNCTIONS

theorem toInline_functionsToInline (h : Numbered f) : ToInline f (functionsToInline f) :=
  ⟨nodup_functionsToInline h, fun _ hc => mem_functionsToInline.mp hc⟩

theorem ToInline.step {calls : List (Option InstId)} (h : ToInline f (call :: calls))
    (hone : Inlines M f call name f') : ToInline f' calls := by
  obtain ⟨hnot, hnodup⟩ := List.nodup_cons.mp h.nodup
  refine ⟨hnodup, fun c hc => ?_⟩
  obtain ⟨n, hsite, hlisted⟩ := h.sites c (List.mem_cons_of_mem _ hc)
  refine ⟨n, hone.keeps hsite fun heq => hnot ?_, hlisted⟩
  have hcall : c = call := congrArg Prod.fst heq
  rwa [← hcall]

theorem inlineCalls_cons (f : Func) (call : Option InstId) (calls : List (Option InstId)) :
    (inlineCalls inlineFunction f (call :: calls)).1 =
      ((inlineFunction f call).map fun f' => (inlineCalls inlineFunction f' calls).1).getD f := by
  rw [inlineCalls]
  cases inlineFunction f call <;> rfl

/-- The calls are inlined one after the other, up to the first one that cannot be. -/
theorem inlineCalls_spec (hI : InlinesBodies M inlineFunction) {calls : List (Option InstId)}
    (hf : Numbered f) (hcalls : ToInline f calls) :
    ReflTransGen (InlinesOne M inlineFunction) f (inlineCalls inlineFunction f calls).1 := by
  induction calls generalizing f with
  | nil => exact ReflTransGen.refl
  | cons call calls ih =>
    rw [inlineCalls_cons]
    obtain ⟨n, hsite, hlisted⟩ := hcalls.sites call List.mem_cons_self
    cases hbody : body M n with
    | none =>
      rw [hI.declared f call n hf hsite hbody]
      exact ReflTransGen.refl
    | some G =>
      obtain ⟨f', hinline, hone⟩ := exists_inlines hI hf hsite hlisted (by rw [hbody]; rfl)
      rw [hinline]
      exact ReflTransGen.head ⟨hf, call, n, hinline, hone⟩ (ih hone.numbered (hcalls.step hone))

/-- One round of `while (true)`. -/
def round (inlineFunction : Func → Option InstId → Option Func) (f : Func) : Func :=
  (inlineCalls inlineFunction f (functionsToInline f)).1

theorem round_spec (hI : InlinesBodies M inlineFunction) (hf : Numbered f) :
    ReflTransGen (InlinesOne M inlineFunction) f (round inlineFunction f) :=
  inlineCalls_spec hI hf (toInline_functionsToInline hf)

/-- If the first call on the list has a body, something is inlined. -/
theorem round_progress (hI : InlinesBodies M inlineFunction) (hf : Numbered f)
    (hne : functionsToInline f ≠ []) (hbody : ∀ n ∈ callees f, n ∈ INLINE_FUNCTIONS →
      (body M n).isSome) :
    TransGen (InlinesOne M inlineFunction) f (round inlineFunction f) := by
  obtain ⟨call, calls, heq⟩ := List.exists_cons_of_ne_nil hne
  have hcalls : ToInline f (call :: calls) := heq ▸ toInline_functionsToInline hf
  obtain ⟨n, hsite, hlisted⟩ := hcalls.sites call List.mem_cons_self
  obtain ⟨f', hinline, hone⟩ :=
    exists_inlines hI hf hsite hlisted (hbody n (List.mem_map_of_mem hsite) hlisted)
  unfold round
  rw [heq, inlineCalls_cons, hinline]
  exact TransGen.head' ⟨hf, call, n, hinline,
    hone⟩ (inlineCalls_spec hI hone.numbered (hcalls.step hone))

/-! ## What a round keeps -/

theorem numbered_of_inlines (h : ReflTransGen (InlinesOne M inlineFunction) f f')
    (hf : Numbered f) : Numbered f' := by
  induction h with
  | refl => exact hf
  | tail _ hstep _ =>
    obtain ⟨-, call, name, -, hone⟩ := hstep
    exact hone.numbered

/-- The calls to helpers without a body stay. -/
theorem stuck_of_inlines (h : ReflTransGen (InlinesOne M inlineFunction) f f')
    {s : Option InstId × String} (hs : s ∈ callSites f)
    (hbody : body M s.2 = none) : s ∈ callSites f' := by
  induction h with
  | refl => exact hs
  | tail _ hstep ih =>
    obtain ⟨-, call, name, -, hone⟩ := hstep
    refine hone.keeps ih ?_
    rintro rfl
    obtain ⟨G, hG, -⟩ := hone.defined
    rw [hbody] at hG
    cases hG

theorem reaches_of_inlines (h : ReflTransGen (InlinesOne M inlineFunction) f f') {n : String}
    (hn : Reaches M f' n) : Reaches M f n := by
  induction h with
  | refl => exact hn
  | tail _ hstep ih =>
    obtain ⟨-, call, name, -, hone⟩ := hstep
    exact ih (hone.reaches hn)

theorem body_or_reaches_of_inlines (hcopy : CopiesCalls M inlineFunction)
    (h : ReflTransGen (InlinesOne M inlineFunction) f f') {n : String} (hn : Reaches M f n) :
    (body M n).isSome ∨ Reaches M f' n := by
  induction h with
  | refl => exact Or.inr hn
  | tail _ hstep ih =>
    obtain ⟨hnum, call, name, hinline, hone⟩ := hstep
    rcases ih with hbody | hreach
    · exact Or.inl hbody
    · rcases hone.reaches_of_copies hnum hcopy hinline hreach with rfl | hreach
      · obtain ⟨G, hG, -⟩ := hone.defined
        exact Or.inl (by rw [hG]; rfl)
      · exact Or.inr hreach

theorem pending_of_inlines (h : TransGen (InlinesOne M inlineFunction) f f') :
    TransGen (CutExpand (HelperCalls M)) (pending f') (pending f) := by
  induction h with
  | single hstep =>
    obtain ⟨-, call, name, -, hone⟩ := hstep
    exact TransGen.single hone.cutExpand
  | tail _ hstep ih =>
    obtain ⟨-, call, name, -, hone⟩ := hstep
    exact TransGen.head hone.cutExpand ih

/-! ## The pass -/

theorem runFuel_succ (n : ℕ) (f : Func) (h : functionsToInline f ≠ []) :
    (runFuel inlineFunction (n + 1) f).map Prod.fst =
      (runFuel inlineFunction n (round inlineFunction f)).map Prod.fst := by
  rw [runFuel, if_neg h, Option.map_map]
  rfl

/-- The pass is left with no call on the list. -/
theorem functionsToInline_of_runFuel {n : ℕ}
    (h : (runFuel inlineFunction n f).map Prod.fst = some f') : functionsToInline f' = [] := by
  induction n generalizing f with
  | zero => cases h
  | succ n ih =>
    by_cases hnil : functionsToInline f = []
    · rw [runFuel, if_pos hnil] at h
      obtain rfl : f = f' := Option.some.inj h
      exact hnil
    · rw [runFuel_succ n f hnil] at h
      exact ih h

/-- The pass ends when the rounds come to a function without such a call. -/
theorem exists_runFuel {n : ℕ} (h : functionsToInline ((round inlineFunction)^[n] f) = []) :
    ∃ m f', (runFuel inlineFunction m f).map Prod.fst = some f' := by
  induction n generalizing f with
  | zero =>
    have hnil : functionsToInline f = [] := h
    exact ⟨1, f, by rw [runFuel, if_pos hnil]; rfl⟩
  | succ n ih =>
    by_cases hnil : functionsToInline f = []
    · exact ⟨1, f, by rw [runFuel, if_pos hnil]; rfl⟩
    · obtain ⟨m, f', hm⟩ := ih h
      exact ⟨m + 1, f', (runFuel_succ m f hnil).trans hm⟩

theorem inlined_iff : Inlined M inlineFunction f ↔
    ∃ n f', (runFuel inlineFunction n f).map Prod.fst = some f' := by
  constructor
  · rintro ⟨n, r, hr, -⟩
    exact ⟨n, r.1, by rw [hr]; rfl⟩
  · rintro ⟨n, f', h⟩
    obtain ⟨r, hr, rfl⟩ := Option.map_eq_some_iff.mp h
    have hnil := functionsToInline_eq_nil_iff.mp (functionsToInline_of_runFuel h)
    exact ⟨n, r, hr, fun name hname hlisted => absurd hlisted (hnil name hname)⟩

/-- With a call to a helper on the list that has no body the pass never ends: every round leaves the
call. -/
theorem not_returns (hI : InlinesBodies M inlineFunction) (hf : Numbered f)
    (hname : name ∈ callees f) (hlisted : name ∈ INLINE_FUNCTIONS) (hbody : body M name = none)
    (n : ℕ) : runFuel inlineFunction n f = none := by
  induction n generalizing f with
  | zero => rfl
  | succ n ih =>
    obtain ⟨s, hs, rfl⟩ := List.mem_map.mp hname
    have hne : functionsToInline f ≠ [] :=
      fun hnil => functionsToInline_eq_nil_iff.mp hnil _ hname hlisted
    have hround := round_spec hI hf
    have hnone :=
      ih (numbered_of_inlines hround hf) (List.mem_map_of_mem (stuck_of_inlines hround hs hbody))
    refine Option.map_eq_none_iff.mp ((runFuel_succ n f hne).trans ?_)
    rw [hnone]
    rfl

/-- The pass ends exactly when no round comes to a call of a helper on the list that has no body. -/
theorem inlined_iff_rounds (hI : InlinesBodies M inlineFunction) (hacyc : Acyclic M) (hf : Numbered f) :
    Inlined M inlineFunction f ↔
      ∀ n, ∀ m ∈ callees ((round inlineFunction)^[n] f), m ∈ INLINE_FUNCTIONS → (body M m).isSome := by
  constructor
  · rw [inlined_iff]
    rintro ⟨k, f', hrun⟩ n
    induction n generalizing k f with
    | zero =>
      intro m hm hlisted
      rw [← Option.ne_none_iff_isSome]
      intro hnone
      rw [not_returns hI hf hm hlisted hnone] at hrun
      cases hrun
    | succ n ih =>
      by_cases hnil : functionsToInline f = []
      · have hself : round inlineFunction f = f := by
          unfold round
          rw [hnil]
          rfl
        rw [Function.iterate_succ_apply, hself]
        exact ih hf k hrun
      · cases k with
        | zero => cases hrun
        | succ k => exact ih (numbered_of_inlines (round_spec hI hf) hf) k ((runFuel_succ k f hnil).symm.trans hrun)
  · intro hrounds
    -- every round makes the helper calls that are pending smaller
    have hstep : ∀ g, (Numbered g ∧ ∀ n, ∀ m ∈ callees ((round inlineFunction)^[n] g), m ∈ INLINE_FUNCTIONS →
        (body M m).isSome) → pending g ≠ 0 →
        (Numbered (round inlineFunction g) ∧ ∀ n, ∀ m ∈ callees ((round inlineFunction)^[n] (round inlineFunction g)),
          m ∈ INLINE_FUNCTIONS → (body M m).isSome) ∧
          TransGen (CutExpand (HelperCalls M)) (pending (round inlineFunction g)) (pending g) := by
      rintro g ⟨hg, hgb⟩ hne
      refine ⟨⟨numbered_of_inlines (round_spec hI hg) hg, fun n => hgb (n + 1)⟩, ?_⟩
      exact pending_of_inlines (round_progress hI hg (fun hnil => hne (pending_eq_zero_iff.mpr hnil)) (hgb 0))
    obtain ⟨n, -, hzero⟩ := Expansion.exists_iterate_zero (wellFounded_helperCalls hacyc) hstep f ⟨hf, hrounds⟩
    exact inlined_iff.mpr (exists_runFuel (pending_eq_zero_iff.mp hzero))

theorem inlines_iterate (hI : InlinesBodies M inlineFunction) (hf : Numbered f) (n : ℕ) :
    ReflTransGen (InlinesOne M inlineFunction) f ((round inlineFunction)^[n] f) := by
  induction n generalizing f with
  | zero => exact ReflTransGen.refl
  | succ n ih =>
    have hround := round_spec hI hf
    exact hround.trans (ih (numbered_of_inlines hround hf))

theorem inlined_of_bodies (hI : InlinesBodies M inlineFunction) (hacyc : Acyclic M)
    (hf : Numbered f) (hbodies : ∀ n, Reaches M f n → (body M n).isSome) :
    Inlined M inlineFunction f :=
  (inlined_iff_rounds hI hacyc hf).mpr fun n m hm hlisted =>
    hbodies m (reaches_of_inlines (inlines_iterate hI hf n) (Reaches.call hm hlisted))

theorem bodies_of_inlined (hI : InlinesBodies M inlineFunction)
    (hcopy : CopiesCalls M inlineFunction) (hf : Numbered f) {n : ℕ}
    (h : (runFuel inlineFunction n f).map Prod.fst = some f') :
    ∀ m, Reaches M f m → (body M m).isSome := by
  induction n generalizing f with
  | zero => cases h
  | succ n ih =>
    intro m hm
    by_cases hnil : functionsToInline f = []
    · have hnone := functionsToInline_eq_nil_iff.mp hnil
      have hno : ∀ k, ¬ Reaches M f k := by
        intro k hk
        induction hk with
        | call hmem hlisted => exact hnone _ hmem hlisted
        | body _ _ _ _ ih => exact ih
      exact absurd hm (hno m)
    · rw [runFuel_succ n f hnil] at h
      have hround := round_spec hI hf
      rcases body_or_reaches_of_inlines hcopy hround hm with hbody | hreach
      · exact hbody
      · exact ih (numbered_of_inlines hround hf) h m hreach

/-- **The pass ends with no call to a helper on the list left if every such helper it can come to
has a body; and if inlining copies all calls of a body, only then.** -/
theorem inlines_iff (hI : InlinesBodies M inlineFunction) (hacyc : Acyclic M) (hf : Numbered f) :
    ((∀ n, Reaches M f n → (body M n).isSome) → Inlined M inlineFunction f) ∧
      (CopiesCalls M inlineFunction → (Inlined M inlineFunction f ↔ ∀ n, Reaches M f n →
        (body M n).isSome)) := by
  refine ⟨inlined_of_bodies hI hacyc hf, fun hcopy => ⟨fun h => ?_, inlined_of_bodies hI hacyc hf⟩⟩
  obtain ⟨n, f', hrun⟩ := inlined_iff.mp h
  exact bodies_of_inlined hI hcopy hf hrun

/-! ## An inliner that copies everything -/

def freshId (f : Func) : InstId := (f.instrs.filterMap Instr.id).foldr max 0 + 1

/-- The instructions of a body, its returns left out, with new identities. -/
def copyBody (base : InstId) (G : Func) : List Instr :=
  (G.instrs.filter fun ins => !ins.isTerminator).zipIdx.map fun p =>
    { p.1 with id := some (base + p.2) }

/-- An instruction afterwards: the copy stands where the call was. -/
def expand (copy : List Instr) (site : Option InstId × String) (ins : Instr) : List Instr :=
  if callSite? ins = some site then copy else [ins]

def inlineBody (M : Module) (f : Func) (call : Option InstId) : Option Func := do
  let name ← (callSites f).lookup call
  let G ← body M name
  let copy := copyBody (freshId f) G
  pure (f.mapBlocks fun b => { b with instrs := b.instrs.flatMap (expand copy (call, name)) })

theorem callSite?_of_isTerminator {ins : Instr} (h : ins.isTerminator = true) :
    callSite? ins = none := by
  obtain ⟨id, op, md⟩ := ins
  cases op with
  | call c args => cases h
  | _ => rfl

/-- The calls of the copy. -/
theorem map_snd_copyBody (base : InstId) (G : Func) :
    ((copyBody base G).filterMap callSite?).map Prod.snd = callees G := by
  have hname : ∀ (ins : Instr) (k : Option InstId),
      (callSite? { ins with id := k }).map Prod.snd = (callSite? ins).map Prod.snd := by
    intro ins k
    have hcalled : calledFunction { ins with id := k } = calledFunction ins := rfl
    unfold callSite?
    rw [hcalled]
    cases calledFunction ins <;> rfl
  have hkeep : ∀ l : List Instr, ((l.filter fun ins => !ins.isTerminator).filterMap callSite?) =
      l.filterMap callSite? := by
    intro l
    rw [List.filterMap_filter]
    refine List.filterMap_congr fun ins _ => ?_
    by_cases hterm : ins.isTerminator = true
    · simp [hterm, callSite?_of_isTerminator hterm]
    · simp [hterm]
  unfold copyBody callees callSites
  rw [← hkeep G.instrs, List.map_filterMap, List.map_filterMap, List.filterMap_map]
  have hzip : ∀ (l : List Instr) (n : ℕ),
      (l.zipIdx n).filterMap ((fun ins => (callSite? ins).map Prod.snd) ∘
      fun p => { p.1 with id := some (base + p.2) }) = l.filterMap fun ins =>
        (callSite? ins).map Prod.snd := by
    intro l
    induction l with
    | nil => intro n; rfl
    | cons ins l ih =>
      intro n
      rw [List.zipIdx_cons, List.filterMap_cons, List.filterMap_cons, ih]
      simp only [Function.comp_apply, hname]
  exact hzip _ 0

/-- The identities of the copy are new, and no two are the same. -/
theorem ids_copyBody (base : InstId) (G : Func) : ((copyBody base G).map Instr.id).Nodup ∧
    ∀ id ∈ (copyBody base G).map Instr.id, ∃ n, id = some (base + n) := by
  have hids : (copyBody base G).map Instr.id =
      (List.range (G.instrs.filter fun ins => !ins.isTerminator).length).map fun n =>
        some (base + n) := by
    unfold copyBody
    rw [List.map_map, List.range_eq_range', ← List.zipIdx_map_snd, List.map_map]
    rfl
  rw [hids]
  refine ⟨List.Nodup.map (fun a b h => ?_) List.nodup_range, ?_⟩
  · exact Nat.add_left_cancel (Option.some.inj h)
  · intro id hid
    obtain ⟨n, -, rfl⟩ := List.mem_map.mp hid
    exact ⟨n, rfl⟩

theorem map_fst_callSites_sublist (is : List Instr) :
    ((is.filterMap callSite?).map Prod.fst).Sublist (is.map Instr.id) := by
  induction is with
  | nil => exact List.Sublist.refl _
  | cons ins is ih =>
    unfold callSite? at ih ⊢
    rw [List.filterMap_cons]
    cases calledFunction ins with
    | none => exact ih.cons _
    | some name => exact ih.cons_cons _

theorem lt_freshId {ins : Instr} {k : InstId} (h : ins ∈ f.instrs)
    (hk : ins.id = some k) : k < freshId f :=
  Nat.lt_succ_of_le (List.le_max_of_le' 0 (List.mem_filterMap.mpr ⟨ins, h, hk⟩) le_rfl)

theorem filterMap_expand (copy : List Instr) (site : Option InstId × String) (is : List Instr) :
    (is.flatMap (expand copy site)).filterMap callSite? =
      (is.filterMap callSite?).flatMap fun s => if s = site then copy.filterMap callSite?
      else [s] := by
  induction is with
  | nil => rfl
  | cons ins is ih =>
    rw [List.flatMap_cons, List.filterMap_append, ih, List.filterMap_cons]
    unfold expand
    cases hs : callSite? ins with
    | none => simp [hs]
    | some s =>
      by_cases heq : s = site
      · simp [heq]
      · simp [heq, hs]

/-- The calls after inlining one. -/
theorem callSites_expand {before after : List (Option InstId × String)} {site : Option InstId × String}
    (copy : List Instr) (hsplit : callSites f = before ++ site :: after) (hf : Numbered f) :
    callSites (f.mapBlocks fun b => { b with instrs := b.instrs.flatMap (expand copy site) }) =
      before ++ copy.filterMap callSite? ++ after := by
  have hself : ∀ l : List (Option InstId × String), site ∉ l →
      (l.flatMap fun s => if s = site then copy.filterMap callSite? else [s]) = l := by
    intro l hl
    have hkeep : ∀ s ∈ l, (if s = site then copy.filterMap callSite? else [s]) = [s] := by
      intro s hs
      refine if_neg ?_
      rintro rfl
      exact hl hs
    rw [List.flatMap_congr hkeep]
    simp
  have hnd : (callSites f).Nodup := List.Nodup.of_map _ hf
  rw [hsplit, List.nodup_append] at hnd
  obtain ⟨-, hafter, hdisj⟩ := hnd
  have hb : site ∉ before := fun hmem => hdisj _ hmem _ List.mem_cons_self rfl
  have ha : site ∉ after := (List.nodup_cons.mp hafter).1
  have hinstrs : (f.mapBlocks fun b => { b with instrs := b.instrs.flatMap (expand copy site) }).instrs =
      f.instrs.flatMap (expand copy site) := by
    unfold Func.instrs Func.mapBlocks
    rw [List.flatMap_map, List.flatMap_assoc]
  unfold callSites at hsplit ⊢
  rw [hinstrs, filterMap_expand, hsplit, List.flatMap_append, List.flatMap_cons, if_pos rfl, hself before hb,
    hself after ha, List.append_assoc]

theorem inlineBody_eq {G : Func} (hsite : (call, name) ∈ callSites f) (hf : Numbered f)
    (hG : body M name = some G) : inlineBody M f call = some (f.mapBlocks fun b =>
      { b with instrs := b.instrs.flatMap (expand (copyBody (freshId f) G) (call, name)) }) := by
  have hlookup : (callSites f).lookup call = some name := Lists.lookup_of_mem hf hsite
  unfold inlineBody
  simp only [hlookup, Option.bind_eq_bind, Option.bind_some, hG, Option.pure_def]

/-- The calls can still be told apart. -/
theorem nodup_expanded {before after : List (Option InstId × String)}
    {site : Option InstId × String} {G : Func} (hsplit : callSites f = before ++ site :: after)
    (hf : Numbered f) :
    ((before ++ (copyBody (freshId f) G).filterMap callSite? ++ after).map Prod.fst).Nodup := by
  obtain ⟨hnodup, hnew⟩ := ids_copyBody (freshId f) G
  have hsub := map_fst_callSites_sublist (copyBody (freshId f) G)
  have hdisj : ∀ k ∈ (callSites f).map Prod.fst,
      k ∉ ((copyBody (freshId f) G).filterMap callSite?).map Prod.fst := by
    intro k hk hmem
    obtain ⟨n, rfl⟩ := hnew k (hsub.subset hmem)
    obtain ⟨ins, hins, hid⟩ := List.mem_map.mp ((map_fst_callSites_sublist f.instrs).subset hk)
    exact absurd (lt_freshId hins hid) (Nat.not_lt.mpr (Nat.le_add_right _ _))
  have hall : ((before ++ after).map Prod.fst).Nodup := by
    refine List.Nodup.sublist (List.Sublist.map _ ?_) (show ((callSites f).map Prod.fst).Nodup from
      hf)
    rw [hsplit]
    exact (List.Sublist.refl before).append (List.sublist_cons_self site after)
  have hmem : ∀ k ∈ (before ++ after).map Prod.fst, k ∈ (callSites f).map Prod.fst := by
    intro k hk
    rw [hsplit]
    simp only [List.map_append, List.map_cons, List.mem_append, List.mem_cons] at hk ⊢
    exact hk.imp_right Or.inr
  have hperm : (before ++ (copyBody (freshId f) G).filterMap callSite? ++ after).Perm
      ((copyBody (freshId f) G).filterMap callSite? ++ (before ++ after)) := by
    rw [← List.append_assoc]
    exact List.perm_append_comm.append_right after
  rw [(hperm.map Prod.fst).nodup_iff, List.map_append, List.nodup_append]
  exact ⟨hnodup.sublist hsub, hall, fun a ha b hb hab => hdisj b (hmem b hb) (hab ▸ ha)⟩

theorem inlinesBodies_inlineBody (M : Module) : InlinesBodies M (inlineBody M) where
  declared f call name hf hsite hbody := by
    have hlookup : (callSites f).lookup call = some name := Lists.lookup_of_mem hf hsite
    unfold inlineBody
    simp only [hlookup, Option.bind_eq_bind, Option.bind_some, hbody, Option.bind_none]
  defined f before call name after G hsplit hf hG := by
    have hsites := callSites_expand (copyBody (freshId f) G) hsplit hf
    refine ⟨_, (copyBody (freshId f) G).filterMap callSite?,
      inlineBody_eq (by rw [hsplit]; simp) hf hG, hsites, ?_, ?_⟩
    · unfold Numbered
      rw [hsites]
      exact nodup_expanded hsplit hf
    · rw [map_snd_copyBody]

theorem copiesCalls_inlineBody (M : Module) : CopiesCalls M (inlineBody M) := by
  intro f f' call name G hf hsite hG hinline
  rw [inlineBody_eq hsite hf hG] at hinline
  obtain rfl := Option.some.inj hinline
  obtain ⟨before, after, hsplit⟩ := List.append_of_mem hsite
  unfold callees
  rw [callSites_expand (copyBody (freshId f) G) hsplit hf, List.map_append, List.map_append,
    map_snd_copyBody]
  exact List.subset_append_of_subset_left _ (List.subset_append_right _ _)

/-! ## A helper that is only declared -/

/-- A function that calls `name`. -/
def calls (caller name : String) : Func := ⟨caller, [⟨1, "entry", [
  ⟨some 1, .call (.func name) [.constInt 32 1, .constInt 32 2], []⟩,
  ⟨none, .ret (some (.inst 1)), []⟩]⟩]⟩

/-- `helper_adc_cc` calls `helper_add_cc`. -/
def helpers (addCC : List BasicBlock) : Module :=
  ⟨[calls "helper_adc_cc" "helper_add_cc", ⟨"helper_add_cc", addCC⟩]⟩

/-- A body that returns its first argument. -/
def returnsArg : List BasicBlock := [⟨1, "entry", [⟨none, .ret (some (.arg 0)), []⟩]⟩]

theorem mem_of_body {G : Func} (h : body M name = some G) : G ∈ M.funcs ∧ G.name = name := by
  obtain ⟨hfind, -⟩ := Option.filter_eq_some_iff.mp h
  exact ⟨List.mem_of_find?_eq_some hfind, by simpa using List.find?_some hfind⟩

theorem callees_helpers {addCC : List BasicBlock} (hadd : callees ⟨"helper_add_cc", addCC⟩ = [])
    {m n : String} {G : Func} (hG : body (helpers addCC) n = some G) (hm : m ∈ callees G) :
    m = "helper_add_cc" ∧ n = "helper_adc_cc" := by
  obtain ⟨hmem, hname⟩ := mem_of_body hG
  rcases List.mem_pair.mp hmem with rfl | rfl
  · exact ⟨List.mem_singleton.mp hm, hname.symm⟩
  · rw [hadd] at hm
    cases hm

theorem acyclic_helpers {addCC : List BasicBlock} (hadd : callees ⟨"helper_add_cc", addCC⟩ = []) :
    Acyclic (helpers addCC) := by
  intro n hn
  obtain ⟨a, hfirst, -⟩ := TransGen.head'_iff.mp hn
  obtain ⟨b, -, hlast⟩ := TransGen.tail'_iff.mp hn
  obtain ⟨-, -, G, hG, hm⟩ := hfirst
  obtain ⟨-, -, G', hG', hm'⟩ := hlast
  have hadd_cc := (callees_helpers hadd hG hm).1
  rw [(callees_helpers hadd hG' hm').2] at hadd_cc
  exact absurd hadd_cc (by decide)

/-- Both helpers have a body. -/
theorem inlined_adc_cc :
    Inlined (helpers returnsArg) (inlineBody (helpers returnsArg))
      (calls "tcg-llvm-tb-0-8000" "helper_adc_cc") := by
  refine (inlines_iff (inlinesBodies_inlineBody _) (acyclic_helpers rfl) (by decide)).1 fun n hn =>
    ?_
  have hcases : n = "helper_adc_cc" ∨ n = "helper_add_cc" := by
    induction hn with
    | call hmem _ => exact Or.inl (List.mem_singleton.mp hmem)
    | body _ hbody hmem _ _ => exact Or.inr (callees_helpers rfl hbody hmem).1
  rcases hcases with rfl | rfl <;> decide

/-- `helper_add_cc` is only declared: the pass inlines `helper_adc_cc` and never ends. -/
theorem not_inlined_add_cc : InlinesBodies (helpers []) (inlineBody (helpers [])) ∧
    Acyclic (helpers []) ∧ Numbered (calls "tcg-llvm-tb-0-8000" "helper_adc_cc") ∧
    ¬ Inlined (helpers []) (inlineBody (helpers []))
    (calls "tcg-llvm-tb-0-8000" "helper_adc_cc") := by
  refine ⟨inlinesBodies_inlineBody _, acyclic_helpers rfl, by decide, fun h => ?_⟩
  obtain ⟨n, f', hrun⟩ := inlined_iff.mp h
  have hbody := bodies_of_inlined (inlinesBodies_inlineBody _) (copiesCalls_inlineBody _)
    (by decide) hrun
    "helper_add_cc" (Reaches.body (Reaches.call (List.mem_singleton.mpr rfl) (by decide))
      (show body (helpers []) "helper_adc_cc" = some (calls "helper_adc_cc" "helper_add_cc") from
        by decide)
      (List.mem_singleton.mpr rfl) (by decide))
  exact absurd hbody (by decide)

end Bin2llvm.S2EInlineHelpers
