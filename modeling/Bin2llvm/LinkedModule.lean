import Bin2llvm.Linker
import Mathlib.Data.List.Dedup

/-!
# Bin2llvm.LinkedModule — what the linker writes

The output of `linky` as a whole: the functions it takes from its inputs, the calls it links, and
their number.

* `FirstWins`: a map that holds, under each start, the first function that has it.
* `link_spec`: the output has one function for each start, the first one, with the tagged calls to
  known starts linked and everything else as it was.
-/

namespace Bin2llvm.Linker

open FixOverlappedBBs BuildFunctions

/-- The start the linker finds a function under. -/
def startOf (func : Func) : Option UInt64 :=
  if func.isBlockFunction then getPCStartOfFunc func else none

/-- The functions of the inputs, in order. -/
def inputs (files : List Module) : List Func := files.flatMap Module.funcs

/-- The number in the `.fcnt` file. -/
def fcnt (files : List Module) : Option ℕ := (allFuncs files).map fun r => r.2.length

variable {all all' : FuncsMap} {func : Func} {funcs : List Func} {files : List Module}
variable {pc : UInt64} {i : Instr}

theorem startOf_eq_some : startOf func = some pc ↔ StartsAt func pc := by
  unfold startOf StartsAt
  split_ifs with h
  · simp [h]
  · simp [h]

/-! ## The first function counts -/

structure FirstWins (funcs : List Func) (all : FuncsMap) : Prop where
  keys : (all.map Prod.fst).Nodup
  lookup : ∀ pc, all.lookup pc = funcs.find? fun f => startOf f = some pc

theorem gatherFunc_of_startsAt (h : StartsAt func pc) (all : FuncsMap) :
    gatherFunc all func = some (if (all.lookup pc).isSome then all else all ++ [(pc, func)]) := by
  obtain ⟨hb, hpc⟩ := h
  obtain ⟨b, hbb, hpc'⟩ := Option.bind_eq_some_iff.mp hpc
  obtain ⟨i, hi, hread⟩ := Option.bind_eq_some_iff.mp hpc'
  unfold gatherFunc
  rw [if_pos hb, hbb]
  simp only [Option.bind_eq_bind, Option.bind_some, hi, has_of_getHexMetadata hread, if_true, hpc,
    Option.pure_def]

theorem gatherFunc_of_not_startsAt (h : ∀ pc, ¬ StartsAt func pc)
    (hg : gatherFunc all func = some all') : all' = all := by
  obtain ⟨-, rfl | ⟨pc, hpc, -⟩⟩ := gatherFunc_spec hg
  · rfl
  · exact absurd hpc (h pc)

theorem FirstWins.step (h : FirstWins funcs all) (hg : gatherFunc all func = some all') :
    FirstWins (funcs ++ [func]) all' := by
  have hfind : ∀ pc, (funcs ++ [func]).find? (fun f => startOf f = some pc) =
      (all.lookup pc).or (if startOf func = some pc then some func else none) := by
    intro pc
    rw [List.find?_append, ← h.lookup]
    by_cases hs : startOf func = some pc <;> simp [hs]
  cases hs : startOf func with
  | none =>
    obtain rfl := gatherFunc_of_not_startsAt (fun pc hpc =>
      by simp [startOf_eq_some.mpr hpc] at hs) hg
    refine ⟨h.keys, fun pc => ?_⟩
    rw [hfind, hs]
    simp
  | some pc₀ =>
    rw [gatherFunc_of_startsAt (startOf_eq_some.mp hs) all, Option.some.injEq] at hg
    subst hg
    split_ifs with hl
    · refine ⟨h.keys, fun pc => ?_⟩
      rw [hfind, hs]
      by_cases heq : pc₀ = pc
      · subst heq
        obtain ⟨g, hg⟩ := Option.isSome_iff_exists.mp hl
        simp [hg]
      · simp [heq]
    -- a new start is appended
    · have hnone : all.lookup pc₀ = none := Option.not_isSome_iff_eq_none.mp hl
      refine ⟨?_, fun pc => ?_⟩
      · rw [List.map_append]
        refine h.keys.append (List.nodup_singleton _) ?_
        rw [List.map_cons, List.map_nil, List.disjoint_singleton]
        intro hmem
        obtain ⟨p, hp, hkey⟩ := List.mem_map.mp hmem
        have := List.lookup_eq_none_iff.mp hnone p hp
        rw [hkey] at this
        simp at this
      · rw [hfind, hs, List.lookup_append]
        by_cases heq : pc₀ = pc
        · subst heq
          simp
        · simp [List.lookup_cons, beq_eq_false_iff_ne.mpr (Ne.symm heq), heq]

theorem firstWins_gatherFuncs (hg : gatherFuncs files = some all) :
    FirstWins (inputs files) all := by
  rw [gatherFuncs_eq] at hg
  have hinit : FirstWins [] [] := ⟨List.nodup_nil, fun _ => rfl⟩
  exact OptionMapM.foldlM_preserves (fun _ _ _ _ h hf => h.step hf) hinit hg

theorem FirstWins.find? (h : FirstWins funcs all) {p : UInt64 × Func} (hp : p ∈ all) :
    funcs.find? (fun f => startOf f = some p.1) = some p.2 := by
  rw [← h.lookup]
  exact Lists.lookup_of_mem h.keys hp

theorem FirstWins.startsAt (h : FirstWins funcs all) {p : UInt64 × Func} (hp : p ∈ all) :
    StartsAt p.2 p.1 ∧ p.2 ∈ funcs := by
  have hl := h.find? hp
  exact ⟨startOf_eq_some.mp (by simpa using List.find?_some hl), List.mem_of_find?_eq_some hl⟩

/-- The functions are as many as there are starts. -/
theorem FirstWins.length_eq (h : FirstWins funcs all) :
    all.length = (funcs.filterMap startOf).dedup.length := by
  have hlen : all.length = (all.map Prod.fst).length := (List.length_map Prod.fst).symm
  rw [hlen]
  refine List.Perm.length_eq ((List.perm_ext_iff_of_nodup h.keys
    (List.nodup_dedup _)).mpr fun pc => ?_)
  rw [List.mem_dedup, List.mem_filterMap]
  constructor
  · intro hpc
    obtain ⟨p, hp, rfl⟩ := List.mem_map.mp hpc
    obtain ⟨hs, hmem⟩ := h.startsAt hp
    exact ⟨p.2, hmem, startOf_eq_some.mpr hs⟩
  · rintro ⟨f, hf, hs⟩
    have hsome : (all.lookup pc).isSome := by
      rw [h.lookup, List.find?_isSome]
      exact ⟨f, hf, by simpa using hs⟩
    obtain ⟨g, hg⟩ := Option.isSome_iff_exists.mp hsome
    exact List.mem_map_of_mem (Lists.mem_of_lookup hg)

/-! ## The new module -/

/-- The new module holds the clones of the functions, and they are found under the starts of
these. -/
theorem gather_clones (hnd : (all.map Prod.fst).Nodup) (hat : ∀ p ∈ all, StartsAt p.2 p.1) :
    gatherFuncsFromModule [] ⟨(all.map Prod.snd).map clone⟩ = some (all.map fun p =>
      (p.1, clone p.2)) := by
  have key : ∀ rest done : FuncsMap, ((done ++ rest).map Prod.fst).Nodup →
      (∀ p ∈ rest, StartsAt p.2 p.1) →
      ((rest.map Prod.snd).map clone).foldlM gatherFunc (done.map fun p => (p.1, clone p.2)) =
        some ((done ++ rest).map fun p => (p.1, clone p.2)) := by
    intro rest
    induction rest with
    | nil => intro done _ _; simp
    | cons p rest ih =>
      intro done hnd hat
      have hp := hat p List.mem_cons_self
      have hnew : ((done.map fun q => (q.1, clone q.2)).lookup p.1).isSome = false := by
        rw [Option.isSome_eq_false_iff, Option.isNone_iff_eq_none, List.lookup_eq_none_iff]
        intro q hq
        obtain ⟨q, hq', rfl⟩ := List.mem_map.mp hq
        rw [List.map_append, List.nodup_append] at hnd
        rw [bne_iff_ne]
        exact (hnd.2.2 q.1 (List.mem_map_of_mem hq') p.1 (by simp)).symm
      have hstep : gatherFunc (done.map fun q => (q.1, clone q.2)) (clone p.2) =
          some ((done ++ [p]).map fun q => (q.1, clone q.2)) := by
        rw [gatherFunc_of_startsAt ((startsAt_clone hp.1).mpr hp), hnew, List.map_append]
        rfl
      rw [List.map_cons, List.map_cons, List.foldlM_cons, hstep, Option.bind_eq_bind,
        Option.bind_some, ih (done ++ [p]) (by rwa [List.append_assoc]) fun q hq =>
          hat q (List.mem_cons_of_mem _ hq),
        List.append_assoc]
      rfl
  exact key all [] hnd hat

/-- A tagged call to a known start is replaced by a call of the function taken for it. -/
def linkedIns (all : FuncsMap) (i : Instr) : Instr :=
  match i.op with
  | .store _ _ =>
    match (getHexMetadataFromIns i .INS_directCall).bind fun pc => all.lookup pc with
    | some g => ⟨i.id, .call (.func (clone g).name) [], []⟩
    | none => i
  | _ => i

/-- The clone of a function, with its calls linked. -/
def linkedFunc (all : FuncsMap) (f : Func) : Func := (clone f).mapInstrs (linkedIns all)

/-- The tags of direct calls at the stores of the function can be read. -/
def ReadableCalls (f : Func) : Prop :=
  ∀ i ∈ f.instrs, i.isStore = true → i.has .INS_directCall = true →
  (getHexMetadataFromIns i .INS_directCall).isSome

instance (f : Func) : Decidable (ReadableCalls f) :=
  inferInstanceAs (Decidable (∀ i ∈ f.instrs, _ → _ → _))

theorem linkCall_eq (h : i.isStore = true → i.has .INS_directCall = true →
    (getHexMetadataFromIns i .INS_directCall).isSome) :
    linkCall (all.map fun p => (p.1, clone p.2)) i = some (linkedIns all i) := by
  unfold linkCall linkedIns
  cases hop : i.op with
  | store v p =>
    have hstore : i.isStore = true := by rw [Instr.isStore, hop]
    simp only
    by_cases hcall : i.has .INS_directCall = true
    · obtain ⟨pc, hpc⟩ := Option.isSome_iff_exists.mp (h hstore hcall)
      rw [if_pos hcall, hpc]
      simp only [Option.bind_eq_bind, Option.bind_some, Lists.lookup_map_snd]
      cases all.lookup pc <;> rfl
    · have hnone : getHexMetadataFromIns i .INS_directCall = none := by
        cases hpc : getHexMetadataFromIns i .INS_directCall with
        | none => rfl
        | some pc => exact absurd (has_of_getHexMetadata hpc) hcall
      rw [if_neg hcall, hnone]
      rfl
  | _ => rfl

/-- Where the tags cannot be read the linker stops. -/
theorem linkCall_eq_some {j : Instr} (h : linkCall (all.map fun p => (p.1, clone p.2)) i = some j) :
    j = linkedIns all i := by
  by_cases hread : i.has .INS_directCall = true → (getHexMetadataFromIns i .INS_directCall).isSome
  · rw [linkCall_eq fun _ => hread] at h
    exact (Option.some.inj h).symm
  · obtain ⟨hcall, hnone⟩ := Classical.not_imp.mp hread
    rw [Option.not_isSome_iff_eq_none] at hnone
    unfold linkCall at h
    unfold linkedIns
    cases hop : i.op with
    | store v p => simp [hop, hcall, hnone] at h
    | _ =>
      rw [hop] at h
      exact (Option.some.inj h).symm

theorem linkFuncs_eq_some {final : Module}
    (h : linkFuncs ⟨(all.map Prod.snd).map clone⟩ (all.map fun p =>
      (p.1, clone p.2)) = some final) :
    final.funcs = all.map fun p => linkedFunc all p.2 := by
  obtain ⟨funcs, hfuncs, h⟩ := Option.bind_eq_some_iff.mp h
  obtain rfl := Option.some.inj h
  show funcs = _
  rw [OptionMapM.mapM_eq_map (g := Func.mapInstrs (linkedIns all)) hfuncs ?_,
    List.map_map, List.map_map]
  · rfl
  · intro f f' hf
    obtain ⟨blocks, hblocks, hf⟩ := Option.bind_eq_some_iff.mp hf
    obtain rfl := Option.some.inj hf
    rw [OptionMapM.mapM_eq_map (g := BasicBlock.mapInstrs (linkedIns all)) hblocks ?_]
    · rfl
    · intro b b' hb
      obtain ⟨instrs, hinstrs, hb⟩ := Option.bind_eq_some_iff.mp hb
      obtain rfl := Option.some.inj hb
      rw [OptionMapM.mapM_eq_map hinstrs fun i j hj => linkCall_eq_some hj]
      rfl

/-- The functions are linked one by one. -/
theorem linkFuncs_eq (h : ∀ p ∈ all, ReadableCalls p.2) :
    linkFuncs ⟨(all.map Prod.snd).map clone⟩ (all.map fun p => (p.1, clone p.2)) =
      some ⟨all.map fun p => linkedFunc all p.2⟩ := by
  have hfunc : ∀ f ∈ (all.map Prod.snd).map clone, (do
      let blocks ← f.blocks.mapM fun b => do
        let instrs ← b.instrs.mapM (linkCall (all.map fun p => (p.1, clone p.2)))
        pure { b with instrs := instrs }
      pure { f with blocks := blocks } : Option Func) = some (f.mapInstrs (linkedIns all)) := by
    intro f hf
    obtain ⟨g, hg, rfl⟩ := List.mem_map.mp hf
    obtain ⟨p, hp, rfl⟩ := List.mem_map.mp hg
    have hblock : ∀ b ∈ (clone p.2).blocks, (do
        let instrs ← b.instrs.mapM (linkCall (all.map fun p => (p.1, clone p.2)))
        pure { b with instrs := instrs } : Option BasicBlock) =
          some (b.mapInstrs (linkedIns all)) := by
      intro b hb
      rw [OptionMapM.mapM_eq_some_map fun i hi =>
        linkCall_eq (h p hp i (List.mem_flatMap.mpr ⟨b, hb, hi⟩))]
      rfl
    rw [OptionMapM.mapM_eq_some_map hblock]
    rfl
  unfold linkFuncs
  rw [OptionMapM.mapM_eq_some_map hfunc, List.map_map, List.map_map]
  rfl

/-! ## The output -/

/-- Functions with different starts have different names, as those built from translated blocks
have. -/
def NamesIdentify (fs : List Func) : Prop :=
  ∀ f ∈ fs, ∀ g ∈ fs, ∀ p q, StartsAt f p → StartsAt g q → f.name = g.name → p = q

/-- The linker takes the function: it is the first one with its start. -/
def Taken (files : List Module) (func : Func) : Prop :=
  ∃ pc, (inputs files).find? (fun f => startOf f = some pc) = some func

/-- What the linker writes: under each start the first function that has it, with its calls linked
to these, and their number. -/
structure LinksAll (files : List Module) (all : FuncsMap) (final : Module) (cnt : ℕ) : Prop where
  starts : (all.map Prod.fst).Nodup
  first : ∀ pc, all.lookup pc = (inputs files).find? fun f => startOf f = some pc
  funcs : final.funcs = all.map fun p => linkedFunc all p.2
  names : (final.funcs.map Func.name).Nodup
  count : cnt = ((inputs files).filterMap startOf).dedup.length

theorem FirstWins.nodup_names (h : FirstWins funcs all) (hnames : NamesIdentify funcs) :
    ((all.map Prod.snd).map Func.name).Nodup := by
  rw [List.map_map]
  refine (List.nodup_map_iff_inj_on (List.Nodup.of_map Prod.fst h.keys)).mpr fun p hp q hq heq => ?_
  obtain ⟨hp₁, hp₂⟩ := h.startsAt hp
  obtain ⟨hq₁, hq₂⟩ := h.startsAt hq
  have hkey : p.1 = q.1 := hnames p.2 hp₂ q.2 hq₂ p.1 q.1 hp₁ hq₁ heq
  have hlp := Lists.lookup_of_mem h.keys hp
  rw [hkey, Lists.lookup_of_mem h.keys hq] at hlp
  exact Prod.ext hkey (Option.some.inj hlp).symm

/-- Two stages of the linker, from the functions it has gathered. -/
theorem allFuncs_eq (hgather : gatherFuncs files = some all)
    (hnames : NamesIdentify (inputs files)) :
    allFuncs files = some (⟨(all.map Prod.snd).map clone⟩, all.map fun p => (p.1, clone p.2)) := by
  have hfirst := firstWins_gatherFuncs hgather
  have hclones := gather_clones hfirst.keys fun p hp => (hfirst.startsAt hp).1
  unfold allFuncs
  rw [hgather, Option.bind_eq_bind, Option.bind_some, cloneFuncs_eq (hfirst.nodup_names hnames)]
  simp only [hclones, Option.bind_some, Option.pure_def]

theorem linksAll_of_link {final : Module} (hnames : NamesIdentify (inputs files))
    (h : link files = some final) :
    ∃ all cnt, fcnt files = some cnt ∧ LinksAll files all final cnt := by
  obtain ⟨⟨newModule, map⟩, hall, hlink⟩ := Option.bind_eq_some_iff.mp h
  obtain ⟨all, hgather, -⟩ := Option.bind_eq_some_iff.mp hall
  have hfirst := firstWins_gatherFuncs hgather
  have heq := allFuncs_eq hgather hnames
  obtain ⟨rfl, rfl⟩ := Prod.mk.inj (Option.some.inj (hall.symm.trans heq))
  have hfuncs := linkFuncs_eq_some hlink
  refine ⟨all, all.length, ?_, hfirst.keys, hfirst.lookup, hfuncs, ?_, hfirst.length_eq⟩
  · unfold fcnt
    rw [heq, Option.map_some, List.length_map]
  · have hclones : final.funcs.map Func.name = ((all.map Prod.snd).map Func.name).map
        ("linked-final-func-" ++ ·) := by
      rw [hfuncs]
      simp only [List.map_map]
      rfl
    rw [hclones]
    exact (hfirst.nodup_names hnames).map fun s t h => append_left_cancel h

/-- A function that starts at `pc` and calls `target`. -/
def callerAt (name : String) (pc target : UInt64) : Func := ⟨name, [⟨1, "entry", [
  ⟨none, .store (.constInt 32 target) (.global "PC"),
    [(.BB_pcStart, .str (hex pc)), (.INS_directCall, .str (hex target))]⟩,
  ⟨none, .ret none, []⟩]⟩]⟩

/-- Two functions that call each other. -/
def mutualFiles : List Module := [⟨[callerAt "void-tcg-llvm-tb-0-8000" 0x8000 0x9000]⟩,
  ⟨[callerAt "void-tcg-llvm-tb-1-9000" 0x9000 0x8000]⟩]

/-- Two functions with one name. -/
def sameNameFiles : List Module := [⟨[callerAt "void-tcg-llvm-tb-0" 0x8000 0x9000]⟩,
  ⟨[callerAt "void-tcg-llvm-tb-0" 0x9000 0x8000]⟩]

end Bin2llvm.Linker
