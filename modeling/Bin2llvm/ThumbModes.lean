import Bin2llvm.RecursiveDescentDisassembler

/-!
# Bin2llvm.ThumbModes — the modes recorded for translated blocks

A block is translated in the mode that `m_isPCThumb` has for it, if it has one.  But the map is
written for every target of every block, translated before or not, and `exit` hands the program
counters in thumb mode to the next iteration.

* `Consistent`: the map has no other mode for a recorded block than its own.
* `consistent_call_iff`: when a call keeps it so.
* `modesKept_iff`: when a run does.
-/

namespace Bin2llvm.RecursiveDescentDisassembler

/-- The program counters in the list that `exit` writes. -/
def IsThumbOut (s : State) (pc : UInt64) : Prop := s.m_isPCThumb pc = some true

def Consistent (s : State) : Prop :=
  ∀ bb ∈ s.m_allBasicBlocks, ∀ b, s.m_isPCThumb bb.m_pcStart = some b → b = bb.thumb

/-- The target that is scheduled last at `pc`. -/
def lastNamed (pcs : List UInt64) (pc : UInt64) : Option UInt64 :=
  pcs.reverse.find? fun t => realPC t = pc

/-- The block at `s.pc`. -/
def newBlock (G : Guest) (s : State) : MyTranslationBasicBlock :=
  ⟨s.pc, (G.translate s.pc s.thumb).llvm_first_pc_after_bb, s.thumb⟩

/-- Where a target of the block is a recorded block, or the block itself, it is named in the mode of
that. -/
structure NamesModes (G : Guest) (cfg : Config) (s : State) : Prop where
  own : ∀ b, s.m_isPCThumb s.pc = some b → b = s.thumb
  targets : ∀ pcs, allPossiblePCs G cfg s.pc (G.translate s.pc s.thumb) = some pcs →
    ∀ bb ∈ s.m_allBasicBlocks ++ [newBlock G s], ∀ t, lastNamed pcs bb.m_pcStart = some t →
      isThumbTarget (G.translate s.pc s.thumb) s.thumb t = bb.thumb

/-- A call that changes the mode records no block. -/
def KeepsModes (G : Guest) (cfg : Config) (s : State) : Prop :=
  s.thumb = thisIsForSureThumbMode s → NamesModes G cfg s

/-- The plugin after a call. -/
def Outcome.after : Outcome → Option State
  | .cpuExit s | .exited s => some s
  | .aborted => none

variable {G : Guest} {cfg : Config} {s s' : State} {tb : TranslationBlock} {pcs : List UInt64}
variable {pc : UInt64}

/-! ## One call -/

theorem realPC_realPC (a : UInt64) : realPC (realPC a) = realPC a := by
  rw [realPC, realPC, UInt64.and_assoc, UInt64.and_self]

theorem lastNamed_append_singleton (t : UInt64) :
    lastNamed (pcs ++ [t]) pc = if realPC t = pc then some t else lastNamed pcs pc := by
  unfold lastNamed
  rw [List.reverse_append, List.reverse_singleton, List.singleton_append, List.find?_cons]
  by_cases h : realPC t = pc
  · simp [h]
  · simp [h]

theorem realPC_of_lastNamed {t : UInt64} (h : lastNamed pcs pc = some t) : realPC t = pc := by
  simpa using List.find?_some h

/-- The last target decides. -/
theorem isPCThumb_foldlM_schedule (hs : pcs.foldlM (schedule cfg tb) s = some s') :
    s'.m_allBasicBlocks = s.m_allBasicBlocks ∧
      ∀ pc, s'.m_isPCThumb pc = ((lastNamed pcs pc).map (isThumbTarget tb s.thumb)).or
      (s.m_isPCThumb pc) := by
  have hstep : ∀ (done : List UInt64) (s₁ : State) (t : UInt64) (s₂ : State),
      (s₁.thumb = s.thumb ∧ s₁.m_allBasicBlocks = s.m_allBasicBlocks ∧
        ∀ pc, s₁.m_isPCThumb pc = ((lastNamed done pc).map (isThumbTarget tb s.thumb)).or
          (s.m_isPCThumb pc)) →
      schedule cfg tb s₁ t = some s₂ →
      (s₂.thumb = s.thumb ∧ s₂.m_allBasicBlocks = s.m_allBasicBlocks ∧
        ∀ pc, s₂.m_isPCThumb pc =
          ((lastNamed (done ++ [t]) pc).map (isThumbTarget tb s.thumb)).or (s.m_isPCThumb pc)) := by
    rintro done s₁ t s₂ ⟨hthumb, hblocks, hmap⟩ hs₂
    obtain ⟨s₃, hs₃, rfl⟩ := Option.map_eq_some_iff.mp hs₂
    have hsame : s₃.thumb = s₁.thumb ∧ s₃.m_allBasicBlocks = s₁.m_allBasicBlocks ∧
        s₃.m_isPCThumb = s₁.m_isPCThumb := by
      rcases explorePCLater_eq_some hs₃ with ⟨rfl, -⟩ | ⟨-, -, rfl⟩
      · exact ⟨rfl, rfl, rfl⟩
      · exact ⟨rfl, rfl, rfl⟩
    obtain ⟨hthumb₃, hblocks₃, hmap₃⟩ := hsame
    refine ⟨hthumb₃.trans hthumb, hblocks₃.trans hblocks, fun pc => ?_⟩
    show Function.update s₃.m_isPCThumb (realPC t) (some (isThumbTarget tb s₃.thumb t)) pc = _
    rw [lastNamed_append_singleton, hthumb₃, hthumb, hmap₃]
    split_ifs with h
    · rw [← h, Function.update_self]
      rfl
    · rw [Function.update_of_ne (Ne.symm h), hmap]
  let P (done : List UInt64) (s₁ : State) : Prop :=
    s₁.thumb = s.thumb ∧ s₁.m_allBasicBlocks = s.m_allBasicBlocks ∧
    ∀ pc, s₁.m_isPCThumb pc = ((lastNamed done pc).map (isThumbTarget tb s.thumb)).or
    (s.m_isPCThumb pc)
  have hP : P pcs s' := OptionMapM.foldlM_preserves hstep ⟨rfl, rfl, fun _ => rfl⟩ hs
  exact hP.2

/-- Only what is taken from the vector gets a mode. -/
theorem isPCThumb_exploreNext {vector : List UInt64}
    (hs : (exploreNext G vector s).after = some s') :
    s'.m_allBasicBlocks = s.m_allBasicBlocks ∧ ∀ pc, pc ∉ vector →
      s'.m_isPCThumb pc = s.m_isPCThumb pc := by
  induction vector generalizing s with
  | nil =>
    obtain rfl := Option.some.inj hs
    exact ⟨rfl, fun _ _ => rfl⟩
  | cons next rest ih =>
    have hprep : ∀ pc, pc ∉ next :: rest → (prepareNext s next rest).m_isPCThumb pc =
        s.m_isPCThumb pc :=
      fun pc hpc => Function.update_of_ne (List.ne_of_not_mem_cons hpc) _ _
    unfold exploreNext at hs
    split_ifs at hs
    · obtain rfl := Option.some.inj hs
      exact ⟨rfl, hprep⟩
    · obtain ⟨hblocks, hmap⟩ := ih hs
      exact ⟨hblocks, fun pc hpc => (hmap pc (List.not_mem_of_not_mem_cons hpc)).trans
        (hprep pc hpc)⟩
    · cases hs

/-- After the targets are scheduled. -/
theorem consistent_schedule_iff (hc : Consistent s) (hmode : s.thumb = thisIsForSureThumbMode s)
    (hpcs : allPossiblePCs G cfg s.pc (G.translate s.pc s.thumb) = some pcs)
    (hs : pcs.foldlM (schedule cfg (G.translate s.pc s.thumb)) (record s
      (G.translate s.pc s.thumb)) = some s') :
    Consistent s' ↔ NamesModes G cfg s := by
  obtain ⟨hblocks, hmap⟩ := isPCThumb_foldlM_schedule hs
  have hblocks' : s'.m_allBasicBlocks = s.m_allBasicBlocks ++ [newBlock G s] := hblocks
  have hmap' (pc : UInt64) : s'.m_isPCThumb pc =
      ((lastNamed pcs pc).map (isThumbTarget (G.translate s.pc s.thumb) s.thumb)).or
      (s.m_isPCThumb pc) := hmap pc
  unfold Consistent
  simp only [hblocks', hmap']
  constructor
  · refine fun h => ⟨fun b hb => ?_, fun pcs' hpcs' bb hbb t ht => ?_⟩
    -- the block names its own start again, or nothing changes there
    · cases hlast : lastNamed pcs s.pc with
      | none =>
        have hnew :=
          List.mem_append_right s.m_allBasicBlocks (List.mem_singleton_self (newBlock G s))
        exact h (newBlock G s) hnew b (by simp [newBlock, hlast, hb])
      | some t =>
        have hreal : realPC s.pc = s.pc := by rw [← realPC_of_lastNamed hlast, realPC_realPC]
        rw [thisIsForSureThumbMode, hreal, hb] at hmode
        exact hmode.symm
    · obtain rfl := Option.some.inj (hpcs.symm.trans hpcs')
      exact h bb hbb _ (by simp [ht])
  · intro h bb hbb b hb
    cases hlast : lastNamed pcs bb.m_pcStart with
    | some t =>
      rw [hlast] at hb
      obtain rfl := Option.some.inj hb
      exact h.targets pcs hpcs bb hbb t hlast
    | none =>
      rw [hlast] at hb
      rcases List.mem_append.mp hbb with hold | hnew
      · exact hc bb hold b hb
      · obtain rfl := List.mem_singleton.mp hnew
        exact h.own b hb

/-- **A call keeps the modes of the recorded blocks exactly when it names none of them in another
mode.** -/
theorem consistent_call_iff (h : Ready G cfg s) (hc : Consistent s)
    (hs : (slotExecuteBlockStart G cfg s).after = some s') : Consistent s' ↔
    KeepsModes G cfg s := by
  unfold slotExecuteBlockStart at hs
  dsimp only at hs
  split_ifs at hs with hmode hpc
  · obtain rfl := Option.some.inj hs
    exact ⟨fun _ heq => absurd heq hmode, fun _ => hc⟩
  · have hmode := not_not.mp hmode
    cases hfold : (allPossiblePCs G cfg s.pc (G.translate s.pc s.thumb)).bind fun pcs =>
        pcs.foldlM (schedule cfg (G.translate s.pc s.thumb))
          (record s (G.translate s.pc s.thumb)) with
    | none => rw [hfold] at hs; cases hs
    | some s₁ =>
      rw [hfold] at hs
      obtain ⟨pcs, hpcs, hsch⟩ := Option.bind_eq_some_iff.mp hfold
      have hinv := (h.schedule hpcs hsch).1
      obtain ⟨hblocks, hmap⟩ := isPCThumb_exploreNext hs
      have hsame : Consistent s' ↔ Consistent s₁ := by
        unfold Consistent
        rw [hblocks]
        refine forall₂_congr fun bb hbb => ?_
        have hrec : bb.m_pcStart ∈ recorded s₁ := List.mem_map_of_mem hbb
        rw [hmap _ fun hv => hinv.todo_new _ hv hrec]
      rw [hsame, consistent_schedule_iff hc hmode hpcs hsch]
      exact ⟨fun hn _ => hn, fun hn => hn hmode⟩
  · cases hs

/-! ## Whole runs -/

theorem after_of_step (hs : step G cfg s = some s') :
    (slotExecuteBlockStart G cfg s).after = some s' := by
  unfold step at hs
  cases ho : slotExecuteBlockStart G cfg s with
  | cpuExit s₁ => rwa [ho] at hs
  | exited s₁ => rw [ho] at hs; cases hs
  | aborted => rw [ho] at hs; cases hs

/-- In all states of the run, and after `exit()`, the map agrees with the recorded blocks, and so
does the list that is written. -/
structure ModesKept (G : Guest) (cfg : Config) (xs : List State) (s : State) : Prop where
  run : ∀ x ∈ xs ++ [s], Consistent x
  exit : ∀ s', slotExecuteBlockStart G cfg s = .exited s' → Consistent s' ∧
    ∀ bb ∈ s'.m_allBasicBlocks, IsThumbOut s' bb.m_pcStart → bb.thumb = true

/-- **In a run of the disassembler the recorded modes are kept exactly when none of its calls names
a recorded block in another mode.** -/
theorem modesKept_iff {thumb : Bool} {xs : List State}
    (hrun : Run (step G cfg) (initial cfg pc thumb) xs s) :
    ModesKept G cfg xs s ↔ (∀ x ∈ xs, KeepsModes G cfg x) ∧
      ((∃ s', slotExecuteBlockStart G cfg s = .exited s') → KeepsModes G cfg s) := by
  have hready (a b : State) (ha : Ready G cfg a) (hstep : step G cfg a = some b) : Ready G cfg b :=
    (ha.step hstep).1
  have hiff := hrun.forall_iff (Q := Ready G cfg) (P := Consistent) (K := KeepsModes G cfg)
    (fun a b ha hc hstep => ⟨hready a b ha hstep, consistent_call_iff ha hc (after_of_step hstep)⟩)
    (ready_initial G cfg pc thumb) (fun _ hbb => nomatch hbb)
  have hs : Ready G cfg s := hrun.preserves hready (ready_initial G cfg pc thumb)
  constructor
  · rintro ⟨hall, hexit⟩
    refine ⟨hiff.mp hall, ?_⟩
    rintro ⟨s', hs'⟩
    exact (consistent_call_iff hs (hall s (by simp)) (by rw [hs']; rfl)).mp (hexit s' hs').1
  · rintro ⟨hxs, hlast⟩
    have hall := hiff.mpr hxs
    refine ⟨hall, fun s' hs' => ?_⟩
    have hc : Consistent s' := (consistent_call_iff hs (hall s (by simp)) (by rw [hs']; rfl)).mpr
      (hlast ⟨s', hs'⟩)
    exact ⟨hc, fun bb hbb hout => (hc bb hbb true hout).symm⟩

/-- ARM code at `0x1000` that goes on to `0x2000`, which calls `0x1000` as thumb code. -/
def callsBack : Guest where
  translate := fun pc _ => if pc = 0x1000 then ⟨0x1004, [0x2000], none, .unset⟩
    else ⟨0x2004, [0x1001], none, .set⟩
  memory := fun _ => 0
  isValidCodeAccess := fun _ => true

theorem sorted_nil : ([] : List (UInt64 × UInt64)).Pairwise (fun i j => i.1 ≤ j.1) :=
  List.Pairwise.nil

def noFiles : Config := ⟨⟨[], Nat.two_pow_pos 64, sorted_nil⟩, [], []⟩

/-- The first call of the run. -/
theorem modesKept_first : ∃ s, ModesKept callsBack noFiles [initial noFiles 0x1000 false] s ↔
    (∀ x ∈ [initial noFiles 0x1000 false], KeepsModes callsBack noFiles x) ∧
      ((∃ s', slotExecuteBlockStart callsBack noFiles s = .exited s') →
        KeepsModes callsBack noFiles s) :=
  ⟨_, modesKept_iff (.head rfl (.refl _))⟩

/-- The second call is the last one. -/
theorem not_modesKept_callsBack : ∃ xs s, Run (step callsBack noFiles)
    (initial noFiles 0x1000 false) xs s ∧ ¬ ModesKept callsBack noFiles xs s := by
  refine ⟨_, _, .head rfl (.refl _), fun h => ?_⟩
  have hmem : (⟨0x1000, 0x1004, false⟩ : MyTranslationBasicBlock) ∈
    [⟨0x1000, 0x1004, false⟩, ⟨0x2000, 0x2004, false⟩] :=
    List.mem_cons_self
  cases (h.exit _ rfl).2 _ hmem rfl

end Bin2llvm.RecursiveDescentDisassembler
