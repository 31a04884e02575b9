import Bin2llvm.VisitedIntervals
import Bin2llvm.JumpTableInfo
import Bin2llvm.MemoryPools
import Bin2llvm.Lib.Run
import Mathlib.Data.FinEnum
import Mathlib.Data.Set.Card

/-!
# Bin2llvm.RecursiveDescentDisassembler — exploring the code of a program

The plugin is called before a translated block is executed.  It records the block, schedules what
the block can go to and throws `CpuExitException`, which makes the emulator go on at the program
counter and in the mode that it set; it exits when nothing is scheduled any more.  This is the ARM
build: `REAL_PC` clears the thumb bit.

* `slotExecuteBlockStart`: one call.
* `Inv`: what is recorded, scheduled and visited in between.
* `explores`: the exploration stops, records no program counter twice and loses no target.
-/

namespace Bin2llvm.RecursiveDescentDisassembler

/-! ## The plugin -/

inductive ThumbBit where
  | undefined | set | unset
  deriving DecidableEq, Repr

/-- What the passes find in a translated block. -/
structure TranslationBlock where
  llvm_first_pc_after_bb : UInt64
  targets : List UInt64
  implicitTarget : Option UInt64
  thumbBit : ThumbBit

/-- The program in the emulator. -/
structure Guest where
  translate : UInt64 → Bool → TranslationBlock
  memory : UInt64 → UInt8
  isValidCodeAccess : UInt64 → Bool

/-- The files the plugin reads. -/
structure Config where
  m_visitedPCIntervals : VisitedIntervals
  jptInfo : List JumpTableInfo
  isThumbIn : List UInt64

/-- A recorded block; its function is the translation in the mode `thumb`. -/
structure MyTranslationBasicBlock where
  m_pcStart : UInt64
  m_pcEnd : UInt64
  thumb : Bool
  deriving DecidableEq, Repr

/-- The plugin, and where the emulator goes on.  The back of the vector is the head of the list. -/
structure State where
  pc : UInt64
  thumb : Bool
  m_visitedPC : UInt64 → Bool
  m_scheduledPCsMap : UInt64 → Option Bool
  m_scheduledPCsVector : List UInt64
  m_isPCThumb : UInt64 → Option Bool
  m_allBasicBlocks : List MyTranslationBasicBlock

/-- `REAL_PC(a)`. -/
def realPC (a : UInt64) : UInt64 := a &&& ~~~1

/-- `initialize`, and the first block that is executed. -/
def initial (cfg : Config) (pc : UInt64) (thumb : Bool) : State where
  pc := pc
  thumb := thumb
  m_visitedPC := fun p => cfg.m_visitedPCIntervals.data.any fun iv => iv.1 = p
  m_scheduledPCsMap := fun _ => none
  m_scheduledPCsVector := []
  m_isPCThumb := fun p => if p ∈ cfg.isThumbIn then some true else none
  m_allBasicBlocks := []

/-- How a call ends: the emulator goes on at `pc`, or `exit()`, or a failed assert. -/
inductive Outcome where
  | cpuExit (s : State)
  | exited (s : State)
  | aborted

section

variable (G : Guest) (cfg : Config)

/-- `state->readMemoryConcrete(addr, &loadedPC, 4)`, in the byte order of the host. -/
def readMemoryConcrete (addr : UInt64) : UInt64 := word false G.memory addr 4

/-- The jump table of the block that starts at `pc`. -/
def jumpTableOf (pc : UInt64) (tb : TranslationBlock) : Option JumpTableInfo :=
  (JumpTableInfo.lookupLast JumpTableInfo.bb_start cfg.jptInfo pc).filter fun info =>
    decide (info.bb_end = tb.llvm_first_pc_after_bb)

/-- The targets of the block, and those of its jump table. -/
def allPossiblePCs (pc : UInt64) (tb : TranslationBlock) : Option (List UInt64) :=
  match jumpTableOf cfg pc tb with
  | none => some tb.targets
  | some info => info.entryAddrs.map fun addrs =>
    tb.targets ++ (addrs.map (readMemoryConcrete G) ++ [info.default_case_pc])

def explorePCLater (s : State) (pc : UInt64) : Option State :=
  if s.m_visitedPC pc ∨ (s.m_scheduledPCsMap pc).isSome then some s
  else (cfg.m_visitedPCIntervals.isPCInVisitedIntervalsBsearch pc).map fun found =>
    if found then s
    else { s with
      m_scheduledPCsVector := pc :: s.m_scheduledPCsVector
      m_scheduledPCsMap := Function.update s.m_scheduledPCsMap pc (some true) }

/-- The mode recorded for a target: of the thumb bit that the block leaves, or the current one. -/
def isThumbTarget (tb : TranslationBlock) (thumb : Bool) (target : UInt64) : Bool :=
  if tb.implicitTarget = some target then thumb
  else
    match tb.thumbBit with
    | .set => true
    | .unset => false
    | .undefined => thumb

/-- One target is scheduled. -/
def schedule (tb : TranslationBlock) (s : State) (target : UInt64) : Option State :=
  (explorePCLater cfg s (realPC target)).map fun s => { s with
    m_isPCThumb := Function.update s.m_isPCThumb (realPC target)
      (some (isThumbTarget tb s.thumb target)) }

/-- The block is recorded. -/
def record (s : State) (tb : TranslationBlock) : State := { s with
  m_allBasicBlocks := s.m_allBasicBlocks ++ [⟨s.pc, tb.llvm_first_pc_after_bb, s.thumb⟩]
  m_visitedPC := Function.update s.m_visitedPC s.pc true }

/-- `getNextRealPC` and `prepareStateForNextRealPC`, when `nextPC` is at the back. -/
def prepareNext (s : State) (nextPC : UInt64) (rest : List UInt64) : State := { s with
  m_scheduledPCsVector := rest
  m_scheduledPCsMap := Function.update s.m_scheduledPCsMap nextPC (some false)
  pc := nextPC
  thumb := (s.m_isPCThumb nextPC).getD false
  m_isPCThumb := Function.update s.m_isPCThumb nextPC (some ((s.m_isPCThumb nextPC).getD false)) }

/-- The loop over the scheduled program counters; those outside the memory are dropped. -/
def exploreNext : List UInt64 → State → Outcome
  | [], s => .exited { s with m_scheduledPCsVector := [] }
  | nextPC :: rest, s =>
    if nextPC &&& 1 = 0 then
      if G.isValidCodeAccess nextPC then .cpuExit (prepareNext s nextPC rest)
      else exploreNext rest (prepareNext s nextPC rest)
    else .aborted

/-- The mode a block at `pc` is in for sure. -/
def thisIsForSureThumbMode (s : State) : Bool := (s.m_isPCThumb (realPC s.pc)).getD s.thumb

def slotExecuteBlockStart (s : State) : Outcome :=
  if s.thumb ≠ thisIsForSureThumbMode s then .cpuExit { s with thumb := thisIsForSureThumbMode s }
  else
    let tb := G.translate s.pc s.thumb
    if s.pc < tb.llvm_first_pc_after_bb then
      match (allPossiblePCs G cfg s.pc tb).bind fun pcs =>
        pcs.foldlM (schedule cfg tb) (record s tb) with
      | some s => exploreNext G s.m_scheduledPCsVector s
      | none => .aborted
    else .aborted

def Outcome.next : Outcome → Option State
  | .cpuExit s => some s
  | _ => none

/-- From one call to the next. -/
def step (s : State) : Option State := (slotExecuteBlockStart G cfg s).next

end

/-! ## What is recorded, scheduled and visited -/

variable {G : Guest} {cfg : Config} {s s' : State} {tb : TranslationBlock}

/-- The program counters of the recorded blocks. -/
def recorded (s : State) : List UInt64 := s.m_allBasicBlocks.map MyTranslationBasicBlock.m_pcStart

/-- What a recorded block can go to. -/
def targetsOf (G : Guest) (cfg : Config) (bb : MyTranslationBasicBlock) : List UInt64 :=
  (allPossiblePCs G cfg bb.m_pcStart (G.translate bb.m_pcStart bb.thumb)).getD []

/-- An initially visited interval starts at `pc`, or `pc` lies in one. -/
def InitiallyVisited (cfg : Config) (pc : UInt64) : Prop :=
  (∃ iv ∈ cfg.m_visitedPCIntervals.data, iv.1 = pc) ∨ cfg.m_visitedPCIntervals.Contains pc

/-- `pc` need not be scheduled any more. -/
def Known (cfg : Config) (s : State) (pc : UInt64) : Prop :=
  s.m_visitedPC pc = true ∨ (s.m_scheduledPCsMap pc).isSome = true ∨
    cfg.m_visitedPCIntervals.Contains pc

/-- The bookkeeping of the plugin, with the program counters `pending` about to be executed. -/
structure Inv (G : Guest) (cfg : Config) (pending : List UInt64) (s : State) : Prop where
  recorded_nodup : (recorded s).Nodup
  recorded_visited : ∀ pc ∈ recorded s, s.m_visitedPC pc = true
  todo_nodup : (pending ++ s.m_scheduledPCsVector).Nodup
  todo_new : ∀ pc ∈ pending ++ s.m_scheduledPCsVector, pc ∉ recorded s
  vector_even : ∀ pc ∈ s.m_scheduledPCsVector, pc &&& 1 = 0
  vector_map : ∀ pc ∈ s.m_scheduledPCsVector, (s.m_scheduledPCsMap pc).isSome = true
  map_settled : ∀ pc, (s.m_scheduledPCsMap pc).isSome = true →
    pc ∈ pending ++ s.m_scheduledPCsVector ∨ pc ∈ recorded s ∨ G.isValidCodeAccess pc = false
  visited_settled : ∀ pc, s.m_visitedPC pc = true → pc ∈ recorded s ∨ InitiallyVisited cfg pc

/-- The targets of the recorded blocks are known. -/
def Covered (G : Guest) (cfg : Config) (s : State) : Prop :=
  ∀ bb ∈ s.m_allBasicBlocks, ∀ t ∈ targetsOf G cfg bb, Known cfg s (realPC t)

theorem realPC_and_one (a : UInt64) : realPC a &&& 1 = 0 := by
  rw [realPC, UInt64.and_assoc]
  exact UInt64.and_zero

theorem inv_initial (G : Guest) (cfg : Config) (pc : UInt64) (thumb : Bool) :
    Inv G cfg [pc] (initial cfg pc thumb) where
  recorded_nodup := List.nodup_nil
  recorded_visited := by simp [recorded, initial]
  todo_nodup := List.nodup_singleton pc
  todo_new := by simp [recorded, initial]
  vector_even := by simp [initial]
  vector_map := by simp [initial]
  map_settled := by simp [initial]
  visited_settled := fun p hp => by
    refine Or.inr (Or.inl ?_)
    simpa [initial] using hp

/-- Only the mode changes. -/
theorem Inv.withThumb {pending : List UInt64} (h : Inv G cfg pending s) (thumb : Bool) :
    Inv G cfg pending { s with thumb := thumb } :=
  ⟨h.recorded_nodup, h.recorded_visited, h.todo_nodup, h.todo_new, h.vector_even, h.vector_map,
    h.map_settled, h.visited_settled⟩

theorem recorded_record (s : State) (tb : TranslationBlock) :
    recorded (record s tb) = recorded s ++ [s.pc] := by
  simp [recorded, record]

theorem Inv.record (h : Inv G cfg [s.pc] s) (tb : TranslationBlock) :
    Inv G cfg [] (record s tb) := by
  obtain ⟨hpc, hnd⟩ := List.nodup_cons.mp h.todo_nodup
  -- the program counter was taken from the queue, so it is not recorded yet
  have hnew : s.pc ∉ recorded s := h.todo_new s.pc List.mem_cons_self
  have hrec := recorded_record s tb
  refine ⟨?_, fun pc hp => ?_, hnd, fun pc hp => ?_, h.vector_even, h.vector_map, fun pc hp => ?_,
    fun pc hp => ?_⟩
  · rw [hrec]
    exact h.recorded_nodup.append (List.nodup_singleton _) (by simpa using hnew)
  · show Function.update s.m_visitedPC s.pc true pc = true
    rw [hrec, List.mem_append, List.mem_singleton] at hp
    rcases eq_or_ne pc s.pc with rfl | hne
    · exact Function.update_self ..
    · rw [Function.update_of_ne hne]
      exact h.recorded_visited pc (hp.resolve_right hne)
  · rw [hrec, List.mem_append, List.mem_singleton]
    rintro (hr | rfl)
    · exact h.todo_new pc (List.mem_cons_of_mem _ hp) hr
    · exact hpc hp
  · rw [List.nil_append, hrec, List.mem_append, List.mem_singleton]
    rcases h.map_settled pc hp with htodo | hr | hinvalid
    · rcases List.mem_cons.mp htodo with rfl | hv
      · exact Or.inr (Or.inl (Or.inr rfl))
      · exact Or.inl hv
    · exact Or.inr (Or.inl (Or.inl hr))
    · exact Or.inr (Or.inr hinvalid)
  · rw [hrec, List.mem_append, List.mem_singleton]
    rcases eq_or_ne pc s.pc with rfl | hne
    · exact Or.inl (Or.inr rfl)
    · have hv : Function.update s.m_visitedPC s.pc true pc = true := hp
      rw [Function.update_of_ne hne] at hv
      exact (h.visited_settled pc hv).imp_left Or.inl

/-! ## Scheduling -/

/-- The search in the intervals never succeeds. -/
theorem explorePCLater_eq_some {pc : UInt64} (h : explorePCLater cfg s pc = some s') :
    s' = s ∧ Known cfg s pc ∨ s.m_visitedPC pc = false ∧
      s.m_scheduledPCsMap pc = none ∧ s' = { s with
      m_scheduledPCsVector := pc :: s.m_scheduledPCsVector
      m_scheduledPCsMap := Function.update s.m_scheduledPCsMap pc (some true) } := by
  unfold explorePCLater at h
  split_ifs at h with hknown
  · exact Or.inl ⟨(Option.some.inj h).symm, hknown.imp_right Or.inl⟩
  · obtain ⟨found, hfound, rfl⟩ := Option.map_eq_some_iff.mp h
    rcases VisitedIntervals.bsearch_eq cfg.m_visitedPCIntervals pc with ⟨hs, -⟩ | ⟨hs, -⟩
    · cases hfound.symm.trans hs
    · obtain rfl : found = false := Option.some.inj (hfound.symm.trans hs)
      simp only [not_or, Bool.not_eq_true, Option.isSome_eq_false_iff,
        Option.isNone_iff_eq_none] at hknown
      exact Or.inr ⟨hknown.1, hknown.2, rfl⟩

/-- The program counters that were never scheduled count twice: scheduling one and taking it from
the vector again are two steps. -/
noncomputable def todo (s : State) : ℕ :=
  2 * {pc | s.m_scheduledPCsMap pc = none}.ncard + s.m_scheduledPCsVector.length

/-- Nothing is recorded or forgotten from `s` to `s'`. -/
structure Later (cfg : Config) (s s' : State) : Prop where
  blocks_eq : s'.m_allBasicBlocks = s.m_allBasicBlocks
  known : ∀ pc, Known cfg s pc → Known cfg s' pc

theorem Later.refl (s : State) : Later cfg s s := ⟨rfl, fun _ h => h⟩

theorem Later.trans {s₁ s₂ s₃ : State} (h : Later cfg s₁ s₂)
    (h' : Later cfg s₂ s₃) : Later cfg s₁ s₃ :=
  ⟨h'.blocks_eq.trans h.blocks_eq, fun pc hpc => h'.known pc (h.known pc hpc)⟩

/-- A key of the map gets a new value. -/
theorem Later.update {pc : UInt64} {b : Bool} (hblocks : s'.m_allBasicBlocks = s.m_allBasicBlocks)
    (hvisited : s'.m_visitedPC = s.m_visitedPC)
    (hmap : s'.m_scheduledPCsMap = Function.update s.m_scheduledPCsMap pc (some b)) :
    Later cfg s s' := by
  refine ⟨hblocks, fun p hp => ?_⟩
  unfold Known at hp ⊢
  rw [hvisited, hmap]
  refine hp.imp_right (Or.imp_left fun hm => ?_)
  rcases eq_or_ne p pc with rfl | hne
  · simp
  · rwa [Function.update_of_ne hne]

/-- What scheduling keeps. -/
structure Scheduled (G : Guest) (cfg : Config) (s s' : State) : Prop where
  inv : Inv G cfg [] s'
  later : Later cfg s s'
  todo_le : todo s' ≤ todo s

theorem Scheduled.trans {s₁ s₂ s₃ : State} (h : Scheduled G cfg s₁ s₂)
    (h' : Scheduled G cfg s₂ s₃) :
    Scheduled G cfg s₁ s₃ := ⟨h'.inv, h.later.trans h'.later, h'.todo_le.trans h.todo_le⟩

theorem todo_push {pc : UInt64} (hmap : s.m_scheduledPCsMap pc = none)
    (hs : s' = { s with
      m_scheduledPCsVector := pc :: s.m_scheduledPCsVector
      m_scheduledPCsMap := Function.update s.m_scheduledPCsMap pc (some true) }) : todo
      s' < todo s := by
  have hsub : {p | s'.m_scheduledPCsMap p = none} ⊂ {p | s.m_scheduledPCsMap p = none} := by
    subst hs
    refine Set.ssubset_iff_of_subset (fun p hp => ?_) |>.mpr ⟨pc, hmap, by simp⟩
    rcases eq_or_ne p pc with rfl | hne
    · exact hmap
    · have hp' : Function.update s.m_scheduledPCsMap pc (some true) p = none := hp
      rwa [Function.update_of_ne hne] at hp'
  have hcard := Set.ncard_lt_ncard hsub (Set.toFinite _)
  have hlen : s'.m_scheduledPCsVector.length = s.m_scheduledPCsVector.length + 1 := by rw [hs]; rfl
  unfold todo
  omega

theorem Inv.push (h : Inv G cfg [] s) {pc : UInt64} (heven : pc &&& 1 = 0)
    (hvisited : s.m_visitedPC pc = false) (hmap : s.m_scheduledPCsMap pc = none) : Inv G cfg []
    { s with
      m_scheduledPCsVector := pc :: s.m_scheduledPCsVector
      m_scheduledPCsMap := Function.update s.m_scheduledPCsMap pc (some true) } := by
  have hvec : pc ∉ s.m_scheduledPCsVector := fun hv => by simpa [hmap] using h.vector_map pc hv
  have hrec : pc ∉ recorded s := fun hr => by simpa [hvisited] using h.recorded_visited pc hr
  refine ⟨h.recorded_nodup, h.recorded_visited, List.nodup_cons.mpr ⟨hvec, h.todo_nodup⟩, ?_, ?_,
    ?_, fun p hp => ?_, h.visited_settled⟩
  · exact List.forall_mem_cons.mpr ⟨hrec, h.todo_new⟩
  · exact List.forall_mem_cons.mpr ⟨heven, h.vector_even⟩
  · refine List.forall_mem_cons.mpr ⟨by simp, fun p hp => ?_⟩
    rcases eq_or_ne p pc with rfl | hne
    · simp
    · simpa [Function.update_of_ne hne] using h.vector_map p hp
  · rcases eq_or_ne p pc with rfl | hne
    · exact Or.inl List.mem_cons_self
    · have hp' : (s.m_scheduledPCsMap p).isSome = true := by
        simpa [Function.update_of_ne hne] using hp
      exact (h.map_settled p hp').imp_left (List.mem_cons_of_mem _)

/-- One target. -/
theorem Inv.schedule (h : Inv G cfg [] s) {target : UInt64}
    (hs : schedule cfg tb s target = some s') :
    Scheduled G cfg s s' ∧ Known cfg s' (realPC target) := by
  obtain ⟨s₁, hs₁, rfl⟩ := Option.map_eq_some_iff.mp hs
  rcases explorePCLater_eq_some hs₁ with ⟨rfl, hknown⟩ | ⟨hvisited, hmap, hpush⟩
  · exact ⟨⟨⟨h.recorded_nodup, h.recorded_visited, h.todo_nodup, h.todo_new,
      h.vector_even, h.vector_map, h.map_settled, h.visited_settled⟩, ⟨rfl, fun _ hp => hp⟩,
        le_refl _⟩, hknown⟩
  · have hlt := todo_push hmap hpush
    subst hpush
    have hi := h.push (realPC_and_one target) hvisited hmap
    refine ⟨⟨⟨hi.recorded_nodup, hi.recorded_visited, hi.todo_nodup, hi.todo_new, hi.vector_even,
      hi.vector_map, hi.map_settled, hi.visited_settled⟩, Later.update rfl rfl rfl, hlt.le⟩,
        Or.inr (Or.inl ?_)⟩
    simp

/-- All targets. -/
theorem Inv.foldlM_schedule (h : Inv G cfg [] s) {targets : List UInt64}
    (hs : targets.foldlM (RecursiveDescentDisassembler.schedule cfg tb) s = some s') :
    Scheduled G cfg s s' ∧ ∀ t ∈ targets, Known cfg s' (realPC t) := by
  have hstep : ∀ (done : List UInt64) (s₁ : State) (t : UInt64) (s₂ : State),
      Scheduled G cfg s s₁ ∧ (∀ t ∈ done, Known cfg s₁ (realPC t)) →
      RecursiveDescentDisassembler.schedule cfg tb s₁ t = some s₂ →
      Scheduled G cfg s s₂ ∧ ∀ u ∈ done ++ [t], Known cfg s₂ (realPC u) := by
    rintro done s₁ t s₂ ⟨hsch, hdone⟩ hs₂
    obtain ⟨hsch', hknown⟩ := hsch.inv.schedule hs₂
    refine ⟨hsch.trans hsch', fun u hu => ?_⟩
    rcases List.mem_append.mp hu with hu | hu
    · exact hsch'.later.known _ (hdone u hu)
    · rwa [List.mem_singleton.mp hu]
  have hinit : Scheduled G cfg s s ∧ ∀ t ∈ ([] : List UInt64), Known cfg s (realPC t) :=
    ⟨⟨h, Later.refl s, le_refl _⟩, by simp⟩
  exact OptionMapM.foldlM_preserves (P := fun done s₁ => Scheduled G cfg s s₁ ∧ ∀ t ∈ done,
    Known cfg s₁ (realPC t)) hstep hinit hs

/-! ## The next program counter -/

/-- The back of the vector is about to be executed. -/
theorem Inv.prepareNext (h : Inv G cfg [] s) {pc : UInt64} {rest : List UInt64}
    (hv : s.m_scheduledPCsVector = pc :: rest) : Inv G cfg [pc] (prepareNext s pc rest) := by
  have hsome : ∀ p, (Function.update s.m_scheduledPCsMap pc (some false) p).isSome = true ↔
      (s.m_scheduledPCsMap p).isSome = true := by
    intro p
    rcases eq_or_ne p pc with rfl | hne
    · simpa using h.vector_map p (hv ▸ List.mem_cons_self)
    · rw [Function.update_of_ne hne]
  have hnd := h.todo_nodup
  have hnew := h.todo_new
  have hsettled := h.map_settled
  rw [hv] at hnd hnew
  simp only [hv] at hsettled
  refine ⟨h.recorded_nodup, h.recorded_visited, hnd, hnew, fun p hp => ?_, fun p hp => ?_,
    fun p hp => ?_, h.visited_settled⟩
  · exact h.vector_even p (hv ▸ List.mem_cons_of_mem _ hp)
  · exact (hsome p).mpr (h.vector_map p (hv ▸ List.mem_cons_of_mem _ hp))
  · exact hsettled p ((hsome p).mp hp)

/-- A program counter outside the memory is dropped. -/
theorem Inv.dropPending {pc : UInt64} (h : Inv G cfg [pc] s)
    (hinvalid : G.isValidCodeAccess pc = false) : Inv G cfg [] s := by
  refine ⟨h.recorded_nodup, h.recorded_visited, (List.nodup_cons.mp h.todo_nodup).2, fun p hp =>
    h.todo_new p (List.mem_cons_of_mem _ hp), h.vector_even, h.vector_map, fun p hp => ?_,
      h.visited_settled⟩
  rcases h.map_settled p hp with htodo | hr | hi
  · rcases List.mem_cons.mp htodo with rfl | hv
    · exact Or.inr (Or.inr hinvalid)
    · exact Or.inl hv
  · exact Or.inr (Or.inl hr)
  · exact Or.inr (Or.inr hi)

theorem todo_prepareNext {pc : UInt64} {rest : List UInt64}
    (hv : s.m_scheduledPCsVector = pc :: rest) : todo (prepareNext s pc rest) < todo s := by
  have hset : {p | (prepareNext s pc rest).m_scheduledPCsMap p = none} ⊆
      {p | s.m_scheduledPCsMap p = none} := by
    intro p hp
    have hp' : Function.update s.m_scheduledPCsMap pc (some false) p = none := hp
    rcases eq_or_ne p pc with rfl | hne
    · simp at hp'
    · rwa [Function.update_of_ne hne] at hp'
  have hcard := Set.ncard_le_ncard hset (Set.toFinite _)
  have hlen : s.m_scheduledPCsVector.length = (prepareNext s pc rest).m_scheduledPCsVector.length +
      1 := by
    rw [hv]
    rfl
  unfold todo
  omega

/-- What the loop over the scheduled program counters comes to. -/
def Outcome.Resumes (G : Guest) (cfg : Config) (s : State) : Outcome → Prop
  | .cpuExit s' => Inv G cfg [s'.pc] s' ∧ Later cfg s s' ∧ todo s' < todo s
  | .exited s' => Inv G cfg [] s' ∧ Later cfg s s' ∧ s'.m_scheduledPCsVector = []
  | .aborted => False

theorem Outcome.Resumes.of_later {o : Outcome} (h : o.Resumes G cfg s') (hlater : Later cfg s s')
    (htodo : todo s' ≤ todo s) : o.Resumes G cfg s := by
  cases o with
  | cpuExit s₁ => exact ⟨h.1, hlater.trans h.2.1, h.2.2.trans_le htodo⟩
  | exited s₁ => exact ⟨h.1, hlater.trans h.2.1, h.2.2⟩
  | aborted => exact h

theorem exploreNext_resumes {vector : List UInt64} (h : Inv G cfg [] s)
    (hv : s.m_scheduledPCsVector = vector) : (exploreNext G vector s).Resumes G cfg s := by
  induction vector generalizing s with
  | nil =>
    have hs : { s with m_scheduledPCsVector := [] } = s := by rw [← hv]
    rw [exploreNext, hs]
    exact ⟨h, Later.refl s, hv⟩
  | cons pc rest ih =>
    have hprep := h.prepareNext hv
    have htodo := todo_prepareNext hv
    have hlater : Later cfg s (prepareNext s pc rest) := Later.update (b := false) rfl rfl rfl
    rw [exploreNext, if_pos (h.vector_even pc (hv ▸ List.mem_cons_self))]
    split_ifs with hvalid
    · exact ⟨hprep, hlater, htodo⟩
    · exact (ih (hprep.dropPending (Bool.not_eq_true _ ▸ hvalid)) rfl).of_later hlater htodo.le

/-! ## One call -/

/-- The block at `s.pc` is about to be executed, and the targets of the blocks before it are
known. -/
structure Ready (G : Guest) (cfg : Config) (s : State) : Prop where
  inv : Inv G cfg [s.pc] s
  covered : Covered G cfg s

/-- A forced mode change takes a call of its own, and is not followed by another one. -/
noncomputable def calls (s : State) : ℕ :=
  2 * todo s + if s.thumb = thisIsForSureThumbMode s then 0 else 1

/-- The call records the block at `s.pc`: it does not only force a mode change. -/
abbrev Records (s : State) : Prop := s.thumb = thisIsForSureThumbMode s

/-- What a call records. -/
def newBlocks (G : Guest) (s : State) : List MyTranslationBasicBlock :=
  if Records s then [⟨s.pc, (G.translate s.pc s.thumb).llvm_first_pc_after_bb, s.thumb⟩] else []

/-- The asserts on tables hold, and index sums in the intervals stay inside `int`. -/
structure ReadsHold (cfg : Config) : Prop where
  tables : ∀ info ∈ cfg.jptInfo, info.entryAddrs.isSome = true
  intervals : cfg.m_visitedPCIntervals.size ≤ 2 ^ 30

/-- The block that is recorded ends after its start. -/
def BlockHolds (G : Guest) (s : State) : Prop :=
  Records s → s.pc < (G.translate s.pc s.thumb).llvm_first_pc_after_bb

theorem Covered.of_later (h : Covered G cfg s) (hlater : Later cfg s s') : Covered G cfg s' := by
  intro bb hbb t ht
  rw [hlater.blocks_eq] at hbb
  exact hlater.known _ (h bb hbb t ht)

/-- The record of the block and the scheduling of its targets. -/
theorem Ready.schedule (h : Ready G cfg s) {pcs : List UInt64}
    (hpcs : allPossiblePCs G cfg s.pc (G.translate s.pc s.thumb) = some pcs)
    (hs : pcs.foldlM (RecursiveDescentDisassembler.schedule cfg (G.translate s.pc s.thumb))
      (record s (G.translate s.pc s.thumb)) = some s') :
    Inv G cfg [] s' ∧ Covered G cfg s' ∧ todo s' ≤ todo s ∧
      s'.m_allBasicBlocks = (record s (G.translate s.pc s.thumb)).m_allBasicBlocks := by
  obtain ⟨hsch, hknown⟩ := (h.inv.record (G.translate s.pc s.thumb)).foldlM_schedule hs
  refine ⟨hsch.inv, fun bb hbb t ht => ?_, hsch.todo_le, hsch.later.blocks_eq⟩
  rw [hsch.later.blocks_eq] at hbb
  rcases List.mem_append.mp hbb with hbb | hbb
  · refine hsch.later.known _ ?_
    rcases h.covered bb hbb t ht with hv | hm | hc
    · refine Or.inl ?_
      show Function.update s.m_visitedPC s.pc true (realPC t) = true
      rcases eq_or_ne (realPC t) s.pc with heq | hne
      · rw [heq, Function.update_self]
      · rwa [Function.update_of_ne hne]
    · exact Or.inr (Or.inl hm)
    · exact Or.inr (Or.inr hc)
  · refine hknown t ?_
    rw [List.mem_singleton.mp hbb, targetsOf, hpcs] at ht
    exact ht

/-- What a call comes to. -/
def Outcome.Continues (G : Guest) (cfg : Config) (s : State) : Outcome → Prop
  | .cpuExit s' => Ready G cfg s' ∧ calls s' < calls s ∧
      s'.m_allBasicBlocks = s.m_allBasicBlocks ++ newBlocks G s
  | .exited s' => Inv G cfg [] s' ∧ Covered G cfg s' ∧ s'.m_scheduledPCsVector = [] ∧
      Records s ∧ s'.m_allBasicBlocks = s.m_allBasicBlocks ++ newBlocks G s
  | .aborted => ReadsHold cfg → ¬ BlockHolds G s

theorem Outcome.Resumes.continues {o : Outcome} (h : o.Resumes G cfg s')
    (hcovered : Covered G cfg s') (htodo : todo s' ≤ todo s) (hrec : Records s)
    (hblocks : s'.m_allBasicBlocks = s.m_allBasicBlocks ++ newBlocks G s) :
    o.Continues G cfg s := by
  cases o with
  | cpuExit s₁ =>
    obtain ⟨hinv, hlater, hlt⟩ := h
    refine ⟨⟨hinv, hcovered.of_later hlater⟩, ?_, hlater.blocks_eq.trans hblocks⟩
    unfold calls
    split_ifs <;> omega
  | exited s₁ => exact ⟨h.1, hcovered.of_later h.2.1, h.2.2, hrec, h.2.1.blocks_eq.trans hblocks⟩
  | aborted => exact h.elim

/-- The search in the intervals goes through when there are not too many of them. -/
theorem ReadsHold.isSome_explorePCLater (h : ReadsHold cfg) (s : State) (pc : UInt64) :
    (explorePCLater cfg s pc).isSome = true := by
  unfold explorePCLater
  split_ifs
  · rfl
  · rw [Option.isSome_map]
    rcases VisitedIntervals.bsearch_eq cfg.m_visitedPCIntervals pc with ⟨-, t, iv, hle, hsum, -⟩ |
      ⟨hs, -⟩
    · have hlast := VisitedIntervals.lastIndex_lt_size (v := cfg.m_visitedPCIntervals) (by omega)
      have hsize := h.intervals
      omega
    · rw [hs]
      rfl

theorem ReadsHold.isSome_allPossiblePCs (h : ReadsHold cfg) (pc : UInt64) (tb : TranslationBlock) :
    (allPossiblePCs G cfg pc tb).isSome = true := by
  unfold allPossiblePCs
  cases hinfo : jumpTableOf cfg pc tb with
  | none => rfl
  | some info =>
    rw [Option.isSome_map]
    have hmem := List.mem_of_find?_eq_some (Option.filter_eq_some_iff.mp hinfo).1
    exact h.tables info (List.mem_reverse.mp hmem)

theorem newBlocks_of_records (hrec : Records s) : newBlocks G s =
    [⟨s.pc, (G.translate s.pc s.thumb).llvm_first_pc_after_bb, s.thumb⟩] := if_pos hrec

theorem slotExecuteBlockStart_continues (h : Ready G cfg s) :
    (slotExecuteBlockStart G cfg s).Continues G cfg s := by
  unfold slotExecuteBlockStart
  dsimp only
  split_ifs with hmode hpc
  · -- the mode is forced
    have hnew : newBlocks G s = [] := if_neg hmode
    refine ⟨⟨h.inv.withThumb _, h.covered⟩, ?_, by rw [hnew, List.append_nil]⟩
    have hsure : thisIsForSureThumbMode { s with thumb := thisIsForSureThumbMode s } =
        thisIsForSureThumbMode s := by
      unfold thisIsForSureThumbMode
      cases s.m_isPCThumb (realPC s.pc) <;> rfl
    have htodo : todo { s with thumb := thisIsForSureThumbMode s } = todo s := rfl
    unfold calls
    rw [hsure, htodo, if_pos rfl, if_neg hmode]
    exact Nat.lt_succ_self _
  · have hrec : Records s := not_not.mp hmode
    cases hs : (allPossiblePCs G cfg s.pc (G.translate s.pc s.thumb)).bind fun pcs =>
        pcs.foldlM (RecursiveDescentDisassembler.schedule cfg (G.translate s.pc s.thumb))
          (record s (G.translate s.pc s.thumb)) with
    | some s' =>
      -- the block is recorded, its targets are scheduled, and the next one is taken
      obtain ⟨pcs, hpcs, hfold⟩ := Option.bind_eq_some_iff.mp hs
      obtain ⟨hinv, hcovered, htodo, hblocks⟩ := h.schedule hpcs hfold
      have hnew : s'.m_allBasicBlocks = s.m_allBasicBlocks ++ newBlocks G s := by
        rw [newBlocks_of_records hrec]
        exact hblocks
      exact (exploreNext_resumes hinv rfl).continues hcovered htodo hrec hnew
    | none =>
      -- only a table or the intervals can fail
      intro hok
      obtain ⟨pcs, hpcs⟩ :=
        Option.isSome_iff_exists.mp (hok.isSome_allPossiblePCs s.pc (G.translate s.pc s.thumb))
      have hfold := OptionMapM.isSome_foldlM (l := pcs)
        (g := RecursiveDescentDisassembler.schedule cfg (G.translate s.pc s.thumb))
        (fun t _ s₁ => Option.isSome_map.trans (hok.isSome_explorePCLater s₁ (realPC t)))
        (record s (G.translate s.pc s.thumb))
      rw [hpcs, Option.bind_some] at hs
      rw [hs] at hfold
      cases hfold
  · exact fun _ hblock => hpc (hblock (not_not.mp hmode))

/-! ## Whole runs -/

theorem Ready.step (h : Ready G cfg s) (hs : step G cfg s = some s') :
    Ready G cfg s' ∧ calls s' < calls s ∧
      s'.m_allBasicBlocks = s.m_allBasicBlocks ++ newBlocks G s := by
  have hcont := slotExecuteBlockStart_continues h
  unfold RecursiveDescentDisassembler.step at hs
  cases ho : slotExecuteBlockStart G cfg s with
  | cpuExit s₁ =>
    rw [ho] at hs hcont
    obtain rfl := Option.some.inj hs
    exact hcont
  | exited s₁ => rw [ho] at hs; cases hs
  | aborted => rw [ho] at hs; cases hs

theorem ready_initial (G : Guest) (cfg : Config) (pc : UInt64) (thumb : Bool) :
    Ready G cfg (initial cfg pc thumb) :=
  ⟨inv_initial G cfg pc thumb, fun _ hbb => nomatch hbb⟩

/-- At the end every known program counter is recorded, was visited from the start, or is outside
the memory. -/
theorem Inv.settled (h : Inv G cfg [] s) (hv : s.m_scheduledPCsVector = []) {pc : UInt64}
    (hk : Known cfg s pc) :
    pc ∈ recorded s ∨ InitiallyVisited cfg pc ∨ G.isValidCodeAccess pc = false := by
  rcases hk with hvisited | hm | hc
  · exact (h.visited_settled pc hvisited).imp_right Or.inl
  · rcases h.map_settled pc hm with htodo | hr | hi
    · rw [hv] at htodo
      cases htodo
    · exact Or.inl hr
    · exact Or.inr (Or.inr hi)
  · exact Or.inr (Or.inl (Or.inr hc))

/-- The asserts hold in an exploration from a first block at `pc`: the blocks that are recorded in
it end after their starts, and so do the tables and the intervals. -/
structure AssertsHold (G : Guest) (cfg : Config) (pc : UInt64) (thumb : Bool) : Prop
    extends ReadsHold cfg where
  blocks : ∀ xs s, Run (step G cfg) (initial cfg pc thumb) xs s → BlockHolds G s

/-- The exploration from a first block at `pc`: it stops; in between the blocks executed so far are
recorded, unless the mode was forced, and no program counter twice; at `exit()` so is the last
block, and no target is lost; and it stops at `exit()` unless an assert fails. -/
structure Explores (G : Guest) (cfg : Config) (pc : UInt64) (thumb : Bool) : Prop where
  stops : ∃ xs s, Run (step G cfg) (initial cfg pc thumb) xs s ∧ step G cfg s = none
  records : ∀ xs s, Run (step G cfg) (initial cfg pc thumb) xs s →
    s.m_allBasicBlocks = xs.flatMap (newBlocks G)
  once : ∀ xs s, Run (step G cfg) (initial cfg pc thumb) xs s → (recorded s).Nodup
  complete : ∀ xs s s', Run (step G cfg) (initial cfg pc thumb) xs s →
    slotExecuteBlockStart G cfg s = .exited s' →
    Records s ∧ s'.m_allBasicBlocks = (xs ++ [s]).flatMap (newBlocks G) ∧ (recorded s').Nodup ∧
      ∀ bb ∈ s'.m_allBasicBlocks, ∀ t ∈ targetsOf G cfg bb,
        realPC t ∈ recorded s' ∨ InitiallyVisited cfg (realPC t) ∨
        G.isValidCodeAccess (realPC t) = false
  exits : AssertsHold G cfg pc thumb → ∀ xs s, Run (step G cfg) (initial cfg pc thumb) xs s →
    step G cfg s = none → ∃ s', slotExecuteBlockStart G cfg s = .exited s'

/-- **The recursive descent stops, records every block it executes and no program counter twice, and
loses no target.** -/
theorem explores (G : Guest) (cfg : Config) (pc : UInt64) (thumb : Bool) :
    Explores G cfg pc thumb := by
  have hinit := ready_initial G cfg pc thumb
  have hrun : ∀ xs s, Run (step G cfg) (initial cfg pc thumb) xs s → Ready G cfg s := fun xs s h =>
    h.preserves (fun _ _ hr hs => (hr.step hs).1) hinit
  have hrecords : ∀ xs s, Run (step G cfg) (initial cfg pc thumb) xs s →
      s.m_allBasicBlocks = xs.flatMap (newBlocks G) := fun xs s h =>
    h.flatMap (fun _ _ hr hs => ⟨(hr.step hs).1, (hr.step hs).2.2⟩) hinit
  refine ⟨Run.exists_stop (fun _ _ hr hs => ⟨(hr.step hs).1, (hr.step hs).2.1⟩) hinit, hrecords,
    fun xs s h => (hrun xs s h).inv.recorded_nodup, fun xs s s' h hexit => ?_,
      fun hok xs s h hstop => ?_⟩
  · have hcont := slotExecuteBlockStart_continues (hrun xs s h)
    rw [hexit] at hcont
    obtain ⟨hinv, hcovered, hv, hrec, hblocks⟩ := hcont
    refine ⟨hrec, ?_, hinv.recorded_nodup, fun bb hbb t ht =>
      hinv.settled hv (hcovered bb hbb t ht)⟩
    rw [hblocks, hrecords xs s h, List.flatMap_append, List.flatMap_singleton]
  · have hcont := slotExecuteBlockStart_continues (hrun xs s h)
    unfold step at hstop
    cases ho : slotExecuteBlockStart G cfg s with
    | cpuExit s₁ => rw [ho] at hstop; cases hstop
    | exited s₁ => exact ⟨s₁, rfl⟩
    | aborted => rw [ho] at hcont; exact absurd (hok.blocks xs s h) (hcont hok.toReadsHold)

/-- A block at `0x8000` with a jump table at `0xa000`, whose one entry is outside the memory, and a
block at `0x8004` that goes back. -/
def tableGuest : Guest where
  translate := fun pc _ =>
    if pc = 0x8000 then ⟨0x8004, [0x8004], none, .undefined⟩ else ⟨pc + 2, [0x8001], none, .unset⟩
  memory := fun a => if a = 0xa001 then 0x90 else 0
  isValidCodeAccess := fun pc => pc < 0x9000

/-- The table, and that `0x8000` is in thumb mode. -/
def tableConfig : Config where
  m_visitedPCIntervals := .empty
  jptInfo := [⟨0x8000, 0x8004, 0x8002, 0x8004, 0xa000, 3, 3⟩]
  isThumbIn := [0x8000]

def tableInitial : State := initial tableConfig 0x8000 false

/-- After the mode was forced. -/
def tableForced : State := (step tableGuest tableConfig tableInitial).get (by decide +kernel)

/-- After the block at `0x8000` was recorded. -/
def tableRecorded : State := (step tableGuest tableConfig tableForced).get (by decide +kernel)

theorem run_tableRecorded :
    Run (step tableGuest tableConfig) tableInitial [tableInitial, tableForced] tableRecorded :=
  .head (Option.some_get _).symm (.head (Option.some_get _).symm (.refl _))

theorem step_tableRecorded : step tableGuest tableConfig tableRecorded = none := by
  decide +kernel

theorem assertsHold_tableGuest : AssertsHold tableGuest tableConfig 0x8000 false where
  tables := by decide
  intervals := by decide
  blocks := fun xs s h => by
    have hmem := run_tableRecorded.mem_of_stops step_tableRecorded h
    simp only [List.cons_append, List.nil_append, List.mem_cons, List.not_mem_nil, or_false] at hmem
    unfold BlockHolds
    rcases hmem with rfl | rfl | rfl <;> decide +kernel

/-- The blocks at `0x8000` and `0x8004` are recorded, both in thumb mode; the entry of the table is
a target that is dropped. -/
theorem explores_tableGuest : AssertsHold tableGuest tableConfig 0x8000 false ∧
    ∃ xs s s', Run (step tableGuest tableConfig) (initial tableConfig 0x8000 false) xs s ∧
      slotExecuteBlockStart tableGuest tableConfig s = .exited s' ∧
      s'.m_allBasicBlocks = [⟨0x8000, 0x8004, true⟩, ⟨0x8004, 0x8006, true⟩] ∧
      0x9000 ∈ s'.m_allBasicBlocks.flatMap (targetsOf tableGuest tableConfig) := by
  have hexplores := explores tableGuest tableConfig 0x8000 false
  obtain ⟨s', hexit⟩ := hexplores.exits assertsHold_tableGuest _ _ run_tableRecorded
    step_tableRecorded
  have hblocks := (hexplores.complete _ _ _ run_tableRecorded hexit).2.1
  have hall : ([tableInitial, tableForced] ++ [tableRecorded]).flatMap (newBlocks tableGuest) =
      [⟨0x8000, 0x8004, true⟩, ⟨0x8004, 0x8006, true⟩] := by decide +kernel
  refine ⟨assertsHold_tableGuest, _, _, s', run_tableRecorded, hexit, hblocks.trans hall, ?_⟩
  rw [hblocks, hall]
  decide

end Bin2llvm.RecursiveDescentDisassembler
