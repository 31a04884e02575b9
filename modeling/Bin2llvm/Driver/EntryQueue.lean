import Bin2llvm.Coverage
import Mathlib.Data.Finset.Card

/-!
# Bin2llvm.Driver.EntryQueue — the main loop of the driver

The loop of `main` takes entries from a queue, skips those its coverage contains, runs the tools on
the others and appends what the tools found.  The tools may do anything: each iteration gets their
results from outside.

* `mem_translated_iff`, `visited_iff`: the entries translated and covered so far.
* `terminates`: over finitely many addresses the loop ends if it translates no entry twice.
* `translatesOnce_iff`: it does so exactly when every entry that comes up again has been covered by
  then.
-/

namespace Bin2llvm.Driver

open CoverageStatusQemu

/-! ## The loop -/

/-- What the tools do in one iteration: the lines of the QEMU log, if there is one, the results of
`run_passes_pre` and `run_indirect_solver`, and the contents of the two files of new targets. -/
structure Tools where
  qemuLog : Option (List (List Char))
  passesOk : Bool
  solverOk : Bool
  newTargetsFuncs : List ℕ
  newTargetsRemaining : List ℕ
  deriving DecidableEq, Repr

/-- The modules handed to the linker: `funcs-%d.bc` and `funcs-indirect-%d.bc`. -/
inductive FuncBc where
  | funcs (cnt : ℕ)
  | funcsIndirect (cnt : ℕ)
  deriving DecidableEq, Repr

/-- The variables of the loop, and the entries the translator was run on. -/
structure LoopState where
  entryQueue : List ℕ
  head : ℕ
  cov : List Interval
  cnt : ℕ
  func_bcs : List FuncBc
  translated : List ℕ
  deriving DecidableEq, Repr

def initLoop (entry_address : List ℕ) : LoopState := ⟨entry_address, 0, [], 0, [], []⟩

/-- `for b in new_discovered: if not cov.visited(b): entryQueue.append(b)`. -/
def enqueue (cov : List Interval) (queue newDiscovered : List ℕ) : List ℕ :=
  queue ++ newDiscovered.filter fun b => !visited cov b

/-- `if ok is True: cov.extend_with_qemu_log(…)`; the log is opened without a handler. -/
def extendCoverage (cov : List Interval) (t : Tools) : Option (List Interval) :=
  if t.passesOk then t.qemuLog.map (extendWithQemuLog cov) else some cov

/-- One iteration.  The loop is left (`none`) at the end of the queue, and when the log cannot be opened. -/
def stepLoop (t : Tools) (s : LoopState) : Option LoopState :=
  match s.entryQueue[s.head]? with
  | none => none
  | some e =>
    if visited s.cov e then some { s with head := s.head + 1 }
    else (extendCoverage s.cov t).map fun cov =>
      { entryQueue := enqueue cov (enqueue cov s.entryQueue t.newTargetsFuncs) t.newTargetsRemaining
        head := s.head + 1
        cov := cov
        cnt := s.cnt + 1
        func_bcs := s.func_bcs ++ (if t.solverOk then [.funcsIndirect s.cnt] else []) ++ [.funcs s.cnt]
        translated := s.translated ++ [e] }

/-- The state after `n` iterations, if the loop gets so far. -/
def stateAt (entry_address : List ℕ) (tools : ℕ → Tools) : ℕ → Option LoopState
  | 0 => some (initLoop entry_address)
  | n + 1 => (stateAt entry_address tools n).bind (stepLoop (tools n))

/-- The entry that iteration `n` takes from the queue. -/
def entryAt (entry_address : List ℕ) (tools : ℕ → Tools) (n : ℕ) : Option ℕ :=
  (stateAt entry_address tools n).bind fun s => s.entryQueue[s.head]?

/-- Iteration `n` takes the entry `e` from the queue and runs the translator on it. -/
def Translates (entry_address : List ℕ) (tools : ℕ → Tools) (n e : ℕ) : Prop :=
  ∃ s, stateAt entry_address tools n = some s ∧ s.entryQueue[s.head]? = some e ∧
    visited s.cov e = false

/-- Iteration `n` runs the tools, the passes succeed, and the QEMU log has the address `pc`. -/
def Covers (entry_address : List ℕ) (tools : ℕ → Tools) (n pc : ℕ) : Prop :=
  (∃ e, Translates entry_address tools n e) ∧ (tools n).passesOk = true ∧
    ∃ lines, (tools n).qemuLog = some lines ∧ ∃ i ∈ getIntervalsFromQemu lines, i.1 ≤ pc ∧ pc ≤ i.2

variable {entry_address : List ℕ} {tools : ℕ → Tools} {t : Tools} {s s' : LoopState} {n e pc : ℕ}

/-! ## One iteration -/

/-- What an iteration can do. -/
theorem stepLoop_cases (h : stepLoop t s = some s') : ∃ e, s.entryQueue[s.head]? = some e ∧
    ((visited s.cov e = true ∧ s' = { s with head := s.head + 1 }) ∨
      (visited s.cov e = false ∧ ∃ cov, extendCoverage s.cov t = some cov ∧ s'.cov = cov ∧ s'.head = s.head + 1 ∧
        s'.translated = s.translated ++ [e] ∧
        s'.entryQueue = enqueue cov (enqueue cov s.entryQueue t.newTargetsFuncs) t.newTargetsRemaining ∧
        s'.cnt = s.cnt + 1 ∧
        s'.func_bcs = s.func_bcs ++ (if t.solverOk then [.funcsIndirect s.cnt] else []) ++ [.funcs s.cnt])) := by
  unfold stepLoop at h
  cases hq : s.entryQueue[s.head]? with
  | none => rw [hq] at h; simp at h
  | some e =>
    rw [hq] at h
    refine ⟨e, rfl, ?_⟩
    simp only at h
    by_cases hv : visited s.cov e = true
    · rw [if_pos hv] at h
      exact Or.inl ⟨hv, (Option.some.inj h).symm⟩
    · rw [if_neg hv] at h
      obtain ⟨cov, hcov, rfl⟩ := Option.map_eq_some_iff.mp h
      exact Or.inr ⟨by simpa using hv, cov, hcov, rfl, rfl, rfl, rfl, rfl, rfl⟩

/-- The coverage grows by the log of successful passes. -/
theorem visited_extendCoverage {cov cov' : List Interval} (h : extendCoverage cov t = some cov') :
    visited cov' pc = true ↔ visited cov pc = true ∨ (t.passesOk = true ∧
      ∃ lines, t.qemuLog = some lines ∧ ∃ i ∈ getIntervalsFromQemu lines, i.1 ≤ pc ∧ pc ≤ i.2) := by
  unfold extendCoverage at h
  split_ifs at h with hok
  · obtain ⟨lines, hlines, rfl⟩ := Option.map_eq_some_iff.mp h
    simp only [visited_iff, extendWithQemuLog, mem_mergeSortedLists, hlines, hok,
      Option.some.injEq, exists_eq_left', true_and]
    constructor
    · rintro ⟨i, hi | hi, hin⟩
      · exact Or.inl ⟨i, hi, hin⟩
      · exact Or.inr ⟨i, hi, hin⟩
    · rintro (⟨i, hi, hin⟩ | ⟨i, hi, hin⟩)
      · exact ⟨i, Or.inl hi, hin⟩
      · exact ⟨i, Or.inr hi, hin⟩
  · obtain rfl := Option.some.inj h
    simp [hok]

theorem mem_enqueue {cov : List Interval} {queue new : List ℕ}
    (h : e ∈ enqueue cov queue new) : e ∈ queue ∨ e ∈ new :=
  (List.mem_append.mp h).imp_right List.mem_of_mem_filter

/-! ## Runs -/

theorem stateAt_succ (h : stateAt entry_address tools (n + 1) = some s') :
    ∃ s, stateAt entry_address tools n = some s ∧ stepLoop (tools n) s = some s' :=
  Option.bind_eq_some_iff.mp h

/-- What every iteration keeps, the loop keeps. -/
theorem stateAt_preserves {P : ℕ → LoopState → Prop} (hinit : P 0 (initLoop entry_address))
    (hstep : ∀ n s s', stateAt entry_address tools n = some s → P n s →
      stepLoop (tools n) s = some s' → P (n + 1) s')
    (h : stateAt entry_address tools n = some s) : P n s := by
  induction n generalizing s with
  | zero => exact Option.some.inj h ▸ hinit
  | succ n ih =>
    obtain ⟨s₀, hs₀, hs⟩ := stateAt_succ h
    exact hstep n s₀ s hs₀ (ih hs₀) hs

/-- Once left, the loop is over. -/
theorem stateAt_eq_none_of_le {m : ℕ} (h : stateAt entry_address tools m = none) (hle : m ≤ n) :
    stateAt entry_address tools n = none := by
  induction n, hle using Nat.le_induction with
  | base => exact h
  | succ n _ ih => rw [stateAt, ih, Option.bind_none]

/-- The modules handed to the linker come from iterations that ran. -/
theorem mem_func_bcs (h : stateAt entry_address tools n = some s) :
    ∀ f ∈ s.func_bcs, ∃ k < s.cnt, f = .funcsIndirect k ∨ f = .funcs k := by
  refine stateAt_preserves (P := fun _ s => ∀ f ∈ s.func_bcs, ∃ k < s.cnt,
    f = .funcsIndirect k ∨ f = .funcs k) (by simp [initLoop]) (fun n s₀ s _ ih hstep => ?_) h
  obtain ⟨-, -, ⟨-, rfl⟩ | ⟨-, -, -, -, -, -, -, hcnt, hfiles⟩⟩ := stepLoop_cases hstep
  · exact ih
  · intro f hf
    rw [hfiles, List.append_assoc] at hf
    rcases List.mem_append.mp hf with hf | hf
    · obtain ⟨k, hk, hfk⟩ := ih f hf
      exact ⟨k, by omega, hfk⟩
    · refine ⟨s₀.cnt, by omega, ?_⟩
      rcases List.mem_append.mp hf with hf | hf
      · split_ifs at hf
        · exact Or.inl (List.mem_singleton.mp hf)
        · simp at hf
      · exact Or.inr (List.mem_singleton.mp hf)

theorem not_translates_of_visited (h : stateAt entry_address tools n = some s)
    (hq : s.entryQueue[s.head]? = some e) (hv : visited s.cov e = true) (e' : ℕ) :
    ¬ Translates entry_address tools n e' := by
  rintro ⟨s₁, hs₁, hq₁, hv₁⟩
  obtain rfl := Option.some.inj (h.symm.trans hs₁)
  obtain rfl := Option.some.inj (hq.symm.trans hq₁)
  rw [hv] at hv₁
  simp at hv₁

theorem Translates.unique {e' : ℕ} (h : Translates entry_address tools n e)
    (h' : Translates entry_address tools n e') : e = e' := by
  obtain ⟨s, hs, hq, -⟩ := h
  obtain ⟨s', hs', hq', -⟩ := h'
  obtain rfl := Option.some.inj (hs.symm.trans hs')
  exact Option.some.inj (hq.symm.trans hq')

/-- The entries translated so far. -/
theorem mem_translated_iff (h : stateAt entry_address tools n = some s) :
    e ∈ s.translated ↔ ∃ m < n, Translates entry_address tools m e := by
  refine stateAt_preserves (P := fun n s => e ∈ s.translated ↔
    ∃ m < n, Translates entry_address tools m e)
    (by simp [initLoop]) (fun n s₀ s hs₀ ih hstep => ?_) h
  simp only [Nat.lt_succ_iff_lt_or_eq, or_and_right, exists_or, exists_eq_left]
  rw [← ih]
  obtain ⟨e₀, hq, ⟨hv, rfl⟩ | ⟨hv, cov, -, -, -, htr, -⟩⟩ := stepLoop_cases hstep
  · rw [or_iff_left (not_translates_of_visited hs₀ hq hv e)]
  · rw [htr, List.mem_append, List.mem_singleton]
    refine or_congr_right ⟨?_, fun hn => ?_⟩
    · rintro rfl
      exact ⟨s₀, hs₀, hq, hv⟩
    · exact hn.unique ⟨s₀, hs₀, hq, hv⟩

/-- The addresses covered so far. -/
theorem visited_stateAt_iff (h : stateAt entry_address tools n = some s) :
    visited s.cov pc = true ↔ ∃ m < n, Covers entry_address tools m pc := by
  refine stateAt_preserves (P := fun n s => visited s.cov pc = true ↔
    ∃ m < n, Covers entry_address tools m pc)
    (by simp [initLoop, visited]) (fun n s₀ s hs₀ ih hstep => ?_) h
  simp only [Nat.lt_succ_iff_lt_or_eq, or_and_right, exists_or, exists_eq_left]
  rw [← ih]
  obtain ⟨e₀, hq, ⟨hv, rfl⟩ | ⟨hv, cov, hcov, rfl, -, -, -⟩⟩ := stepLoop_cases hstep
  · refine (or_iff_left ?_).symm
    rintro ⟨⟨e', he'⟩, -⟩
    exact not_translates_of_visited hs₀ hq hv e' he'
  · rw [visited_extendCoverage hcov]
    exact or_congr_right (and_iff_right ⟨e₀, s₀, hs₀, hq, hv⟩).symm

/-! ## Termination -/

/-- The translator runs at most once on every entry. -/
def TranslatesOnce (entry_address : List ℕ) (tools : ℕ → Tools) : Prop :=
  ∀ m n e, m < n → Translates entry_address tools m e → ¬ Translates entry_address tools n e

theorem TranslatesOnce.nodup (h : TranslatesOnce entry_address tools)
    (hs : stateAt entry_address tools n = some s) : s.translated.Nodup := by
  refine stateAt_preserves (P := fun _ s => s.translated.Nodup) List.nodup_nil
    (fun n s₀ s hs₀ ih hstep => ?_) hs
  obtain ⟨e₀, hq, ⟨hv, rfl⟩ | ⟨hv, cov, -, -, -, htr, -⟩⟩ := stepLoop_cases hstep
  · exact ih
  · rw [htr]
    refine List.Nodup.append ih (List.nodup_singleton e₀) ?_
    rw [List.disjoint_singleton, mem_translated_iff hs₀]
    rintro ⟨m, hm, he⟩
    exact h m n e₀ hm he ⟨s₀, hs₀, hq, hv⟩

section Finite

variable {A : Finset ℕ} (hentry : ∀ e ∈ entry_address, e ∈ A)
  (htools : ∀ n, ∀ e ∈ (tools n).newTargetsFuncs ++ (tools n).newTargetsRemaining, e ∈ A)

include hentry htools

theorem entryQueue_subset (h : stateAt entry_address tools n = some s) :
    ∀ e ∈ s.entryQueue, e ∈ A := by
  refine stateAt_preserves (P := fun _ s => ∀ e ∈ s.entryQueue, e ∈ A) hentry
    (fun n s₀ s _ ih hstep => ?_) h
  obtain ⟨e₀, -, ⟨-, rfl⟩ | ⟨-, cov, -, -, -, -, hqueue, -⟩⟩ := stepLoop_cases hstep
  · exact ih
  · intro e he
    rw [hqueue] at he
    rcases mem_enqueue he with he | he
    · rcases mem_enqueue he with he | he
      · exact ih e he
      · exact htools n e (List.mem_append_left _ he)
    · exact htools n e (List.mem_append_right _ he)

theorem translated_subset (h : stateAt entry_address tools n = some s) :
    ∀ e ∈ s.translated, e ∈ A := by
  intro e he
  obtain ⟨m, -, s₀, hs₀, hq, -⟩ := (mem_translated_iff h).mp he
  exact entryQueue_subset hentry htools hs₀ e (List.mem_of_getElem? hq)

theorem length_translated_le (honce : TranslatesOnce entry_address tools)
    (h : stateAt entry_address tools n = some s) : s.translated.length ≤ A.card := by
  rw [← List.toFinset_card_of_nodup (honce.nodup h)]
  exact Finset.card_le_card fun e he =>
    translated_subset hentry htools h e (List.mem_toFinset.mp he)

/-- Over finitely many addresses, a loop that translates no entry twice ends. -/
theorem terminates (honce : TranslatesOnce entry_address tools) :
    ∃ n, stateAt entry_address tools n = none := by
  -- every iteration brings the loop closer to the end of the queue, or uses up an address
  have key : ∀ a b n s, stateAt entry_address tools n = some s → A.card - s.translated.length = a →
      s.entryQueue.length - s.head = b → ∃ n, stateAt entry_address tools n = none := by
    intro a
    induction a using Nat.strong_induction_on with
    | _ a iha =>
      intro b
      induction b using Nat.strong_induction_on with
      | _ b ihb =>
        intro n s hs ha hb
        cases hnext : stateAt entry_address tools (n + 1) with
        | none => exact ⟨n + 1, hnext⟩
        | some s' =>
          obtain ⟨s₀, hs₀, hstep⟩ := stateAt_succ hnext
          obtain rfl := Option.some.inj (hs.symm.trans hs₀)
          obtain ⟨e, hq, ⟨-, rfl⟩ | ⟨-, cov, -, -, -, htr, -⟩⟩ := stepLoop_cases hstep
          · have hlt := (List.getElem?_eq_some_iff.mp hq).1
            exact ihb _ (by dsimp only; omega) _ _ hnext ha rfl
          · have hle := length_translated_le hentry htools honce hnext
            have hlen : s'.translated.length = s.translated.length + 1 := by
              rw [htr, List.length_append]; rfl
            exact iha _ (by omega) _ _ _ hnext rfl rfl
  exact key _ _ 0 _ rfl rfl rfl

end Finite

/-- An entry that comes up again is covered by then. -/
def CoveredWhenRepeated (entry_address : List ℕ) (tools : ℕ → Tools) : Prop :=
  ∀ m n e, m < n → entryAt entry_address tools m = some e → entryAt entry_address tools n = some e →
    ∃ k < n, Covers entry_address tools k e

/-- **The loop translates every entry at most once, and ends, exactly when every entry that comes up
again is covered by then.** -/
theorem translatesOnce_iff {A : Finset ℕ} (hentry : ∀ e ∈ entry_address, e ∈ A)
    (htools : ∀ n, ∀ e ∈ (tools n).newTargetsFuncs ++ (tools n).newTargetsRemaining, e ∈ A) :
    (TranslatesOnce entry_address tools ∧ ∃ n, stateAt entry_address tools n = none) ↔
      CoveredWhenRepeated entry_address tools := by
  constructor
  · rintro ⟨honce, -⟩ m n e hmn hm hn
    obtain ⟨sm, hsm, hqm⟩ := Option.bind_eq_some_iff.mp hm
    obtain ⟨sn, hsn, hqn⟩ := Option.bind_eq_some_iff.mp hn
    by_cases hvn : visited sn.cov e = true
    · exact (visited_stateAt_iff hsn).mp hvn
    · by_cases hvm : visited sm.cov e = true
      · obtain ⟨k, hk, hc⟩ := (visited_stateAt_iff hsm).mp hvm
        exact ⟨k, hk.trans hmn, hc⟩
      · exact absurd ⟨sn, hsn, hqn, by simpa using hvn⟩ (honce m n e hmn ⟨sm, hsm, hqm,
          by simpa using hvm⟩)
  · intro hcov
    have honce : TranslatesOnce entry_address tools := by
      rintro m n e hmn ⟨sm, hsm, hqm, -⟩ ⟨sn, hsn, hqn, hvn⟩
      have hm : entryAt entry_address tools m = some e := Option.bind_eq_some_iff.mpr ⟨sm, hsm, hqm⟩
      have hn : entryAt entry_address tools n = some e := Option.bind_eq_some_iff.mpr ⟨sn, hsn, hqn⟩
      have := (visited_stateAt_iff hsn).mpr (hcov m n e hmn hm hn)
      rw [hvn] at this
      simp at this
    exact ⟨honce, terminates hentry htools honce⟩

/-- Everything works, and the solver reports the entry. -/
def goodTools : Tools := ⟨some ["0x00008000:  e12fff1e".toList], true, true, [0x8000], []⟩

/-- The passes fail, and the solver reports the entry. -/
def badTools : Tools := ⟨none, false, false, [0x8000], []⟩

theorem goodTools_once : TranslatesOnce [0x8000] (fun _ => goodTools) ∧
    ∃ n, stateAt [0x8000] (fun _ => goodTools) n = none := by
  have htools : ∀ n : ℕ, ∀ e ∈ [0x8000] ++ [], e ∈ ({0x8000} : Finset ℕ) := fun _ => by decide
  refine (translatesOnce_iff (by decide) htools).mpr fun m n e hmn _ hn => ?_
  have hend : stateAt [0x8000] (fun _ => goodTools) 2 = none := by decide
  obtain ⟨s, hs, hq⟩ := Option.bind_eq_some_iff.mp hn
  rcases n with _ | _ | n
  · exact absurd hmn (Nat.not_lt_zero m)
  · have hnone : entryAt [0x8000] (fun _ => goodTools) 1 = none := by decide
    exact nomatch hn.symm.trans hnone
  · exact nomatch hs.symm.trans (stateAt_eq_none_of_le hend (Nat.le_add_left 2 n))

/-- The loop never ends. -/
theorem badTools_not_once : ¬ TranslatesOnce [0x8000] (fun _ => badTools) ∧
    ∀ n, stateAt [0x8000] (fun _ => badTools) n ≠ none := by
  refine ⟨fun h => h 0 1 0x8000 (by decide) ⟨_, rfl, rfl, rfl⟩ ⟨_, rfl, rfl, rfl⟩, fun n => ?_⟩
  have key : ∀ n, ∃ s, stateAt [0x8000] (fun _ => badTools) n = some s ∧ s.cov = [] ∧ s.head = n ∧
      s.entryQueue = List.replicate (n + 1) 0x8000 := by
    intro n
    induction n with
    | zero => exact ⟨_, rfl, rfl, rfl, rfl⟩
    | succ n ih =>
      obtain ⟨s, hs, hcov, hhead, hqueue⟩ := ih
      have hq : s.entryQueue[s.head]? = some 0x8000 := by
        rw [hqueue, hhead, List.getElem?_replicate, if_pos (Nat.lt_succ_self n)]
      have hstep : stateAt [0x8000] (fun _ => badTools) (n + 1) = stepLoop badTools s := by
        rw [stateAt, hs, Option.bind_some]
      rw [hstep]
      unfold stepLoop
      simp only [hq, hcov]
      refine ⟨_, rfl, rfl, congrArg (· + 1) hhead, ?_⟩
      rw [hqueue, List.replicate_succ' (n := n + 1)]
      exact List.append_nil _
  obtain ⟨s, hs, -⟩ := key n
  rw [hs]
  simp

end Bin2llvm.Driver
