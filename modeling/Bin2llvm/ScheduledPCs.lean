import Bin2llvm.ThumbModes

/-!
# Bin2llvm.ScheduledPCs — the vector and the map of the scheduled program counters

`explorePCLater` asks whether the map has a key, `getNextRealPC` only clears the value of the key.

* `scheduled_of_run`: after any sequence of operations the vector has no duplicates, and the map is
  true on it only.
* `map_eq_false_iff`: the key of an extracted program counter stays.
* `bookkept_iff`: when no program counter is refused for its key alone.
-/

namespace Bin2llvm.RecursiveDescentDisassembler

/-! ## The operations -/

/-- `explorePCLater` with what it returns. -/
def explorePCLaterResult (cfg : Config) (s : State) (pc : UInt64) : Option (Bool × State) :=
  if s.m_visitedPC pc ∨ (s.m_scheduledPCsMap pc).isSome then some (false, s)
  else (cfg.m_visitedPCIntervals.isPCInVisitedIntervalsBsearch pc).map fun found =>
    if found then (false, s)
    else (true, { s with
      m_scheduledPCsVector := pc :: s.m_scheduledPCsVector
      m_scheduledPCsMap := Function.update s.m_scheduledPCsMap pc (some true) })

/-- `getNextRealPC`; the assert fails when nothing is scheduled. -/
def getNextRealPC (s : State) : Option (UInt64 × State) :=
  match s.m_scheduledPCsVector with
  | [] => none
  | nextPC :: rest => some (nextPC, { s with
      m_scheduledPCsVector := rest
      m_scheduledPCsMap := Function.update s.m_scheduledPCsMap nextPC (some false) })

/-- `m_visitedPC[pc] = true`. -/
def visit (s : State) (pc : UInt64) : State :=
  { s with m_visitedPC := Function.update s.m_visitedPC pc true }

inductive Op where
  | explorePCLater (pc : UInt64)
  | getNextRealPC
  | visit (pc : UInt64)
  deriving DecidableEq, Repr

def Op.apply (cfg : Config) (s : State) : Op → Option State
  | .explorePCLater pc => (explorePCLaterResult cfg s pc).map Prod.snd
  | .getNextRealPC => (RecursiveDescentDisassembler.getNextRealPC s).map Prod.snd
  | .visit pc => some (RecursiveDescentDisassembler.visit s pc)

/-- The structures after the operations, if no assert fails. -/
def after (cfg : Config) (s : State) (ops : List Op) : Option State := ops.foldlM (Op.apply cfg) s

/-- Nothing is scheduled, and nothing ever was. -/
structure Empty (s : State) : Prop where
  vector : s.m_scheduledPCsVector = []
  map : ∀ pc, s.m_scheduledPCsMap pc = none

/-- The vector and the map go together. -/
structure MapMatches (s : State) : Prop where
  nodup : s.m_scheduledPCsVector.Nodup
  map_iff : ∀ pc, s.m_scheduledPCsMap pc = some true ↔ pc ∈ s.m_scheduledPCsVector

/-- `pc` is explored, or in an interval that is. -/
def Explored (cfg : Config) (s : State) (pc : UInt64) : Prop :=
  s.m_visitedPC pc = true ∨ cfg.m_visitedPCIntervals.Contains pc

/-- Before each operation of the sequence and after the last the vector and the map go together, and
what `explorePCLater` refuses is explored or scheduled. -/
def Bookkept (cfg : Config) (s₀ : State) (ops : List Op) : Prop :=
  ∀ before rest s, ops = before ++ rest → after cfg s₀ before = some s → MapMatches s ∧
    ∀ pc s', rest.head? = some (.explorePCLater pc) →
      explorePCLaterResult cfg s pc = some (false, s') →
      Explored cfg s pc ∨ pc ∈ s.m_scheduledPCsVector

/-- One of the operations is the `getNextRealPC` that returns `pc`. -/
def Extracted (cfg : Config) (s₀ : State) (ops : List Op) (pc : UInt64) : Prop :=
  ∃ before rest s s', ops = before ++ Op.getNextRealPC :: rest ∧ after cfg s₀ before = some s ∧
    getNextRealPC s = some (pc, s')

variable {G : Guest} {cfg : Config} {s s' s₀ : State} {ops : List Op} {op : Op} {pc : UInt64}

/-- The plugin drops what `explorePCLater` returns. -/
theorem explorePCLaterResult_snd (cfg : Config) (s : State) (pc : UInt64) :
    (explorePCLaterResult cfg s pc).map Prod.snd = explorePCLater cfg s pc := by
  unfold explorePCLaterResult explorePCLater
  split_ifs with h
  · rfl
  · rw [Option.map_map]
    refine congrArg (Option.map · _) (funext fun found => ?_)
    cases found <;> rfl

/-! ## One operation -/

theorem getNextRealPC_eq_some (h : getNextRealPC s = some (pc, s')) :
    s.m_scheduledPCsVector = pc :: s'.m_scheduledPCsVector ∧
    s'.m_scheduledPCsMap = Function.update s.m_scheduledPCsMap pc (some false) := by
  unfold getNextRealPC at h
  cases hv : s.m_scheduledPCsVector with
  | nil => rw [hv] at h; cases h
  | cons next rest => rw [hv] at h; cases h; exact ⟨rfl, rfl⟩

/-- What an operation does to the vector and the map. -/
theorem Op.apply_cases (h : op.apply cfg s = some s') :
    (s'.m_scheduledPCsVector = s.m_scheduledPCsVector ∧ s'.m_scheduledPCsMap = s.m_scheduledPCsMap ∧
      op ≠ .getNextRealPC) ∨
    (∃ pc, op = .explorePCLater pc ∧ s.m_scheduledPCsMap pc = none ∧
      s'.m_scheduledPCsVector = pc :: s.m_scheduledPCsVector ∧
      s'.m_scheduledPCsMap = Function.update s.m_scheduledPCsMap pc (some true)) ∨
    ∃ pc, op = .getNextRealPC ∧ RecursiveDescentDisassembler.getNextRealPC s = some (pc, s') := by
  cases op with
  | explorePCLater pc =>
    rw [Op.apply, explorePCLaterResult_snd] at h
    rcases explorePCLater_eq_some h with ⟨rfl, -⟩ | ⟨-, hmap, rfl⟩
    · exact Or.inl ⟨rfl, rfl, nofun⟩
    · exact Or.inr (Or.inl ⟨pc, rfl, hmap, rfl, rfl⟩)
  | getNextRealPC =>
    obtain ⟨⟨pc, s₁⟩, hnext, rfl⟩ := Option.map_eq_some_iff.mp h
    exact Or.inr (Or.inr ⟨pc, rfl, hnext⟩)
  | visit pc =>
    obtain rfl := Option.some.inj h
    exact Or.inl ⟨rfl, rfl, nofun⟩

theorem MapMatches.apply (h : MapMatches s) (hs : op.apply cfg s = some s') : MapMatches s' := by
  rcases Op.apply_cases hs with ⟨hv, hm, -⟩ | ⟨pc, -, hnew, hv, hm⟩ | ⟨pc, -, hnext⟩
  · exact ⟨hv ▸ h.nodup, fun p => by rw [hv, hm]; exact h.map_iff p⟩
  · have hpc : pc ∉ s.m_scheduledPCsVector := fun hmem => by
      rw [(h.map_iff pc).mpr hmem] at hnew
      cases hnew
    refine ⟨hv ▸ List.nodup_cons.mpr ⟨hpc, h.nodup⟩, fun p => ?_⟩
    rw [hv, hm, List.mem_cons]
    by_cases hp : p = pc
    · rw [hp, Function.update_self]
      exact ⟨fun _ => Or.inl rfl, fun _ => rfl⟩
    · rw [Function.update_of_ne hp, h.map_iff p]
      exact ⟨Or.inr, fun hor => hor.resolve_left hp⟩
  · obtain ⟨hv, hm⟩ := getNextRealPC_eq_some hnext
    have hnd := h.nodup
    rw [hv, List.nodup_cons] at hnd
    refine ⟨hnd.2, fun p => ?_⟩
    rw [hm]
    by_cases hp : p = pc
    · rw [hp, Function.update_self]
      exact ⟨nofun, fun hmem => absurd hmem hnd.1⟩
    · rw [Function.update_of_ne hp, h.map_iff p, hv, List.mem_cons]
      exact ⟨fun hor => hor.resolve_left hp, Or.inr⟩

/-- A cleared key comes from `getNextRealPC`, and is never set again. -/
theorem Op.map_eq_false_iff (hs : op.apply cfg s = some s') : s'.m_scheduledPCsMap pc = some false ↔
    s.m_scheduledPCsMap pc = some false ∨
      op = .getNextRealPC ∧ RecursiveDescentDisassembler.getNextRealPC s = some (pc, s') := by
  rcases Op.apply_cases hs with ⟨-, hm, hop⟩ | ⟨p, rfl, hnew, -, hm⟩ | ⟨p, rfl, hnext⟩
  · rw [hm]
    exact ⟨Or.inl, fun hor => hor.resolve_right fun h => hop h.1⟩
  · rw [hm]
    by_cases hp : pc = p
    · rw [hp, Function.update_self, hnew]
      simp
    · rw [Function.update_of_ne hp]
      simp
  · rw [(getNextRealPC_eq_some hnext).2]
    by_cases hp : pc = p
    · subst hp
      rw [Function.update_self]
      exact ⟨fun _ => Or.inr ⟨rfl, hnext⟩, fun _ => rfl⟩
    · rw [Function.update_of_ne hp]
      refine ⟨Or.inl, fun hor => hor.resolve_right fun h => ?_⟩
      rw [hnext] at h
      cases h.2
      exact hp rfl

/-- What `explorePCLater` refuses is explored, or has a key. -/
theorem explorePCLaterResult_refused (h : explorePCLaterResult cfg s pc = some (false, s')) :
    Explored cfg s pc ∨ (s.m_scheduledPCsMap pc).isSome = true := by
  have hsame : explorePCLater cfg s pc = some s' := by rw [← explorePCLaterResult_snd, h]; rfl
  rcases explorePCLater_eq_some hsame with ⟨-, hv | hm | hc⟩ | ⟨hv, hm, -⟩
  · exact Or.inl (Or.inl hv)
  · exact Or.inr hm
  · exact Or.inl (Or.inr hc)
  · unfold explorePCLaterResult at h
    rw [if_neg (by simp [hv, hm])] at h
    obtain ⟨found, hfound, hpair⟩ := Option.map_eq_some_iff.mp h
    cases found with
    | false => cases hpair
    | true =>
      rcases VisitedIntervals.bsearch_eq cfg.m_visitedPCIntervals pc with ⟨hs, -⟩ | ⟨hs, -⟩
      · rw [hs] at hfound; cases hfound
      · rw [hs] at hfound; cases hfound

theorem explorePCLaterResult_of_isSome (h : (s.m_scheduledPCsMap pc).isSome = true) :
    explorePCLaterResult cfg s pc = some (false, s) := if_pos (Or.inr h)

/-! ## Sequences of operations -/

theorem after_append_singleton (cfg : Config) (s : State) (ops : List Op) (op : Op) :
    after cfg s (ops ++ [op]) = (after cfg s ops).bind fun s₁ => op.apply cfg s₁ := by
  unfold after
  rw [List.foldlM_append]
  refine congrArg _ (funext fun s₁ => ?_)
  rw [List.foldlM_cons]
  exact Option.bind_fun_some _

/-- **The vector has no duplicates, and the map is true exactly on it, after any sequence of
operations.** -/
theorem scheduled_of_run (h₀ : Empty s₀) (h : after cfg s₀ ops = some s) : MapMatches s := by
  have hempty : MapMatches s₀ := ⟨by simp [h₀.vector], fun pc => by simp [h₀.vector, h₀.map]⟩
  exact OptionMapM.foldlM_preserves (P := fun _ s₁ => MapMatches s₁) (fun _ _ _ _ hm hs =>
    hm.apply hs) hempty h

theorem extracted_append_singleton (h : after cfg s₀ ops = some s) :
    Extracted cfg s₀ (ops ++ [op]) pc ↔
      Extracted cfg s₀ ops pc ∨ op = .getNextRealPC ∧ ∃ s', getNextRealPC s = some (pc, s') := by
  constructor
  · rintro ⟨before, rest, s₁, s₂, hops, hs₁, hnext⟩
    rcases List.eq_nil_or_concat rest with rfl | ⟨rest', last, rfl⟩
    · obtain ⟨rfl, hop⟩ := List.append_inj' hops rfl
      cases h.symm.trans hs₁
      exact Or.inr ⟨List.singleton_inj.mp hop, s₂, hnext⟩
    · rw [List.concat_eq_append, ← List.cons_append, ← List.append_assoc] at hops
      exact Or.inl ⟨before, rest', s₁, s₂, (List.append_inj' hops rfl).1, hs₁, hnext⟩
  · rintro (⟨before, rest, s₁, s₂, rfl, hs₁, hnext⟩ | ⟨rfl, s', hnext⟩)
    · exact ⟨before, rest ++ [op], s₁, s₂, by simp, hs₁, hnext⟩
    · exact ⟨ops, [], s, s', rfl, h, hnext⟩

/-- The keys that are cleared are those of the extracted program counters. -/
theorem map_eq_false_iff (h₀ : Empty s₀) (h : after cfg s₀ ops = some s) :
    s.m_scheduledPCsMap pc = some false ↔ Extracted cfg s₀ ops pc := by
  induction ops using List.reverseRecOn generalizing s with
  | nil =>
    obtain rfl := Option.some.inj h
    rw [h₀.map]
    refine ⟨nofun, ?_⟩
    rintro ⟨before, rest, s₁, s₂, hops, -⟩
    exact absurd hops (by simp)
  | append_singleton ops op ih =>
    rw [after_append_singleton] at h
    obtain ⟨s₁, hs₁, hop⟩ := Option.bind_eq_some_iff.mp h
    rw [Op.map_eq_false_iff hop, extracted_append_singleton hs₁, ih hs₁]
    refine or_congr Iff.rfl (and_congr_right fun hnext => ⟨fun h => ⟨s, h⟩, ?_⟩)
    rintro ⟨s₂, hs₂⟩
    rw [hnext, Op.apply, hs₂] at hop
    obtain rfl := Option.some.inj hop
    exact hs₂

/-- **`explorePCLater` refuses without need exactly what was extracted before and is not
explored.** -/
theorem bookkept_iff (h₀ : Empty s₀) : Bookkept cfg s₀ ops ↔
    ∀ before rest s pc, ops = before ++ Op.explorePCLater pc :: rest →
      after cfg s₀ before = some s → Extracted cfg s₀ before pc → Explored cfg s pc := by
  constructor
  · intro h before rest s pc hops hs hex
    have hmap := (map_eq_false_iff h₀ hs).mpr hex
    obtain ⟨hmatch, hrefused⟩ := h before _ s hops hs
    rcases hrefused pc s rfl (explorePCLaterResult_of_isSome (by rw [hmap]; rfl)) with hv | hmem
    · exact hv
    · rw [(hmatch.map_iff pc).mpr hmem] at hmap
      cases hmap
  · intro h before rest s hops hs
    have hmatch := scheduled_of_run h₀ hs
    refine ⟨hmatch, fun pc s' hhead hres => ?_⟩
    obtain ⟨rest', rfl⟩ : ∃ rest', rest = Op.explorePCLater pc :: rest' := by
      cases rest with
      | nil => cases hhead
      | cons op rest' => exact ⟨rest', by rw [Option.some.inj hhead]⟩
    rcases explorePCLaterResult_refused hres with hv | hkey
    · exact Or.inl hv
    · obtain ⟨b, hb⟩ := Option.isSome_iff_exists.mp hkey
      cases b with
      | true => exact Or.inr ((hmatch.map_iff pc).mp hb)
      | false => exact Or.inl (h before rest' s pc hops hs ((map_eq_false_iff h₀ hs).mp hb))

theorem empty_initial (cfg : Config) (pc : UInt64) (thumb : Bool) : Empty (initial cfg pc thumb) :=
  ⟨rfl, fun _ => rfl⟩

/-- A program counter is scheduled, taken out and, as it was no valid code then, scheduled again. -/
def takenAndScheduled : List Op := [.explorePCLater 0x2000, .getNextRealPC, .explorePCLater 0x2000]

theorem bookkept_iff_initial : Bookkept noFiles (initial noFiles 0x1000 false) takenAndScheduled ↔
    ∀ before rest s pc, takenAndScheduled = before ++ Op.explorePCLater pc :: rest →
      after noFiles (initial noFiles 0x1000 false) before = some s →
      Extracted noFiles (initial noFiles 0x1000 false) before pc → Explored noFiles s pc :=
  bookkept_iff (empty_initial noFiles 0x1000 false)

/-- It is neither visited nor in the vector, and is refused. -/
theorem not_bookkept_takenAndScheduled :
    ¬ Bookkept noFiles (initial noFiles 0x1000 false) takenAndScheduled := by
  intro h
  obtain ⟨-, hrefused⟩ :=
    h [.explorePCLater 0x2000, .getNextRealPC] [.explorePCLater 0x2000] _ rfl rfl
  rcases hrefused 0x2000 _ rfl rfl with (hv | ⟨iv, hiv, -⟩) | hmem
  · cases hv
  · cases hiv
  · cases hmem

end Bin2llvm.RecursiveDescentDisassembler
