import Mathlib.Data.List.Forall2

/-!
# Bin2llvm.Lib.OptionMapM — loops that may fail

`List.mapM` in `Option`: the loop goes through when every step does, and its results stand in the
places of the elements they come from.  `List.foldlM` in `Option`: what a step preserves, the loop
preserves.
-/

namespace OptionMapM

variable {α β : Type*} {f : α → Option β} {l : List α} {r : List β}

theorem mapM_eq_some_iff : l.mapM f = some r ↔ List.Forall₂ (fun a b => f a = some b) l r := by
  induction l generalizing r with
  | nil =>
    rw [List.mapM_nil, List.forall₂_nil_left_iff]
    exact ⟨fun h => (Option.some.inj h).symm, fun h => congrArg some h.symm⟩
  | cons a l ih =>
    rw [List.mapM_cons]
    constructor
    · intro h
      obtain ⟨b, hb, h⟩ := Option.bind_eq_some_iff.mp h
      obtain ⟨bs, hbs, h⟩ := Option.bind_eq_some_iff.mp h
      obtain rfl : b :: bs = r := Option.some.inj h
      exact List.Forall₂.cons hb (ih.mp hbs)
    · intro h
      cases h with
      | cons hb hbs =>
        rw [hb, ih.mpr hbs]
        rfl

theorem mapM_eq_some_map {g : α → β} (h : ∀ a ∈ l, f a = some (g a)) : l.mapM f = some (l.map g) :=
  mapM_eq_some_iff.mpr (List.forall₂_map_right_iff.mpr (List.forall₂_same.mpr h))

theorem mapM_congr {g : α → Option β} (h : ∀ a ∈ l, f a = g a) : l.mapM f = l.mapM g := by
  induction l with
  | nil => rfl
  | cons a l ih =>
    have ⟨ha, hl⟩ := List.forall_mem_cons.mp h
    rw [List.mapM_cons, List.mapM_cons, ha, ih hl]

theorem isSome_mapM : (l.mapM f).isSome ↔ ∀ a ∈ l, (f a).isSome := by
  induction l with
  | nil => simp
  | cons a l ih =>
    rw [List.mapM_cons, List.forall_mem_cons, ← ih]
    cases f a with
    | none => simp
    | some b => cases l.mapM f <;> simp

theorem mapM_getElem? (h : l.mapM f = some r) (n : ℕ) : r[n]? = (l[n]?).bind f := by
  have h2 := mapM_eq_some_iff.mp h
  clear h
  induction h2 generalizing n with
  | nil => simp
  | cons hb _ ih =>
    cases n with
    | zero => simp [hb]
    | succ n => simpa using ih n

theorem exists_of_mem (h : l.mapM f = some r) {a : α} (ha : a ∈ l) : ∃ b ∈ r, f a = some b := by
  obtain ⟨n, hn, rfl⟩ := List.mem_iff_getElem.mp ha
  have hr := mapM_getElem? h n
  rw [List.getElem?_eq_getElem hn, Option.bind_some] at hr
  obtain ⟨b, hb⟩ := Option.isSome_iff_exists.mp (isSome_mapM.mp (by rw [h]; rfl) _ ha)
  exact ⟨b, List.mem_of_getElem? (hr.trans hb), hb⟩

theorem exists_of_mem_result (h : l.mapM f = some r) {b : β} (hb : b ∈ r) :
    ∃ a ∈ l, f a = some b := by
  obtain ⟨n, hn⟩ := List.mem_iff_getElem?.mp hb
  rw [mapM_getElem? h n] at hn
  obtain ⟨a, ha, hab⟩ := Option.bind_eq_some_iff.mp hn
  exact ⟨a, List.mem_of_getElem? ha, hab⟩

/-- A loop whose steps, where they go through, are those of a function. -/
theorem mapM_eq_map {g : α → β} (h : l.mapM f = some r) (hg : ∀ a b, f a = some b →
    b = g a) : r = l.map g := by
  refine List.ext_getElem? fun n => ?_
  rw [mapM_getElem? h, List.getElem?_map]
  cases ha : l[n]? with
  | none => rfl
  | some a =>
    obtain ⟨b, -, hb⟩ := exists_of_mem h (List.mem_of_getElem? ha)
    rw [Option.bind_some, hb, hg a b hb]
    rfl

theorem map_mapM {γ : Type*} (g : β → γ) (l : List α) :
    (l.mapM f).map (List.map g) = l.mapM fun a => (f a).map g := by
  induction l with
  | nil => rfl
  | cons a l ih =>
    rw [List.mapM_cons, List.mapM_cons, ← ih]
    cases f a with
    | none => rfl
    | some b => cases l.mapM f <;> rfl

/-- The invariant rule of a loop: it may speak about the elements that are done. -/
theorem foldlM_preserves {g : β → α → Option β} {P : List α → β → Prop} {b b' : β}
    (hstep : ∀ done b a b', P done b → g b a = some b' → P (done ++ [a]) b') (hinit : P [] b)
    (h : l.foldlM g b = some b') : P l b' := by
  have key : ∀ (done todo : List α) (b : β), P done b → todo.foldlM g b = some b' →
      P (done ++ todo) b' := by
    intro done todo
    induction todo generalizing done with
    | nil =>
      intro b hb h
      obtain rfl : b = b' := Option.some.inj h
      rwa [List.append_nil]
    | cons a todo ih =>
      intro b hb h
      rw [List.foldlM_cons] at h
      obtain ⟨b₁, hb₁, h⟩ := Option.bind_eq_some_iff.mp h
      simpa using ih (done ++ [a]) b₁ (hstep done b a b₁ hb hb₁) h
  exact key [] l b hinit h

/-- A loop over lists of elements is one loop over the elements. -/
theorem foldlM_flatMap {γ : Type*} {h : γ → List α} {g : β → α → Option β} (cs : List γ) (b : β) :
    cs.foldlM (fun b c => (h c).foldlM g b) b = (cs.flatMap h).foldlM g b := by
  induction cs generalizing b with
  | nil => rfl
  | cons c cs ih =>
    rw [List.foldlM_cons, List.flatMap_cons, List.foldlM_append]
    exact congrArg _ (funext ih)

theorem isSome_foldlM {g : β → α → Option β} (h : ∀ a ∈ l, ∀ b, (g b a).isSome) (b : β) :
    (l.foldlM g b).isSome := by
  induction l generalizing b with
  | nil => rfl
  | cons a l ih =>
    obtain ⟨b', hb'⟩ := Option.isSome_iff_exists.mp (h a List.mem_cons_self b)
    rw [List.foldlM_cons, hb']
    exact ih (fun a' ha' => h a' (List.mem_cons_of_mem _ ha')) b'

/-- A loop whose steps go through is a loop without failure. -/
theorem foldlM_eq_some_foldl {g : β → α → Option β} {g' : β → α → β}
    (h : ∀ a ∈ l, ∀ b, g b a = some (g' b a)) (b : β) : l.foldlM g b = some (l.foldl g' b) := by
  induction l generalizing b with
  | nil => rfl
  | cons a l ih =>
    rw [List.foldlM_cons, h a List.mem_cons_self b, List.foldl_cons]
    exact ih (fun a' ha' => h a' (List.mem_cons_of_mem _ ha')) (g' b a)

/-- A loop that goes through has made a step at every element. -/
theorem exists_step {g : β → α → Option β} {b b' : β} (h : l.foldlM g b = some b') {a : α}
    (ha : a ∈ l) : ∃ c c', g c a = some c' := by
  induction l generalizing b with
  | nil => cases ha
  | cons a₀ l ih =>
    rw [List.foldlM_cons] at h
    obtain ⟨b₁, hb₁, h⟩ := Option.bind_eq_some_iff.mp h
    rcases List.mem_cons.mp ha with rfl | ha
    · exact ⟨b, b₁, hb₁⟩
    · exact ih h ha

end OptionMapM
