import Mathlib.Data.List.Chain
import Mathlib.Data.List.Forall2
import Mathlib.Data.List.Pairwise

/-!
# Bin2llvm.Lib.Lists — lists related element by element, and lists of pairs

* `exists_append`, `of_flatMap`: what is related to a list that is put together is put together of
  related lists.
* `forall₂_comp`: related step by step.
* `exists_find?`, `exists_getLast?`, `isChain_of_forall₂`: searches in related lists find related
  elements, their last elements are related, and chains stay chains.
* `lookup_of_mem`, `lookup_map_snd`: looking up in lists of pairs.
* `eq_of_key`, `find?_of_key`: elements with distinct keys.
* `flatMap_eq_iff`: concatenations of lists that are not longer than others.
-/

namespace Lists

variable {α β γ δ : Type*} {R : α → β → Prop} {l : List α} {l' : List β}

theorem exists_append {l₁ l₂ : List α} (h : List.Forall₂ R (l₁ ++ l₂) l') :
    ∃ l₁' l₂', l' = l₁' ++ l₂' ∧ List.Forall₂ R l₁ l₁' ∧ List.Forall₂ R l₂ l₂' := by
  induction l₁ generalizing l' with
  | nil => exact ⟨[], l', rfl, List.Forall₂.nil, h⟩
  | cons a l₁ ih =>
    obtain ⟨b, rest, hab, hrest, rfl⟩ := List.forall₂_cons_left_iff.mp h
    obtain ⟨l₁', l₂', rfl, h₁, h₂⟩ := ih hrest
    exact ⟨b :: l₁', l₂', rfl, List.Forall₂.cons hab h₁, h₂⟩

theorem exists_append_right {l₁' l₂' : List β} (h : List.Forall₂ R l (l₁' ++ l₂')) :
    ∃ l₁ l₂, l = l₁ ++ l₂ ∧ List.Forall₂ R l₁ l₁' ∧ List.Forall₂ R l₂ l₂' := by
  have hflip : List.Forall₂ (fun b a => R a b) (l₁' ++ l₂') l := List.Forall₂.flip h
  obtain ⟨l₁, l₂, heq, h₁, h₂⟩ := exists_append hflip
  exact ⟨l₁, l₂, heq, List.Forall₂.flip h₁, List.Forall₂.flip h₂⟩

theorem exists_of_mem (h : List.Forall₂ R l l') : ∀ a ∈ l, ∃ b ∈ l', R a b := by
  induction h with
  | nil => simp
  | cons hab _ ih =>
    refine List.forall_mem_cons.mpr ⟨⟨_, List.mem_cons_self, hab⟩, fun a ha => ?_⟩
    obtain ⟨b, hb, hR⟩ := ih a ha
    exact ⟨b, List.mem_cons_of_mem _ hb, hR⟩

theorem exists_of_mem_right (h : List.Forall₂ R l l') : ∀ b ∈ l', ∃ a ∈ l, R a b :=
  exists_of_mem (List.Forall₂.flip (R := fun b a => R a b) h)

theorem forall₂_comp {S : β → γ → Prop} {T : α → γ → Prop} {l'' : List γ}
    (hT : ∀ a b c, R a b → S b c → T a c) (h : List.Forall₂ R l l') (h' : List.Forall₂ S l' l'') :
    List.Forall₂ T l l'' := by
  induction h generalizing l'' with
  | nil => obtain rfl := List.forall₂_nil_left_iff.mp h'; exact .nil
  | cons hab _ ih =>
    obtain ⟨c, _, hbc, hrest, rfl⟩ := List.forall₂_cons_left_iff.mp h'
    exact .cons (hT _ _ _ hab hbc) (ih hrest)

/-- Of lists of lists with the same lengths, related as a whole. -/
theorem of_flatMap {S : γ → δ → Prop} {g : γ → List α} {g' : δ → List β} {xs : List γ} {ys : List δ}
    (hlen : ∀ x y, S x y → (g x).length = (g' y).length) (hS : List.Forall₂ S xs ys)
    (h : List.Forall₂ R (xs.flatMap g) (ys.flatMap g')) :
    List.Forall₂ (fun x y => S x y ∧ List.Forall₂ R (g x) (g' y)) xs ys := by
  induction hS with
  | nil => exact List.Forall₂.nil
  | @cons x y xs ys hxy _ ih =>
    rw [List.flatMap_cons, List.flatMap_cons] at h
    obtain ⟨l₁, l₂, heq, h₁, h₂⟩ := exists_append h
    obtain ⟨rfl, rfl⟩ := List.append_inj heq ((hlen x y hxy).symm.trans h₁.length_eq)
    exact List.Forall₂.cons ⟨hxy, h₁⟩ (ih h₂)

theorem exists_find? {p : α → Bool} {q : β → Bool} {a : α} (h : List.Forall₂ R l l')
    (hpq : ∀ a b, R a b → p a = q b) (ha : l.find? p = some a) :
    ∃ b, l'.find? q = some b ∧ R a b := by
  induction h with
  | nil => cases ha
  | @cons a₁ b₁ l l' hab _ ih =>
    cases hp : p a₁ with
    | true =>
      rw [List.find?_cons_of_pos hp] at ha
      obtain rfl := Option.some.inj ha
      exact ⟨b₁, List.find?_cons_of_pos (hpq a₁ b₁ hab ▸ hp), hab⟩
    | false =>
      have hq : ¬ q b₁ = true := by simp [← hpq a₁ b₁ hab, hp]
      rw [List.find?_cons_of_neg (by simp [hp])] at ha
      rw [List.find?_cons_of_neg hq]
      exact ih ha

theorem exists_getLast? {a : α} (h : List.Forall₂ R l l') (ha : l.getLast? = some a) :
    ∃ b, l'.getLast? = some b ∧ R a b := by
  induction h with
  | nil => cases ha
  | @cons a₁ b₁ l l' hab hl ih =>
    cases hl with
    | nil => exact ⟨b₁, rfl, Option.some.inj ha ▸ hab⟩
    | cons _ _ =>
      rw [List.getLast?_cons_cons] at ha ⊢
      exact ih ha

theorem isChain_of_forall₂ {S : α → α → Prop} {S' : β → β → Prop}
    (hS : ∀ a a' b b', R a b → R a' b' → S a a' → S' b b') (h : List.Forall₂ R l l')
    (hl : l.IsChain S) : l'.IsChain S' := by
  induction h with
  | nil => exact .nil
  | @cons a b l l' hab hrest ih =>
    cases hrest with
    | nil => exact .singleton b
    | cons hab' _ =>
      obtain ⟨hhead, htail⟩ := List.isChain_cons_cons.mp hl
      exact .cons_cons (hS _ _ _ _ hab hab' hhead) (ih htail)

/-! ## Lists of pairs -/

theorem mem_of_lookup [BEq α] [LawfulBEq α] {l : List (α × β)} {a : α} {b : β}
    (h : l.lookup a = some b) : (a, b) ∈ l := by
  obtain ⟨l₁, l₂, rfl, -⟩ := List.lookup_eq_some_iff.mp h
  exact List.mem_append_right _ List.mem_cons_self

/-- Keys that come up once find their values. -/
theorem lookup_of_mem [BEq α] [LawfulBEq α] {l : List (α × β)} {p : α × β}
    (hnd : (l.map Prod.fst).Nodup) (hp : p ∈ l) : l.lookup p.1 = some p.2 := by
  induction l with
  | nil => cases hp
  | cons q l ih =>
    rw [List.map_cons, List.nodup_cons] at hnd
    obtain ⟨k, b⟩ := q
    rw [List.lookup_cons]
    rcases List.mem_cons.mp hp with rfl | hp
    · simp
    · have hne : p.1 ≠ k := fun heq => hnd.1 (List.mem_map.mpr ⟨p, hp, heq⟩)
      rw [beq_eq_false_iff_ne.mpr hne]
      exact ih hnd.2 hp

theorem lookup_map_snd [BEq α] (g : β → γ) (l : List (α × β)) (a : α) :
    (l.map fun p => (p.1, g p.2)).lookup a = (l.lookup a).map g := by
  induction l with
  | nil => rfl
  | cons p l ih =>
    obtain ⟨k, b⟩ := p
    rw [List.map_cons, List.lookup_cons, List.lookup_cons, ih]
    cases a == k <;> rfl

/-! ## Distinct keys -/

theorem eq_of_key {key : α → Option β} (hnd : (l.filterMap key).Nodup) {a a' : α} {k : β}
    (ha : a ∈ l) (ha' : a' ∈ l) (hk : key a = some k) (hk' : key a' = some k) : a = a' := by
  by_contra hne
  let S : α → α → Prop := fun a b => ∀ x, key a = some x → ∀ y, key b = some y → x ≠ y
  have hsymm : Std.Symm S := ⟨fun a b h x hx y hy hxy => h y hy x hx hxy.symm⟩
  have hpair : l.Pairwise S := List.pairwise_filterMap.mp hnd
  exact hpair.forall ha ha' hne k hk k hk' rfl

theorem find?_of_key [DecidableEq β] {key : α → Option β} (hnd : (l.filterMap key).Nodup) {a : α}
    {k : β} (ha : a ∈ l) (hk : key a = some k) : l.find? (key · = some k) = some a := by
  cases hfind : l.find? (key · = some k) with
  | none => exact absurd (List.find?_eq_none.mp hfind a ha) (by simpa using hk)
  | some a' =>
    have hk' : key a' = some k := by simpa using List.find?_some hfind
    rw [eq_of_key hnd (List.mem_of_find?_eq_some hfind) ha hk' hk]

/-! ## Concatenations -/

theorem length_flatMap_le {g g' : α → List β} {l : List α}
    (h : ∀ a ∈ l, (g a).length ≤ (g' a).length) : (l.flatMap g).length ≤ (l.flatMap g').length := by
  induction l with
  | nil => exact Nat.le_refl _
  | cons a l ih =>
    have ⟨ha, hl⟩ := List.forall_mem_cons.mp h
    rw [List.flatMap_cons, List.flatMap_cons, List.length_append, List.length_append]
    exact Nat.add_le_add ha (ih hl)

/-- They are equal only if they are equal part by part. -/
theorem flatMap_eq_iff {g g' : α → List β} {l : List α}
    (h : ∀ a ∈ l, (g a).length ≤ (g' a).length) :
    l.flatMap g = l.flatMap g' ↔ ∀ a ∈ l, g a = g' a := by
  induction l with
  | nil => simp
  | cons a l ih =>
    have ⟨ha, hl⟩ := List.forall_mem_cons.mp h
    rw [List.flatMap_cons, List.flatMap_cons, List.forall_mem_cons, ← ih hl]
    constructor
    · intro heq
      have hlen := congrArg List.length heq
      rw [List.length_append, List.length_append] at hlen
      have := length_flatMap_le hl
      exact List.append_inj heq (by omega)
    · rintro ⟨hhead, htail⟩
      rw [hhead, htail]

end Lists
