import Bin2llvm.Lib.Expansion
import Mathlib.Data.List.Perm.Subperm
import Mathlib.Logic.Relation

/-!
# Bin2llvm.Lib.DepthFirst — depth-first search without a memory

A search through a graph that visits the children of a node in order and stops at the first hit.  It
remembers nothing: a node is searched again each time it is met, and a cycle is followed for ever.

* `search_of_search`: on a finite graph, a search that ends does so within as many steps as there
  are nodes.
* `exists_search_some_iff`, `exists_search_none_iff`: what a search that ends has met.
* `exists_search_of_tame`: it ends where neither a failure nor a cycle is reached.
-/

namespace DepthFirst

open Relation

/-- What a node is: a hit, a failure, or a node with children. -/
inductive Visit (α β : Type*) where
  | hit (b : β)
  | stuck
  | next (children : List α)

variable {α β : Type*}

/-- The first hit in a list; `none` is a failure on the way. -/
def firstOf (find : α → Option (Option β)) : List α → Option (Option β)
  | [] => some none
  | a :: as =>
    match find a with
    | none => none
    | some (some b) => some (some b)
    | some none => firstOf find as

section

variable (visit : α → Visit α β)

/-- The search to a depth; `none` is a failure, or a search that has not ended. -/
def search : ℕ → α → Option (Option β)
  | 0, _ => none
  | n + 1, a =>
    match visit a with
    | .hit b => some (some b)
    | .stuck => none
    | .next cs => firstOf (search n) cs

def Edge (a c : α) : Prop := ∃ cs, visit a = .next cs ∧ c ∈ cs

/-- Neither a failure nor a cycle is reached. -/
def Tame (a : α) : Prop := ∀ c, ReflTransGen (Edge visit) a c → visit c ≠ .stuck ∧
    ¬ TransGen (Edge visit) c c

/-- Nor is a hit. -/
def Silent (a : α) : Prop := Tame visit a ∧ ∀ c, ReflTransGen (Edge visit) a c →
    ∀ b, visit c ≠ .hit b

/-- The children before this one are silent. -/
def First (a c : α) : Prop := ∃ pre post, visit a = .next (pre ++ c :: post) ∧ ∀ d ∈ pre,
    Silent visit d

/-- The hit comes before every failure and every cycle. -/
def Meets (a : α) (b : β) : Prop := ∃ c, ReflTransGen (First visit) a c ∧ visit c = .hit b

end

variable {visit : α → Visit α β} {find find' : α → Option (Option β)} {a c : α} {as : List α}
variable {b : β} {r : Option β} {m n : ℕ}

/-! ## Lists -/

theorem firstOf_mono (h : ∀ a ∈ as, ∀ r, find a = some r → find' a = some r)
    (hr : firstOf find as = some r) : firstOf find' as = some r := by
  induction as with
  | nil => exact hr
  | cons a as ih =>
    unfold firstOf at hr ⊢
    rcases ha : find a with _ | _ | b
    · rw [ha] at hr
      cases hr
    · rw [ha] at hr
      rw [h a List.mem_cons_self _ ha]
      exact ih (fun c hc => h c (List.mem_cons_of_mem _ hc)) hr
    · rw [ha] at hr
      rw [h a List.mem_cons_self _ ha]
      exact hr

theorem firstOf_eq_none_iff : firstOf find as = some none ↔ ∀ a ∈ as, find a = some none := by
  induction as with
  | nil => simp [firstOf]
  | cons a as ih =>
    rw [List.forall_mem_cons, ← ih, firstOf]
    rcases find a with _ | _ | b <;> simp

theorem firstOf_eq_some_iff : firstOf find as = some (some b) ↔
    ∃ pre c post, as = pre ++ c :: post ∧ (∀ d ∈ pre, find d = some none) ∧
    find c = some (some b) := by
  constructor
  · intro h
    induction as with
    | nil => cases h
    | cons a as ih =>
      unfold firstOf at h
      rcases ha : find a with _ | _ | b'
      · rw [ha] at h
        cases h
      · rw [ha] at h
        obtain ⟨pre, c, post, rfl, hpre, hc⟩ := ih h
        exact ⟨a :: pre, c, post, rfl, List.forall_mem_cons.mpr ⟨ha, hpre⟩, hc⟩
      · rw [ha] at h
        exact ⟨[], a, as, rfl, fun d hd => absurd hd List.not_mem_nil, ha.trans h⟩
  · rintro ⟨pre, c, post, rfl, hpre, hc⟩
    induction pre with
    | nil =>
      rw [List.nil_append, firstOf, hc]
    | cons d pre ih =>
      obtain ⟨hd, hpre⟩ := List.forall_mem_cons.mp hpre
      rw [List.cons_append, firstOf, hd]
      exact ih hpre

/-! ## The depth -/

theorem search_next {cs : List α} (h : visit a = .next cs) (n : ℕ) :
    search visit (n + 1) a = firstOf (search visit n) cs := by rw [search, h]

theorem search_hit (h : visit a = .hit b) (n : ℕ) : search visit (n + 1) a = some (some b) := by
  rw [search, h]

theorem search_succ (h : search visit n a = some r) : search visit (n + 1) a = some r := by
  induction n generalizing a r with
  | zero => cases h
  | succ n ih =>
    unfold search at h ⊢
    cases hv : visit a with
    | hit b => rw [hv] at h; exact h
    | stuck => rw [hv] at h; cases h
    | next cs =>
      rw [hv] at h
      exact firstOf_mono (fun c _ r hc => ih hc) h

theorem search_mono (hmn : m ≤ n) (h : search visit m a = some r) : search visit n a = some r := by
  induction hmn with
  | refl => exact h
  | step _ ih => exact search_succ ih

theorem search_unique {r' : Option β} (h : search visit m a = some r)
    (h' : search visit n a = some r') : r = r' := by
  have hm := search_mono (le_max_left m n) h
  have hn := search_mono (le_max_right m n) h'
  exact Option.some.inj (hm.symm.trans hn)

section

variable (visit)

/-- The search ends at this depth, and not before. -/
def Height (n : ℕ) (a : α) : Prop :=
  (∃ r, search visit (n + 1) a = some r) ∧ search visit n a = none

end

theorem height_le (h : Height visit n a) (hr : search visit m a = some r) : n < m := by
  by_contra hlt
  have := search_mono (Nat.not_lt.mp hlt) hr
  rw [h.2] at this
  cases this

theorem height_unique (h : Height visit m a) (h' : Height visit n a) : m = n := by
  obtain ⟨r, hr⟩ := h.1
  obtain ⟨r', hr'⟩ := h'.1
  have h₁ := height_le h hr'
  have h₂ := height_le h' hr
  omega

theorem exists_height (h : search visit m a = some r) : ∃ n, Height visit n a := by
  induction m with
  | zero => cases h
  | succ m ih =>
    cases hm : search visit m a with
    | none => exact ⟨m, ⟨r, h⟩, hm⟩
    | some r' => exact ih (hm.trans (congrArg some (search_unique hm h)))

/-- Some child is as high as possible. -/
theorem exists_child (h : Height visit (n + 1) a) : ∃ c, Edge visit a c ∧ Height visit n c := by
  obtain ⟨⟨r, hr⟩, hnone⟩ := h
  by_contra hno
  cases hv : visit a with
  | hit b => rw [search_hit hv] at hnone; cases hnone
  | stuck => rw [search, hv] at hr; cases hr
  | next cs =>
    rw [search_next hv] at hr hnone
    have hsearch : firstOf (search visit n) cs = some r := by
      refine firstOf_mono (fun c hc r' hr' => ?_) hr
      cases hn : search visit n c with
      | none => exact absurd ⟨c, ⟨cs, hv, hc⟩, ⟨r', hr'⟩, hn⟩ hno
      | some r'' => rw [search_unique hn hr']
    rw [hnone] at hsearch
    cases hsearch

/-- A node of height `n` is above `n` others, all with children. -/
theorem exists_nodes {U : List α} (hU : ∀ a c, Edge visit a c → a ∈ U) (h : Height visit n a) :
    ∃ l : List α, l.Nodup ∧ l ⊆ U ∧ l.length = n ∧ ∀ c ∈ l, ∃ k ≤ n, Height visit k c := by
  induction n generalizing a with
  | zero =>
    exact ⟨[], List.nodup_nil, List.nil_subset U, rfl, fun c hc => absurd hc List.not_mem_nil⟩
  | succ n ih =>
    obtain ⟨c, hedge, hc⟩ := exists_child h
    obtain ⟨l, hnd, hsub, hlen, hl⟩ := ih hc
    have ha : a ∉ l := by
      intro hmem
      obtain ⟨k, hk, hkh⟩ := hl a hmem
      have := height_unique h hkh
      omega
    refine ⟨a :: l, List.nodup_cons.mpr ⟨ha, hnd⟩, List.cons_subset.mpr ⟨hU a c hedge, hsub⟩, ?_,
      ?_⟩
    · rw [List.length_cons, hlen]
    · refine List.forall_mem_cons.mpr ⟨⟨n + 1, le_refl _, h⟩, fun d hd => ?_⟩
      obtain ⟨k, hk, hkh⟩ := hl d hd
      exact ⟨k, by omega, hkh⟩

/-- **A search that ends does so within as many steps as there are nodes.** -/
theorem search_of_search {U : List α} (hU : ∀ a c, Edge visit a c → a ∈ U)
    (h : search visit m a = some r) (hn : U.length < n) : search visit n a = some r := by
  obtain ⟨k, hk⟩ := exists_height h
  obtain ⟨l, hnd, hsub, hlen, -⟩ := exists_nodes hU hk
  have hle : l.length ≤ U.length := (hnd.subperm hsub).length_le
  obtain ⟨r', hr'⟩ := hk.1
  rw [search_unique h hr']
  exact search_mono (by omega) hr'

/-! ## What is met -/

theorem edge_of_first (h : First visit a c) : Edge visit a c := by
  obtain ⟨pre, post, hv, -⟩ := h
  exact ⟨_, hv, by simp⟩

theorem exists_hit_of_meets (h : Meets visit a b) : ∃ c, ReflTransGen (Edge visit) a c ∧
    visit c = .hit b := by
  obtain ⟨c, hc, hhit⟩ := h
  exact ⟨c, ReflTransGen.mono (fun _ _ h => edge_of_first h) a c hc, hhit⟩

theorem tame_of_edge (h : Tame visit a) (hc : Edge visit a c) : Tame visit c :=
  fun d hd => h d (hd.head hc)

/-- A search without a hit ends sooner below. -/
theorem search_none_of_edge (h : search visit n a = some none) (hc : Edge visit a c) :
    ∃ k < n, search visit k c = some none := by
  obtain ⟨cs, hv, hmem⟩ := hc
  cases n with
  | zero => cases h
  | succ n =>
    rw [search_next hv] at h
    exact ⟨n, Nat.lt_succ_self n, firstOf_eq_none_iff.mp h c hmem⟩

theorem search_none_of_transGen (h : search visit n a = some none)
    (hc : TransGen (Edge visit) a c) : ∃ k < n, search visit k c = some none := by
  induction hc with
  | single hc => exact search_none_of_edge h hc
  | tail _ hc ih =>
    obtain ⟨k, hk, hsearch⟩ := ih
    obtain ⟨k', hk', hsearch'⟩ := search_none_of_edge hsearch hc
    exact ⟨k', by omega, hsearch'⟩

theorem not_transGen_of_search_none (h : search visit n a = some none) :
    ¬ TransGen (Edge visit) a a := by
  intro hcyc
  induction n using Nat.strong_induction_on with
  | _ n ih =>
    obtain ⟨k, hk, hsearch⟩ := search_none_of_transGen h hcyc
    exact ih k hk hsearch

theorem silent_of_search_none (h : search visit n a = some none) : Silent visit a := by
  have hreach : ∀ c, ReflTransGen (Edge visit) a c → ∃ k, search visit k c = some none := by
    intro c hc
    rcases reflTransGen_iff_eq_or_transGen.mp hc with rfl | hc
    · exact ⟨n, h⟩
    · obtain ⟨k, -, hk⟩ := search_none_of_transGen h hc
      exact ⟨k, hk⟩
  refine ⟨fun c hc => ?_, fun c hc b hb => ?_⟩
  · obtain ⟨k, hk⟩ := hreach c hc
    refine ⟨fun hstuck => ?_, not_transGen_of_search_none hk⟩
    cases k with
    | zero => cases hk
    | succ k => rw [search, hstuck] at hk; cases hk
  · obtain ⟨k, hk⟩ := hreach c hc
    have := search_unique hk (search_hit hb 0)
    cases this

theorem meets_of_search_some (h : search visit n a = some (some b)) : Meets visit a b := by
  induction n generalizing a with
  | zero => cases h
  | succ n ih =>
    cases hv : visit a with
    | hit b' =>
      rw [search_hit hv] at h
      obtain rfl : b' = b := by simpa using h
      exact ⟨a, .refl, hv⟩
    | stuck => rw [search, hv] at h; cases h
    | next cs =>
      rw [search_next hv] at h
      obtain ⟨pre, c, post, rfl, hpre, hc⟩ := firstOf_eq_some_iff.mp h
      obtain ⟨d, hd, hhit⟩ := ih hc
      exact ⟨d, hd.head ⟨pre, post, hv, fun d hd => silent_of_search_none (hpre d hd)⟩, hhit⟩

/-! ## Searches that end -/

section

variable {U : List α} (hU : ∀ a c, Edge visit a c → a ∈ U)

include hU

theorem wellFounded_tame : WellFounded fun c a => Edge visit a c ∧ Tame visit a := by
  classical
  let children (a : α) : List α :=
    match visit a with
    | .next cs => cs
    | _ => []
  refine Bin2llvm.Expansion.wellFounded_of_acyclic (U ++ U.flatMap children) (fun c a h =>
    ⟨?_, ?_⟩) fun a h => ?_
  · obtain ⟨⟨cs, hv, hc⟩, -⟩ := h
    refine List.mem_append_right _ (List.mem_flatMap.mpr ⟨a, hU a c ⟨cs, hv, hc⟩, ?_⟩)
    simp only [children, hv]
    exact hc
  · exact List.mem_append_left _ (hU a c h.1)
  · obtain ⟨d, hd⟩ : ∃ d, Edge visit d a ∧ Tame visit d := by
      obtain ⟨d, hd, -⟩ := TransGen.head'_iff.mp h
      exact ⟨d, hd⟩
    have hcyc : TransGen (Function.swap (Edge visit)) a a := TransGen.mono (fun _ _ h => h.1) a a h
    exact (tame_of_edge hd.2 hd.1 a .refl).2 (transGen_swap.mp hcyc)

/-- **A search ends where neither a failure nor a cycle is reached.** -/
theorem exists_search_of_tame (h : Tame visit a) : ∃ r, search visit (U.length + 1) a = some r := by
  induction a using (wellFounded_tame hU).induction with
  | _ a ih =>
    cases hv : visit a with
    | hit b => exact ⟨some b, search_hit hv _⟩
    | stuck => exact absurd hv (h a .refl).1
    | next cs =>
      have hchildren : ∀ c ∈ cs, ∃ r, search visit (U.length + 1) c = some r := fun c hc =>
        ih c ⟨⟨cs, hv, hc⟩, h⟩ (tame_of_edge h ⟨cs, hv, hc⟩)
      obtain ⟨r, hr⟩ : ∃ r, search visit (U.length + 2) a = some r := by
        rw [search_next hv]
        clear hv
        induction cs with
        | nil => exact ⟨none, rfl⟩
        | cons c cs ihcs =>
          obtain ⟨⟨r, hr⟩, hcs⟩ := List.forall_mem_cons.mp hchildren
          rw [firstOf, hr]
          cases r with
          | none => exact ihcs hcs
          | some b => exact ⟨some b, rfl⟩
      exact ⟨r, search_of_search hU hr (Nat.lt_succ_self _)⟩

theorem search_none_of_silent (h : Silent visit a) : search visit (U.length + 1) a = some none := by
  obtain ⟨r, hr⟩ := exists_search_of_tame hU h.1
  cases r with
  | none => exact hr
  | some b =>
    obtain ⟨c, hc, hhit⟩ := exists_hit_of_meets (meets_of_search_some hr)
    exact absurd hhit (h.2 c hc b)

theorem search_some_of_meets (h : Meets visit a b) :
    search visit (U.length + 1) a = some (some b) := by
  obtain ⟨c, hc, hhit⟩ := h
  induction hc using ReflTransGen.head_induction_on with
  | refl => exact search_hit hhit _
  | head hfirst _ ih =>
    obtain ⟨pre, post, hv, hpre⟩ := hfirst
    refine search_of_search hU (m := U.length + 2) ?_ (Nat.lt_succ_self _)
    rw [search_next hv]
    exact firstOf_eq_some_iff.mpr ⟨pre, _, post, rfl, fun d hd =>
      search_none_of_silent hU (hpre d hd), ih⟩

/-- **The search finds a hit that comes before every failure and every cycle.** -/
theorem exists_search_some_iff : (∃ n, search visit n a = some (some b)) ↔ Meets visit a b :=
  ⟨fun ⟨_, h⟩ => meets_of_search_some h, fun h => ⟨_, search_some_of_meets hU h⟩⟩

/-- **It finds none where none is reached, nor a failure or a cycle.** -/
theorem exists_search_none_iff : (∃ n, search visit n a = some none) ↔ Silent visit a :=
  ⟨fun ⟨_, h⟩ => silent_of_search_none h, fun h => ⟨_, search_none_of_silent hU h⟩⟩

end

end DepthFirst
