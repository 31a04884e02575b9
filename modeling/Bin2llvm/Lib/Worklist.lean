import Mathlib.Data.List.Nodup
import Mathlib.Data.List.Perm.Subperm
import Mathlib.Logic.Relation

/-!
# Bin2llvm.Lib.Worklist — breadth-first exploration with a worklist

`explore succ fuel start` pops nodes from a queue, appends the successors not seen before to the
queue and to the result, and stops when the queue is empty.  `succ` may fail (`none`), and so does
the exploration then.

* `explore_nodup`, `explore_head?`: no node twice, the start first.
* `explore_closed`: the result is closed under successors.
* `mem_explore_iff`: the result is what is reachable from the start.
* `explore_total`: on a finite universe that `succ` does not leave, as much fuel as nodes is enough.
-/

namespace Bin2llvm.Worklist

variable {α : Type*} [DecidableEq α]

/-- The elements of a list not seen before, each once, in order. -/
def newOnes : List α → List α → List α
  | _, [] => []
  | seen, x :: xs => if x ∈ seen then newOnes seen xs else x :: newOnes (seen ++ [x]) xs

/-- The loop: `todo` is the queue, `seen` the nodes found so far. -/
def loop (succ : α → Option (List α)) : ℕ → List α → List α → Option (List α)
  | _, [], seen => some seen
  | 0, _ :: _, _ => none
  | n + 1, x :: todo, seen =>
    match succ x with
    | none => none
    | some ys => loop succ n (todo ++ newOnes seen ys) (seen ++ newOnes seen ys)

def explore (succ : α → Option (List α)) (fuel : ℕ) (start : α) : Option (List α) :=
  loop succ fuel [start] [start]

/-- `b` is a successor of `a`. -/
def Edge (succ : α → Option (List α)) (a b : α) : Prop := ∃ ys, succ a = some ys ∧ b ∈ ys

variable {succ : α → Option (List α)}

/-! ## The new elements -/

theorem mem_newOnes {seen xs : List α} {x : α} : x ∈ newOnes seen xs ↔ x ∈ xs ∧ x ∉ seen := by
  induction xs generalizing seen with
  | nil => simp [newOnes]
  | cons y xs ih =>
    unfold newOnes
    split_ifs with h
    · rw [ih]
      constructor
      · rintro ⟨h1, h2⟩
        exact ⟨List.mem_cons_of_mem y h1, h2⟩
      · rintro ⟨h1, h2⟩
        rcases List.mem_cons.mp h1 with rfl | h1
        · exact absurd h h2
        · exact ⟨h1, h2⟩
    · rw [List.mem_cons, ih]
      by_cases hxy : x = y
      · subst hxy
        simp [h]
      · simp [hxy]

theorem nodup_append_newOnes {seen xs : List α} (h : seen.Nodup) :
    (seen ++ newOnes seen xs).Nodup := by
  induction xs generalizing seen with
  | nil => simpa [newOnes] using h
  | cons y xs ih =>
    unfold newOnes
    split_ifs with hy
    · exact ih h
    · have h1 : (seen ++ [y]).Nodup := by
        rw [List.nodup_append]
        exact ⟨h,
          by simp,
            fun a ha b hb => by rintro rfl; exact hy (by simpa using List.mem_singleton.mp hb ▸ ha)⟩
      simpa using ih h1

/-! ## The loop -/

/-- The loop keeps an invariant of `(todo, seen)` that every pop keeps. -/
theorem loop_induct (I : List α → List α → Prop)
    (hstep : ∀ x todo seen ys, I (x :: todo) seen → succ x = some ys →
      I (todo ++ newOnes seen ys) (seen ++ newOnes seen ys)) :
    ∀ (n : ℕ) (todo seen r : List α), I todo seen → loop succ n todo seen = some r → I [] r
  | n, [], seen, r, hI, h => by
    cases n <;> (simp only [loop, Option.some.injEq] at h; exact h ▸ hI)
  | 0, _ :: _, _, _, _, h => by simp [loop] at h
  | n + 1, x :: todo, seen, r, hI, h => by
    unfold loop at h
    cases hs : succ x with
    | none => rw [hs] at h; simp at h
    | some ys =>
      rw [hs] at h
      exact loop_induct I hstep n _ _ r (hstep x todo seen ys hI hs) h

variable {fuel : ℕ} {start : α} {r : List α}

theorem explore_nodup (h : explore succ fuel start = some r) : r.Nodup :=
  loop_induct (fun _ seen => seen.Nodup) (fun _ _ _ _ hI _ => nodup_append_newOnes hI) fuel _
    _ r (by simp) h

theorem explore_head? (h : explore succ fuel start = some r) : r.head? = some start :=
  loop_induct (fun _ seen => seen.head? = some start)
    (fun _ _ _ _ hI _ => by rw [List.head?_append_of_ne_nil]; exacts [hI, by rintro rfl; simp at hI])
    fuel _ _ r rfl h

/-- The result contains the successors of its nodes. -/
theorem explore_closed (h : explore succ fuel start = some r) :
    ∀ x ∈ r, ∃ ys, succ x = some ys ∧ ys ⊆ r := by
  have key := loop_induct
    (fun todo seen => ∀ x ∈ seen, x ∈ todo ∨ ∃ ys, succ x = some ys ∧ ys ⊆ seen) ?_ fuel _ _ r
    (fun x hx => Or.inl hx) h
  · intro x hx
    rcases key x hx with hx | hx
    · simp at hx
    · exact hx
  · intro x todo seen ys hI hs y hy
    have hys : ys ⊆ seen ++ newOnes seen ys := by
      intro z hz
      by_cases hzs : z ∈ seen
      · exact List.mem_append_left _ hzs
      · exact List.mem_append_right _ (mem_newOnes.mpr ⟨hz, hzs⟩)
    rcases List.mem_append.mp hy with hy | hy
    · rcases hI y hy with hy | ⟨zs, hzs, hsub⟩
      · rcases List.mem_cons.mp hy with rfl | hy
        · exact Or.inr ⟨ys, hs, hys⟩
        · exact Or.inl (List.mem_append_left _ hy)
      · exact Or.inr ⟨zs, hzs, fun z hz => List.mem_append_left _ (hsub hz)⟩
    · exact Or.inl (List.mem_append_right _ hy)

/-- Every node of the result is reachable. -/
theorem explore_reachable (h : explore succ fuel start = some r) :
    ∀ x ∈ r, Relation.ReflTransGen (Edge succ) start x := by
  have key := loop_induct
    (fun todo seen => (∀ x ∈ todo, x ∈ seen) ∧ ∀ x ∈ seen,
      Relation.ReflTransGen (Edge succ) start x) ?_
    fuel _ _ r ⟨fun x hx => hx, ?_⟩ h
  · exact key.2
  · rintro x todo seen ys ⟨hsub, hI⟩ hs
    refine ⟨fun y hy => ?_, fun y hy => ?_⟩
    · rcases List.mem_append.mp hy with hy | hy
      · exact List.mem_append_left _ (hsub y (List.mem_cons_of_mem x hy))
      · exact List.mem_append_right _ hy
    · rcases List.mem_append.mp hy with hy | hy
      · exact hI y hy
      · exact (hI x (hsub x (by simp))).tail ⟨ys, hs, (mem_newOnes.mp hy).1⟩
  · intro x hx
    rw [List.mem_singleton.mp hx]

/-- The result is what is reachable. -/
theorem mem_explore_iff (h : explore succ fuel start = some r) {x : α} :
    x ∈ r ↔ Relation.ReflTransGen (Edge succ) start x := by
  refine ⟨explore_reachable h x, fun hx => ?_⟩
  induction hx with
  | refl => exact List.mem_of_mem_head? (explore_head? h)
  | tail _ hedge ih =>
    obtain ⟨ys, hys, hmem⟩ := hedge
    obtain ⟨zs, hzs, hsub⟩ := explore_closed h _ ih
    obtain rfl := Option.some.inj (hzs.symm.trans hys)
    exact hsub hmem

/-! ## Termination -/

theorem loop_total {U : List α} (hU : ∀ x ∈ U, ∃ ys, succ x = some ys ∧ ys ⊆ U) :
    ∀ (n : ℕ) (todo seen : List α), todo ⊆ U → seen ⊆ U → seen.Nodup →
      todo.length + (U.length - seen.length) ≤ n → (loop succ n todo seen).isSome
  | n, [], seen, _, _, _, _ => by cases n <;> rfl
  | 0, _ :: _, _, _, _, _, h => by simp at h
  | n + 1, x :: todo, seen, ht, hs, hnd, h => by
    obtain ⟨ys, hys, hsub⟩ := hU x (ht (by simp))
    have hnew : newOnes seen ys ⊆ U := fun z hz => hsub (mem_newOnes.mp hz).1
    have hnd' : (seen ++ newOnes seen ys).Nodup := nodup_append_newOnes hnd
    have hall : seen ++ newOnes seen ys ⊆ U := List.append_subset.mpr ⟨hs, hnew⟩
    have hlen := (hnd'.subperm hall).length_le
    unfold loop
    rw [hys]
    refine loop_total hU n _ _ (List.append_subset.mpr ⟨fun z hz => ht (List.mem_cons_of_mem x hz),
      hnew⟩) hall hnd' ?_
    simp only [List.length_append, List.length_cons] at hlen h ⊢
    omega

/-- As much fuel as there are nodes is enough. -/
theorem explore_total {U : List α} (hU : ∀ x ∈ U, ∃ ys, succ x = some ys ∧ ys ⊆ U)
    (hstart : start ∈ U) (hfuel : U.length ≤ fuel) : (explore succ fuel start).isSome := by
  have hpos := List.length_pos_of_mem hstart
  refine loop_total hU fuel [start] [start] (by simpa using hstart)
    (by simpa using hstart) (by simp) ?_
  simp only [List.length_singleton]
  omega

end Bin2llvm.Worklist
