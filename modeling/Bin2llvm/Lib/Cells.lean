import Mathlib.Data.List.Induction
import Mathlib.Logic.Function.Basic

/-!
# Bin2llvm.Lib.Cells — one memory split into cells

Loads and stores of several bytes, in one memory and in cells that are named after the address where
an access starts.

* `loads`, `cellLoads`: what a sequence of accesses loads.
* `foldl_store`, `foldl_storeCell`: the contents after a sequence, by the last store to a byte.
* `cellLoads_eq_loads`: the cells give the same if no load reads a byte that a store from another
  start wrote last.
-/

namespace Cells

/-- A load or a store. -/
structure Access (A B : Type*) where
  start : A
  width : ℕ
  isStore : Bool
  bytes : ℕ → B

variable {A B N : Type*}

section

variable (byteAt : A → ℕ → A) (index : A → A → ℕ)

/-- Whether the access stores the byte at `a`. -/
def Access.stores (e : Access A B) (a : A) : Bool := e.isStore && decide (index e.start a < e.width)

/-- The same in the cell. -/
def Access.storesCell [DecidableEq N] (name : A → N) (e : Access A B) (n : N) (k : ℕ) : Bool :=
  e.isStore && decide (name e.start = n) && decide (k < e.width)

def store (mem : A → B) (e : Access A B) (a : A) : B :=
  if e.stores index a then e.bytes (index e.start a) else mem a

def storeCell [DecidableEq N] (name : A → N) (cells : N → ℕ → B) (e : Access A B) (n : N)
    (k : ℕ) : B :=
  if e.storesCell name n k then e.bytes k else cells n k

/-- What the loads of a sequence return. -/
def loads (mem : A → B) : List (Access A B) → List (List B)
  | [] => []
  | e :: es =>
    (if e.isStore then [] else [(List.range e.width).map fun k => mem (byteAt e.start k)]) ++
      loads (store index mem e) es

def cellLoads [DecidableEq N] (name : A → N) (cells : N → ℕ → B) : List (Access A B) → List (List B)
  | [] => []
  | e :: es =>
    (if e.isStore then [] else [(List.range e.width).map fun k => cells (name e.start) k]) ++
      cellLoads name (storeCell name cells e) es

/-- The last store of a sequence to the byte at `a`. -/
def lastStore (es : List (Access A B)) (a : A) : Option (Access A B) :=
  es.reverse.find? fun e => e.stores index a

/-- No load reads a byte that a store from another start wrote last. -/
def KeepsStarts (es : List (Access A B)) : Prop :=
  ∀ pre e post, es = pre ++ e :: post → e.isStore = false → ∀ k < e.width, ∀ s,
    lastStore index pre (byteAt e.start k) = some s → s.start = e.start

end

variable {byteAt : A → ℕ → A} {index : A → A → ℕ} {es pre : List (Access A B)} {e s : Access A B}
variable {a : A}

theorem foldl_store (mem : A → B) (es : List (Access A B)) (a : A) : es.foldl (store index) mem a =
    ((lastStore index es a).map fun s => s.bytes (index s.start a)).getD (mem a) := by
  induction es using List.reverseRecOn with
  | nil => rfl
  | append_singleton es e ih =>
    rw [List.foldl_append, List.foldl_cons, List.foldl_nil, lastStore, List.reverse_append,
      List.reverse_singleton, List.singleton_append, store]
    by_cases h : e.stores index a = true
    · simp [h]
    · simpa [h, lastStore] using ih

/-- No load reads what a store from another start stores. -/
theorem keepsStarts_of_disjoint (h : ∀ e ∈ es, e.isStore = false → ∀ s ∈ es, s.start = e.start ∨
    ∀ k < e.width, s.stores index (byteAt e.start k) = false) : KeepsStarts byteAt index es := by
  rintro pre e post rfl hload k hk s hs
  have hstores := List.find?_some hs
  have hmem : s ∈ pre := List.mem_reverse.mp (List.mem_of_find?_eq_some hs)
  rcases h e (by simp) hload s (List.mem_append_left _ hmem) with hstart | hdisj
  · exact hstart
  · exact absurd (hdisj k hk) (by simp [hstores])

variable [DecidableEq N] {name : A → N}

theorem foldl_storeCell (cells : N → ℕ → B) (es : List (Access A B)) (n : N) (k : ℕ) :
    es.foldl (storeCell name) cells n k =
      ((es.reverse.find? fun e => e.storesCell name n k).map fun s => s.bytes k).getD
      (cells n k) := by
  induction es using List.reverseRecOn with
  | nil => rfl
  | append_singleton es e ih =>
    rw [List.foldl_append, List.foldl_cons, List.foldl_nil, List.reverse_append,
      List.reverse_singleton, List.singleton_append, storeCell]
    by_cases h : e.storesCell name n k = true
    · simp [h]
    · simpa [h] using ih

/-- A search that is more picky. -/
theorem find?_of_imp {α : Type*} {p q : α → Bool} {l : List α}
    (h : ∀ x ∈ l, q x = true → p x = true) (hfound : ∀ x, l.find? p = some x → q x = true) :
    l.find? q = l.find? p := by
  induction l with
  | nil => rfl
  | cons x l ih =>
    have ⟨hx, hl⟩ := List.forall_mem_cons.mp h
    by_cases hp : p x = true
    · have hq : q x = true := hfound x (List.find?_cons_of_pos hp)
      rw [List.find?_cons_of_pos hp, List.find?_cons_of_pos hq]
    · rw [List.find?_cons_of_neg hp, List.find?_cons_of_neg fun hq => hp (hx hq)]
      exact ih hl fun y hy => hfound y (by rw [List.find?_cons_of_neg hp, hy])

/-- A byte of the cell is the byte of the memory if the last store to it has the same start. -/
theorem foldl_storeCell_eq {mem : A → B} {cells : N → ℕ → B} {k : ℕ}
    (hindex : index e.start (byteAt e.start k) = k)
    (hinit : cells (name e.start) k = mem (byteAt e.start k))
    (hname : ∀ s ∈ pre, name s.start = name e.start → s.start = e.start)
    (hlast : ∀ s, lastStore index pre (byteAt e.start k) = some s → s.start = e.start) :
    pre.foldl (storeCell name) cells (name e.start) k = pre.foldl (store index) mem
      (byteAt e.start k) := by
  have hfind : pre.reverse.find? (fun s => s.storesCell name (name e.start) k) =
      lastStore index pre (byteAt e.start k) := by
    refine find?_of_imp (fun s hs hcell => ?_) fun s hs => ?_
    · simp only [Access.storesCell, Bool.and_eq_true, decide_eq_true_eq] at hcell
      have hstart := hname s (List.mem_reverse.mp hs) hcell.1.2
      simp [Access.stores, hstart, hindex, hcell.1.1, hcell.2]
    · have hstores := List.find?_some hs
      simp only [Access.stores, Bool.and_eq_true, decide_eq_true_eq, hlast s hs, hindex] at hstores
      simp [Access.storesCell, hlast s hs, hstores.1, hstores.2]
  rw [foldl_storeCell, foldl_store, hfind, hinit]
  cases hs : lastStore index pre (byteAt e.start k) with
  | none => rfl
  | some s => rw [Option.map_some, Option.map_some, hlast s hs, hindex]

/-- The loads that come after some accesses. -/
theorem cellLoads_foldl {mem : A → B} {cells : N → ℕ → B}
    (hindex : ∀ e ∈ es, ∀ k < e.width, index e.start (byteAt e.start k) = k)
    (hinit : ∀ e ∈ es, ∀ k < e.width, cells (name e.start) k = mem (byteAt e.start k))
    (hname : ∀ e ∈ es, ∀ s ∈ pre ++ es, name s.start = name e.start → s.start = e.start)
    (hkeep : ∀ mid e post, es = mid ++ e :: post → e.isStore = false → ∀ k < e.width, ∀ s,
      lastStore index (pre ++ mid) (byteAt e.start k) = some s → s.start = e.start) :
    cellLoads name (pre.foldl (storeCell name) cells) es = loads byteAt index
      (pre.foldl (store index) mem) es := by
  induction es generalizing pre with
  | nil => rfl
  | cons e es ih =>
    rw [cellLoads, loads]
    congr 1
    · cases hstore : e.isStore with
      | true => rfl
      | false =>
        congr 2
        refine List.map_congr_left fun k hk => ?_
        have hk := List.mem_range.mp hk
        exact foldl_storeCell_eq (hindex e List.mem_cons_self k hk)
          (hinit e List.mem_cons_self k hk)
          (fun s hs => hname e List.mem_cons_self s (List.mem_append_left _ hs))
          (by simpa using hkeep [] e es rfl hstore k hk)
    · have hsplit : pre ++ e :: es = pre ++ [e] ++ es := by simp
      have hstep := @ih (pre ++ [e]) (fun x hx => hindex x (List.mem_cons_of_mem _ hx))
        (fun x hx => hinit x (List.mem_cons_of_mem _ hx))
        (fun x hx s hs => hname x (List.mem_cons_of_mem _ hx) s (hsplit ▸ hs))
        (fun mid x post hes => by
          have := hkeep (e :: mid) x post (by rw [hes]; rfl)
          rwa [List.append_cons] at this)
      simpa using hstep

/-- **Splitting is sound for accesses that keep their starts.** -/
theorem cellLoads_eq_loads {mem : A → B} {cells : N → ℕ → B}
    (hindex : ∀ e ∈ es, ∀ k < e.width, index e.start (byteAt e.start k) = k)
    (hinit : ∀ e ∈ es, ∀ k < e.width, cells (name e.start) k = mem (byteAt e.start k))
    (hname : ∀ e ∈ es, ∀ s ∈ es, name s.start = name e.start → s.start = e.start)
    (hkeep : KeepsStarts byteAt index es) : cellLoads name cells es = loads byteAt index mem es :=
  show cellLoads name ([].foldl (storeCell name) cells) es = loads byteAt index
      ([].foldl (store index) mem) es from
    cellLoads_foldl hindex hinit hname hkeep

end Cells
