import Mathlib.Data.List.Dedup
import Mathlib.Data.Nat.Notation

/-!
# Bin2llvm.Driver.ThumbBits — what the driver knows about thumb code

The program counters known to be thumb code go around in files: the disassembler reads `isThumbIn`
when it starts and writes `isThumbOut` when it exits, `armdumpthumbbit` writes those found in the
built functions, and the driver merges both into the next `isThumbIn`.

* `isThumbInAt`: the file handed to each iteration.
* `known_isThumbInAt`: what is known after a number of iterations.
* `keptOnFailure_iff`: nothing is lost when the disassembler writes nothing exactly when
  `armdumpthumbbit` finds again all that was known.
-/

namespace Bin2llvm.Driver

/-! ## Files -/

/-- A file as `json.loads(f.read())` sees it: it cannot be opened, it does not parse, or it is a
list of integers. -/
inductive FileContent where
  | absent
  | malformed
  | pcs (l : List ℕ)
  deriving DecidableEq, Repr

/-- `set(json.loads(f.read()))`; `IOError` and `ValueError` give the empty set. -/
def FileContent.read : FileContent → List ℕ
  | .pcs l => l
  | .absent | .malformed => []

/-- `merge_arm_thumb_bit`: what is written to `dst_file`. -/
def merge_arm_thumb_bit (srca srcb : FileContent) : FileContent :=
  .pcs (srca.read ++ srcb.read.filter (· ∉ srca.read))

/-! ## The disassembler -/

/-- `m_isPCThumb`, the latest assignment first. -/
abbrev IsPCThumb := List (ℕ × Bool)

/-- A run of the disassembler: it marks program counters as thumb or not and leaves through `exit`,
or it dies, before or after it has opened its output file. -/
inductive TranslatorRun where
  | exits (marks : List (ℕ × Bool))
  | dies (opened : Bool)
  deriving DecidableEq, Repr

/-- The `isThumbIn` part of `initialize`, which asserts that no program counter is odd. -/
def initIsPCThumb (isThumbIn : Option FileContent) : Option IsPCThumb :=
  match isThumbIn with
  | some (.pcs l) => if l.all (· % 2 = 0) then some (l.map (·, true)) else none
  | _ => some []

/-- The program counters `exit` writes: those marked `true` at last. -/
def exitPCs (m : IsPCThumb) : List ℕ :=
  ((m.map Prod.fst).dedup).filter fun pc => m.lookup pc = some true

/-- The `isThumbOut` file after a run. -/
def isThumbOut (isThumbIn : Option FileContent) : TranslatorRun → FileContent
  | .exits marks =>
    match initIsPCThumb isThumbIn with
    | none => .absent
    | some m => .pcs (exitPCs (marks.reverse ++ m))
  | .dies opened => if opened then .malformed else .absent

/-! ## The loop -/

/-- What the tools do in one iteration. -/
structure Iteration where
  translator : TranslatorRun
  /-- the file of `armdumpthumbbit` -/
  dumped : FileContent
  deriving DecidableEq, Repr

/-- The `isThumbIn` of the next iteration. -/
def nextIsThumbIn (isThumbIn : Option FileContent) (it : Iteration) : Option FileContent :=
  some (merge_arm_thumb_bit (isThumbOut isThumbIn it.translator) it.dumped)

/-- The `isThumbIn` handed to iteration `n`; the first is that of `do_elf` or `--thumb-bits-file`,
if any. -/
def isThumbInAt (start : Option FileContent) (its : List Iteration) (n : ℕ) : Option FileContent :=
  (its.take n).foldl nextIsThumbIn start

/-- The program counters a file tells the disassembler to be thumb code. -/
def known (isThumbIn : Option FileContent) : List ℕ := (isThumbIn.map FileContent.read).getD []

/-- The file holds no list of program counters. -/
def NoData (f : FileContent) : Prop := f = .absent ∨ f = .malformed

variable {start isThumbIn : Option FileContent} {its : List Iteration} {it : Iteration} {n pc : ℕ}

@[simp] theorem mem_read_merge {a b : FileContent} :
    pc ∈ (merge_arm_thumb_bit a b).read ↔ pc ∈ a.read ∨ pc ∈ b.read := by
  unfold merge_arm_thumb_bit FileContent.read
  by_cases h : pc ∈ a.read <;> simp_all [FileContent.read]

theorem NoData.read {f : FileContent} (h : NoData f) : f.read = [] := by
  rcases h with rfl | rfl <;> rfl

theorem known_nextIsThumbIn : pc ∈ known (nextIsThumbIn isThumbIn it) ↔
    pc ∈ (isThumbOut isThumbIn it.translator).read ∨ pc ∈ it.dumped.read := mem_read_merge

theorem isThumbInAt_succ (h : its[n]? = some it) :
    isThumbInAt start its (n + 1) = nextIsThumbIn (isThumbInAt start its n) it := by
  unfold isThumbInAt
  rw [List.take_add_one, h, List.foldl_append]
  rfl

/-- **What is known to the next iteration: what the disassembler wrote, and what was dumped.** -/
theorem known_isThumbInAt (h : its[n]? = some it) : pc ∈ known (isThumbInAt start its (n + 1)) ↔
    pc ∈ (isThumbOut (isThumbInAt start its n) it.translator).read ∨ pc ∈ it.dumped.read := by
  rw [isThumbInAt_succ h]
  exact known_nextIsThumbIn

/-! ## What is kept -/

/-- What the driver should do: an iteration whose disassembler wrote nothing loses nothing. -/
def KeptOnFailure (start : Option FileContent) (its : List Iteration) : Prop :=
  ∀ n it, its[n]? = some it → NoData (isThumbOut (isThumbInAt start its n) it.translator) →
    ∀ pc ∈ known (isThumbInAt start its n), pc ∈ known (isThumbInAt start its (n + 1))

/-- **Nothing is lost by failures exactly when every such iteration dumps all that was known.** -/
theorem keptOnFailure_iff (start : Option FileContent) (its : List Iteration) :
    KeptOnFailure start its ↔
      ∀ n it, its[n]? = some it → NoData (isThumbOut (isThumbInAt start its n) it.translator) →
        ∀ pc ∈ known (isThumbInAt start its n), pc ∈ it.dumped.read := by
  refine forall₄_congr fun n it h hno => forall₂_congr fun pc _ => ?_
  rw [known_isThumbInAt h, hno.read]
  simp

/-- The disassembler dies and nothing is dumped: what was known is forgotten. -/
theorem dies_not_keptOnFailure : ¬ KeptOnFailure (some (.pcs [0x8000]))
    [⟨.dies false, .absent⟩] := by
  intro h
  have := h 0 _ rfl (Or.inl rfl) 0x8000 (by decide)
  revert this
  decide

end Bin2llvm.Driver
