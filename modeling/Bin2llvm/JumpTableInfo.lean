import Bin2llvm.Lib.CxxInt
import Bin2llvm.Lib.OptionMapM

/-!
# Bin2llvm.JumpTableInfo — jump tables

The records about jump tables that the disassembler and `ReplaceConstantLoads` read from the same
file, and the addresses of the entries as both compute them: with an `int` counter, which asserts a
table of at least one entry.
-/

namespace Bin2llvm

structure JumpTableInfo where
  bb_start : UInt64
  bb_end : UInt64
  indirect_jmp_pc : UInt64
  default_case_pc : UInt64
  base_table : UInt64
  idx_start : UInt64
  idx_stop : UInt64
  deriving DecidableEq, Repr

namespace JumpTableInfo

variable (info : JumpTableInfo)

/-- `int cnt_entries = 1+info->idx_stop-info->idx_start`, and the assert on it. -/
def cnt_entries : Option ℕ :=
  let cnt := CxxInt.toInt (1 + info.idx_stop - info.idx_start).toNat
  if 1 ≤ cnt then some cnt.toNat else none

/-- `info->base_table+mul*i`; the product is an `int`. -/
def entryAddr (i : ℕ) : Option UInt64 :=
  if CxxInt.IsInt (4 * i) then some (info.base_table + UInt64.ofNat (4 * i)) else none

/-- The addresses of the entries, in order. -/
def entryAddrs : Option (List UInt64) := do
  let cnt ← info.cnt_entries
  (List.range cnt).mapM info.entryAddr

/-- `map[(*it)->key] = *it` for every record: of two records with one key, the last counts. -/
def lookupLast (key : JumpTableInfo → UInt64) (infos : List JumpTableInfo)
    (pc : UInt64) : Option JumpTableInfo :=
  infos.reverse.find? fun info => key info = pc

variable {info}

theorem cnt_entries_le {cnt : ℕ} (h : info.cnt_entries = some cnt) : 1 ≤ cnt ∧ cnt < 2 ^ 31 := by
  unfold cnt_entries at h
  dsimp only at h
  split_ifs at h with hpos
  have hlt := CxxInt.toInt_lt (1 + info.idx_stop - info.idx_start).toNat
  obtain rfl := Option.some.inj h
  omega

end JumpTableInfo

end Bin2llvm
