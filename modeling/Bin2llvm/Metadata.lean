import Bin2llvm.IR
import Bin2llvm.Lib.HexText

/-!
# Bin2llvm.Metadata — numbers in metadata strings

The static helpers of `FixOverlappedBBs` through which all passes exchange program counters: `hex`
writes a number into a metadata string, `getHexMetadataFromIns` reads it back with `strtoll`.  A
failed `assert` is `none`.

* `strtoll_hex`, `getHexMetadata_hex`: what is read back, and when it is what was written.
-/

namespace Bin2llvm.SaveTranslatedBBs

/-- `sprintf(s, "0x%08lx", val)`, in the plugin that harvests the blocks. -/
def hex (val : UInt64) : String := String.ofList (HexText.printHex 8 val.toNat)

end Bin2llvm.SaveTranslatedBBs

namespace Bin2llvm.FixOverlappedBBs

/-- `sprintf(s, "0x%08lx", val)`. -/
def hex (val : UInt64) : String := String.ofList (HexText.printHex 8 val.toNat)

/-- `uint64_t pc = std::strtoll(hexString, NULL, 16)`. -/
def strtoll (s : String) : UInt64 := UInt64.ofInt (HexText.strtoll16 s.toList)

/-- The number in the metadata of kind `k`; the asserts want the node there and a string in it. -/
def getHexMetadataFromIns (ins : Instr) (k : MDKind) : Option UInt64 :=
  match ins.getMetadata k with
  | some (.str s) => some (strtoll s)
  | _ => none

/-- The number in the metadata of the first instruction of the entry block. -/
def getHexMetadataFromFunc (func : Func) (k : MDKind) : Option UInt64 := do
  let b ← func.blocks.head?
  let ins ← b.instrs.head?
  getHexMetadataFromIns ins k

def getPCStartOfFunc (func : Func) : Option UInt64 := getHexMetadataFromFunc func .BB_pcStart

def getPCEndOfFunc (func : Func) : Option UInt64 := getHexMetadataFromFunc func .BB_pcEnd

def getCurrentPCOfIns (ins : Instr) : Option UInt64 := getHexMetadataFromIns ins .INS_currPC

def getBBStart (ins : Instr) : Option UInt64 := getHexMetadataFromIns ins .BB_pcStart

/-- A number survives its metadata string up to the saturation of `strtoll`. -/
theorem strtoll_hex (v : UInt64) : strtoll (hex v) = if v.toNat < 2 ^ 63 then v
    else 0x7fffffffffffffff := by
  have hv := v.toNat_lt
  have h1 : strtoll (hex v) = UInt64.ofInt (min (2 ^ 63 - 1) (v.toNat : ℤ)) := by
    rw [strtoll, hex, String.toList_ofList, HexText.strtoll16_printHex]
  rw [h1]
  split_ifs with h
  · rw [min_eq_right (by omega)]
    apply UInt64.toNat_inj.mp
    simp only [UInt64.ofInt, UInt64.toNat_ofNat']
    omega
  · rw [min_eq_left (by omega)]
    decide

theorem strtoll_hex_of_lt {v : UInt64} (h : v.toNat < 2 ^ 63) : strtoll (hex v) = v := by
  rw [strtoll_hex, if_pos h]

theorem toList_hex (v : UInt64) : (hex v).toList = HexText.printHex 8 v.toNat :=
  String.toList_ofList

theorem hex_injective : Function.Injective hex := by
  intro v w h
  have hlist := congrArg String.toList h
  rw [toList_hex, toList_hex] at hlist
  exact UInt64.toNat_inj.mp (HexText.printHex_injective 8 hlist)

theorem getHexMetadata_setMetadata (ins : Instr) (k : MDKind) (s : String) :
    getHexMetadataFromIns (ins.setMetadata k (.str s)) k = some (strtoll s) := by
  rw [getHexMetadataFromIns, Instr.getMetadata_setMetadata_self]

theorem has_of_getHexMetadata {ins : Instr} {k : MDKind} {v : UInt64}
    (h : getHexMetadataFromIns ins k = some v) : ins.has k = true := by
  unfold getHexMetadataFromIns at h
  unfold Instr.has
  cases hm : ins.getMetadata k with
  | none => rw [hm] at h; simp at h
  | some n => rfl

/-! ## Round trips -/

theorem strtoll_hex_iff (v : UInt64) : strtoll (hex v) = v ↔ v.toNat < 2 ^ 63 := by
  rw [strtoll_hex]
  split_ifs with h
  · exact iff_of_true rfl h
  · refine iff_of_false (fun heq => h ?_) h
    rw [← heq]
    decide

/-- **A number survives in metadata of any kind exactly if its top bit is clear**, whichever of the
two wrote it. -/
theorem getHexMetadata_hex (ins : Instr) (k : MDKind) (v : UInt64) :
    (getHexMetadataFromIns (ins.setMetadata k (.str (hex v))) k = some v ↔ v.toNat < 2 ^ 63) ∧
      (getHexMetadataFromIns (ins.setMetadata k (.str (SaveTranslatedBBs.hex v))) k = some v ↔
        v.toNat < 2 ^ 63) := by
  have hsave : SaveTranslatedBBs.hex v = hex v := rfl
  rw [hsave, getHexMetadata_setMetadata, Option.some.injEq, strtoll_hex_iff]
  exact ⟨Iff.rfl, Iff.rfl⟩

theorem not_getHexMetadata_hex : ¬ ∀ (ins : Instr) (k : MDKind) (v : UInt64),
    getHexMetadataFromIns (ins.setMetadata k (.str (hex v))) k = some v := by
  intro h
  have hpc := h ⟨some 0, .store (.arg 0) (.global "PC"), []⟩ .INS_currPC 0x8000000000000000
  rw [getHexMetadata_setMetadata, strtoll_hex] at hpc
  revert hpc
  decide

end Bin2llvm.FixOverlappedBBs
