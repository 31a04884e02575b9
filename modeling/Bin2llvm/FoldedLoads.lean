import Bin2llvm.MemOps
import Bin2llvm.ReplaceConstantLoads

/-!
# Bin2llvm.FoldedLoads — a folded load and the helper it stands for

`ReplaceConstantLoads` folds a load from the segment files, in either byte order; the same load
executes as a helper of `mem-ops-alt.ll`, which the driver links into the output for both.

* `toNat_word`: the number in a range of memory, put together from its bytes.
* `getMemoryValue_eq`: what a load from disjoint pools gives.
* `foldedLoad_spec`: the folded constant is what the helper returns, up to the byte order.
-/

namespace Bin2llvm.ReplaceConstantLoads

open MemOps LittleEndian

/-! ## Words -/

theorem toNat_foldl_bytes (bs : List UInt8) (h : bs.length ≤ 8) :
    (bs.foldl (fun (ret : UInt64) b => (ret <<< 8) ||| b.toUInt64) 0).toNat =
      value (bs.reverse.map UInt8.toBitVec) := by
  induction bs using List.reverseRecOn with
  | nil => rfl
  | append_singleton bs b ih =>
    rw [List.length_append, List.length_singleton] at h
    have hb : b.toUInt64.toNat = b.toBitVec.toNat := by simp
    have hlt : value (bs.reverse.map UInt8.toBitVec) < 256 ^ bs.length := by
      have := value_lt (bs.reverse.map UInt8.toBitVec)
      rwa [List.length_map, List.length_reverse] at this
    have hpow : 256 ^ bs.length ≤ 256 ^ 7 := Nat.pow_le_pow_right (by decide) (by omega)
    have hshift : value (bs.reverse.map UInt8.toBitVec) <<< 8 < 2 ^ 64 := by
      rw [Nat.shiftLeft_eq]
      omega
    rw [List.foldl_append, List.foldl_cons, List.foldl_nil, UInt64.toNat_or, UInt64.toNat_shiftLeft,
      show (8 : UInt64).toNat % 64 = 8 from rfl, ih (by omega), Nat.mod_eq_of_lt hshift, hb,
      Nat.or_comm, or_shiftLeft, List.reverse_append]
    rfl

theorem byteAddr_little {addr : UInt64} {n i : ℕ} (hi : i < n) :
    byteAddr false addr n i = addr + UInt64.ofNat (n - 1 - i) := by
  have hsplit : UInt64.ofNat n = UInt64.ofNat i + UInt64.ofNat (n - 1 - i) + 1 := by
    rw [← UInt64.ofNat_add, ← UInt64.ofNat_one, ← UInt64.ofNat_add]
    congr 1
    omega
  rw [byteAddr, if_neg Bool.false_ne_true, hsplit]
  grind

/-- The addresses from the least significant byte on. -/
theorem reverse_byteAddr (big : Bool) (addr : UInt64) (n : ℕ) :
    ((List.range n).map (byteAddr big addr n)).reverse =
      if big then ((List.range n).map fun k => addr + UInt64.ofNat k).reverse
      else (List.range n).map fun k => addr + UInt64.ofNat k := by
  cases big with
  | true => rfl
  | false =>
    rw [if_neg Bool.false_ne_true]
    refine List.ext_getElem (by simp) fun k h₁ h₂ => ?_
    have hk : k < n := by simpa using h₂
    rw [List.getElem_reverse, List.getElem_map, List.getElem_map, List.getElem_range,
      List.getElem_range, List.length_map, List.length_range, byteAddr_little (by omega),
        show n - 1 - (n - 1 - k) = k by omega]

/-- The bytes of memory from `addr` on. -/
def bytesAt (memory : UInt64 → UInt8) (addr : UInt64) (n : ℕ) : List (BitVec 8) :=
  (List.range n).map fun k => (memory (addr + UInt64.ofNat k)).toBitVec

theorem toNat_word (big : Bool) (memory : UInt64 → UInt8) (addr : UInt64) {n : ℕ} (hn : n ≤ 8) :
    (word big memory addr n).toNat =
      value (if big then (bytesAt memory addr n).reverse else bytesAt memory addr n) := by
  have hword : word big memory addr n =
      (((List.range n).map (byteAddr big addr n)).map memory).foldl
      (fun (ret : UInt64) b => (ret <<< 8) ||| b.toUInt64) 0 := by
    rw [List.map_map, List.foldl_map]
    rfl
  rw [hword, toNat_foldl_bytes _ (by simpa using hn), ← List.map_reverse, reverse_byteAddr]
  cases big with
  | true => simp [bytesAt, Function.comp_def]
  | false => simp [bytesAt, Function.comp_def]

/-! ## Reads -/

variable {p : MemoryPool} {o : Options} {image : UInt64 → UInt8} {addr : UInt64} {n : ℕ}

theorem lt_length_of_inside (h : p.inside addr = true) :
    (addr - p.mp_start).toNat < p.mp_file.length := by
  have hadd : p.mp_end.toNat = (p.mp_start.toNat + p.mp_file.length) % 2 ^ 64 := by
    rw [MemoryPool.mp_end, UInt64.toNat_add, UInt64.toNat_ofNat', Nat.add_mod_mod]
  unfold MemoryPool.inside at h
  simp only [decide_eq_true_eq, UInt64.le_iff_toNat_le, UInt64.lt_iff_toNat_lt, hadd] at h
  rw [UInt64.toNat_sub_of_le _ _ (UInt64.le_iff_toNat_le.mpr h.1)]
  have := Nat.mod_le (p.mp_start.toNat + p.mp_file.length) (2 ^ 64)
  omega

theorem isSome_read (big : Bool) (hn : 0 < n) (hn8 : n ≤ 8)
    (h : ∀ k < n, p.inside (addr + UInt64.ofNat k) = true) : (p.read addr n big).isSome = true := by
  have hfirst : p.inside addr = true := by simpa using h 0 hn
  have hlast : p.inside (addr + UInt64.ofNat n - 1) = true := by
    have hadd : addr + UInt64.ofNat n - 1 = byteAddr false addr n 0 := by simp [byteAddr]
    rw [hadd, byteAddr_little hn]
    exact h _ (by omega)
  unfold MemoryPool.read
  rw [if_pos ⟨hfirst, hn, hn8, hlast⟩]
  refine OptionMapM.isSome_foldlM (fun i hi ret => ?_) _
  have hi : i < n := List.mem_range.mp hi
  have hin : p.inside (byteAddr big addr n i) = true := by
    cases big with
    | true => exact h i hi
    | false => exact byteAddr_little hi ▸ h _ (by omega)
  unfold MemoryPool.readByte
  rw [Option.isSome_map, List.getElem?_eq_getElem (lt_length_of_inside hin)]
  rfl

/-- Of disjoint pools the one that holds the address is found. -/
theorem find?_inside {ps : List MemoryPool} (hdisj :
    ps.Pairwise fun p q => ∀ a, ¬ (p.inside a = true ∧ q.inside a = true))
    (hp : p ∈ ps) (haddr : p.inside addr = true) : ps.find? (fun p => p.inside addr) = some p := by
  induction ps with
  | nil => cases hp
  | cons q ps ih =>
    have ⟨hq, hps⟩ := List.pairwise_cons.mp hdisj
    rcases List.mem_cons.mp hp with rfl | hp
    · exact List.find?_cons_of_pos haddr
    · have hne : ¬ q.inside addr = true := fun hin => hq p hp addr ⟨hin, haddr⟩
      simp only [List.find?_cons, hne]
      exact ih hps hp

/-- The pools are disjoint, and `image` holds all of them. -/
structure Holds (o : Options) (image : UInt64 → UInt8) : Prop where
  disjoint : o.memoryPools.Pairwise fun p q => ∀ a, ¬ (p.inside a = true ∧ q.inside a = true)
  agrees : ∀ p ∈ o.memoryPools, p.Agrees image

/-- What a load from disjoint pools gives. -/
theorem getMemoryValue_eq (ho : Holds o image) (hp : p ∈ o.memoryPools) (hn : 0 < n) (hn8 : n ≤ 8)
    (h : ∀ k < n, p.inside (addr + UInt64.ofNat k) = true) :
    getMemoryValue o addr n = some (some (word o.isBigEndian image addr n)) := by
  have hfirst : p.inside addr = true := by simpa using h 0 hn
  obtain ⟨v, hv⟩ := Option.isSome_iff_exists.mp (isSome_read o.isBigEndian hn hn8 h)
  unfold getMemoryValue
  rw [find?_inside ho.disjoint hp hfirst]
  simp only
  rw [hv, MemoryPool.read_eq (ho.agrees p hp) hv]
  rfl

/-! ## The helpers -/

/-- What the load of `mem-ops-alt.ll` for a width returns. -/
def loadOf (bits : ℕ) (addr mmu_idx : BitVec 32) (h : Heap) : ℕ :=
  match bits with
  | 32 => (__ldl_mmu addr mmu_idx h).1.toNat
  | 16 => (__ldw_mmu addr mmu_idx h).1.toNat
  | _ => (__ldb_mmu addr mmu_idx h).1.toNat

/-- `@MEMORY` holds the image. -/
def HoldsImage (h : Heap) (image : UInt64 → UInt8) : Prop :=
  ∀ a : UInt64, a.toNat < memoryLength → h.bytes a.toNat = (image a).toBitVec

theorem valueType_cases {helper : String} {bits : ℕ} (h : valueType helper = some bits) :
    bits = 32 ∨ bits = 16 ∨ bits = 8 := by
  unfold valueType at h
  split_ifs at h <;> simp_all

theorem loadOf_eq {bits : ℕ} (hbits : bits = 32 ∨ bits = 16 ∨ bits = 8)
    (addr mmu_idx : BitVec 32) (h : Heap) :
    loadOf bits addr mmu_idx h = littleEndian h.byte addr (bits / 8) := by
  have hloads := toNat_loads h addr mmu_idx
  rcases hbits with rfl | rfl | rfl
  · exact hloads.2.2
  · exact hloads.2.1
  · exact hloads.1

/-- Below `2^31` an index is not negative. -/
theorem littleEndian_eq {h : Heap} (hh : HoldsImage h image)
    (hlow : ∀ k < n, addr.toNat + k < 2 ^ 31) :
    littleEndian h.byte (BitVec.ofNat 32 addr.toNat) n = value (bytesAt image addr n) := by
  unfold littleEndian bytesAt
  congr 1
  refine List.map_congr_left fun k hk => ?_
  have hk := hlow k (List.mem_range.mp hk)
  have hnat : (addr + UInt64.ofNat k).toNat = addr.toNat + k := by
    rw [UInt64.toNat_add, UInt64.toNat_ofNat']
    omega
  have hidx : (BitVec.ofNat 32 addr.toNat + BitVec.ofNat 32 k).toNat = addr.toNat + k := by
    rw [BitVec.toNat_add, BitVec.toNat_ofNat, BitVec.toNat_ofNat]
    omega
  have hgep : gep (BitVec.ofNat 32 addr.toNat + BitVec.ofNat 32 k) =
      ((addr + UInt64.ofNat k).toNat : ℤ) := by
    rw [gep, (toInt_eq_toNat_iff _).mpr (by omega), hidx, hnat]
  rw [Heap.byte, hgep]
  exact hh _ (by unfold memoryLength; omega)

/-- **In memory below `2^31` a load of a constant address is replaced by what the helper returns,
with its bytes in the reverse order if `-is-big-endian` is set.** -/
theorem foldedLoad_spec {h : Heap} (ho : Holds o image) (hh : HoldsImage h image)
    {helper : String} {bits : ℕ} (hbits : valueType helper = some bits) (hp : p ∈ o.memoryPools)
    (hin : ∀ k < bits / 8, p.inside (addr + UInt64.ofNat k) = true)
    (hlow : ∀ k < bits / 8, addr.toNat + k < 2 ^ 31) {st : Func × List ConstantLoad} {ins : Instr}
    {call : InstId} {mmu_idx : Value} (hins : st.1.instrs[n]? = some ins)
    (hop : ins.op = .call (.func helper) [.constInt 32 addr, mmu_idx]) (hid : ins.id = some call) :
    ∃ v bs, replaceLoad o st n =
        some (st.1.replaceAllUsesWith (.inst call) (.constInt bits v),
          st.2 ++ [⟨call, addr, bits, v⟩]) ∧
      bs.length = bits / 8 ∧ (∀ mmu_idx,
        loadOf bits (BitVec.ofNat 32 addr.toNat) mmu_idx h = value bs) ∧
      v.toNat = value (if o.isBigEndian then bs.reverse else bs) := by
  have hcases := valueType_cases hbits
  have hbytes : 0 < bits / 8 ∧ bits / 8 ≤ 8 := by omega
  have hv := getMemoryValue_eq ho hp hbytes.1 hbytes.2 hin
  have hcall : loadCall ins = some (some (bits, addr)) := by
    unfold loadCall
    rw [hop]
    simp [Value.constInt?, hbits]
  refine ⟨word o.isBigEndian image addr (bits / 8), bytesAt image addr (bits / 8), ?_, ?_, ?_, ?_⟩
  · unfold replaceLoad
    rw [hins]
    simp [hcall, hv, hid]
  · rw [bytesAt, List.length_map, List.length_range]
  · intro mmu_idx
    rw [loadOf_eq hcases, littleEndian_eq hh hlow]
  · exact toNat_word _ _ _ hbytes.2

/-! ## One pool in memory -/

/-- The image of a pool, zero elsewhere. -/
def imageOf (p : MemoryPool) : UInt64 → UInt8 := fun a => p.mp_file.getD (a - p.mp_start).toNat 0

def heapOf (image : UInt64 → UInt8) : Heap := ⟨fun q => (image (UInt64.ofNat q.toNat)).toBitVec, []⟩

theorem holdsImage_heapOf (image : UInt64 → UInt8) : HoldsImage (heapOf image) image := by
  intro a _
  show (image (UInt64.ofNat (a.toNat : ℤ).toNat)).toBitVec = _
  rw [Int.toNat_natCast, UInt64.ofNat_toNat]

theorem holds_imageOf {p : MemoryPool} (hlen : p.mp_file.length ≤ 2 ^ 64) (big : Bool) :
    Holds ⟨[p], big, []⟩ (imageOf p) := by
  refine ⟨List.pairwise_singleton _ _, fun q hq k b hb => ?_⟩
  obtain rfl := List.mem_singleton.mp hq
  have hk : k < q.mp_file.length := (List.getElem?_eq_some_iff.mp hb).1
  have hdist : (q.mp_start + UInt64.ofNat k - q.mp_start).toNat = k := by
    rw [UInt64.add_comm, UInt64.add_sub_cancel, UInt64.toNat_ofNat', Nat.mod_eq_of_lt (by omega)]
  rw [imageOf, hdist, List.getD_eq_getElem?_getD, hb]
  rfl

/-- The four bytes at `0x1000`. -/
def fourBytes : MemoryPool := ⟨[0x78, 0x56, 0x34, 0x12], 0x1000⟩

/-- A load of them. -/
def loadInstr : Instr :=
  ⟨some 0, .call (.func "__ldl_mmu") [.constInt 32 0x1000, .constInt 32 0], []⟩

/-- As a big-endian word. -/
theorem foldedLoad_fourBytes :
    ∃ v bs, replaceLoad ⟨[fourBytes], true, []⟩ (⟨"f", [⟨0, "entry", [loadInstr]⟩]⟩, []) 0 =
        some ((⟨"f", [⟨0, "entry", [loadInstr]⟩]⟩ : Func).replaceAllUsesWith (.inst 0)
          (.constInt 32 v), [⟨0, 0x1000, 32, v⟩]) ∧
      bs.length = 32 / 8 ∧
      (∀ mmu_idx, loadOf 32 (BitVec.ofNat 32 (0x1000 : UInt64).toNat) mmu_idx (heapOf
        (imageOf fourBytes)) = value bs) ∧
      v.toNat = value (if true then bs.reverse else bs) :=
  foldedLoad_spec (holds_imageOf (by decide) true) (holdsImage_heapOf _) rfl List.mem_cons_self
    (by decide) (by decide) rfl rfl rfl

/-- The constant for a load is what the helper returns. -/
def FoldAgrees (o : Options) (h : Heap) (addr : UInt64) (bits : ℕ) : Prop :=
  ∀ v, getMemoryValue o addr (bits / 8) = some (some v) →
    ∀ mmu_idx, loadOf bits (BitVec.ofNat 32 addr.toNat) mmu_idx h = v.toNat

/-- The helper reads a big-endian word in the wrong order. -/
theorem not_foldAgrees_big : Holds ⟨[fourBytes], true, []⟩ (imageOf fourBytes) ∧
    HoldsImage (heapOf (imageOf fourBytes)) (imageOf fourBytes) ∧
    ¬ FoldAgrees ⟨[fourBytes], true, []⟩ (heapOf (imageOf fourBytes)) 0x1000 32 := by
  refine ⟨holds_imageOf (by decide) true, holdsImage_heapOf _, fun h => ?_⟩
  have := h 0x78563412 (by decide) 0
  revert this
  decide

end Bin2llvm.ReplaceConstantLoads
