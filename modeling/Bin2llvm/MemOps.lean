import Bin2llvm.Lib.LittleEndian
import Mathlib.Data.List.Induction
import Mathlib.Algebra.Order.Ring.Int

/-!
# Bin2llvm.MemOps — the memory functions of `mem-ops-alt.ll`

The functions through which recovered code accesses guest memory.  They go byte by byte through the
array `@MEMORY`, whose elements they address with indices of 32 bits; `getelementptr` extends these
with their sign.

* `accessed_run`: the addresses a function goes through.
* `inBounds_iff`: they are the elements of `@MEMORY` exactly for the addresses in the lower half.
* `byte_run`, `bytes_run`: what a call writes, and that it writes nothing else; `byte_runAll` over a
  sequence of calls.
* `loads_lastWritten`: a load puts together the bytes last written.
-/

set_option linter.style.nameCheck false

namespace Bin2llvm.MemOps

/-- Memory by its distance to `@MEMORY`, and the distances accessed. -/
structure Heap where
  bytes : ℤ → BitVec 8
  accessed : List ℤ

/-- The elements of `%Mem8Type`. -/
def memoryLength : ℕ := 4294967296

/-- `getelementptr %Mem8Type* @MEMORY, i32 0, i32 %idx`. -/
def gep (idx : BitVec 32) : ℤ := idx.toInt

def load (p : ℤ) : StateM Heap (BitVec 8) :=
  fun h => (h.bytes p, { h with accessed := h.accessed ++ [p] })

def store (v : BitVec 8) (p : ℤ) : StateM Heap Unit := fun h =>
  ((), ⟨fun q => if q = p then v else h.bytes q, h.accessed ++ [p]⟩)

/-! ## The functions -/

def __ldl_mmu (addr _mmu_idx : BitVec 32) : StateM Heap (BitVec 32) := do
  let ptr0 := gep (addr + 0)
  let ptr1 := gep (addr + 1)
  let ptr2 := gep (addr + 2)
  let ptr3 := gep (addr + 3)
  let val0 ← load ptr0
  let val1 ← load ptr1
  let val2 ← load ptr2
  let val3 ← load ptr3
  let valS0 := val0.zeroExtend 32 <<< 0
  let valS1 := val1.zeroExtend 32 <<< 8
  let valS2 := val2.zeroExtend 32 <<< 16
  let valS3 := val3.zeroExtend 32 <<< 24
  let valH := valS0 ||| valS1
  let valL := valS2 ||| valS3
  return valH ||| valL

def __stl_mmu (addr val _mmu_idx : BitVec 32) : StateM Heap Unit := do
  let ptr0 := gep (addr + 0)
  let ptr1 := gep (addr + 1)
  let ptr2 := gep (addr + 2)
  let ptr3 := gep (addr + 3)
  let valT0 := (val >>> 0).truncate 8
  let valT1 := (val >>> 8).truncate 8
  let valT2 := (val >>> 16).truncate 8
  let valT3 := (val >>> 24).truncate 8
  store valT0 ptr0
  store valT1 ptr1
  store valT2 ptr2
  store valT3 ptr3

def __ldw_mmu (addr _mmu_idx : BitVec 32) : StateM Heap (BitVec 16) := do
  let ptr0 := gep (addr + 0)
  let ptr1 := gep (addr + 1)
  let val0 ← load ptr0
  let val1 ← load ptr1
  let valS0 := val0.zeroExtend 16 <<< 0
  let valS1 := val1.zeroExtend 16 <<< 8
  return valS0 ||| valS1

def __stw_mmu (addr : BitVec 32) (val : BitVec 16) (_mmu_idx : BitVec 32) : StateM Heap Unit := do
  let ptr0 := gep (addr + 0)
  let ptr1 := gep (addr + 1)
  let valT0 := (val >>> 0).truncate 8
  let valT1 := (val >>> 8).truncate 8
  store valT0 ptr0
  store valT1 ptr1

def __ldb_mmu (addr _mmu_idx : BitVec 32) : StateM Heap (BitVec 8) := load (gep (addr + 0))

def __stb_mmu (addr : BitVec 32) (val : BitVec 8) (_mmu_idx : BitVec 32) : StateM Heap Unit :=
  store val (gep (addr + 0))

/-- A call of one of the functions; stores come with what they store. -/
inductive Call where
  | ldb | ldw | ldl
  | stb (val : BitVec 8) | stw (val : BitVec 16) | stl (val : BitVec 32)
  deriving DecidableEq, Repr

namespace Call

/-- The bytes it goes through. -/
def size : Call → ℕ
  | ldb | stb _ => 1
  | ldw | stw _ => 2
  | ldl | stl _ => 4

/-- The heap after the call. -/
def run (c : Call) (addr mmu_idx : BitVec 32) (h : Heap) : Heap :=
  match c with
  | ldb => (__ldb_mmu addr mmu_idx h).2
  | ldw => (__ldw_mmu addr mmu_idx h).2
  | ldl => (__ldl_mmu addr mmu_idx h).2
  | stb val => (__stb_mmu addr val mmu_idx h).2
  | stw val => (__stw_mmu addr val mmu_idx h).2
  | stl val => (__stl_mmu addr val mmu_idx h).2

end Call

variable {c : Call} {addr : BitVec 32}

/-! ## What they access -/

theorem append_four (l : List ℤ) (p q r s : ℤ) :
    l ++ [p] ++ [q] ++ [r] ++ [s] = l ++ [p, q, r, s] := by simp

/-- A function goes through its addresses in order, each taken with its sign. -/
theorem accessed_run (c : Call) (addr mmu_idx : BitVec 32) (h : Heap) :
    (c.run addr mmu_idx h).accessed =
      h.accessed ++ (List.range c.size).map fun k => (addr + BitVec.ofNat 32 k).toInt := by
  cases c with
  | ldb => rfl
  | stb val => rfl
  | ldw => exact List.append_assoc _ _ _
  | stw val => exact List.append_assoc _ _ _
  | ldl => exact append_four _ _ _ _ _
  | stl val => exact append_four _ _ _ _ _

theorem toInt_eq_toNat_iff (a : BitVec 32) : a.toInt = (a.toNat : ℤ) ↔ a.toNat < 2 ^ 31 := by
  rw [BitVec.toInt_eq_toNat_cond]
  have := a.isLt
  split_ifs with h <;> omega

/-- Every byte at an address `a` of the call is the element `a` of `@MEMORY`. -/
def InBounds (c : Call) (addr : BitVec 32) : Prop := ∀ mmu_idx h, ∃ ptrs,
  (c.run addr mmu_idx h).accessed = h.accessed ++ ptrs ∧
    ptrs = (List.range c.size).map (fun k => ((addr + BitVec.ofNat 32 k).toNat : ℤ)) ∧
    ∀ p ∈ ptrs, 0 ≤ p ∧ p < memoryLength

/-- **A function accesses the elements of `@MEMORY` that its addresses name exactly when these are
below `2^31`.** -/
theorem inBounds_iff (c : Call) (addr : BitVec 32) :
    InBounds c addr ↔ ∀ k < c.size, (addr + BitVec.ofNat 32 k).toNat < 2 ^ 31 := by
  constructor
  · intro h k hk
    obtain ⟨ptrs, hacc, rfl, -⟩ := h 0 ⟨fun _ => 0, []⟩
    rw [accessed_run, List.nil_append, List.nil_append, List.map_inj_left] at hacc
    exact (toInt_eq_toNat_iff _).mp (hacc k (List.mem_range.mpr hk))
  · intro h mmu_idx heap
    refine ⟨_, accessed_run c addr mmu_idx heap, ?_, ?_⟩
    · exact List.map_congr_left fun k hk => (toInt_eq_toNat_iff _).mpr (h k (List.mem_range.mp hk))
    · intro p hp
      obtain ⟨k, hk, rfl⟩ := List.mem_map.mp hp
      rw [(toInt_eq_toNat_iff _).mpr (h k (List.mem_range.mp hk))]
      have := (addr + BitVec.ofNat 32 k).isLt
      unfold memoryLength
      omega

/-- In the upper half a function goes through what is before `@MEMORY`. -/
theorem not_inBounds_upper : ¬ InBounds .ldb 0x80000000 := by
  intro h
  obtain ⟨ptrs, hacc, rfl, -⟩ := h 0 ⟨fun _ => 0, []⟩
  revert hacc
  decide

/-! ## What they load and store -/

theorem gep_inj {a b : BitVec 32} : gep a = gep b ↔ a = b := BitVec.toInt_inj

/-- The byte at an address. -/
def Heap.byte (h : Heap) (a : BitVec 32) : BitVec 8 := h.bytes (gep a)

/-- The number in the `n` bytes from `addr` on; the addresses wrap around. -/
def littleEndian (m : BitVec 32 → BitVec 8) (addr : BitVec 32) (n : ℕ) : ℕ :=
  LittleEndian.value ((List.range n).map fun k => m (addr + BitVec.ofNat 32 k))

namespace Call

theorem size_le (c : Call) : c.size ≤ 4 := by cases c <;> simp [size]

/-- The value of a store. -/
def stored : Call → Option ℕ
  | ldb | ldw | ldl => none
  | stb val => some val.toNat
  | stw val => some val.toNat
  | stl val => some val.toNat

/-- What the call writes to the byte at `a`. -/
def writes (c : Call) (addr a : BitVec 32) : Option (BitVec 8) :=
  if (a - addr).toNat < c.size then c.stored.map fun v => LittleEndian.byte v (a - addr).toNat
  else none

end Call

theorem truncate_ushiftRight {w : ℕ} (val : BitVec w) (k : ℕ) :
    (val >>> (8 * k)).truncate 8 = LittleEndian.byte val.toNat k := by
  apply BitVec.eq_of_toNat_eq
  rw [LittleEndian.toNat_byte, BitVec.truncate_eq_setWidth, BitVec.toNat_setWidth,
    BitVec.toNat_ushiftRight, Nat.shiftRight_eq_div_pow, Nat.pow_mul]

/-- An address by its distance to the first one of a call. -/
theorem eq_add_iff {a : BitVec 32} {k : ℕ} (hk : k < 2 ^ 32) :
    a = addr + BitVec.ofNat 32 k ↔ (a - addr).toNat = k := by
  rw [BitVec.add_comm, ← BitVec.sub_eq_iff_eq_add, ← BitVec.toNat_inj, BitVec.toNat_ofNat,
    Nat.mod_eq_of_lt hk]

theorem byte_run (c : Call) (addr mmu_idx : BitVec 32) (h : Heap) (a : BitVec 32) :
    (c.run addr mmu_idx h).byte a = (c.writes addr a).getD (h.byte a) := by
  -- two elements are the same exactly when the addresses are
  have hptr (k : ℕ) (hk : k < 4) : (gep a = gep (addr + BitVec.ofNat 32 k)) =
      ((a - addr).toNat = k) := by
    rw [gep_inj, eq_add_iff (by omega)]
  have h0 := hptr 0 (by decide)
  have h1 := hptr 1 (by decide)
  have h2 := hptr 2 (by decide)
  have h3 := hptr 3 (by decide)
  cases c with
  | ldb | ldw | ldl => unfold Call.writes; split_ifs <;> rfl
  | stb val =>
    show (if gep a = gep (addr + BitVec.ofNat 32 0) then val else h.byte a) = _
    have hval : val = LittleEndian.byte val.toNat 0 := by simp [LittleEndian.byte]
    simp only [h0, Call.writes, Call.stored, Call.size]
    rcases (a - addr).toNat with _ | k
    · exact hval
    · simp
  | stw val =>
    show (if gep a = gep (addr + BitVec.ofNat 32 1) then (val >>> (8 * 1)).truncate 8 else
      if gep a = gep (addr + BitVec.ofNat 32 0) then (val >>> (8 * 0)).truncate 8 else h.byte a) = _
    simp only [h0, h1, truncate_ushiftRight, Call.writes, Call.stored, Call.size]
    rcases (a - addr).toNat with _ | _ | k
    · rfl
    · rfl
    · simp [show ¬ k + 2 < 2 by omega]
  | stl val =>
    show (if gep a = gep (addr + BitVec.ofNat 32 3) then (val >>> (8 * 3)).truncate 8 else
      if gep a = gep (addr + BitVec.ofNat 32 2) then (val >>> (8 * 2)).truncate 8 else
      if gep a = gep (addr + BitVec.ofNat 32 1) then (val >>> (8 * 1)).truncate 8 else
      if gep a = gep (addr + BitVec.ofNat 32 0) then (val >>> (8 * 0)).truncate 8 else h.byte a) = _
    simp only [h0, h1, h2, h3, truncate_ushiftRight, Call.writes, Call.stored, Call.size]
    rcases (a - addr).toNat with _ | _ | _ | _ | k
    · rfl
    · rfl
    · rfl
    · rfl
    · simp [show ¬ k + 4 < 4 by omega]

/-- Nothing else is changed. -/
theorem bytes_run (c : Call) (addr mmu_idx : BitVec 32) (h : Heap) (p : ℤ)
    (hp : ∀ k < c.size, p ≠ gep (addr + BitVec.ofNat 32 k)) :
    (c.run addr mmu_idx h).bytes p = h.bytes p := by
  cases c with
  | ldb | ldw | ldl => rfl
  | stb val => exact if_neg (hp 0 Nat.one_pos)
  | stw val => exact (if_neg (hp 1 Nat.one_lt_two)).trans (if_neg (hp 0 Nat.two_pos))
  | stl val =>
    have hne (k : ℕ) (hk : k < 4) : p ≠ gep (addr + BitVec.ofNat 32 k) := hp k hk
    refine (if_neg (hne 3 (by decide))).trans ((if_neg (hne 2 (by decide))).trans ?_)
    exact (if_neg (hne 1 (by decide))).trans (if_neg (hne 0 (by decide)))

/-! ## Sequences of calls -/

structure Access where
  call : Call
  addr : BitVec 32
  mmu_idx : BitVec 32
  deriving DecidableEq, Repr

def Access.run (x : Access) (h : Heap) : Heap := x.call.run x.addr x.mmu_idx h

def runAll (w : List Access) (h : Heap) : Heap := w.foldl (fun h x => x.run h) h

/-- The byte last written at `a`, and the one of `h` where nothing was written. -/
def lastWritten (w : List Access) (h : Heap) (a : BitVec 32) : BitVec 8 :=
  (w.reverse.findSome? fun x => x.call.writes x.addr a).getD (h.byte a)

theorem byte_runAll (w : List Access) (h : Heap) (a : BitVec 32) :
    (runAll w h).byte a = lastWritten w h a := by
  unfold runAll lastWritten
  induction w using List.reverseRecOn with
  | nil => rfl
  | append_singleton w x ih =>
    rw [List.foldl_append, List.reverse_append]
    show (x.call.run x.addr x.mmu_idx _).byte a =
      (List.findSome? (fun x => x.call.writes x.addr a) (x :: w.reverse)).getD (h.byte a)
    rw [byte_run, ih, List.findSome?_cons]
    cases x.call.writes x.addr a <;> rfl

theorem toNat_shiftLeft_zeroExtend (b : BitVec 8) {w k : ℕ} (h : 8 + k ≤ w) :
    (b.zeroExtend w <<< k).toNat = b.toNat <<< k := by
  have hlt : b.toNat <<< k < 2 ^ w := by
    rw [Nat.shiftLeft_eq]
    calc b.toNat * 2 ^ k < 2 ^ 8 * 2 ^ k := (Nat.mul_lt_mul_right (Nat.two_pow_pos k)).mpr b.isLt
      _ = 2 ^ (8 + k) := (Nat.pow_add 2 8 k).symm
      _ ≤ 2 ^ w := Nat.pow_le_pow_right Nat.two_pos h
  have hb : b.toNat < 2 ^ w := b.isLt.trans_le (Nat.pow_le_pow_right Nat.two_pos (by omega))
  rw [BitVec.toNat_shiftLeft, BitVec.toNat_setWidth, Nat.mod_eq_of_lt hb, Nat.mod_eq_of_lt hlt]

/-- What the loads return. -/
theorem toNat_loads (h : Heap) (addr mmu_idx : BitVec 32) :
    (__ldb_mmu addr mmu_idx h).1.toNat = littleEndian h.byte addr 1 ∧
    (__ldw_mmu addr mmu_idx h).1.toNat = littleEndian h.byte addr 2 ∧
    (__ldl_mmu addr mmu_idx h).1.toNat = littleEndian h.byte addr 4 := by
  let b (k : ℕ) : BitVec 8 := h.byte (addr + BitVec.ofNat 32 k)
  refine ⟨?_, ?_, ?_⟩
  · show (b 0).toNat = LittleEndian.value [b 0]
    simp
  · show ((b 0).zeroExtend 16 <<< 0 ||| (b 1).zeroExtend 16 <<< 8).toNat =
      LittleEndian.value [b 0, b 1]
    rw [BitVec.toNat_or, toNat_shiftLeft_zeroExtend _ (by decide),
      toNat_shiftLeft_zeroExtend _ (by decide), Nat.shiftLeft_zero, LittleEndian.value_pair]
  · show (((b 0).zeroExtend 32 <<< 0 ||| (b 1).zeroExtend 32 <<< 8) |||
      ((b 2).zeroExtend 32 <<< 16 ||| (b 3).zeroExtend 32 <<< 24)).toNat = LittleEndian.value [b 0,
        b 1, b 2, b 3]
    rw [BitVec.toNat_or, BitVec.toNat_or, BitVec.toNat_or, toNat_shiftLeft_zeroExtend _ (by decide),
      toNat_shiftLeft_zeroExtend _ (by decide), toNat_shiftLeft_zeroExtend _ (by decide),
      toNat_shiftLeft_zeroExtend _ (by decide), Nat.shiftLeft_zero, LittleEndian.value_quad]

/-- The bytes of a store are those of its value. -/
theorem littleEndian_byte_run {v : ℕ} (hv : c.stored = some v) (mmu_idx : BitVec 32) (h : Heap) :
    littleEndian (c.run addr mmu_idx h).byte addr c.size = v % 256 ^ c.size := by
  rw [← LittleEndian.value_bytes, littleEndian]
  congr 1
  refine List.map_congr_left fun k hk => ?_
  have hk : k < c.size := List.mem_range.mp hk
  have hdist : (addr + BitVec.ofNat 32 k - addr).toNat = k := by
    have := c.size_le
    exact (eq_add_iff (by omega)).mp rfl
  rw [byte_run, Call.writes, hdist, if_pos hk, hv]
  rfl

/-- **After any calls a load returns the little-endian composition of the bytes last written, a call
changes no byte but those it addresses, and a store is read back.** -/
theorem loads_lastWritten (w : List Access) (h : Heap) (addr mmu_idx : BitVec 32) :
    ((__ldb_mmu addr mmu_idx (runAll w h)).1.toNat = littleEndian (lastWritten w h) addr 1 ∧
      (__ldw_mmu addr mmu_idx (runAll w h)).1.toNat = littleEndian (lastWritten w h) addr 2 ∧
      (__ldl_mmu addr mmu_idx (runAll w h)).1.toNat = littleEndian (lastWritten w h) addr 4) ∧
    (∀ c p, (∀ k < Call.size c, p ≠ gep (addr + BitVec.ofNat 32 k)) →
      (c.run addr mmu_idx (runAll w h)).bytes p = (runAll w h).bytes p) ∧
    ∀ mmu_idx',
      (∀ val, (__ldb_mmu addr mmu_idx' (__stb_mmu addr val mmu_idx (runAll w h)).2).1 = val) ∧
      (∀ val, (__ldw_mmu addr mmu_idx' (__stw_mmu addr val mmu_idx (runAll w h)).2).1 = val) ∧
      (∀ val, (__ldl_mmu addr mmu_idx' (__stl_mmu addr val mmu_idx (runAll w h)).2).1 = val) := by
  have hbyte : (runAll w h).byte = lastWritten w h := funext (byte_runAll w h)
  refine ⟨?_, fun c p hp => bytes_run c addr mmu_idx _ p hp, fun mmu_idx' => ⟨?_, ?_, ?_⟩⟩
  · rw [← hbyte]
    exact toNat_loads _ _ _
  · intro val
    apply BitVec.eq_of_toNat_eq
    have hval : val.toNat % 256 ^ 1 = val.toNat := Nat.mod_eq_of_lt val.isLt
    exact (toNat_loads _ _ _).1.trans
      ((littleEndian_byte_run (c := .stb val) rfl mmu_idx _).trans hval)
  · intro val
    apply BitVec.eq_of_toNat_eq
    have hval : val.toNat % 256 ^ 2 = val.toNat := Nat.mod_eq_of_lt val.isLt
    exact (toNat_loads _ _ _).2.1.trans
      ((littleEndian_byte_run (c := .stw val) rfl mmu_idx _).trans hval)
  · intro val
    apply BitVec.eq_of_toNat_eq
    have hval : val.toNat % 256 ^ 4 = val.toNat := Nat.mod_eq_of_lt val.isLt
    exact (toNat_loads _ _ _).2.2.trans
      ((littleEndian_byte_run (c := .stl val) rfl mmu_idx _).trans hval)

end Bin2llvm.MemOps
