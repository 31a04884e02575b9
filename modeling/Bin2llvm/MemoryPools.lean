import Bin2llvm.Metadata
import Bin2llvm.Lib.OptionMapM

/-!
# Bin2llvm.MemoryPools — the memory images of the loaded segments

`ReplaceConstantLoads::MemoryPool`: a file that is mapped at an address, read byte by byte in either
byte order.  A failed `assert`, and a read behind the end of the file, is `none`.

* `word`: the number in a range of memory.
* `MemoryPool.read_eq`: a read of a pool gives the number in every memory that agrees with the pool.
* `MemoryPool.read_lt`: it fits into the bytes that are read.
-/

namespace Bin2llvm

/-- The addresses of the `n` bytes from `addr` on, the most significant one first. -/
def byteAddr (isBigEndian : Bool) (addr : UInt64) (n i : ℕ) : UInt64 :=
  if isBigEndian then addr + UInt64.ofNat i else addr + UInt64.ofNat n - UInt64.ofNat i - 1

/-- The number in the `n` bytes of memory from `addr` on. -/
def word (isBigEndian : Bool) (memory : UInt64 → UInt8) (addr : UInt64) (n : ℕ) : UInt64 :=
  (List.range n).foldl (fun ret i =>
    (ret <<< 8) ||| (memory (byteAddr isBigEndian addr n i)).toUInt64) 0

theorem word_congr {big : Bool} {m m' : UInt64 → UInt8} {addr : UInt64} {n : ℕ}
    (h : ∀ i < n, m (byteAddr big addr n i) = m' (byteAddr big addr n i)) :
    word big m addr n = word big m' addr n := by
  unfold word
  refine List.foldl_ext _ _ _ fun ret i hi => ?_
  rw [h i (List.mem_range.mp hi)]

theorem shift_or_lt {ret : UInt64} {b : UInt8} {k : ℕ} (h : ret.toNat < 2 ^ (8 * k)) (hk : k < 8) :
    ((ret <<< 8) ||| b.toUInt64).toNat < 2 ^ (8 * (k + 1)) := by
  have hb : b.toUInt64.toNat < 2 ^ 8 := by simpa using b.toNat_lt
  have hpow : 2 ^ (8 * (k + 1)) = 2 ^ (8 * k) * 2 ^ 8 := by rw [← Nat.pow_add]; rfl
  have hle : 2 ^ 8 ≤ 2 ^ (8 * (k + 1)) := Nat.pow_le_pow_right (by omega) (by omega)
  rw [UInt64.toNat_or]
  refine Nat.or_lt_two_pow ?_ (hb.trans_le hle)
  rw [UInt64.toNat_shiftLeft, show (8 : UInt64).toNat % 64 = 8 from rfl, Nat.shiftLeft_eq]
  refine (Nat.mod_le _ _).trans_lt ?_
  rw [hpow]
  exact (Nat.mul_lt_mul_right (by omega)).mpr h

structure MemoryPool where
  mp_file : List UInt8
  mp_start : UInt64
  deriving DecidableEq, Repr

namespace MemoryPool

variable (p : MemoryPool)

/-- `mp_start + (uint64_t)mp_file.tellg()`, at the end of the file. -/
def mp_end : UInt64 := p.mp_start + UInt64.ofNat p.mp_file.length

def inside (addr : UInt64) : Bool := p.mp_start ≤ addr ∧ addr < p.mp_end

def readByte (ret pos : UInt64) : Option UInt64 :=
  (p.mp_file[pos.toNat]?).map fun b => (ret <<< 8) ||| b.toUInt64

def read (addr : UInt64) (byteCnt : ℕ) (isBigEndian : Bool) : Option UInt64 :=
  if p.inside addr ∧ 0 < byteCnt ∧ byteCnt ≤ 8 ∧ p.inside (addr + UInt64.ofNat byteCnt - 1) then
    (List.range byteCnt).foldlM (fun ret i =>
      p.readByte ret (byteAddr isBigEndian addr byteCnt i - p.mp_start)) 0
  else none

/-- The memory holds the pool. -/
def Agrees (memory : UInt64 → UInt8) : Prop :=
  ∀ k b, p.mp_file[k]? = some b → memory (p.mp_start + UInt64.ofNat k) = b

variable {p} {memory : UInt64 → UInt8}

theorem readByte_eq (h : p.Agrees memory) {ret a v : UInt64}
    (hv : p.readByte ret (a - p.mp_start) = some v) : v = (ret <<< 8) ||| (memory a).toUInt64 := by
  obtain ⟨b, hb, rfl⟩ := Option.map_eq_some_iff.mp hv
  have ha : p.mp_start + UInt64.ofNat (a - p.mp_start).toNat = a := by
    rw [UInt64.ofNat_toNat, UInt64.add_comm, UInt64.sub_add_cancel]
  have := h _ _ hb
  rw [ha] at this
  rw [this]

theorem read_eq (h : p.Agrees memory) {addr v : UInt64} {n : ℕ} {big : Bool}
    (hv : p.read addr n big = some v) : v = word big memory addr n := by
  unfold read at hv
  split_ifs at hv
  unfold word
  have hstep : ∀ (done : List ℕ) (ret : UInt64) (i : ℕ) (ret' : UInt64),
      ret = done.foldl (fun (ret : UInt64) i =>
        (ret <<< 8) ||| (memory (byteAddr big addr n i)).toUInt64) 0 →
      p.readByte ret (byteAddr big addr n i - p.mp_start) = some ret' → ret' = (done ++ [i]).foldl
        (fun (ret : UInt64) i => (ret <<< 8) ||| (memory (byteAddr big addr n i)).toUInt64) 0 := by
    intro done ret i ret' hret hbyte
    rw [List.foldl_append, ← hret, readByte_eq h hbyte]
    rfl
  let P (done : List ℕ) (ret : UInt64) : Prop :=
    ret = done.foldl (fun (ret : UInt64) i =>
      (ret <<< 8) ||| (memory (byteAddr big addr n i)).toUInt64) 0
  exact (OptionMapM.foldlM_preserves hstep rfl hv : P (List.range n) v)

theorem read_lt {addr v : UInt64} {n : ℕ} {big : Bool} (hv : p.read addr n big = some v) :
    v.toNat < 2 ^ (8 * n) := by
  unfold read at hv
  split_ifs at hv with hcond
  have hstep : ∀ (done : List ℕ) (ret : UInt64) (i : ℕ) (ret' : UInt64),
      (done.length < 9 → ret.toNat < 2 ^ (8 * done.length)) →
      p.readByte ret (byteAddr big addr n i - p.mp_start) = some ret' →
      ((done ++ [i]).length < 9 → ret'.toNat < 2 ^ (8 * (done ++ [i]).length)) := by
    intro done ret i ret' hret hbyte hlen
    obtain ⟨b, -, rfl⟩ := Option.map_eq_some_iff.mp hbyte
    rw [List.length_append, List.length_singleton] at hlen ⊢
    exact shift_or_lt (hret (by omega)) (by omega)
  let P (done : List ℕ) (ret : UInt64) : Prop := done.length < 9 → ret.toNat < 2 ^ (8 * done.length)
  have hlt : P (List.range n) v := OptionMapM.foldlM_preserves hstep (fun _ => by simp) hv
  dsimp only [P] at hlt
  rw [List.length_range] at hlt
  exact hlt (by omega)

end MemoryPool

end Bin2llvm
