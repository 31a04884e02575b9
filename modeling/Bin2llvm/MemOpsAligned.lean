import Bin2llvm.MemOps

/-!
# Bin2llvm.MemOpsAligned — the memory functions of `mem-ops.ll`

They access aligned words as a whole and index `@MEMORY` by words; the host is little-endian.

* `toNat_loadInt`, `bytes_storeInt`: a word access by the bytes it goes through.
* `agrees_iff`: which functions do what those of `mem-ops-alt.ll` do, at which addresses.
-/

set_option linter.style.nameCheck false

namespace Bin2llvm.MemOps

namespace WordIndexed

/-- `getelementptr` with the index `%idx` into elements of `size` bytes, from `@MEMORY` on. -/
def gep (size : ℕ) (idx : BitVec 32) : ℤ := size * idx.toInt

/-- The distances of the bytes of a word. -/
def wordPtrs (n : ℕ) (p : ℤ) : List ℤ := (List.range n).map fun k : ℕ => p + k

/-- `load` of an integer of `n` bytes. -/
def loadInt (n : ℕ) (p : ℤ) : StateM Heap (BitVec (8 * n)) := fun h =>
  (BitVec.ofNat (8 * n) (LittleEndian.value ((wordPtrs n p).map h.bytes)),
    { h with accessed := h.accessed ++ wordPtrs n p })

/-- `store` of an integer of `n` bytes. -/
def storeInt (n : ℕ) (v : BitVec (8 * n)) (p : ℤ) : StateM Heap Unit := fun h =>
  ((), ⟨fun q => if p ≤ q ∧ q < p + n then LittleEndian.byte v.toNat (q - p).toNat else h.bytes q,
    h.accessed ++ wordPtrs n p⟩)

/-! ## The functions -/

def __ldl_mmu (addr _mmu_idx : BitVec 32) : StateM Heap (BitVec 32) :=
  let idx := addr / 4
  loadInt 4 (gep 4 idx)

def __stl_mmu (addr val _mmu_idx : BitVec 32) : StateM Heap Unit :=
  let idx := addr / 4
  storeInt 4 val (gep 4 idx)

def __ldw_mmu (addr _mmu_idx : BitVec 32) : StateM Heap (BitVec 16) :=
  let idx := addr / 4
  loadInt 2 (gep 2 idx)

/-- The index is computed, and then the address is taken. -/
def __stw_mmu (addr : BitVec 32) (val : BitVec 16) (_mmu_idx : BitVec 32) : StateM Heap Unit :=
  let _idx := addr / 2
  storeInt 2 val (gep 2 addr)

def __ldb_mmu (addr _mmu_idx : BitVec 32) : StateM Heap (BitVec 8) := loadInt 1 (gep 1 addr)

def __stb_mmu (addr : BitVec 32) (val : BitVec 8) (_mmu_idx : BitVec 32) : StateM Heap Unit :=
  storeInt 1 val (gep 1 addr)

end WordIndexed

namespace Call

/-- What a load returns, as a number. -/
def result (c : Call) (addr mmu_idx : BitVec 32) (h : Heap) : Option ℕ :=
  match c with
  | ldb => some (__ldb_mmu addr mmu_idx h).1.toNat
  | ldw => some (__ldw_mmu addr mmu_idx h).1.toNat
  | ldl => some (__ldl_mmu addr mmu_idx h).1.toNat
  | stb _ | stw _ | stl _ => none

/-- The call in `mem-ops.ll`. -/
def runWord (c : Call) (addr mmu_idx : BitVec 32) (h : Heap) : Heap :=
  match c with
  | ldb => (WordIndexed.__ldb_mmu addr mmu_idx h).2
  | ldw => (WordIndexed.__ldw_mmu addr mmu_idx h).2
  | ldl => (WordIndexed.__ldl_mmu addr mmu_idx h).2
  | stb val => (WordIndexed.__stb_mmu addr val mmu_idx h).2
  | stw val => (WordIndexed.__stw_mmu addr val mmu_idx h).2
  | stl val => (WordIndexed.__stl_mmu addr val mmu_idx h).2

def resultWord (c : Call) (addr mmu_idx : BitVec 32) (h : Heap) : Option ℕ :=
  match c with
  | ldb => some (WordIndexed.__ldb_mmu addr mmu_idx h).1.toNat
  | ldw => some (WordIndexed.__ldw_mmu addr mmu_idx h).1.toNat
  | ldl => some (WordIndexed.__ldl_mmu addr mmu_idx h).1.toNat
  | stb _ | stw _ | stl _ => none

/-- The distance of the word that the call in `mem-ops.ll` accesses. -/
def wordPtr (c : Call) (addr : BitVec 32) : ℤ :=
  match c with
  | ldb | stb _ => WordIndexed.gep 1 addr
  | ldw => WordIndexed.gep 2 (addr / 4)
  | stw _ => WordIndexed.gep 2 addr
  | ldl | stl _ => WordIndexed.gep 4 (addr / 4)

end Call

/-- In any memory both files return the same and leave the same memory. -/
def Agrees (c : Call) (addr : BitVec 32) : Prop :=
  ∀ mmu_idx h, c.resultWord addr mmu_idx h = c.result addr mmu_idx h ∧
    (c.runWord addr mmu_idx h).bytes = (c.run addr mmu_idx h).bytes

/-- In `mem-ops.ll` a 16-bit load after a 16-bit store at `addr` returns what was stored, and only
the two bytes there are changed. -/
def ReadsBack (addr : BitVec 32) : Prop := ∀ mmu_idx h (val : BitVec 16),
  (WordIndexed.__ldw_mmu addr mmu_idx (WordIndexed.__stw_mmu addr val mmu_idx h).2).1 = val ∧
    ∀ p, p ≠ (addr.toNat : ℤ) → p ≠ addr.toNat + 1 →
      (WordIndexed.__stw_mmu addr val mmu_idx h).2.bytes p = h.bytes p

/-- The function of `mem-ops.ll` can take the place of the one of `mem-ops-alt.ll`. -/
structure LikeByteWise (c : Call) (addr : BitVec 32) : Prop where
  agrees : Agrees c addr
  readsBack : c.size = 2 → ReadsBack addr

/-- A naturally aligned address in the lower half. -/
structure AlignedLow (c : Call) (addr : BitVec 32) : Prop where
  aligned : addr.toNat % c.size = 0
  low : addr.toNat < 2 ^ 31

variable {c : Call} {addr : BitVec 32} {h h' : Heap}

open WordIndexed

/-! ## Words and bytes -/

/-- The number in `n` bytes from the distance `p` on. -/
def wordAt (h : Heap) (n : ℕ) (p : ℤ) : ℕ := LittleEndian.value ((wordPtrs n p).map h.bytes)

theorem wordAt_lt (h : Heap) (n : ℕ) (p : ℤ) : wordAt h n p < 256 ^ n := by
  have hlt := LittleEndian.value_lt ((wordPtrs n p).map h.bytes)
  rwa [List.length_map, wordPtrs, List.length_map, List.length_range] at hlt

theorem toNat_loadInt (n : ℕ) (p : ℤ) (h : Heap) : (loadInt n p h).1.toNat = wordAt h n p := by
  have hlt := wordAt_lt h n p
  have hpow : 256 ^ n = 2 ^ (8 * n) := by rw [Nat.pow_mul]
  exact (BitVec.toNat_ofNat _ _).trans (Nat.mod_eq_of_lt (hpow ▸ hlt))

/-- The lowest byte. -/
theorem wordAt_mod (h : Heap) (n : ℕ) (p : ℤ) : wordAt h (n + 1) p % 256 = (h.bytes p).toNat := by
  unfold wordAt wordPtrs
  rw [List.range_succ_eq_map, List.map_cons, List.map_cons, LittleEndian.value_cons,
    Nat.add_mul_mod_self_left, Nat.mod_eq_of_lt (h.bytes _).isLt, Int.natCast_zero, Int.add_zero]

/-- What a load of the bytes from `p` on returns. -/
def loaded (c : Call) (p : ℤ) (h : Heap) : Option ℕ :=
  if c.stored = none then some (wordAt h c.size p) else none

/-- The memory after a call on the bytes from `p` on. -/
def written (c : Call) (p : ℤ) (h : Heap) : ℤ → BitVec 8 := fun q =>
  match c.stored with
  | none => h.bytes q
  | some v => if p ≤ q ∧ q < p + c.size then LittleEndian.byte v (q - p).toNat else h.bytes q

theorem size_pos (c : Call) : 0 < c.size := by cases c <;> simp [Call.size]

theorem resultWord_eq (c : Call) (addr mmu_idx : BitVec 32) (h : Heap) :
    c.resultWord addr mmu_idx h = loaded c (c.wordPtr addr) h := by
  cases c with
  | ldb => exact congrArg some (toNat_loadInt 1 _ h)
  | ldw => exact congrArg some (toNat_loadInt 2 _ h)
  | ldl => exact congrArg some (toNat_loadInt 4 _ h)
  | stb _ | stw _ | stl _ => rfl

theorem bytes_runWord (c : Call) (addr mmu_idx : BitVec 32) (h : Heap) :
    (c.runWord addr mmu_idx h).bytes = written c (c.wordPtr addr) h := by
  cases c <;> rfl

/-- The addresses of a call do not wrap around in the lower half. -/
theorem gep_add (hlow : AlignedLow c addr) {k : ℕ} (hk : k < c.size) :
    MemOps.gep (addr + BitVec.ofNat 32 k) = addr.toNat + k := by
  have ⟨haligned, hlt⟩ := hlow
  have hsum : addr.toNat + k < 2 ^ 31 := by
    cases c <;> simp only [Call.size] at haligned hk <;> omega
  have htoNat : (addr + BitVec.ofNat 32 k).toNat = addr.toNat + k := by
    rw [BitVec.toNat_add, BitVec.toNat_ofNat]
    omega
  rw [MemOps.gep, (toInt_eq_toNat_iff _).mpr (htoNat ▸ hsum), htoNat]
  rfl

theorem result_eq (hlow : AlignedLow c addr) (mmu_idx : BitVec 32) (h : Heap) :
    c.result addr mmu_idx h = loaded c addr.toNat h := by
  have hword : littleEndian h.byte addr c.size = wordAt h c.size addr.toNat := by
    unfold littleEndian wordAt wordPtrs
    rw [List.map_map]
    refine congrArg _ (List.map_congr_left fun k hk => ?_)
    exact congrArg h.bytes (gep_add hlow (List.mem_range.mp hk))
  have hloads := toNat_loads h addr mmu_idx
  cases c with
  | ldb => exact congrArg some (hloads.1.trans hword)
  | ldw => exact congrArg some (hloads.2.1.trans hword)
  | ldl => exact congrArg some (hloads.2.2.trans hword)
  | stb _ | stw _ | stl _ => rfl

theorem bytes_run_eq (hlow : AlignedLow c addr) (mmu_idx : BitVec 32) (h : Heap) :
    (c.run addr mmu_idx h).bytes = written c addr.toNat h := by
  funext q
  unfold written
  by_cases hq : (addr.toNat : ℤ) ≤ q ∧ q < addr.toNat + c.size
  · obtain ⟨k, rfl⟩ : ∃ k : ℕ, q = addr.toNat + k := ⟨(q - addr.toNat).toNat, by omega⟩
    have hk : k < c.size := by omega
    have hdist : (addr + BitVec.ofNat 32 k - addr).toNat = k := by
      have := c.size_le
      exact (eq_add_iff (by omega)).mp rfl
    have hbyte := byte_run c addr mmu_idx h (addr + BitVec.ofNat 32 k)
    unfold Heap.byte Call.writes at hbyte
    rw [gep_add hlow hk, hdist, if_pos hk] at hbyte
    rw [hbyte]
    cases c.stored with
    | none => rfl
    | some v =>
      show LittleEndian.byte v k = if _ then _ else _
      rw [if_pos hq]
      congr 1
      omega
  · rw [bytes_run c addr mmu_idx h q fun k hk => by rw [gep_add hlow hk]; omega]
    cases c.stored with
    | none => rfl
    | some v => exact (if_neg hq).symm

/-! ## Agreement -/

theorem written_self {v : ℕ} (hv : c.stored = some v) (p : ℤ) :
    written c p h p = LittleEndian.byte v 0 := by
  have := size_pos c
  unfold written
  rw [hv]
  dsimp only
  rw [if_pos (by omega), sub_self, Int.toNat_zero]

theorem written_of_outside {v : ℕ} (hv : c.stored = some v) {p q : ℤ}
    (hq : ¬ (p ≤ q ∧ q < p + c.size)) : written c p h q = h.bytes q := by
  unfold written
  rw [hv]
  exact if_neg hq

/-- Calls on different bytes differ in some memory. -/
theorem same_iff (c : Call) (p q : ℤ) :
    (∀ h, loaded c p h = loaded c q h ∧ written c p h = written c q h) ↔ p = q := by
  refine ⟨fun hsame => ?_, fun heq h => heq ▸ ⟨rfl, rfl⟩⟩
  obtain ⟨n, hn⟩ : ∃ n, c.size = n + 1 := ⟨c.size - 1, by have := size_pos c; omega⟩
  cases hv : c.stored with
  | none =>
    -- one byte of the memory is set
    let h : Heap := ⟨fun r => if r = q then 1 else 0, []⟩
    have hload := (hsame h).1
    simp only [loaded, hv, if_true, Option.some.injEq, hn] at hload
    have hmod := congrArg (· % 256) hload
    simp only [wordAt_mod] at hmod
    by_contra hne
    simp [h, hne] at hmod
  | some v =>
    -- no byte of the memory is the lowest one of the value
    let h : Heap := ⟨fun _ => ~~~ LittleEndian.byte v 0, []⟩
    have hne : LittleEndian.byte v 0 ≠ ~~~ LittleEndian.byte v 0 := by
      generalize LittleEndian.byte v 0 = b
      revert b
      decide
    have hp := congrFun (hsame h).2 p
    have hq := congrFun (hsame h).2 q
    rw [written_self hv] at hp hq
    have hle : q ≤ p := by
      by_contra hlt
      rw [written_of_outside hv (by omega)] at hp
      exact hne hp
    have hge : p ≤ q := by
      by_contra hlt
      rw [written_of_outside hv (by omega)] at hq
      exact hne hq.symm
    omega

theorem gep_div_four (hlow : addr.toNat < 2 ^ 31) (n : ℕ) :
    WordIndexed.gep n (addr / 4) = n * (addr.toNat / 4 : ℕ) := by
  have hdiv : (addr / 4).toNat = addr.toNat / 4 := BitVec.toNat_udiv
  unfold WordIndexed.gep
  rw [(toInt_eq_toNat_iff _).mpr (by omega), hdiv]

theorem gep_self (hlow : addr.toNat < 2 ^ 31) (n : ℕ) :
    WordIndexed.gep n addr = n * addr.toNat := by
  unfold WordIndexed.gep
  rw [(toInt_eq_toNat_iff _).mpr hlow]

theorem eq_zero_iff : addr = 0 ↔ addr.toNat = 0 := by
  rw [← BitVec.toNat_inj]
  rfl

/-- Only the 16-bit functions miss the word, and not at `0`. -/
theorem wordPtr_eq_iff (hlow : AlignedLow c addr) : c.wordPtr addr = addr.toNat ↔
    (c.size = 2 → addr = 0) := by
  have ⟨haligned, hlt⟩ := hlow
  have hdiv := gep_div_four hlt
  have hself := gep_self hlt
  rw [eq_zero_iff]
  cases c with
  | ldb | stb _ => simp [Call.wordPtr, Call.size, hself]
  | ldw =>
    simp only [Call.wordPtr, Call.size, hdiv, forall_const] at haligned ⊢
    omega
  | stw _ =>
    simp only [Call.wordPtr, Call.size, hself, forall_const] at haligned ⊢
    omega
  | ldl | stl _ =>
    simp only [Call.wordPtr, Call.size, hdiv] at haligned ⊢
    omega

theorem agrees_iff (hlow : AlignedLow c addr) : Agrees c addr ↔ (c.size = 2 → addr = 0) := by
  rw [← wordPtr_eq_iff hlow, ← same_iff c]
  unfold Agrees
  simp only [resultWord_eq, bytes_runWord, result_eq hlow, bytes_run_eq hlow]
  exact ⟨fun h => h 0, fun h _ => h⟩

/-- A store is read back where it went. -/
theorem wordAt_written {v : ℕ} (hv : c.stored = some v) {p : ℤ}
    (hbytes : h'.bytes = written c p h) : wordAt h' c.size p = v % 256 ^ c.size := by
  rw [← LittleEndian.value_bytes]
  unfold wordAt wordPtrs
  rw [List.map_map]
  refine congrArg _ (List.map_congr_left fun k hk => ?_)
  have hk : k < c.size := List.mem_range.mp hk
  show h'.bytes (p + k) = _
  rw [hbytes]
  unfold written
  rw [hv]
  dsimp only
  rw [if_pos (by omega), add_sub_cancel_left, Int.toNat_natCast]

theorem readsBack_iff (haligned : addr.toNat % 2 = 0) (hlt : addr.toNat < 2 ^ 31) :
    ReadsBack addr ↔ addr = 0 := by
  constructor
  · intro hback
    by_contra hne
    rw [eq_zero_iff] at hne
    have hkept := (hback 0 ⟨fun _ => 1, []⟩ 0).2 (2 * addr.toNat) (by omega) (by omega)
    have hptr : (Call.stw 0).wordPtr addr = 2 * addr.toNat := gep_self hlt 2
    have hstored : written (.stw 0) (2 * addr.toNat) ⟨fun _ => 1, []⟩ (2 * addr.toNat) = 1 := by
      rw [← hptr, ← bytes_runWord (.stw 0) addr 0, hptr]
      exact hkept
    rw [written_self (c := .stw 0) rfl] at hstored
    exact absurd hstored (by decide)
  · rintro rfl mmu_idx h val
    refine ⟨BitVec.eq_of_toNat_eq ?_, fun p hp hp' => ?_⟩
    · have hword : wordAt (Call.runWord (.stw val) 0 mmu_idx h) 2 0 = val.toNat % 256 ^ 2 :=
        wordAt_written (c := .stw val) rfl (bytes_runWord (.stw val) 0 mmu_idx h)
      exact (toNat_loadInt 2 0 _).trans (hword.trans (Nat.mod_eq_of_lt val.isLt))
    · have hout : ¬ ((0 : ℤ) ≤ p ∧ p < 0 + (Call.stw val).size) := by
        have hzero : (0 : BitVec 32).toNat = 0 := rfl
        simp only [Call.size, hzero] at hp hp' ⊢
        omega
      exact (congrFun (bytes_runWord (.stw val) 0 mmu_idx h) p).trans
        (written_of_outside (c := .stw val) rfl hout)

/-- **At a naturally aligned address in the lower half a function of `mem-ops.ll` does what its
namesake does exactly when it is no 16-bit function, or the address is `0`.** -/
theorem likeByteWise_iff (hlow : AlignedLow c addr) : LikeByteWise c addr ↔
    (c.size = 2 → addr = 0) := by
  rw [← agrees_iff hlow]
  refine ⟨LikeByteWise.agrees, fun hagrees => ⟨hagrees, fun hsize => ?_⟩⟩
  have haligned : addr.toNat % 2 = 0 := hsize ▸ hlow.aligned
  exact (readsBack_iff haligned hlow.low).mpr ((agrees_iff hlow).mp hagrees hsize)

theorem likeByteWise_ldl : LikeByteWise .ldl 0x8000 ↔
    (Call.ldl.size = 2 → (0x8000 : BitVec 32) = 0) :=
  likeByteWise_iff ⟨by decide, by decide⟩

/-- The 16-bit load at `4` loads the bytes at `2` and `3`. -/
theorem not_likeByteWise_ldw : AlignedLow .ldw 4 ∧ ¬ LikeByteWise .ldw 4 := by
  refine ⟨⟨by decide, by decide⟩, fun hlike => ?_⟩
  have hsame := (hlike.agrees 0 ⟨fun p => if p = 4 then 1 else 0, []⟩).1
  revert hsame
  decide

end Bin2llvm.MemOps
