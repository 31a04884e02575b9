import Bin2llvm.FoldedLoads

/-!
# Bin2llvm.PoolReads — what a read of a memory pool gives

`MemoryPool::read` shifts the bytes of the file into its result, the most significant one first, and
takes them forwards or backwards.  Where all bytes are in the pool, no bit is lost.

* `read_eq_orderedValue`: a read gives the number in the bytes of the file.
* `readParts_eq`: a read in parts gives the numbers in the parts.
* `read_eq_sum`: the number as a sum, in both byte orders and in parts.
-/

namespace Bin2llvm.ReplaceConstantLoads

open LittleEndian

/-- The `i`-th byte of the file from `addr` on. -/
def fileByte (p : MemoryPool) (addr : UInt64) (i : ℕ) : UInt8 :=
  p.mp_file.getD ((addr - p.mp_start).toNat + i) 0

def fileBytes (p : MemoryPool) (addr : UInt64) (n : ℕ) : List UInt8 :=
  (List.range n).map (fileByte p addr)

/-- The number in some bytes. -/
def orderedValue (isBigEndian : Bool) (bs : List UInt8) : ℕ :=
  value ((if isBigEndian then bs.reverse else bs).map UInt8.toBitVec)

/-- A read of consecutive parts, each with its length. -/
def readParts (p : MemoryPool) (isBigEndian : Bool) : UInt64 → List ℕ → Option (List (ℕ × UInt64))
  | _, [] => some []
  | addr, n :: ns => do
    let v ← p.read addr n isBigEndian
    let vs ← readParts p isBigEndian (addr + UInt64.ofNat n) ns
    some ((n, v) :: vs)

/-- The number that numbers of so many bytes make up. -/
def combine (isBigEndian : Bool) : List (ℕ × UInt64) → ℕ
  | [] => 0
  | (n, v) :: vs =>
    if isBigEndian then v.toNat * 256 ^ (vs.map Prod.fst).sum + combine isBigEndian vs
    else v.toNat + 256 ^ n * combine isBigEndian vs

variable {p : MemoryPool} {addr : UInt64} {k m n : ℕ} {big : Bool}

/-! ## Positions -/

/-- Addresses in the pool do not wrap. -/
theorem toNat_add_of_inside (h : ∀ i < n, p.inside (addr + UInt64.ofNat i) = true) (hk : k < n) :
    (addr + UInt64.ofNat k).toNat = addr.toNat + k := by
  induction k with
  | zero => simp
  | succ k ih =>
    have hprev := ih (by omega)
    have hin := h k (by omega)
    have hend := p.mp_end.toNat_lt
    unfold MemoryPool.inside at hin
    simp only [decide_eq_true_eq, UInt64.lt_iff_toNat_lt] at hin
    rw [UInt64.toNat_add, UInt64.toNat_ofNat'] at hprev ⊢
    omega

theorem toNat_position (h : ∀ i < n, p.inside (addr + UInt64.ofNat i) = true) (hk : k < n) :
    (addr + UInt64.ofNat k - p.mp_start).toNat = (addr - p.mp_start).toNat + k := by
  have hstart : ∀ i < n, p.mp_start ≤ addr + UInt64.ofNat i := by
    intro i hi
    have hin := h i hi
    unfold MemoryPool.inside at hin
    simp only [decide_eq_true_eq] at hin
    exact hin.1
  have hfirst : p.mp_start ≤ addr := by simpa using hstart 0 (by omega)
  have hle := UInt64.le_iff_toNat_le.mp hfirst
  rw [UInt64.toNat_sub_of_le _ _ (hstart k hk), UInt64.toNat_sub_of_le _ _ hfirst,
    toNat_add_of_inside h hk]
  omega

/-- The positions of the bytes, in the order they are read. -/
theorem toNat_byteAddr (h : ∀ i < n, p.inside (addr + UInt64.ofNat i) = true) (hk : k < n) :
    (byteAddr big addr n k - p.mp_start).toNat = (addr - p.mp_start).toNat + if big then k
      else n - 1 - k := by
  cases big with
  | true => exact toNat_position h hk
  | false =>
    rw [byteAddr_little hk]
    exact toNat_position h (by omega)

theorem fileByte_position (h : ∀ i < n, p.inside (addr + UInt64.ofNat i) = true) (hk : k < n) :
    p.mp_file[(addr - p.mp_start).toNat + k]? = some (fileByte p addr k) := by
  have hlt := lt_length_of_inside (h k hk)
  rw [toNat_position h hk] at hlt
  rw [fileByte, List.getD_eq_getElem?_getD, List.getElem?_eq_getElem hlt, Option.getD_some]

/-! ## Reads -/

theorem fileBytes_append (h : ∀ i < m + n, p.inside (addr + UInt64.ofNat i) = true) :
    fileBytes p addr (m + n) = fileBytes p addr m ++ fileBytes p (addr + UInt64.ofNat m) n := by
  unfold fileBytes
  rw [List.range_add, List.map_append, List.map_map]
  congr 1
  refine List.map_congr_left fun i hi => ?_
  have hi : i < n := List.mem_range.mp hi
  rw [Function.comp_apply, fileByte, fileByte, toNat_position h (by omega), Nat.add_assoc]

/-- The bytes in the order they are read. -/
theorem map_position :
    (List.range n).map (fun i => fileByte p addr (if big then i else n - 1 - i)) =
      if big then fileBytes p addr n else (fileBytes p addr n).reverse := by
  cases big with
  | true => rfl
  | false => exact (reverse_map_range _ n).symm

/-- **A read gives the number in the bytes of the file.** -/
theorem read_eq_orderedValue (hn : 0 < n) (hn8 : n ≤ 8)
    (h : ∀ i < n, p.inside (addr + UInt64.ofNat i) = true) (big : Bool) :
    ∃ v, p.read addr n big = some v ∧ v.toNat = orderedValue big (fileBytes p addr n) := by
  obtain ⟨v, hv⟩ := Option.isSome_iff_exists.mp (isSome_read big hn hn8 h)
  refine ⟨v, hv, ?_⟩
  unfold MemoryPool.read at hv
  split_ifs at hv
  let next (ret : UInt64) (i : ℕ) : UInt64 :=
    (ret <<< 8) ||| (fileByte p addr (if big then i else n - 1 - i)).toUInt64
  have hloop : (List.range n).foldlM (fun ret i =>
      p.readByte ret (byteAddr big addr n i - p.mp_start)) 0 =
      some ((List.range n).foldl next 0) := by
    refine OptionMapM.foldlM_eq_some_foldl (fun i hi ret => ?_) 0
    have hi : i < n := List.mem_range.mp hi
    have hpos : (if big then i else n - 1 - i) < n := by split_ifs <;> omega
    rw [MemoryPool.readByte, toNat_byteAddr h hi, fileByte_position h hpos, Option.map_some]
  have hfold : (List.range n).foldl next 0 =
      ((List.range n).map fun i => fileByte p addr (if big then i else n - 1 - i)).foldl
        (fun (ret : UInt64) b => (ret <<< 8) ||| b.toUInt64) 0 := by
    rw [List.foldl_map]
  rw [hloop, hfold] at hv
  rw [← Option.some.inj hv, toNat_foldl_bytes _ (by simpa using hn8), map_position]
  cases big with
  | true => rfl
  | false => rw [if_neg Bool.false_ne_true, List.reverse_reverse]; rfl

/-! ## Parts -/

theorem orderedValue_append (bs cs : List UInt8) : orderedValue big (bs ++ cs) =
    if big then orderedValue big bs * 256 ^ cs.length + orderedValue big cs
    else orderedValue big bs + 256 ^ bs.length * orderedValue big cs := by
  unfold orderedValue
  cases big with
  | true =>
    simp only [if_true, List.reverse_append, List.map_append, value_append, List.length_map,
      List.length_reverse]
    rw [Nat.add_comm, Nat.mul_comm]
  | false =>
    simp only [Bool.false_eq_true, if_false, List.map_append, value_append, List.length_map]

theorem readParts_eq_orderedValue {parts : List ℕ} (hparts : ∀ m ∈ parts, 0 < m)
    (h8 : parts.sum ≤ 8) (h : ∀ i < parts.sum, p.inside (addr + UInt64.ofNat i) = true)
    (big : Bool) : ∃ vs, readParts p big addr parts = some vs ∧ vs.map Prod.fst = parts ∧
      combine big vs = orderedValue big (fileBytes p addr parts.sum) := by
  induction parts generalizing addr with
  | nil => exact ⟨[], rfl, rfl, by cases big <;> rfl⟩
  | cons n ns ih =>
    obtain ⟨hn, hns⟩ := List.forall_mem_cons.mp hparts
    rw [List.sum_cons] at h h8 ⊢
    have hrest : ∀ i < ns.sum, p.inside (addr + UInt64.ofNat n + UInt64.ofNat i) = true := by
      intro i hi
      rw [UInt64.add_assoc, ← UInt64.ofNat_add]
      exact h (n + i) (by omega)
    obtain ⟨v, hv, hval⟩ := read_eq_orderedValue hn (by omega) (fun i hi => h i (by omega)) big
    obtain ⟨vs, hvs, hlens, hcomb⟩ := ih hns (by omega) hrest
    refine ⟨(n, v) :: vs, ?_, ?_, ?_⟩
    · rw [readParts, hv, Option.bind_eq_bind, Option.bind_some, hvs]
      rfl
    · rw [List.map_cons, hlens]
    · have hlen : ∀ (a : UInt64) (k : ℕ), (fileBytes p a k).length = k :=
        fun a k => by simp [fileBytes]
      rw [combine, hlens, hcomb, hval, fileBytes_append h, orderedValue_append, hlen, hlen]

/-- **A read in parts is a read of the whole.** -/
theorem readParts_eq {parts : List ℕ} (hparts : ∀ m ∈ parts, 0 < m) (hsum : 0 < parts.sum)
    (h8 : parts.sum ≤ 8) (h : ∀ i < parts.sum, p.inside (addr + UInt64.ofNat i) = true)
    (big : Bool) :
    (readParts p big addr parts).map (combine big) = (p.read addr parts.sum big).map
      UInt64.toNat := by
  obtain ⟨v, hv, hval⟩ := read_eq_orderedValue hsum h8 h big
  obtain ⟨vs, hvs, -, hcomb⟩ := readParts_eq_orderedValue hparts h8 h big
  rw [hv, hvs, Option.map_some, Option.map_some, hcomb, hval]

/-! ## Sums -/

theorem orderedValue_little (p : MemoryPool) (addr : UInt64) (n : ℕ) :
    orderedValue false (fileBytes p addr n) =
      ∑ i ∈ Finset.range n, (fileByte p addr i).toNat * 256 ^ i := by
  have hmap : (fileBytes p addr n).map UInt8.toBitVec = (List.range n).map fun i =>
      (fileByte p addr i).toBitVec :=
    List.map_map
  rw [orderedValue, if_neg Bool.false_ne_true, hmap, value_range]
  rfl

theorem orderedValue_big (p : MemoryPool) (addr : UInt64) (n : ℕ) :
    orderedValue true (fileBytes p addr n) =
      ∑ i ∈ Finset.range n, (fileByte p addr i).toNat * 256 ^ (n - 1 - i) := by
  have hmap : (fileBytes p addr n).map UInt8.toBitVec = (List.range n).map fun i =>
      (fileByte p addr i).toBitVec :=
    List.map_map
  rw [orderedValue, if_pos rfl, List.map_reverse, hmap, value_reverse_range]
  rfl

/-- The bytes of the one are those of the other, in the reverse order. -/
theorem byte_orderedValue (bs : List UInt8) (hk : k < bs.length) :
    byte (orderedValue false bs) k = byte (orderedValue true bs) (bs.length - 1 - k) := by
  have hlen : bs.length = (bs.map UInt8.toBitVec).length := (List.length_map _).symm
  rw [orderedValue, orderedValue, if_neg Bool.false_ne_true, if_pos rfl, List.map_reverse,
    byte_value (by rwa [← hlen]), byte_value (by rw [List.length_reverse, ← hlen]; omega),
      List.getElem_reverse]
  congr 1
  rw [← hlen]
  omega

/-- **A read gives the bytes as a number, in full: in the one byte order a byte counts `256 ^ i`, in
the other `256 ^ (n - 1 - i)`.  Both numbers have the same bytes in the reverse order, and a read in
parts gives the same.** -/
theorem read_eq_sum (hn : 0 < n) (hn8 : n ≤ 8)
    (h : ∀ i < n, p.inside (addr + UInt64.ofNat i) = true) :
    (addr - p.mp_start).toNat + n ≤ p.mp_file.length ∧
      (∃ little big, p.read addr n false = some little ∧ p.read addr n true = some big ∧
        little.toNat = ∑ i ∈ Finset.range n, (fileByte p addr i).toNat * 256 ^ i ∧
        big.toNat = ∑ i ∈ Finset.range n, (fileByte p addr i).toNat * 256 ^ (n - 1 - i) ∧
        ∀ k < n, byte little.toNat k = byte big.toNat (n - 1 - k)) ∧
      ∀ (isBigEndian : Bool) (parts : List ℕ), (∀ m ∈ parts, 0 < m) → parts.sum = n →
        (readParts p isBigEndian addr parts).map (combine isBigEndian) =
          (p.read addr n isBigEndian).map UInt64.toNat := by
  obtain ⟨little, hlittle, hval⟩ := read_eq_orderedValue hn hn8 h false
  obtain ⟨big, hbig, hval'⟩ := read_eq_orderedValue hn hn8 h true
  have hlen : (fileBytes p addr n).length = n := by simp [fileBytes]
  refine ⟨?_, ⟨little, big, hlittle, hbig, ?_, ?_, fun k hk => ?_⟩,
    fun isBigEndian parts hparts hsum => ?_⟩
  · have hlast := lt_length_of_inside (h (n - 1) (by omega))
    rw [toNat_position h (by omega)] at hlast
    omega
  · rw [hval, orderedValue_little]
  · rw [hval', orderedValue_big]
  · have hbytes := byte_orderedValue (k := k) (fileBytes p addr n) (by rwa [hlen])
    rw [hlen] at hbytes
    rw [hval, hval', hbytes]
  · subst hsum
    exact readParts_eq hparts hn hn8 h isBigEndian

/-- Eight bytes at `0x1000`. -/
def eightBytes : MemoryPool := ⟨[0x11, 0x22, 0x33, 0x44, 0x55, 0x66, 0x77, 0x88], 0x1000⟩

theorem read_eightBytes : ∃ little big, eightBytes.read 0x1000 8 false = some little ∧
    eightBytes.read 0x1000 8 true = some big ∧ little.toNat = 0x8877665544332211 ∧
    big.toNat = 0x1122334455667788 ∧
    (readParts eightBytes false 0x1000 [1, 4, 3]).map (combine false) =
    some 0x8877665544332211 := by
  have hin : ∀ i < 8, eightBytes.inside (0x1000 + UInt64.ofNat i) = true := by decide
  obtain ⟨-, ⟨little, big, hlittle, hbig, hval, hval', -⟩, hparts⟩ :=
    read_eq_sum (by decide) (by decide) hin
  have hsum : little.toNat = 0x8877665544332211 := hval.trans (by decide)
  refine ⟨little, big, hlittle, hbig, hsum, hval'.trans (by decide), ?_⟩
  rw [hparts false [1, 4, 3] (by decide) rfl, hlittle, Option.map_some, hsum]

end Bin2llvm.ReplaceConstantLoads
