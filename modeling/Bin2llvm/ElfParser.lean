import Bin2llvm.Lib.OptionMapM
import Mathlib.Algebra.Order.Ring.Nat
import Mathlib.Order.CompletePartialOrder
import Mathlib.Order.Interval.Set.Disjoint

/-!
# Bin2llvm.ElfParser — segments as page-aligned chunks

The `PT_LOAD` part of `do_elf`: every loaded segment is cut out of the ELF file with `save_chunk`,
in whole pages, and described for the machine configuration.  A failed `assert` is `none`.

* `isImage_iff`: a chunk is the memory image of its segment exactly when the file has zeros, or
  ends, where the segment has no file contents.
* `disjoint_iff`: segments on different pages get different addresses exactly when no segment that
  is rounded twice is followed by another one on the next page.
-/

namespace Bin2llvm.ElfParser

/-! ## The program headers and their chunks -/

inductive PType where
  | PT_LOAD
  | other (n : ℕ)
  deriving DecidableEq, Repr

structure SegmentHeader where
  p_type : PType
  p_offset : ℕ
  p_vaddr : ℕ
  p_paddr : ℕ
  p_filesz : ℕ
  p_memsz : ℕ
  deriving DecidableEq, Repr

/-- `segm_desc`. -/
structure SegmDesc where
  file : String
  size : ℕ
  address : ℕ
  name : String
  deriving DecidableEq, Repr

/-- What `save_chunk` writes. -/
def save_chunk (src : List UInt8) (offset size : ℕ) : List UInt8 :=
  let data := (src.drop offset).take size
  let data := if data.length < size then data ++ List.replicate (size - data.length) 0 else data
  data.take size

/-- `if s % 4096 != 0: s = 4096*int((s+4096)/4096)`. -/
def roundUp4k (s : ℕ) : ℕ := if s % 4096 ≠ 0 then 4096 * ((s + 4096) / 4096) else s

/-- `os.path.join(out_dir, name)`. -/
def join (out_dir name : String) : String :=
  if out_dir.isEmpty || out_dir.endsWith "/" then out_dir ++ name else out_dir ++ "/" ++ name

namespace SegmentHeader

variable (seg : SegmentHeader)

def padding : ℕ := seg.p_paddr % 4096

def size : ℕ := max seg.p_memsz seg.p_filesz

/-- The size of the chunk: rounded up, padded, and rounded up. -/
def chunkSize : ℕ := roundUp4k (roundUp4k seg.size + seg.padding)

def isLoad : Bool := seg.p_type = .PT_LOAD

end SegmentHeader

/-- The body of the loop over the segments, for the segment of number `cnt`. -/
def loadSegment (out_dir : String) (src : List UInt8) (seg : SegmentHeader) (cnt : ℕ) :
    Option (SegmDesc × List UInt8) :=
  let segm_name := "seg-" ++ toString cnt ++ ".bin"
  if seg.p_paddr = seg.p_vaddr ∧ seg.padding ≤ seg.p_offset then
    some (⟨join out_dir segm_name, seg.chunkSize, seg.p_paddr - seg.padding, segm_name⟩,
      save_chunk src (seg.p_offset - seg.padding) seg.chunkSize)
  else none

/-- The loop: the descriptions in `ret['segments']`, and the files. -/
def do_elf (out_dir : String) (src : List UInt8) (segs : List SegmentHeader) :
    Option (List (SegmDesc × List UInt8)) :=
  ((segs.filter SegmentHeader.isLoad).zipIdx).mapM fun p => loadSegment out_dir src p.1 p.2

variable {out_dir : String} {src chunk : List UInt8} {segs : List SegmentHeader}
variable {seg a b : SegmentHeader}
  {out : List (SegmDesc × List UInt8)} {d : SegmDesc} {offset size cnt i k : ℕ}

/-! ## Chunks -/

theorem roundUp4k_spec (s : ℕ) : s ≤ roundUp4k s ∧ roundUp4k s % 4096 = 0 ∧
    roundUp4k s < s + 4096 := by
  unfold roundUp4k
  split_ifs <;> omega

theorem length_save_chunk (src : List UInt8) (offset size : ℕ) :
    (save_chunk src offset size).length = size := by
  unfold save_chunk
  dsimp only
  split_ifs with h <;> simp only [List.length_take, List.length_append,
    List.length_replicate] at h ⊢ <;> omega

/-- Behind the end of the file a chunk is zero. -/
theorem getElem?_save_chunk (hk : k < size) :
    (save_chunk src offset size)[k]? = some ((src[offset + k]?).getD 0) := by
  have hdata : ((src.drop offset).take size)[k]? = src[offset + k]? := by
    rw [List.getElem?_take_of_lt hk, List.getElem?_drop]
  unfold save_chunk
  dsimp only
  rw [List.getElem?_take_of_lt hk]
  by_cases hin : k < ((src.drop offset).take size).length
  · have hget : src[offset + k]? = some ((src.drop offset).take size)[k] := by
      rw [← hdata]
      exact List.getElem?_eq_getElem hin
    split_ifs with h
    · rw [List.getElem?_append_left hin, hdata, hget, Option.getD_some]
    · rw [hdata, hget, Option.getD_some]
  · have hnone : src[offset + k]? = none := by
      rw [← hdata]
      exact List.getElem?_eq_none (Nat.le_of_not_lt hin)
    have hshort : ((src.drop offset).take size).length < size := (Nat.le_of_not_lt hin).trans_lt hk
    rw [if_pos hshort, List.getElem?_append_right (Nat.le_of_not_lt hin), List.getElem?_replicate,
      if_pos (by omega), hnone, Option.getD_none]

theorem loadSegment_eq_some : loadSegment out_dir src seg cnt = some (d, chunk) ↔
    (seg.p_paddr = seg.p_vaddr ∧ seg.padding ≤ seg.p_offset) ∧
      d = ⟨join out_dir ("seg-" ++ toString cnt ++ ".bin"), seg.chunkSize,
        seg.p_paddr - seg.padding, "seg-" ++ toString cnt ++ ".bin"⟩ ∧
      chunk = save_chunk src (seg.p_offset - seg.padding) seg.chunkSize := by
  unfold loadSegment
  dsimp only
  split_ifs with h
  · rw [Option.some.injEq, Prod.mk.injEq]
    exact ⟨fun hd => ⟨h, hd.1.symm, hd.2.symm⟩, fun hd => ⟨hd.2.1.symm, hd.2.2.symm⟩⟩
  · exact iff_of_false (by simp) fun hd => h hd.1

theorem getElem?_do_elf (h : do_elf out_dir src segs = some out) (i : ℕ) :
    out[i]? = ((segs.filter SegmentHeader.isLoad)[i]?).bind fun seg =>
      loadSegment out_dir src seg i := by
  rw [OptionMapM.mapM_getElem? h, List.getElem?_zipIdx]
  cases (segs.filter SegmentHeader.isLoad)[i]? with
  | none => rfl
  | some seg => simp

theorem exists_of_do_elf (h : do_elf out_dir src segs = some out)
    (hseg : (segs.filter SegmentHeader.isLoad)[i]? = some seg) :
    ∃ d chunk, loadSegment out_dir src seg i = some (d, chunk) := by
  have hsome := OptionMapM.isSome_mapM.mp (Option.isSome_iff_exists.mpr ⟨out, h⟩) (seg, i)
    (List.mem_zipIdx_iff_getElem?.mpr hseg)
  obtain ⟨⟨d, chunk⟩, hd⟩ := Option.isSome_iff_exists.mp hsome
  exact ⟨d, chunk, hd⟩

/-! ## Memory images -/

/-- The chunk is what the segment looks like in memory. -/
structure IsImage (src : List UInt8) (seg : SegmentHeader) (d : SegmDesc)
    (chunk : List UInt8) : Prop where
  size : chunk.length = d.size ∧ chunk.length % 4096 = 0
  address : d.address = seg.p_paddr - seg.p_paddr % 4096
  covers : d.address ≤ seg.p_paddr ∧ seg.p_paddr + max seg.p_memsz seg.p_filesz ≤
    d.address + chunk.length
  contents : ∀ k < seg.p_filesz, ∀ b, src[seg.p_offset + k]? = some b →
    chunk[seg.p_paddr + k - d.address]? = some b
  zeros : ∀ k, seg.p_filesz ≤ k → k < seg.p_memsz → chunk[seg.p_paddr + k - d.address]? = some 0

/-- The byte of the segment at offset `k` is the byte of the file. -/
theorem getElem?_chunk (hoff : seg.padding ≤ seg.p_offset) (hk : k < seg.size) :
    (save_chunk src (seg.p_offset - seg.padding) seg.chunkSize)[seg.p_paddr +
      k - (seg.p_paddr - seg.padding)]? = some ((src[seg.p_offset + k]?).getD 0) := by
  have hle : seg.padding ≤ seg.p_paddr := Nat.mod_le _ _
  have hlt : seg.padding + k < seg.chunkSize := by
    have h₁ := (roundUp4k_spec seg.size).1
    have h₂ := (roundUp4k_spec (roundUp4k seg.size + seg.padding)).1
    unfold SegmentHeader.chunkSize
    omega
  rw [show seg.p_paddr + k - (seg.p_paddr - seg.padding) = seg.padding + k by omega,
    getElem?_save_chunk hlt, show seg.p_offset - seg.padding + (seg.padding + k) =
      seg.p_offset + k by omega]

/-- **The chunk of a segment is its memory image exactly when the file is zero, or ends, where the
segment has no file contents.** -/
theorem isImage_iff (h : do_elf out_dir src segs = some out)
    (hseg : (segs.filter SegmentHeader.isLoad)[i]? = some seg) (hout : out[i]? = some (d, chunk)) :
    IsImage src seg d chunk ↔
      ∀ k, seg.p_filesz ≤ k → k < seg.p_memsz → ∀ b, src[seg.p_offset + k]? = some b → b = 0 := by
  rw [getElem?_do_elf h, hseg, Option.bind_some, loadSegment_eq_some] at hout
  obtain ⟨⟨-, hoff⟩, rfl, rfl⟩ := hout
  constructor
  · intro himg k h₁ h₂ b hb
    have := himg.zeros k h₁ h₂
    rw [getElem?_chunk hoff (h₂.trans_le (le_max_left _ _)), hb, Option.getD_some] at this
    exact Option.some.inj this
  · intro hzero
    have hsize := roundUp4k_spec (roundUp4k seg.size + seg.padding)
    refine ⟨⟨length_save_chunk _ _ _, ?_⟩, rfl, ⟨Nat.sub_le _ _, ?_⟩, fun k hk b hb => ?_,
      fun k h₁ h₂ => ?_⟩
    · rw [length_save_chunk]
      exact hsize.2.1
    · have h₁ := (roundUp4k_spec seg.size).1
      have hle : seg.padding ≤ seg.p_paddr := Nat.mod_le _ _
      rw [length_save_chunk]
      unfold SegmentHeader.chunkSize
      unfold SegmentHeader.size at h₁ hsize ⊢
      dsimp only
      omega
    · rw [getElem?_chunk hoff (hk.trans_le (le_max_right _ _)), hb, Option.getD_some]
    · rw [getElem?_chunk hoff (h₂.trans_le (le_max_left _ _))]
      cases hb : src[seg.p_offset + k]? with
      | none => rfl
      | some b => rw [hzero k h₁ h₂ b hb, Option.getD_some]

/-- Two bytes inside a page, and four that are not in the file. -/
def plainSegment : SegmentHeader := ⟨.PT_LOAD, 0x10, 0x8010, 0x8010, 2, 6⟩

/-- The file of this segment, with two zeros behind it. -/
def plainFile : List UInt8 := List.replicate 16 0x7f ++ [1, 2, 0, 0]

/-- A segment with one byte in the file and one that is not. -/
def bssSegment : SegmentHeader := ⟨.PT_LOAD, 0, 0x8000, 0x8000, 1, 2⟩

theorem plainSegment_isImage : ∃ d chunk, do_elf "" plainFile [plainSegment] = some [(d, chunk)] ∧
    IsImage plainFile plainSegment d chunk := by
  refine ⟨_, _, rfl, ?_⟩
  have hseg : ([plainSegment].filter SegmentHeader.isLoad)[0]? = some plainSegment := rfl
  -- two of the four bytes are zeros of the file, and two behind its end
  have hzeros : ∀ k < 6, 2 ≤ k → ∀ b ∈ plainFile[0x10 + k]?, b = 0 := by decide +kernel
  exact (isImage_iff rfl hseg rfl).mpr fun k h₁ h₂ b hb => hzeros k h₂ h₁ b hb

/-- What follows the segment in the file gets into memory. -/
theorem bssSegment_not_isImage : bssSegment.p_offset % 4096 = bssSegment.p_paddr % 4096 ∧
    ∃ d chunk, do_elf "" [1, 2] [bssSegment] = some [(d, chunk)] ∧
    ¬ IsImage [1, 2] bssSegment d chunk := by
  refine ⟨by decide, _, _, rfl, fun h => ?_⟩
  have hzero := h.zeros 1 (by decide) (by decide)
  have hbyte : _ = some ((([1, 2] : List UInt8)[bssSegment.p_offset + 1]?).getD 0) :=
    getElem?_chunk (by decide : bssSegment.padding ≤ bssSegment.p_offset)
      (by decide : 1 < bssSegment.size)
  exact absurd (Option.some.inj (hbyte.symm.trans hzero)) (by decide)

/-! ## Segments next to each other -/

/-- The addresses of the pages the segment lies on. -/
def pages (seg : SegmentHeader) : Set ℕ :=
  Set.Ico (4096 * (seg.p_paddr / 4096)) (roundUp4k (seg.p_paddr + seg.size))

/-- The addresses of a region. -/
def region (d : SegmDesc) : Set ℕ := Set.Ico d.address (d.address + d.size)

/-- The segment starts inside a page, is not made of whole pages, and its last incomplete page would
hold its padding as well: rounding twice adds a page. -/
def RoundedTwice (seg : SegmentHeader) : Prop :=
  seg.padding ≠ 0 ∧ seg.size % 4096 ≠ 0 ∧ seg.padding + seg.size % 4096 ≤ 4096

/-- The segment `b` starts on the page behind the segment `a`, to which that page is added too. -/
def RunsInto (a b : SegmentHeader) : Prop :=
  RoundedTwice a ∧ 4096 * (b.p_paddr / 4096) = roundUp4k (a.p_paddr + a.size) ∧
    (b.padding ≠ 0 ∨ b.size ≠ 0)

instance (a b : SegmentHeader) : Decidable (RunsInto a b) :=
  inferInstanceAs (Decidable ((_ ∧ _ ∧ _) ∧ _ ∧ _))

/-- A chunk ends with the pages of its segment, or one page later. -/
theorem chunk_end (seg : SegmentHeader) : (RoundedTwice seg ∧
      seg.p_paddr - seg.padding + seg.chunkSize = roundUp4k (seg.p_paddr + seg.size) + 4096) ∨
    (¬ RoundedTwice seg ∧ seg.p_paddr - seg.padding + seg.chunkSize =
      roundUp4k (seg.p_paddr + seg.size)) := by
  have h₁ := roundUp4k_spec seg.size
  have h₂ := roundUp4k_spec (roundUp4k seg.size + seg.padding)
  have h₃ := roundUp4k_spec (seg.p_paddr + seg.size)
  have hpad : seg.padding = seg.p_paddr % 4096 := rfl
  unfold RoundedTwice SegmentHeader.chunkSize
  omega

theorem start_eq (seg : SegmentHeader) :
    seg.p_paddr - seg.padding = 4096 * (seg.p_paddr / 4096) := by
  have hpad : seg.padding = seg.p_paddr % 4096 := rfl
  omega

/-- The pages of a segment, counted. -/
theorem exists_end (seg : SegmentHeader) : ∃ e, roundUp4k (seg.p_paddr + seg.size) = 4096 * e ∧
    seg.p_paddr / 4096 ≤ e ∧ (seg.p_paddr / 4096 < e ↔ seg.padding ≠ 0 ∨ seg.size ≠ 0) := by
  obtain ⟨hle, hmod, hlt⟩ := roundUp4k_spec (seg.p_paddr + seg.size)
  have hpad : seg.padding = seg.p_paddr % 4096 := rfl
  obtain ⟨e, he⟩ := Nat.dvd_of_mod_eq_zero hmod
  rw [he] at hle hlt
  exact ⟨e, he, by omega, by omega⟩

/-- An incomplete page is not empty. -/
theorem RoundedTwice.nonempty {seg : SegmentHeader} (h : RoundedTwice seg) :
    seg.padding ≠ 0 ∨ seg.size ≠ 0 :=
  Or.inl h.1

theorem disjoint_regions_iff (h : Disjoint (pages a) (pages b)) :
    Disjoint (Set.Ico (a.p_paddr - a.padding) (a.p_paddr - a.padding + a.chunkSize))
      (Set.Ico (b.p_paddr - b.padding) (b.p_paddr - b.padding + b.chunkSize)) ↔
      ¬ RunsInto a b ∧ ¬ RunsInto b a := by
  obtain ⟨ea, hea, hlea, hnea⟩ := exists_end a
  obtain ⟨eb, heb, hleb, hneb⟩ := exists_end b
  unfold pages at h
  unfold RunsInto
  rw [Set.Ico_disjoint_Ico, min_le_iff, le_max_iff, le_max_iff, hea, heb] at h
  rw [Set.Ico_disjoint_Ico, min_le_iff, le_max_iff, le_max_iff, hea, heb, ← hnea, ← hneb]
  rcases chunk_end a with ⟨h₁, h₂⟩ | ⟨h₁, h₂⟩ <;> rcases chunk_end b with ⟨h₃, h₄⟩ | ⟨h₃, h₄⟩ <;>
    rw [h₂, h₄, hea, heb, start_eq, start_eq]
  · have hnea' := hnea.mpr h₁.nonempty
    have hneb' := hneb.mpr h₃.nonempty
    simp only [h₁, h₃, true_and]
    omega
  · have hnea' := hnea.mpr h₁.nonempty
    simp only [h₁, h₃, true_and, false_and, not_false_eq_true, and_true]
    omega
  · have hneb' := hneb.mpr h₃.nonempty
    simp only [h₁, h₃, true_and, false_and, not_false_eq_true]
    omega
  · simp only [h₁, h₃, false_and, not_false_eq_true, and_true, iff_true]
    omega

/-- **Segments on different pages get different addresses exactly when none runs into another.** -/
theorem disjoint_iff (h : do_elf out_dir src segs = some out)
    (hpages : (segs.filter SegmentHeader.isLoad).Pairwise fun a b => Disjoint (pages a) (pages b)) :
    (out.map fun p => region p.1).Pairwise Disjoint ↔
      (segs.filter SegmentHeader.isLoad).Pairwise fun a b => ¬ RunsInto a b ∧ ¬ RunsInto b a := by
  have hregions : (out.map fun p => region p.1) = (segs.filter SegmentHeader.isLoad).map fun seg =>
      Set.Ico (seg.p_paddr - seg.padding) (seg.p_paddr - seg.padding + seg.chunkSize) := by
    refine List.ext_getElem? fun i => ?_
    rw [List.getElem?_map, List.getElem?_map, getElem?_do_elf h]
    cases hseg : (segs.filter SegmentHeader.isLoad)[i]? with
    | none => rfl
    | some seg =>
      obtain ⟨d, chunk, hd⟩ := exists_of_do_elf h hseg
      obtain ⟨-, rfl, -⟩ := loadSegment_eq_some.mp hd
      rw [Option.bind_some, hd]
      rfl
  rw [hregions, List.pairwise_map]
  constructor
  · exact fun hall => hpages.imp₂ (fun a b h₁ h₂ => (disjoint_regions_iff h₁).mp h₂) hall
  · exact fun hall => hpages.imp₂ (fun a b h₁ h₂ => (disjoint_regions_iff h₁).mpr h₂) hall

/-- Two segments with a page between them. -/
def apartSegments : List SegmentHeader :=
  [⟨.PT_LOAD, 0x100, 0x8100, 0x8100, 1, 1⟩, ⟨.PT_LOAD, 0, 0xa000, 0xa000, 1, 1⟩]

/-- Two segments on consecutive pages. -/
def nextSegments : List SegmentHeader :=
  [⟨.PT_LOAD, 0x100, 0x8100, 0x8100, 1, 1⟩, ⟨.PT_LOAD, 0, 0x9000, 0x9000, 1, 1⟩]

theorem apartSegments_disjoint : ∃ out, do_elf "" [1] apartSegments = some out ∧
    (out.map fun p => region p.1).Pairwise Disjoint := by
  have hpages : (apartSegments.filter SegmentHeader.isLoad).Pairwise fun a b =>
      Disjoint (pages a) (pages b) := by
    refine List.pairwise_cons.mpr ⟨?_, List.pairwise_singleton _ _⟩
    intro b hb
    obtain rfl := List.mem_singleton.mp hb
    exact Set.Ico_disjoint_Ico.mpr (by decide)
  exact ⟨_, rfl, (disjoint_iff rfl hpages).mpr (by decide)⟩

/-- Both regions have the page at `0x9000`. -/
theorem nextSegments_not_disjoint :
    (nextSegments.filter SegmentHeader.isLoad).Pairwise (fun a b => Disjoint (pages a) (pages b)) ∧
      ∃ out, do_elf "" [1] nextSegments = some out ∧
      ¬ (out.map fun p => region p.1).Pairwise Disjoint := by
  refine ⟨?_, _, rfl, fun h => ?_⟩
  · refine List.pairwise_cons.mpr ⟨?_, List.pairwise_singleton _ _⟩
    intro b hb
    obtain rfl := List.mem_singleton.mp hb
    exact Set.Ico_disjoint_Ico.mpr (by decide)
  · have := (List.pairwise_cons.mp h).1 _ List.mem_cons_self
    exact absurd (Set.Ico_disjoint_Ico.mp this) (by decide)

end Bin2llvm.ElfParser
