import Bin2llvm.Driver.CommandLine
import Bin2llvm.Lib.Lists
import Bin2llvm.PoolReads

/-!
# Bin2llvm.Driver.SegmentFiles — from the input files to the constants of `ReplaceConstantLoads`

The driver cuts its input into segment files, from an ELF file with `do_elf` and from raw files with
`do_raw_arm_many`, and describes them to `opt`.  `ReplaceConstantLoads` reads constants back from
them.

* `do_raw_arm_one`, `do_raw_arm_many`: raw files.
* `Saved`: segment files under different names and with different addresses.
* `constants_do_elf`, `constants_do_raw_arm_many`: the constants are the bytes of the input.
-/

namespace Bin2llvm.Driver

open ElfParser ReplaceConstantLoads

/-! ## Raw files -/

/-- `os.path.basename`. -/
def basename (path : String) : String :=
  String.ofList (((splitAtLast '/' path.toList).map Prod.snd).getD path.toList)

/-- The description of a raw file, which is copied with whole pages. -/
def do_raw_arm_one (temp_dir path_to_raw : String) (raw : List UInt8) (load_address : ℕ) :
    SegmDesc × List UInt8 :=
  let dst_path := join temp_dir (String.ofList ((basename path_to_raw).toList.map fun c =>
    if c = '@' then '_' else c))
  let real_size := raw.length
  let padding := 4096 - real_size % 4096
  let padded_size := if real_size % 4096 ≠ 0 then real_size + padding else real_size
  (⟨dst_path, padded_size, load_address,
      "file_" ++ String.ofList (List.leftpad 8 '0' (Nat.toDigits 16 load_address))⟩,
    save_chunk raw 0 padded_size)

/-- The files with their contents; there must be as many addresses. -/
def do_raw_arm_many (temp_dir : String) (paths_to_raw : List (String × List UInt8))
    (load_addresses : List ℕ) : Option (List (SegmDesc × List UInt8)) :=
  if paths_to_raw.length = load_addresses.length then
    some ((paths_to_raw.zip load_addresses).map fun p => do_raw_arm_one temp_dir p.1.1 p.1.2 p.2)
  else none

/-! ## Files on disk -/

/-- A file after all of them were written, in order. -/
def written (out : List (SegmDesc × List UInt8)) (path : String) : Option (List UInt8) :=
  (out.reverse.find? fun p => p.1.file = path).map Prod.snd

/-- Every segment has a file of its own, of its size, and addresses of its own. -/
structure Saved (out : List (SegmDesc × List UInt8)) : Prop where
  names : (out.map fun p => p.1.file).Nodup
  sizes : ∀ p ∈ out, p.2.length = p.1.size
  below : ∀ p ∈ out, p.1.address + p.1.size < 2 ^ 63
  disjoint : (out.map fun p => region p.1).Pairwise Disjoint

def pool (p : SegmDesc × List UInt8) : MemoryPool := ⟨p.2, UInt64.ofNat p.1.address⟩

variable {out : List (SegmDesc × List UInt8)} {p : SegmDesc × List UInt8} {o : Options}
variable {a : UInt64} {k n : ℕ}

theorem Saved.written_eq (h : Saved out) (hp : p ∈ out) : written out p.1.file = some p.2 := by
  have hnd : (out.reverse.filterMap fun p => some p.1.file).Nodup := by
    rw [List.filterMap_eq_map', List.map_reverse, List.nodup_reverse]
    exact h.names
  have hfind := Lists.find?_of_key hnd (List.mem_reverse.mpr hp) rfl
  simp only [Option.some.injEq] at hfind
  unfold written
  rw [hfind]
  rfl

theorem Saved.mapM_pool (h : Saved out) : ((out.map Prod.fst).mapM fun seg =>
    (written out seg.file).map fun f => (⟨f, UInt64.ofNat seg.address⟩ : MemoryPool)) =
    some (out.map pool) := by
  rw [List.mapM_map]
  refine OptionMapM.mapM_eq_some_map fun p hp => ?_
  rw [Function.comp_apply, h.written_eq hp]
  rfl

theorem Saved.toNat_start (h : Saved out) (hp : p ∈ out) :
    (pool p).mp_start.toNat = p.1.address := by
  have := h.below p hp
  rw [pool, UInt64.toNat_ofNat']
  omega

theorem Saved.inside_iff (h : Saved out) (hp : p ∈ out) : (pool p).inside a = true ↔
    a.toNat ∈ region p.1 := by
  have hstart := h.toNat_start hp
  have hend : (pool p).mp_end.toNat = p.1.address + p.1.size := by
    have := h.below p hp
    rw [MemoryPool.mp_end, UInt64.toNat_add, hstart, UInt64.toNat_ofNat', pool, h.sizes p hp]
    omega
  unfold MemoryPool.inside region
  rw [decide_eq_true_eq, UInt64.le_iff_toNat_le, UInt64.lt_iff_toNat_lt, hstart, hend, Set.mem_Ico]

theorem Saved.pairwise_pool (h : Saved out) :
    (out.map pool).Pairwise fun p q => ∀ a, ¬ (p.inside a = true ∧ q.inside a = true) := by
  refine List.pairwise_map.mpr
    ((List.pairwise_map.mp h.disjoint).imp_of_mem fun hp hq hdisj a hin => ?_)
  exact Set.disjoint_left.mp hdisj ((h.inside_iff hp).mp hin.1) ((h.inside_iff hq).mp hin.2)

/-- Some bytes of a segment. -/
def bytesFrom (bs : List UInt8) (k n : ℕ) : List UInt8 :=
  (List.range n).map fun i => bs.getD (k + i) 0

/-- A constant inside a segment is in its file. -/
theorem Saved.getMemoryValue_eq (h : Saved out) (hpools : o.memoryPools = out.map pool)
    (hp : p ∈ out) (hn : 0 < n) (hn8 : n ≤ 8) (hk : k + n ≤ p.1.size) :
    ∃ v, getMemoryValue o (UInt64.ofNat (p.1.address + k)) n = some (some v) ∧
      v.toNat = orderedValue o.isBigEndian (bytesFrom p.2 k n) := by
  have hbelow := h.below p hp
  have haddr : ∀ i < n, (UInt64.ofNat (p.1.address + k) + UInt64.ofNat i).toNat =
      p.1.address + k + i := by
    intro i hi
    rw [UInt64.toNat_add, UInt64.toNat_ofNat', UInt64.toNat_ofNat']
    omega
  have hin : ∀ i < n, (pool p).inside (UInt64.ofNat (p.1.address + k) + UInt64.ofNat i) = true := by
    intro i hi
    rw [h.inside_iff hp, region, Set.mem_Ico, haddr i hi]
    omega
  -- the first pool around the address is the one of the segment
  have hfirst : (pool p).inside (UInt64.ofNat (p.1.address + k)) = true := by simpa using hin 0 hn
  obtain ⟨v, hv, hval⟩ := read_eq_orderedValue hn hn8 hin o.isBigEndian
  refine ⟨v, ?_, ?_⟩
  · unfold getMemoryValue
    rw [hpools, find?_inside h.pairwise_pool (List.mem_map_of_mem hp) hfirst]
    simp only
    rw [hv, Option.map_some]
  · have hpos : (UInt64.ofNat (p.1.address + k) - (pool p).mp_start).toNat = k := by
      have hle : (pool p).mp_start ≤ UInt64.ofNat (p.1.address + k) := by
        rw [UInt64.le_iff_toNat_le, h.toNat_start hp, UInt64.toNat_ofNat']
        omega
      rw [UInt64.toNat_sub_of_le _ _ hle, h.toNat_start hp, UInt64.toNat_ofNat']
      omega
    rw [hval]
    unfold fileBytes fileByte bytesFrom
    rw [hpos]
    rfl

/-- Elsewhere there are no constants. -/
theorem Saved.getMemoryValue_eq_none (h : Saved out) (hpools : o.memoryPools = out.map pool)
    (ha : ∀ p ∈ out, a.toNat ∉ region p.1) (n : ℕ) : getMemoryValue o a n = some none := by
  have hnone : (out.map pool).find? (fun p => p.inside a) = none := by
    refine List.find?_eq_none.mpr fun q hq => ?_
    obtain ⟨p, hp, rfl⟩ := List.mem_map.mp hq
    exact fun hin => ha p hp ((h.inside_iff hp).mp hin)
  unfold getMemoryValue
  rw [hpools, hnone]

/-! ## What the pass gets -/

variable (loadFromFile : String → List JumpTableInfo) {P : Paths} {endianness : String}
  {jump_table_file : Option String} {parse : List String → Option OptArgs}

/-- The options of the pass, in an iteration over saved segments. -/
theorem Saved.exists_options (h : Saved out) (hparse : CollectsOptions P.so_path parse)
    (hplain : Plain P ⟨out.map Prod.fst, endianness⟩ jump_table_file) :
    ∃ o, (parse (split (run_passes_pre P ⟨out.map Prod.fst, endianness⟩ jump_table_file)).tail).bind
        (initOptions (written out) loadFromFile) = some o ∧
      o.memoryPools = out.map pool ∧ o.isBigEndian = decide (endianness ≠ "little") := by
  have haddr : ∀ seg ∈ out.map Prod.fst, seg.address < 2 ^ 63 := by
    intro seg hseg
    obtain ⟨p, hp, rfl⟩ := List.mem_map.mp hseg
    have := h.below p hp
    omega
  refine ⟨⟨out.map pool, decide (endianness ≠ "little"), if jump_table_file.getD "" ≠ "" then
    loadFromFile (jump_table_file.getD "") else []⟩, ?_, rfl, rfl⟩
  rw [parse_run_passes_pre hparse hplain, Option.bind_some,
    initOptions_optArgs P jump_table_file haddr, h.mapM_pool, Option.map_some]

/-! ## ELF files -/

variable {out_dir : String} {src : List UInt8} {segs : List SegmentHeader} {seg : SegmentHeader}

theorem toString_injective : Function.Injective (toString : ℕ → String) := by
  intro m n h
  have hdigits : Nat.toDigits 10 m = Nat.toDigits 10 n := by
    have := congrArg String.toList h
    simpa [toString, Nat.repr] using this
  rw [← Nat.ofDigitChars_ten_toDigits (n := m), hdigits, Nat.ofDigitChars_ten_toDigits]

theorem join_injective (out_dir : String) : Function.Injective (join out_dir) := by
  intro a b h
  unfold join at h
  split_ifs at h
  · exact (String.append_right_inj _).mp h
  · exact (String.append_right_inj _).mp h

theorem not_mem_join {name : String} (hdir : ' ' ∉ out_dir.toList) (hname : ' ' ∉ name.toList) :
    ' ' ∉ (join out_dir name).toList := by
  unfold join
  split_ifs
  · rw [String.toList_append, List.mem_append]
    exact not_or.mpr ⟨hdir, hname⟩
  · rw [String.toList_append, String.toList_append, List.mem_append, List.mem_append]
    exact not_or.mpr ⟨not_or.mpr ⟨hdir, by decide⟩, hname⟩

/-- The segment files of an ELF file have different names. -/
theorem saved_do_elf (h : do_elf out_dir src segs = some out)
    (hbelow : ∀ p ∈ out, p.1.address + p.1.size < 2 ^ 63)
    (hdisjoint : (out.map fun p => region p.1).Pairwise Disjoint) : Saved out := by
  have hchunks : ∀ (i : ℕ) (p : SegmDesc × List UInt8), out[i]? = some p →
      p.1.file = join out_dir ("seg-" ++ toString i ++ ".bin") ∧ p.2.length = p.1.size := by
    intro i p hp
    rw [getElem?_do_elf h] at hp
    obtain ⟨seg, -, hp⟩ := Option.bind_eq_some_iff.mp hp
    obtain ⟨-, hd, hchunk⟩ := loadSegment_eq_some.mp hp
    rw [hd, hchunk, length_save_chunk]
    exact ⟨rfl, rfl⟩
  have hnames : out.map (fun p => p.1.file) =
      (List.range out.length).map fun i => join out_dir ("seg-" ++ toString i ++ ".bin") := by
    refine List.ext_getElem? fun i => ?_
    rw [List.getElem?_map, List.getElem?_map]
    cases hp : out[i]? with
    | none => rw [List.getElem?_eq_none (by simpa using List.getElem?_eq_none_iff.mp hp)]; rfl
    | some p =>
      rw [List.getElem?_range (List.getElem?_eq_some_iff.mp hp).1, Option.map_some,
        Option.map_some, (hchunks i p hp).1]
  refine ⟨?_, fun p hp => ?_, hbelow, hdisjoint⟩
  · rw [hnames]
    refine List.nodup_range.map fun i j hij => toString_injective ?_
    exact (String.append_right_inj _).mp ((String.append_left_inj _).mp
      (join_injective out_dir hij))
  · obtain ⟨i, hi⟩ := List.mem_iff_getElem?.mp hp
    exact (hchunks i p hi).2

theorem bytesFrom_chunk (hoff : seg.padding ≤ seg.p_offset) (hk : k + n ≤ seg.size) :
    bytesFrom (save_chunk src (seg.p_offset - seg.padding) seg.chunkSize) (seg.padding + k) n =
      bytesFrom src (seg.p_offset + k) n := by
  refine List.map_congr_left fun i hi => ?_
  have hi : i < n := List.mem_range.mp hi
  have hle : seg.padding ≤ seg.p_paddr := Nat.mod_le _ _
  have hbyte : (save_chunk src (seg.p_offset - seg.padding) seg.chunkSize)[seg.padding + k + i]? =
      some ((src[seg.p_offset + (k + i)]?).getD 0) := by
    rw [show seg.padding + k + i = seg.p_paddr + (k + i) - (seg.p_paddr - seg.padding) by omega]
    exact getElem?_chunk hoff (by omega)
  rw [List.getD_eq_getElem?_getD, hbyte, Option.getD_some, List.getD_eq_getElem?_getD,
    Nat.add_assoc]

/-- No blank gets into the names of the segment files. -/
theorem plain_do_elf (h : do_elf out_dir src segs = some out) (hdir : ' ' ∉ out_dir.toList)
    (hP : Plain P ⟨[], endianness⟩ jump_table_file) :
    Plain P ⟨out.map Prod.fst, endianness⟩ jump_table_file := by
  refine ⟨hP.paths, fun seg hseg => ?_, hP.jumpTable, hP.input⟩
  obtain ⟨p, hp, rfl⟩ := List.mem_map.mp hseg
  obtain ⟨i, hi⟩ := List.mem_iff_getElem?.mp hp
  rw [getElem?_do_elf h] at hi
  obtain ⟨s, -, hload⟩ := Option.bind_eq_some_iff.mp hi
  obtain ⟨-, hd, -⟩ := loadSegment_eq_some.mp hload
  rw [hd]
  have hname : ' ' ∉ ("seg-" ++ toString i ++ ".bin").toList := by
    have hdigits : ' ' ∉ (toString i).toList := by
      intro hin
      have hdigit := Nat.isDigit_of_mem_toDigits (b := 10) (n := i) (by decide) (by decide)
        (by simpa [toString, Nat.repr] using hin)
      exact absurd hdigit (by decide)
    rw [String.toList_append, String.toList_append, List.mem_append, List.mem_append]
    rintro ((hin | hin) | hin)
    · exact absurd hin (by decide)
    · exact hdigits hin
    · exact absurd hin (by decide)
  exact not_mem_join hdir hname

/-- **The constants of an ELF file**: inside a loaded segment the pass reads the bytes of the file,
in the byte order it is told, and nothing outside the segment files. -/
theorem constants_do_elf (h : do_elf out_dir src segs = some out)
    (hbelow : ∀ p ∈ out, p.1.address + p.1.size < 2 ^ 63)
    (hdisjoint : (out.map fun p => region p.1).Pairwise Disjoint)
    (hdir : ' ' ∉ out_dir.toList) (hparse : CollectsOptions P.so_path parse)
    (hP : Plain P ⟨[], endianness⟩ jump_table_file) :
    ∃ o, (parse (split (run_passes_pre P ⟨out.map Prod.fst, endianness⟩ jump_table_file)).tail).bind
        (initOptions (written out) loadFromFile) = some o ∧
      (∀ seg ∈ segs, seg.isLoad = true → ∀ k n, 0 < n → n ≤ 8 → k + n ≤ seg.size →
        ∃ v, getMemoryValue o (UInt64.ofNat (seg.p_paddr + k)) n = some (some v) ∧
          v.toNat = orderedValue (decide (endianness ≠ "little")) (bytesFrom src
            (seg.p_offset + k) n)) ∧
      ∀ a n, (∀ p ∈ out, a.toNat ∉ region p.1) → getMemoryValue o a n = some none := by
  have hsaved := saved_do_elf h hbelow hdisjoint
  obtain ⟨o, ho, hpools, hbig⟩ :=
    hsaved.exists_options loadFromFile hparse (plain_do_elf h hdir hP)
  refine ⟨o, ho, fun seg hseg hload k n hn hn8 hk => ?_, fun a n ha =>
    hsaved.getMemoryValue_eq_none hpools ha n⟩
  obtain ⟨i, hi⟩ := List.mem_iff_getElem?.mp (List.mem_filter.mpr ⟨hseg, hload⟩)
  obtain ⟨d, chunk, hchunk⟩ := exists_of_do_elf h hi
  have hmem : (d, chunk) ∈ out :=
    List.mem_of_getElem? (by rw [getElem?_do_elf h, hi, Option.bind_some, hchunk])
  obtain ⟨⟨-, hoff⟩, rfl, rfl⟩ := loadSegment_eq_some.mp hchunk
  have hpad : seg.padding + k + n ≤ seg.chunkSize := by
    have h₁ := (roundUp4k_spec seg.size).1
    have h₂ := (roundUp4k_spec (roundUp4k seg.size + seg.padding)).1
    unfold SegmentHeader.chunkSize
    omega
  obtain ⟨v, hv, hval⟩ := hsaved.getMemoryValue_eq hpools hmem hn hn8 hpad
  have hle : seg.padding ≤ seg.p_paddr := Nat.mod_le _ _
  dsimp only at hv hval
  rw [show seg.p_paddr - seg.padding + (seg.padding + k) = seg.p_paddr + k by omega] at hv
  rw [hbig, bytesFrom_chunk hoff hk] at hval
  exact ⟨v, hv, hval⟩

/-- Three bytes on a page of their own. -/
def dataSegment : SegmentHeader := ⟨.PT_LOAD, 0x16, 0xc016, 0xc016, 3, 3⟩

/-- The file of both segments. -/
def bothSegments : List UInt8 := List.replicate 16 0x7f ++ [1, 2, 0, 0, 0, 0, 3, 4, 5]

/-- Constants from both segments, and from between them. -/
theorem constants_plainSegment :
    ∃ out o, do_elf "/t" bothSegments [plainSegment, dataSegment] = some out ∧
      (parseArgs (split (run_passes_pre atPaths ⟨out.map Prod.fst, "big"⟩ none)).tail).bind
        (initOptions (written out) fun _ => []) = some o ∧
      (∃ v, getMemoryValue o 0x8010 4 = some (some v) ∧ v.toNat = 0x01020000) ∧
      (∃ v, getMemoryValue o 0xc017 2 = some (some v) ∧ v.toNat = 0x0405) ∧
      getMemoryValue o 0xb000 4 = some none := by
  have hdisjoint : ∀ p q : SegmDesc × List UInt8, p.1.address + p.1.size ≤ q.1.address →
      ([p, q].map fun p => region p.1).Pairwise Disjoint := fun p q hle =>
    List.pairwise_pair.mpr (Set.Ico_disjoint_Ico.mpr
      ((min_le_left _ _).trans (hle.trans (le_max_right _ _))))
  have hplain : Plain atPaths ⟨[], "big"⟩ none := ⟨by decide, by decide, nofun, by decide⟩
  obtain ⟨o, ho, hin, hout⟩ := constants_do_elf (fun _ => [])
    (show do_elf "/t" bothSegments [plainSegment, dataSegment] = some _ from rfl) (by decide)
    (hdisjoint _ _ (by decide)) (by decide) (collectsOptions_parseArgs _) hplain
  obtain ⟨v, hv, hval⟩ := hin plainSegment (by decide) (by decide) 0 4 (by decide)
    (by decide) (by decide)
  obtain ⟨w, hw, hwal⟩ := hin dataSegment (by decide) (by decide) 1 2 (by decide)
    (by decide) (by decide)
  refine ⟨_, o, rfl, ho, ⟨v, hv, hval.trans (by decide)⟩, ⟨w, hw, hwal.trans (by decide)⟩,
    hout _ _ fun p hp => ?_⟩
  rcases List.mem_pair.mp hp with rfl | rfl <;> exact fun hin =>
    absurd (Set.mem_Ico.mp hin) (by decide)

/-! ## The constants of raw files -/

variable {temp_dir : String} {paths_to_raw : List (String × List UInt8)} {load_addresses : List ℕ}

theorem mem_do_raw_arm_many (h : do_raw_arm_many temp_dir paths_to_raw load_addresses = some out) :
    p ∈ out ↔ ∃ (i : ℕ) (path : String) (raw : List UInt8) (addr : ℕ),
      paths_to_raw[i]? = some (path, raw) ∧
      load_addresses[i]? = some addr ∧ p = do_raw_arm_one temp_dir path raw addr := by
  unfold do_raw_arm_many at h
  split_ifs at h
  obtain rfl := Option.some.inj h
  constructor
  · intro hp
    obtain ⟨⟨⟨path, raw⟩, addr⟩, hmem, rfl⟩ := List.mem_map.mp hp
    obtain ⟨i, hi⟩ := List.mem_iff_getElem?.mp hmem
    obtain ⟨hpath, haddr⟩ := List.getElem?_zip_eq_some.mp hi
    exact ⟨i, path, raw, addr, hpath, haddr, rfl⟩
  · rintro ⟨i, path, raw, addr, hpath, haddr, rfl⟩
    have hmem : ((path, raw), addr) ∈ paths_to_raw.zip load_addresses :=
      List.mem_of_getElem? (List.getElem?_zip_eq_some.mpr ⟨hpath, haddr⟩)
    exact List.mem_map.mpr ⟨_, hmem, rfl⟩

/-- A raw file is a prefix of its copy. -/
theorem bytesFrom_do_raw_arm_one (temp_dir path : String) {raw : List UInt8} (addr : ℕ)
    (hk : k + n ≤ raw.length) : k + n ≤ (do_raw_arm_one temp_dir path raw addr).1.size ∧
      bytesFrom (do_raw_arm_one temp_dir path raw addr).2 k n = bytesFrom raw k n := by
  have hsize : raw.length ≤ (do_raw_arm_one temp_dir path raw addr).1.size := by
    unfold do_raw_arm_one
    dsimp only
    split_ifs <;> omega
  refine ⟨hk.trans hsize, List.map_congr_left fun i hi => ?_⟩
  have hi : i < n := List.mem_range.mp hi
  have hbyte : (do_raw_arm_one temp_dir path raw addr).2[k + i]? =
      some ((raw[0 + (k + i)]?).getD 0) :=
    getElem?_save_chunk (show k + i < (do_raw_arm_one temp_dir path raw addr).1.size by omega)
  rw [List.getD_eq_getElem?_getD, hbyte, Option.getD_some, List.getD_eq_getElem?_getD, Nat.zero_add]

/-- **The constants of raw files**: the pass reads the bytes of every file at its load address, and
nothing outside the padded files, unless two files are copied to the same name. -/
theorem constants_do_raw_arm_many
    (h : do_raw_arm_many temp_dir paths_to_raw load_addresses = some out)
    (hnames : (out.map fun p => p.1.file).Nodup)
    (hbelow : ∀ p ∈ out, p.1.address + p.1.size < 2 ^ 63)
    (hdisjoint : (out.map fun p => region p.1).Pairwise Disjoint)
    (hparse : CollectsOptions P.so_path parse)
    (hplain : Plain P ⟨out.map Prod.fst, endianness⟩ jump_table_file) :
    ∃ o, (parse (split (run_passes_pre P ⟨out.map Prod.fst, endianness⟩ jump_table_file)).tail).bind
        (initOptions (written out) loadFromFile) = some o ∧
      (∀ (i : ℕ) path raw addr, paths_to_raw[i]? = some (path, raw) →
        load_addresses[i]? = some addr → ∀ k n, 0 < n → n ≤ 8 → k + n ≤ raw.length →
          ∃ v, getMemoryValue o (UInt64.ofNat (addr + k)) n = some (some v) ∧
            v.toNat = orderedValue (decide (endianness ≠ "little")) (bytesFrom raw k n)) ∧
      ∀ a n, (∀ p ∈ out, a.toNat ∉ region p.1) → getMemoryValue o a n = some none := by
  have hsizes : ∀ p ∈ out, p.2.length = p.1.size := by
    intro p hp
    obtain ⟨i, path, raw, addr, -, -, rfl⟩ := (mem_do_raw_arm_many h).mp hp
    exact length_save_chunk _ _ _
  have hsaved : Saved out := ⟨hnames, hsizes, hbelow, hdisjoint⟩
  obtain ⟨o, ho, hpools, hbig⟩ := hsaved.exists_options loadFromFile hparse hplain
  refine ⟨o, ho, fun i path raw addr hpath haddr k n hn hn8 hk => ?_, fun a n ha =>
    hsaved.getMemoryValue_eq_none hpools ha n⟩
  have hmem := (mem_do_raw_arm_many h).mpr ⟨i, path, raw, addr, hpath, haddr, rfl⟩
  obtain ⟨hsize, hbytes⟩ := bytesFrom_do_raw_arm_one temp_dir path addr hk
  obtain ⟨v, hv, hval⟩ := hsaved.getMemoryValue_eq hpools hmem hn hn8 hsize
  rw [hbig, hbytes] at hval
  exact ⟨v, hv, hval⟩

/-- Two raw files. -/
def rawSegments : List (SegmDesc × List UInt8) :=
  [do_raw_arm_one "" "/a/x@1" [1, 2] 0x8000, do_raw_arm_one "" "/a/y" [3] 0xa000]

theorem constants_rawSegments : ∃ o,
    (parseArgs (split (run_passes_pre atPaths ⟨rawSegments.map Prod.fst, "little"⟩ none)).tail).bind
      (initOptions (written rawSegments) fun _ => []) = some o ∧
    ∃ v, getMemoryValue o 0x8000 2 = some (some v) ∧ v.toNat = 0x201 := by
  have hout : do_raw_arm_many "" [("/a/x@1", [1, 2]), ("/a/y", [3])] [0x8000, 0xa000] =
    some rawSegments := rfl
  have hdisjoint : (rawSegments.map fun p => region p.1).Pairwise Disjoint :=
    List.pairwise_pair.mpr (Set.Ico_disjoint_Ico.mpr (by decide))
  have hplain : Plain atPaths ⟨rawSegments.map Prod.fst, "little"⟩ none :=
    ⟨by decide, by decide, nofun, by decide⟩
  obtain ⟨o, ho, hin, -⟩ := constants_do_raw_arm_many (fun _ => []) hout (by decide)
    (by decide) hdisjoint (collectsOptions_parseArgs _) hplain
  obtain ⟨v, hv, hval⟩ := hin 0 _ _ _ rfl rfl 0 2 (by decide) (by decide) (by decide)
  exact ⟨o, ho, v, hv, hval.trans (by decide)⟩

end Bin2llvm.Driver
