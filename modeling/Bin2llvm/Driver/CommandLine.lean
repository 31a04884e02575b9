import Bin2llvm.ElfParser
import Bin2llvm.ReplaceConstantLoads

/-!
# Bin2llvm.Driver.CommandLine — the options of the passes, from the driver to `opt`

The driver writes the command of `run_passes_pre` into one string, with the memory segments and the
jump tables for `ReplaceConstantLoads`, and splits it at the blanks.  `opt` collects the options,
and `ReplaceConstantLoads::initialize` takes the descriptions of the memory pools apart again.  What
collects the options is LLVM's, a parameter `parse` here.

* `run_passes_pre`, `initOptions`: the command, and what the pass makes of the options.
* `CollectsOptions`: what is relied on of the option parser.
* `splitAtLast_append`: the address stands behind the last `@`.
* `initOptions_run_passes_pre`: the pass gets the segments of the driver.
-/

namespace Bin2llvm.Driver

open ElfParser (SegmDesc)
open ReplaceConstantLoads (Options)

/-! ## The command -/

/-- The part of `cfg` that `run_passes_pre` uses. -/
structure PassesConfig where
  segments : List SegmDesc
  endianness : String
  deriving DecidableEq, Repr

/-- `'%s@0x%08x' % (seg['file'], seg['address'])`. -/
def descriptor (seg : SegmDesc) : String :=
  seg.file ++ "@" ++ String.ofList (HexText.printHex 8 seg.address)

def get_replace_pass_cfg (segments : List SegmDesc) : String :=
  segments.foldl (fun ret seg => ret ++ ("-memory " ++ descriptor seg ++ " ")) ""

/-- The passes in front of `ReplaceConstantLoads`. -/
def passesBefore : List String :=
  ["-mem2reg", "-transfrombbtovoid", "-tag-inst-pc", "-rmexterstoretopc",
  "-s2edeleteinstructioncount", "-fixoverlappedbbs", "-dce", "-internalize-globals",
    "-replaceconstantloads"]

/-- The passes behind it, up to `BuildFunctions`. -/
def passesBehind : List String :=
  ["-dce", "-armmarkcall", "-dce", "-gvn", "-dce", "-armmarkreturn", "-armmarkjumps",
    "-markfuncentry", "-rmbranchtrace"]

/-- Every argument is followed by a blank. -/
def arguments (args : List String) : String := args.foldl (fun cmd arg => cmd ++ (arg ++ " ")) ""

/-- The tools, and the files of an iteration. -/
structure Paths where
  opt_path : String
  so_path : String
  raw_llvm : String
  out_funcs : String
  out_remaining : String
  deriving DecidableEq, Repr

/-- The command string. -/
def run_passes_pre (P : Paths) (cfg : PassesConfig) (jump_table_file : Option String) : String :=
  let cmd := arguments ([P.opt_path, "-load", P.so_path] ++ passesBefore)
  let cmd := match jump_table_file with
    | none => cmd ++ get_replace_pass_cfg cfg.segments
    | some jump_table_file =>
      cmd ++ ("-jump-table-info " ++ jump_table_file ++ " ") ++ get_replace_pass_cfg cfg.segments
  let cmd := cmd ++ arguments passesBehind
  let cmd := if cfg.endianness ≠ "little" then cmd ++ "-is-big-endian " else cmd
  let cmd := cmd ++ ("-buildfunctions -save-funcs " ++ P.out_funcs ++ " ")
  cmd ++ (P.raw_llvm ++ " -o " ++ P.out_remaining)

/-- `cmd.split(' ')`. -/
def split (cmd : String) : List String := (cmd.toList.splitOn ' ').map String.ofList

/-! ## The options -/

/-- What `opt` collects: passes and switches, options with their values, and files. -/
structure OptArgs where
  switches : List String
  values : List (String × String)
  positional : List String
  deriving DecidableEq, Repr

/-- An argument of a command line: a pass or a switch, an option with the value behind it, or a
file. -/
inductive Arg where
  | switch (name : String)
  | value (name val : String)
  | file (path : String)

namespace Arg

def words : Arg → List String
  | switch name => [name]
  | value name val => [name, val]
  | file path => [path]

def switch? : Arg → Option String
  | switch name => some name
  | _ => none

def value? : Arg → Option (String × String)
  | value name val => some (name, val)
  | _ => none

def file? : Arg → Option String
  | file path => some path
  | _ => none

end Arg

/-- The passes and the switches. -/
def passesAndSwitches : List String :=
  passesBefore ++ passesBehind ++ ["-is-big-endian", "-buildfunctions"]

/-- The options that take a value. -/
def takesValue : List String := ["-load", "-memory", "-jump-table-info", "-save-funcs", "-o"]

/-- The options that may be given once; passes, `-load` and `-memory` are lists. -/
def onlyOnce : List String := ["-is-big-endian", "-jump-table-info", "-save-funcs", "-o"]

/-- The name of an option that may be given once. -/
def Arg.once? : Arg → Option String
  | .switch name => if name ∈ onlyOnce then some name else none
  | .value name _ => if name ∈ onlyOnce then some name else none
  | .file _ => none

/-- The arguments that `opt` accepts behind the plugin: options that it knows, none of them too
often, and at most one file. -/
structure Accepted (args : List Arg) : Prop where
  switches : ∀ name ∈ args.filterMap Arg.switch?, name ∈ passesAndSwitches
  values : ∀ p ∈ args.filterMap Arg.value?, p.1 ∈ takesValue
  files : ∀ path ∈ args.filterMap Arg.file?, path.toList.head? ≠ some '-'
  once : (args.filterMap Arg.once?).Nodup
  oneFile : (args.filterMap Arg.file?).length ≤ 1

/-- What the arguments give, in their order. -/
def OptArgs.ofArgs (args : List Arg) : OptArgs :=
  ⟨args.filterMap Arg.switch?, args.filterMap Arg.value?, args.filterMap Arg.file?⟩

/-- What is relied on of `cl::ParseCommandLineOptions` in `opt`: behind the plugin, whose passes and
options are then known, accepted arguments are collected, and an option that takes a value takes the
next argument as it is. -/
structure CollectsOptions (so_path : String) (parse : List String → Option OptArgs) : Prop where
  collects : ∀ args, Accepted args →
    parse ("-load" :: so_path :: args.flatMap Arg.words) =
    some (OptArgs.ofArgs (.value "-load" so_path :: args))

/-- The values of an option, in order. -/
def OptArgs.valuesOf (o : OptArgs) (name : String) : List String :=
  o.values.filterMap fun p => if p.1 = name then some p.2 else none

/-- `desc.rfind('@')`, with what is before it and what is behind it. -/
def splitAtLast (c : Char) (desc : List Char) : Option (List Char × List Char) :=
  match desc.reverse.dropWhile (· ≠ c) with
  | [] => none
  | _ :: path => some (path.reverse, (desc.reverse.takeWhile (· ≠ c)).reverse)

section

variable (files : String → Option (List UInt8)) (loadFromFile : String → List JumpTableInfo)

/-- A pool whose file cannot be opened is an assertion failure, as is a description without `@`. -/
def getMemoryPool (desc : String) : Option MemoryPool := do
  let (path, addr) ← splitAtLast '@' desc.toList
  let mp_file ← files (String.ofList path)
  some ⟨mp_file, FixOverlappedBBs.strtoll (String.ofList addr)⟩

/-- `ReplaceConstantLoads::initialize`. -/
def initOptions (o : OptArgs) : Option Options := do
  let pools ← (o.valuesOf "-memory").mapM (getMemoryPool files)
  let jumpTableInfoFile := ((o.valuesOf "-jump-table-info").getLast?).getD ""
  some ⟨pools, decide ("-is-big-endian" ∈ o.switches),
    if jumpTableInfoFile ≠ "" then loadFromFile jumpTableInfoFile else []⟩

end

variable {cfg : PassesConfig} {P : Paths} {jump_table_file : Option String}
variable {args switches : List String}
  {a b : String}

/-! ## Splitting at blanks -/

theorem foldl_append (g : String → String) (args : List String) (cmd : String) :
    args.foldl (fun cmd arg => cmd ++ g arg) cmd = cmd ++ args.foldl (fun cmd arg =>
      cmd ++ g arg) "" := by
  induction args generalizing cmd with
  | nil => simp
  | cons arg args ih =>
    rw [List.foldl_cons, List.foldl_cons, ih (cmd ++ g arg), ih ("" ++ g arg), String.empty_append,
      String.append_assoc]

theorem arguments_cons (a : String) (args : List String) :
    arguments (a :: args) = a ++ " " ++ arguments args := by
  unfold arguments
  rw [List.foldl_cons, foldl_append (· ++ " "), String.empty_append]

theorem arguments_append (args args' : List String) :
    arguments (args ++ args') = arguments args ++ arguments args' := by
  unfold arguments
  rw [List.foldl_append, foldl_append (· ++ " ")]

theorem split_append (ha : ' ' ∉ a.toList) : split (a ++ " " ++ b) = a :: split b := by
  unfold split
  rw [String.toList_append, String.toList_append, List.append_assoc,
    show " ".toList = [' '] from rfl, List.singleton_append,
      List.splitOn_append_cons_self_of_not_mem ha, List.map_cons, String.ofList_toList]

theorem split_arguments (hargs : ∀ a ∈ args, ' ' ∉ a.toList) :
    split (arguments args ++ b) = args ++ split b := by
  induction args with
  | nil => rw [arguments, List.foldl_nil, String.empty_append, List.nil_append]
  | cons a args ih =>
    have ⟨ha, hargs⟩ := List.forall_mem_cons.mp hargs
    rw [arguments_cons, String.append_assoc, split_append ha, ih hargs, List.cons_append]

theorem split_singleton (ha : ' ' ∉ a.toList) : split a = [a] := by
  unfold split
  rw [List.splitOn_eq_singleton ha, List.map_singleton, String.ofList_toList]

/-! ## The arguments -/

/-- `-memory` and the description, for every segment. -/
def memoryArgs (segments : List SegmDesc) : List String :=
  segments.flatMap fun seg => ["-memory", descriptor seg]

def jumpTableArgs : Option String → List String
  | none => []
  | some jump_table_file => ["-jump-table-info", jump_table_file]

def bigEndianArgs (cfg : PassesConfig) : List String :=
  if cfg.endianness ≠ "little" then ["-is-big-endian"] else []

theorem get_replace_pass_cfg_eq (segments : List SegmDesc) :
    get_replace_pass_cfg segments = arguments (memoryArgs segments) := by
  have hfold : ∀ cmd, segments.foldl (fun ret seg =>
      ret ++ ("-memory " ++ descriptor seg ++ " ")) cmd =
      cmd ++ arguments (memoryArgs segments) := by
    induction segments with
    | nil => intro cmd; exact (String.append_empty).symm
    | cons seg segments ih =>
      intro cmd
      have hcons : memoryArgs (seg :: segments) = "-memory" :: descriptor seg ::
        memoryArgs segments := rfl
      have hblank : "-memory " = "-memory" ++ " " := rfl
      rw [List.foldl_cons, ih, hcons, arguments_cons, arguments_cons, hblank]
      simp only [String.append_assoc]
  rw [get_replace_pass_cfg, hfold, String.empty_append]

/-- The command is its arguments, and the output file. -/
theorem run_passes_pre_eq : run_passes_pre P cfg jump_table_file =
    arguments ([P.opt_path, "-load", P.so_path] ++ passesBefore ++ jumpTableArgs jump_table_file ++
      memoryArgs cfg.segments ++ passesBehind ++ bigEndianArgs cfg ++
        ["-buildfunctions", "-save-funcs", P.out_funcs, P.raw_llvm, "-o"]) ++ P.out_remaining := by
  have hswitch : "-is-big-endian " = arguments ["-is-big-endian"] := rfl
  have htable : ∀ file, "-jump-table-info " ++ file ++ " " = arguments ["-jump-table-info",
      file] := by
    intro file
    have hblank : "-jump-table-info " = "-jump-table-info" ++ " " := rfl
    rw [arguments_cons, arguments_cons, hblank]
    simp only [String.append_assoc]
    rfl
  have hlast : "-buildfunctions -save-funcs " ++ P.out_funcs ++ " " ++
      (P.raw_llvm ++ " -o " ++ P.out_remaining) =
      arguments ["-buildfunctions", "-save-funcs", P.out_funcs, P.raw_llvm, "-o"] ++
      P.out_remaining := by
    have hblank : "-buildfunctions -save-funcs " = "-buildfunctions" ++
      (" " ++ ("-save-funcs" ++ " ")) := rfl
    have hout : " -o " = " " ++ ("-o" ++ " ") := rfl
    simp only [arguments_cons, hblank, hout, String.append_assoc]
    rfl
  unfold run_passes_pre jumpTableArgs bigEndianArgs
  simp only [get_replace_pass_cfg_eq, hswitch, htable]
  rw [String.append_assoc, hlast]
  cases jump_table_file <;> split_ifs <;> simp only [arguments_append, String.append_assoc,
    List.append_nil]

/-! ## The options that `opt` collects -/

/-- The arguments of the command, without the plugin. -/
def commandArgs (P : Paths) (cfg : PassesConfig) (jump_table_file : Option String) : List Arg :=
  passesBefore.map .switch ++ (jump_table_file.toList.map (.value "-jump-table-info") ++
    (cfg.segments.map (fun seg => .value "-memory" (descriptor seg)) ++ (passesBehind.map .switch ++
      ((bigEndianArgs cfg).map .switch ++
        [.switch "-buildfunctions", .value "-save-funcs" P.out_funcs, .file P.raw_llvm,
          .value "-o" P.out_remaining]))))

/-- The option for the jump tables. -/
def jumpTableValues : Option String → List (String × String)
  | none => []
  | some jump_table_file => [("-jump-table-info", jump_table_file)]

/-- What the driver passes. -/
def optArgs (P : Paths) (cfg : PassesConfig) (jump_table_file : Option String) : OptArgs where
  switches := passesBefore ++ (passesBehind ++ (bigEndianArgs cfg ++ ["-buildfunctions"]))
  values := ("-load", P.so_path) :: (jumpTableValues jump_table_file ++
    (cfg.segments.map (fun seg => ("-memory", descriptor seg)) ++
      [("-save-funcs", P.out_funcs), ("-o", P.out_remaining)]))
  positional := [P.raw_llvm]

/-- No path has a blank, and the input file is no option. -/
structure Plain (P : Paths) (cfg : PassesConfig) (jump_table_file : Option String) : Prop where
  paths : ∀ p ∈ [P.opt_path, P.so_path, P.raw_llvm, P.out_funcs, P.out_remaining], ' ' ∉ p.toList
  segments : ∀ seg ∈ cfg.segments, ' ' ∉ seg.file.toList
  jumpTable : ∀ file, jump_table_file = some file → ' ' ∉ file.toList
  input : P.raw_llvm.toList.head? ≠ some '-'

theorem mem_printHex {w n : ℕ} {c : Char} (h : c ∈ HexText.printHex w n) :
    c = 'x' ∨ (HexText.digitVal c).isSome = true := by
  unfold HexText.printHex List.leftpad at h
  rcases List.mem_cons.mp h with rfl | h
  · exact .inr rfl
  rcases List.mem_cons.mp h with rfl | h
  · exact .inl rfl
  rcases List.mem_append.mp h with h | h
  · rw [List.eq_of_mem_replicate h]
    exact .inr rfl
  · exact .inr (HexText.digitVal_of_mem_toDigits n c h)

theorem not_mem_printHex {c : Char} (hx : c ≠ 'x') (hdigit : HexText.digitVal c = none) (w n : ℕ) :
    c ∉ HexText.printHex w n := by
  intro h
  rcases mem_printHex h with h | h
  · exact hx h
  · rw [hdigit] at h
    cases h

theorem not_mem_descriptor {seg : SegmDesc} (h : ' ' ∉ seg.file.toList) :
    ' ' ∉ (descriptor seg).toList := by
  unfold descriptor
  rw [String.toList_append, String.toList_append,
    String.toList_ofList (l := HexText.printHex 8 seg.address), List.mem_append, List.mem_append]
  have hblank : ' ' ∉ HexText.printHex 8 seg.address :=
    not_mem_printHex (by decide) (by decide) 8 seg.address
  rintro ((hin | hin) | hin)
  · exact h hin
  · exact absurd hin (by decide)
  · exact hblank hin

theorem split_run_passes_pre (h : Plain P cfg jump_table_file) :
    split (run_passes_pre P cfg jump_table_file) =
      P.opt_path :: (["-load", P.so_path] ++ passesBefore ++ jumpTableArgs jump_table_file ++
        memoryArgs cfg.segments ++ passesBehind ++ bigEndianArgs cfg ++
          ["-buildfunctions", "-save-funcs", P.out_funcs, P.raw_llvm, "-o", P.out_remaining]) := by
  have hpaths := h.paths
  simp only [List.forall_mem_cons, List.not_mem_nil, false_implies, implies_true,
    and_true] at hpaths
  obtain ⟨hopt, hso, hraw, hfuncs, hremaining⟩ := hpaths
  rw [run_passes_pre_eq, split_arguments, split_singleton hremaining]
  · simp only [List.append_assoc, List.cons_append, List.nil_append]
  · simp only [List.forall_mem_append]
    refine ⟨⟨⟨⟨⟨⟨?_, by decide⟩, ?_⟩, ?_⟩, by decide⟩, ?_⟩, ?_⟩
    · simpa only [List.forall_mem_cons, List.not_mem_nil, false_implies, implies_true,
        and_true] using ⟨hopt, by decide, hso⟩
    · cases hj : jump_table_file with
      | none => exact fun _ hnil => absurd hnil List.not_mem_nil
      | some file =>
        exact List.forall_mem_cons.mpr ⟨by decide,
          List.forall_mem_singleton.mpr (h.jumpTable file hj)⟩
    · intro a ha
      obtain ⟨seg, hseg, ha⟩ := List.mem_flatMap.mp ha
      rcases List.mem_pair.mp ha with rfl | rfl
      · decide
      · exact not_mem_descriptor (h.segments seg hseg)
    · unfold bigEndianArgs
      split_ifs <;> decide
    · simpa only [List.forall_mem_cons, List.not_mem_nil, false_implies, implies_true,
        and_true] using ⟨by decide, by decide, hfuncs, hraw, by decide⟩

theorem flatMap_words_switch (names : List String) :
    (names.map Arg.switch).flatMap Arg.words = names := by
  rw [List.flatMap_map]
  exact List.flatMap_singleton' names

theorem words_commandArgs : (commandArgs P cfg jump_table_file).flatMap Arg.words =
    passesBefore ++ jumpTableArgs jump_table_file ++ memoryArgs cfg.segments ++ passesBehind ++
      bigEndianArgs cfg ++
      ["-buildfunctions", "-save-funcs", P.out_funcs, P.raw_llvm, "-o", P.out_remaining] := by
  have htable : (jump_table_file.toList.map (Arg.value "-jump-table-info")).flatMap Arg.words =
      jumpTableArgs jump_table_file := by
    cases jump_table_file <;> rfl
  have hmemory : (cfg.segments.map fun seg =>
      Arg.value "-memory" (descriptor seg)).flatMap Arg.words = memoryArgs cfg.segments := by
    rw [List.flatMap_map]
    rfl
  unfold commandArgs
  simp only [List.flatMap_append, flatMap_words_switch, htable, hmemory, List.append_assoc]
  rfl

/-- What the arguments of the command are, kind by kind. -/
theorem ofArgs_commandArgs :
    OptArgs.ofArgs (.value "-load" P.so_path :: commandArgs P cfg jump_table_file) =
      optArgs P cfg jump_table_file := by
  have htable : jump_table_file.toList.map (fun file => ("-jump-table-info", file)) =
      jumpTableValues jump_table_file := by
    cases jump_table_file <;> rfl
  unfold OptArgs.ofArgs commandArgs optArgs
  simp [List.filterMap_cons, List.filterMap_map, Function.comp_def, Arg.switch?, Arg.value?,
    Arg.file?, ← htable]

theorem bigEndianArgs_eq (cfg : PassesConfig) : bigEndianArgs cfg = ["-is-big-endian"] ∨
    bigEndianArgs cfg = [] := by
  unfold bigEndianArgs
  split_ifs
  · exact Or.inl rfl
  · exact Or.inr rfl

/-- The options that may be given once. -/
theorem once_commandArgs : (commandArgs P cfg jump_table_file).filterMap Arg.once? =
    jump_table_file.toList.map (fun _ => "-jump-table-info") ++
    (bigEndianArgs cfg ++ ["-save-funcs", "-o"]) := by
  have hpasses : ∀ names : List String, (∀ n ∈ names, n ∉ onlyOnce) →
      (names.map Arg.switch).filterMap Arg.once? = [] := by
    intro names h
    rw [List.filterMap_map]
    exact List.filterMap_eq_nil_iff.mpr fun n hn => if_neg (h n hn)
  have htable : (jump_table_file.toList.map (Arg.value "-jump-table-info")).filterMap Arg.once? =
      jump_table_file.toList.map fun _ => "-jump-table-info" := by
    cases jump_table_file <;> rfl
  have hmemory : (cfg.segments.map fun seg => Arg.value "-memory" (descriptor seg)).filterMap
      Arg.once? = [] := by
    rw [List.filterMap_map]
    exact List.filterMap_eq_nil_iff.mpr fun _ _ => rfl
  have hbig : ((bigEndianArgs cfg).map Arg.switch).filterMap Arg.once? = bigEndianArgs cfg := by
    rcases bigEndianArgs_eq cfg with h | h <;> rw [h] <;> rfl
  unfold commandArgs
  simp only [List.filterMap_append, hpasses passesBefore (by decide),
    hpasses passesBehind (by decide), htable, hmemory, hbig, List.nil_append]
  rfl

theorem accepted_commandArgs (h : Plain P cfg jump_table_file) :
    Accepted (commandArgs P cfg jump_table_file) := by
  have hargs : OptArgs.ofArgs (.value "-load" P.so_path :: commandArgs P cfg jump_table_file) =
      optArgs P cfg jump_table_file := ofArgs_commandArgs
  obtain ⟨hswitches, hvalues, hfiles⟩ := OptArgs.mk.inj hargs
  rw [List.filterMap_cons_none rfl] at hswitches hfiles
  refine ⟨?_, ?_, ?_, ?_, ?_⟩
  · rw [hswitches]
    rcases bigEndianArgs_eq cfg with hbig | hbig <;> rw [hbig] <;> decide
  · rw [show (commandArgs P cfg jump_table_file).filterMap Arg.value? = _ from
      (List.cons.inj hvalues).2]
    intro p hp
    simp only [List.mem_append, List.mem_map, List.mem_pair] at hp
    rcases hp with htable | ⟨seg, -, rfl⟩ | rfl | rfl
    · cases jump_table_file with
      | none => cases htable
      | some file =>
        rw [List.mem_singleton.mp htable]
        exact (by decide : "-jump-table-info" ∈ takesValue)
    · exact (by decide : "-memory" ∈ takesValue)
    · exact (by decide : "-save-funcs" ∈ takesValue)
    · exact (by decide : "-o" ∈ takesValue)
  · rw [hfiles]
    exact List.forall_mem_singleton.mpr h.input
  · rw [once_commandArgs]
    rcases bigEndianArgs_eq cfg with hbig | hbig <;> rw [hbig]
    · cases jump_table_file
      · exact (by decide : ["-is-big-endian", "-save-funcs", "-o"].Nodup)
      · exact (by decide : ["-jump-table-info", "-is-big-endian", "-save-funcs", "-o"].Nodup)
    · cases jump_table_file
      · exact (by decide : ["-save-funcs", "-o"].Nodup)
      · exact (by decide : ["-jump-table-info", "-save-funcs", "-o"].Nodup)
  · rw [hfiles]
    exact le_refl _

/-- `opt` gets the passes in their order, and every option with its value. -/
theorem parse_run_passes_pre {parse : List String → Option OptArgs}
    (hparse : CollectsOptions P.so_path parse) (h : Plain P cfg jump_table_file) :
    parse (split (run_passes_pre P cfg jump_table_file)).tail =
      some (optArgs P cfg jump_table_file) := by
  have hwords := hparse.collects _ (accepted_commandArgs h)
  rw [words_commandArgs, ofArgs_commandArgs] at hwords
  rw [split_run_passes_pre h, List.tail_cons]
  simpa only [List.append_assoc, List.cons_append, List.nil_append] using hwords

/-! ## The options of the pass -/

theorem splitAtLast_append {c : Char} {path addr : List Char} (h : c ∉ addr) :
    splitAtLast c (path ++ c :: addr) = some (path, addr) := by
  have hrev : ∀ a ∈ addr.reverse, decide (a ≠ c) = true := fun a ha =>
    decide_eq_true fun heq => h (heq ▸ List.mem_reverse.mp ha)
  unfold splitAtLast
  rw [List.reverse_append, List.reverse_cons, List.append_assoc, List.singleton_append,
    List.dropWhile_append_of_pos hrev, List.takeWhile_append_of_pos hrev,
    List.dropWhile_cons_of_neg (by simp), List.takeWhile_cons_of_neg (by simp)]
  simp

theorem getMemoryPool_descriptor {files : String → Option (List UInt8)} {seg : SegmDesc}
    (h : seg.address < 2 ^ 63) :
    getMemoryPool files (descriptor seg) = (files seg.file).map fun mp_file =>
      ⟨mp_file, UInt64.ofNat seg.address⟩ := by
  have hdesc : (descriptor seg).toList = seg.file.toList ++ '@' :: HexText.printHex 8
      seg.address := by
    unfold descriptor
    rw [String.toList_append, String.toList_append,
      String.toList_ofList (l := HexText.printHex 8 seg.address), List.append_assoc]
    rfl
  have haddr : FixOverlappedBBs.strtoll (String.ofList (HexText.printHex 8 seg.address)) =
      UInt64.ofNat seg.address := by
    rw [FixOverlappedBBs.strtoll, String.toList_ofList, HexText.strtoll16_printHex,
      min_eq_right (by omega)]
    apply UInt64.toNat_inj.mp
    simp only [UInt64.ofInt, UInt64.toNat_ofNat']
    omega
  have hat : '@' ∉ HexText.printHex 8 seg.address :=
    not_mem_printHex (by decide) (by decide) 8 seg.address
  unfold getMemoryPool
  rw [hdesc, splitAtLast_append hat, Option.bind_eq_bind, Option.bind_some]
  dsimp only
  rw [String.ofList_toList, haddr]
  cases files seg.file <;> rfl

theorem valuesOf_memory (P : Paths) (cfg : PassesConfig) (jump_table_file : Option String) :
    (optArgs P cfg jump_table_file).valuesOf "-memory" = cfg.segments.map descriptor := by
  have hsegments : (cfg.segments.map fun seg => ("-memory", descriptor seg)).filterMap
      (fun p : String × String => if p.1 = "-memory" then some p.2 else none) =
      cfg.segments.map descriptor := by
    rw [List.filterMap_map]
    exact congrFun (List.filterMap_eq_map (f := descriptor)) cfg.segments
  unfold optArgs OptArgs.valuesOf
  cases jump_table_file <;> simp [jumpTableValues, List.filterMap_append, hsegments]

theorem valuesOf_jumpTable (P : Paths) (cfg : PassesConfig) (jump_table_file : Option String) :
    (optArgs P cfg jump_table_file).valuesOf "-jump-table-info" = jump_table_file.toList := by
  have hsegments : (cfg.segments.map fun seg => ("-memory", descriptor seg)).filterMap
      (fun p : String × String => if p.1 = "-jump-table-info" then some p.2 else none) = [] := by
    rw [List.filterMap_map]
    exact List.filterMap_eq_nil_iff.mpr fun _ _ => rfl
  unfold optArgs OptArgs.valuesOf
  cases jump_table_file <;> simp [jumpTableValues, List.filterMap_append, hsegments]

section

variable {files : String → Option (List UInt8)} {loadFromFile : String → List JumpTableInfo}

theorem initOptions_optArgs (P : Paths) (jump_table_file : Option String)
    (haddr : ∀ seg ∈ cfg.segments, seg.address < 2 ^ 63) :
    initOptions files loadFromFile (optArgs P cfg jump_table_file) =
      (cfg.segments.mapM fun seg => (files seg.file).map fun f =>
        ⟨f, UInt64.ofNat seg.address⟩).map fun pools => ⟨pools, cfg.endianness ≠ "little",
          if jump_table_file.getD "" ≠ "" then loadFromFile (jump_table_file.getD "") else []⟩ := by
  have hpools : (cfg.segments.map descriptor).mapM (getMemoryPool files) =
      cfg.segments.mapM fun seg => (files seg.file).map fun f => ⟨f, UInt64.ofNat seg.address⟩ := by
    rw [List.mapM_map]
    exact OptionMapM.mapM_congr fun seg hseg => getMemoryPool_descriptor (haddr seg hseg)
  have hbig : decide ("-is-big-endian" ∈ (optArgs P cfg jump_table_file).switches) =
      decide (cfg.endianness ≠ "little") := by
    unfold optArgs bigEndianArgs
    by_cases hlittle : cfg.endianness = "little" <;> simp [hlittle, passesBefore, passesBehind]
  have htable : ((jump_table_file.toList).getLast?).getD "" = jump_table_file.getD "" := by
    cases jump_table_file <;> rfl
  unfold initOptions
  rw [valuesOf_memory, valuesOf_jumpTable, hpools, hbig, htable]
  cases cfg.segments.mapM fun seg => (files seg.file).map fun f =>
    (⟨f, UInt64.ofNat seg.address⟩ : MemoryPool) <;> rfl

/-- **The pass gets the segments of the driver**, their files at their addresses, with the byte
order and the jump tables, when no path has a blank and the options are collected. -/
theorem initOptions_run_passes_pre {parse : List String → Option OptArgs}
    (hparse : CollectsOptions P.so_path parse) (h : Plain P cfg jump_table_file)
    (haddr : ∀ seg ∈ cfg.segments, seg.address < 2 ^ 63) :
    (parse (split (run_passes_pre P cfg jump_table_file)).tail).bind
      (initOptions files loadFromFile) =
      (cfg.segments.mapM fun seg => (files seg.file).map fun f =>
        ⟨f, UInt64.ofNat seg.address⟩).map fun pools => ⟨pools, cfg.endianness ≠ "little",
          if jump_table_file.getD "" ≠ "" then loadFromFile (jump_table_file.getD "") else []⟩ := by
  rw [parse_run_passes_pre hparse h, Option.bind_some, initOptions_optArgs P jump_table_file haddr]

end

/-! ## An option parser -/

/-- Collects the options one after the other. -/
def parseArgs : List String → Option OptArgs
  | [] => some ⟨[], [], []⟩
  | arg :: args =>
    if arg ∈ takesValue then
      match args with
      | [] => none
      | value :: args => (parseArgs args).map fun o => { o with values := (arg, value) :: o.values }
    else if arg.toList.head? = some '-' then
      (parseArgs args).map fun o => { o with switches := arg :: o.switches }
    else (parseArgs args).map fun o => { o with positional := arg :: o.positional }

theorem parseArgs_words {args : List Arg} (hswitches : ∀ name ∈ args.filterMap Arg.switch?,
    name ∈ passesAndSwitches) (hvalues : ∀ p ∈ args.filterMap Arg.value?, p.1 ∈ takesValue)
    (hfiles : ∀ path ∈ args.filterMap Arg.file?, path.toList.head? ≠ some '-') :
    parseArgs (args.flatMap Arg.words) = some (OptArgs.ofArgs args) := by
  induction args with
  | nil => rfl
  | cons arg args ih =>
    cases arg with
    | switch name =>
      obtain ⟨hname, hswitches⟩ := List.forall_mem_cons.mp
        (show ∀ n ∈ name :: args.filterMap Arg.switch?, n ∈ passesAndSwitches from hswitches)
      have hpass : ∀ name ∈ passesAndSwitches, name ∉ takesValue ∧
        name.toList.head? = some '-' := by decide
      obtain ⟨hno, hdash⟩ := hpass name hname
      show parseArgs (name :: args.flatMap Arg.words) = _
      rw [parseArgs.eq_def (name :: _)]
      simp only [if_neg hno, if_pos hdash]
      rw [ih hswitches hvalues hfiles]
      rfl
    | value name val =>
      obtain ⟨hname, hvalues⟩ := List.forall_mem_cons.mp
        (show ∀ p ∈ (name, val) :: args.filterMap Arg.value?, p.1 ∈ takesValue from hvalues)
      show parseArgs (name :: val :: args.flatMap Arg.words) = _
      rw [parseArgs, if_pos hname, ih hswitches hvalues hfiles]
      rfl
    | file path =>
      obtain ⟨hpath, hfiles⟩ := List.forall_mem_cons.mp
        (show ∀ f ∈ path :: args.filterMap Arg.file?, f.toList.head? ≠ some '-' from hfiles)
      have hdash : ∀ name ∈ takesValue, name.toList.head? = some '-' := by decide
      show parseArgs (path :: args.flatMap Arg.words) = _
      rw [parseArgs.eq_def (path :: _)]
      simp only [if_neg (fun hin => hpath (hdash path hin)), if_neg hpath]
      rw [ih hswitches hvalues hfiles]
      rfl

theorem collectsOptions_parseArgs (so_path : String) : CollectsOptions so_path parseArgs where
  collects args h := by
    rw [parseArgs, if_pos (by decide), parseArgs_words h.switches h.values h.files]
    rfl

/-- A path with an `@`, and a jump table. -/
def atPaths : Paths := ⟨"/b/opt", "/b/translator.so", "/t/raw.bc", "/t/funcs-0.bc",
    "/t/remaining-0.bc"⟩

def atConfig : PassesConfig := ⟨[⟨"/t@home/seg-0.bin", 4096, 0x8000, "seg-0.bin"⟩], "big"⟩

theorem initOptions_atConfig :
    (parseArgs (split (run_passes_pre atPaths atConfig (some "/t/tables.json"))).tail).bind
        (initOptions (fun path => if path = "/t@home/seg-0.bin" then some [1, 2] else none) fun _ =>
          []) =
      some ⟨[⟨[1, 2], 0x8000⟩], true, []⟩ := by
  have hplain : Plain atPaths atConfig (some "/t/tables.json") := by
    refine ⟨by decide, by decide, ?_, by decide⟩
    rintro file ⟨⟩
    decide
  exact (initOptions_run_passes_pre (collectsOptions_parseArgs _) hplain (by decide)).trans rfl

end Bin2llvm.Driver
