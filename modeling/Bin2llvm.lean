import Bin2llvm.Lib.HexText
import Bin2llvm.Lib.CxxInt
import Bin2llvm.Lib.Lists
import Bin2llvm.Lib.OptionMapM
import Bin2llvm.Lib.Worklist
import Bin2llvm.Lib.Terms
import Bin2llvm.Lib.Expansion
import Bin2llvm.Lib.DepthFirst
import Bin2llvm.IR
import Bin2llvm.Metadata
import Bin2llvm.Coverage
import Bin2llvm.VisitedIntervals
import Bin2llvm.BuildFunctions.Explore
import Bin2llvm.BuildFunctions.Fixups
import Bin2llvm.BuildFunctions.SwitchedValue
import Bin2llvm.BuildFunctions.Dispatch
import Bin2llvm.BuildFunctions.Simulation
import Bin2llvm.BuildFunctions.Cleanup
import Bin2llvm.BuildFunctions.PerBlock
import Bin2llvm.BuildFunctions.Pipeline
import Bin2llvm.BuildFunctions.Tagged
import Bin2llvm.BuildFunctions.Terminators
import Bin2llvm.BuildFunctions.Linking
import Bin2llvm.SolveIndirectSingle
import Bin2llvm.ARMMark
import Bin2llvm.MarkFuncEntry
import Bin2llvm.BuildFunctions.EntryStart
import Bin2llvm.Linker
import Bin2llvm.EntryPoints
import Bin2llvm.Driver.ThumbBits
import Bin2llvm.Semantics
import Bin2llvm.LoadAliasReplace
import Bin2llvm.ElfParser
import Bin2llvm.FoldedLoads
import Bin2llvm.MemOps
import Bin2llvm.Driver.EntryQueue
import Bin2llvm.ARMDumpThumbBit
import Bin2llvm.LinkedModule
import Bin2llvm.LinkedEntries
import Bin2llvm.DeadBlocks
import Bin2llvm.FixOverlappedBBs
import Bin2llvm.RecursiveDescentDisassembler
import Bin2llvm.RemoveExtraStoreToPC
import Bin2llvm.RunPassesPre
import Bin2llvm.S2ETransformPass
import Bin2llvm.EnvAccesses
import Bin2llvm.ThumbModes
import Bin2llvm.ExtractPossibleTargets
import Bin2llvm.ReplaceConstantLoads
import Bin2llvm.JumpTables
import Bin2llvm.Execution
import Bin2llvm.ErasedInstrs
import Bin2llvm.ConstantLoads
import Bin2llvm.Driver.Session
import Bin2llvm.Driver.CommandLine
import Bin2llvm.Driver.SegmentFiles
import Bin2llvm.BuildFunctions.Reachable
import Bin2llvm.CallReturns
import Bin2llvm.ScheduledPCs
import Bin2llvm.MemOpsAligned
import Bin2llvm.SplitLinks
import Bin2llvm.FunctionRename
import Bin2llvm.GlobalReferences
import Bin2llvm.S2EInlineHelpers
import Bin2llvm.ReplacedCalls
import Bin2llvm.ARMGetThumbBit
import Bin2llvm.PoolReads
import Bin2llvm.ErasingPasses
import Bin2llvm.BuildFunctions.Prepared
import Bin2llvm.BuildFunctions.LeavesOnce
import Bin2llvm.Calls
import Bin2llvm.LinkedRuns
import Bin2llvm.EnvExecutions
