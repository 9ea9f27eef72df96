import Mambo.IntervalRuns
import Mambo.DjitRaces
import Mambo.RvTrampolineRuns
import Mambo.XtraceInterleaving
import Mambo.XtraceTruncation
import Mambo.CacheRuns
import Mambo.RvTraceLinks
import Mambo.FragmentRuns
import Mambo.A64DeadEnds
import Mambo.A64PositionDependent
import Mambo.RvBlockSpace
import Mambo.TraceEncodings
import Mambo.RvTriBiRuns
import Mambo.ThreadRegistryRuns
import Mambo.PendingSignals
import Mambo.A64SignalExits
import Mambo.SignalHandlers
import Mambo.A64Unlink
import Mambo.CodeMappings
import Mambo.T32TableBranchRuns
import Mambo.RvHelpers
import Mambo.RvTraceLimits
import Mambo.FunctionWatch
import Mambo.MemcheckRuns
import Mambo.ElfStackRuns
import Mambo.ScratchRegRuns
import Mambo.FunctionCallbackRuns
import Mambo.CloneCalls
import Mambo.RvvSize
import Mambo.RvAddSubRuns
import Mambo.AddSubImm
import Mambo.BranchTargets
import Mambo.RvAccessAddr
import Mambo.XtraceOperandValues
import Mambo.SafeFcallExact
import Mambo.A64AccessAddr
import Mambo.ArmImmediates
import Mambo.MemcheckMark
import Mambo.Backtrace
import Mambo.T32Branches
import Mambo.MemcheckTestArm
import Mambo.SoftDivTargets
import Mambo.ElfLoadExact
import Mambo.AArch32Prepass
import Mambo.BranchDecoderExact
import Mambo.AccessSizeExact
import Mambo.RegListHelpers
import Mambo.NaiveStdlibExact
import Mambo.HotspotExact
import Mambo.CachesimFetchExact
import Mambo.ArmAccessExact
