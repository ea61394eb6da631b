import DssPrime.Hir.BitIntFold
import DssPrime.Link.AtomAliases
import DssPrime.Link.AtomCoverage
import DssPrime.Link.DuplicatePromise
import DssPrime.Link.EhFrameInside
import DssPrime.Link.ExecRelocSound
import DssPrime.Link.InjectSound
import DssPrime.Link.StaticInit
import DssPrime.Lir.AllocationAudit
import DssPrime.Lir.AntiAffinityExact
import DssPrime.Lir.FrameLayoutSound
import DssPrime.Lir.LivenessSound
import DssPrime.Lir.ParallelMovesSound
import DssPrime.Lir.PhiEdges
import DssPrime.Lsp.Framing
import DssPrime.Lsp.Utf16Column
import DssPrime.Mir.Frontier
import DssPrime.Mir.LazyImportDepth
import DssPrime.Mir.NaturalLoops
import DssPrime.Mir.PostDomExact
import DssPrime.Mir.SummaryLiveness
import DssPrime.Mir.SummaryWireSound
import DssPrime.Opt.CallGraphScc
import DssPrime.Opt.ClobberRegion
import DssPrime.Opt.ConstFoldMeaning
import DssPrime.Opt.CopyPropSound
import DssPrime.Opt.EscapeSound
import DssPrime.Opt.Schedule
import DssPrime.Opt.SimplifyCfgCycles
import DssPrime.Parse.LineMap
import DssPrime.Parse.ReporterAccounts
import DssPrime.Parse.TreeRead
import DssPrime.Program.DependencyOrder
import DssPrime.Program.GlobMatch
import DssPrime.Program.WindowsCommandLine
import DssPrime.Types.ComputeLayout
import DssPrime.Types.ContentKey
import DssPrime.Types.FloatDecode
import DssPrime.Types.HalfNarrow
import DssPrime.Types.IntegerLiteral
import DssPrime.Types.RepresentationSound
import DssPrime.Types.WideFloatConvert
import DssPrime.Types.WideStringEncode
