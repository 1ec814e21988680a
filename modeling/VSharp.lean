import VSharp.Core.ArrayWrites
import VSharp.Core.ChildTables
import VSharp.Core.Concreteness
import VSharp.Core.GenericLayers
import VSharp.Core.MemoryCopy
import VSharp.Core.NoOverflow
import VSharp.Core.PathTree
import VSharp.Core.RealCasts
import VSharp.Core.ReferenceEquality
import VSharp.Core.Stacks
import VSharp.Core.StructPadding
import VSharp.Core.Substitution
import VSharp.Core.TypeAtoms
import VSharp.Core.TypeContradictions
import VSharp.Core.TypeMocks
import VSharp.Core.TypeModels
import VSharp.Core.UnsafeArrays
import VSharp.Core.UpdateTimes
import VSharp.CoverageInstrumenter.Balance
import VSharp.CoverageInstrumenter.Resolution
import VSharp.CoverageInstrumenter.Rounds
import VSharp.CoverageInstrumenter.Transparency
import VSharp.Explorer.Coverage
import VSharp.Explorer.Exploration
import VSharp.Explorer.FairSearcher
import VSharp.Explorer.TargetedStates
import VSharp.Fuzzer.SiliStatistic
import VSharp.Fuzzer.Tallies
import VSharp.IL.AnalysisCache
import VSharp.IL.Import
import VSharp.SILI.ConvOvf
import VSharp.SILI.ElementAccess
import VSharp.SILI.Leave
import VSharp.Solver.Assumptions
import VSharp.Solver.Combine
import VSharp.Solver.SliceWindows
import VSharp.TestGenerator.CompactArrays
import VSharp.TestGenerator.Identity
import VSharp.Utils.Decoding
import VSharp.Utils.DiscretePDFBalance
import VSharp.Utils.DiscretePDFHashes
import VSharp.Utils.FreeRegionRuns
import VSharp.Utils.GraphUtils
import VSharp.Utils.RegionFilter
import VSharp.Utils.StringRepr
import VSharp.Utils.SubLists
