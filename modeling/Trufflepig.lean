import Trufflepig.Store.RegionPartition
import Trufflepig.Store.PublishJournal
import Trufflepig.Store.ScanFingerprint
import Trufflepig.Store.ExtractionCache
import Trufflepig.Store.ModuleResolver
import Trufflepig.History.SourceDiffSpec
import Trufflepig.History.ComparisonSpec
import Trufflepig.History.TraversalRun
import Trufflepig.Resolver.OrderedChainsSpec
import Trufflepig.Resolver.ParentLookupSpec
import Trufflepig.Resolver.ChainRuns
import Trufflepig.Semantic.SchedulerRuns
import Trufflepig.Semantic.Fairness
import Trufflepig.Semantic.DispatchOrder
import Trufflepig.Extract.PhpNames
import Trufflepig.Search.EvidenceTiers
import Trufflepig.Search.ReferenceSites
import Trufflepig.Extract.BindingIndex
import Trufflepig.Extract.PhpMarkers
import Trufflepig.Search.FilterValues
import Trufflepig.Search.SingleFile
import Trufflepig.Results.PageBudget
import Trufflepig.Search.ExactFusion
import Trufflepig.Semantic.EmbeddingCache
import Trufflepig.Semantic.BatchLimits
import Trufflepig.Source.LineSpans
import Trufflepig.Search.RerankOrder
import Trufflepig.Search.CrateRoots
import Trufflepig.Search.LiveWalk
import Trufflepig.Search.EditDistance
import Trufflepig.Search.StructureMap
import Trufflepig.Diagnostics.SessionChanges
import Trufflepig.History.BlameRecords
import Trufflepig.Workspace.MemberSearch
import Trufflepig.Daemon.RequestPool
