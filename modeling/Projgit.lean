import Projgit.Lib.Runs
import Projgit.Coalesce
import Projgit.SingleFlight
import Projgit.Caches
import Projgit.ObjectStore
import Projgit.Lib.Stateful
import Projgit.Universe
import Projgit.Fetcher
import Projgit.Hydration
import Projgit.Lib.SlashPath
import Projgit.Projection
import Projgit.FsProvider
import Projgit.ProjectionFs
import Projgit.MergedTree
import Projgit.Serving
import Projgit.LocalMount
import Projgit.Tables
import Projgit.MergedMount
import Projgit.ByteNames
import Projgit.FuseAdapter
import Projgit.RefProjection
import Projgit.BareReads
import Projgit.PartialClone
import Projgit.Lib.Interleave
import Projgit.GitCli
import Projgit.WarmTree
import Projgit.Residency
import Projgit.GitCliResidency
import Projgit.Daemon
import Projgit.DaemonFetch
import Projgit.RepeatedIds
import Projgit.BulkFetch
import Projgit.ChildLedger
import Projgit.ChildStep
import Projgit.PrefetchClaims
import Projgit.BatchExchange
import Projgit.Lib.HandOut
import Projgit.Lib.Ownership
import Projgit.BatchResults
import Projgit.Gvfs
import Projgit.Lib.Json
import Projgit.Protocol
import Projgit.Framing
import Projgit.SourceUrl
import Projgit.Registry
import Projgit.RegistryRuns
import Projgit.RegistryChange
import Projgit.RefusedMount
import Projgit.AnswerBound
import Projgit.Lib.Recency
import Projgit.LruCaches
import Projgit.BlobBudget
import Projgit.ErrorClasses
import Projgit.BatchLines
import Projgit.HeaderAttribution
import Projgit.ProbeDecoding
import Projgit.Lib.Descent
import Projgit.PathSemantics
import Projgit.SubtreeComposition
import Projgit.Lib.BreadthFirst
import Projgit.WarmClosure
import Projgit.AttrCoherence
import Projgit.InodeAllocation
import Projgit.CliSource
import Projgit.CloneNames
import Projgit.SharedClones
import Projgit.EquivalentSources
import Projgit.DotGit
import Projgit.NestedInsert
import Projgit.RefVisibility
import Projgit.AtomicDownload
import Projgit.Server
import Projgit.ServerOrder
import Projgit.PrefetchQueue
import Projgit.PrefetchRuns
import Projgit.PrefetchStats
import Projgit.MountOverlay
import Projgit.AttachClient
import Projgit.KernelView
import Projgit.ContentIntegrity
