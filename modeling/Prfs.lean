import Prfs.ByteOrder
import Prfs.OrdMap
import Prfs.OrdCursor
import Prfs.KeyCodec
import Prfs.NodeRec
import Prfs.Search
import Prfs.Store
import Prfs.StoreOps
import Prfs.StoreRead
import Prfs.StoreTables
import Prfs.Runs
import Prfs.View
import Prfs.StoreWrites
import Prfs.StoreBase
import Prfs.LinkVersions
import Prfs.FileSys
import Prfs.StoreReach
import Prfs.StoreLink
import Prfs.FileSysInv
import Prfs.StoreRefines
import Prfs.StoreEffNodes
import Prfs.ViewReads
import Prfs.StoreReads
import Prfs.StoreDiff
import Prfs.StoreRuns
import Prfs.SealedReads
import Prfs.FailedOps
import Prfs.DirAcyclic
import Prfs.PathDiffs
import Prfs.NodeDiffs
import Prfs.PagedScans
import Prfs.PagedListing
import Prfs.SortedScans
import Prfs.Reopen
import Prfs.LinkCounts
import Prfs.XdrReader
import Prfs.XdrSafety
import Prfs.Content
import Prfs.ContentSafety
import Prfs.ContentBytes
import Prfs.Dedup
import Prfs.XdrWriter
import Prfs.Host
import Prfs.FsStat
import Prfs.Nfs3Reply
import Prfs.Nfs3Read
import Prfs.CookieScans
import Prfs.Nfs3Write
import Prfs.Nfs3Call
import Prfs.Nfs3Garbage
import Prfs.StoreChanges
import Prfs.StoreSetters
import Prfs.Nfs3Snapshots
import Prfs.Nfs4Snapshots
import Prfs.SnapshotHandles
import Prfs.Nfs4State
import Prfs.Nfs4Effects
import Prfs.ShareReservations
import Prfs.ByteLocks
import Prfs.ClientLeases
import Prfs.ClientRegistry
import Prfs.ClientSuccession
import Prfs.StateIds
import Prfs.StateidChecks
import Prfs.LockRanges
import Prfs.WriteAccess
import Prfs.DirCookies
import Prfs.Nfs4Reply
import Prfs.Nfs4Read
import Prfs.Nfs4Write
import Prfs.Nfs4Compound
import Prfs.Nfs4Trace
import Prfs.Nfs4Cases
import Prfs.Nfs4Idle
import Prfs.Nfs4Run
import Prfs.OpInval
import Prfs.CompoundStatus
import Prfs.ExclusiveCreate
import Prfs.OpInert
import Prfs.CompoundInert
import Prfs.VersionLists
import Prfs.MemStore
import Prfs.MemRead
import Prfs.MemLinks
import Prfs.MemMirrors
import Prfs.MemReach
import Prfs.MemRefines
import Prfs.MemExec
import Prfs.MemReads
import Prfs.MemTotals
import Prfs.StoresAgree
import Prfs.SnapshotNames
import Prfs.DiffCoverage
import Prfs.LinkFrames
import Prfs.StatsLaw
import Prfs.GreedyPrefix
import Prfs.ListingPages
import Prfs.Nfs4Listing
import Prfs.ListingProgress
import Prfs.ReplySizes
import Prfs.Nfs3Ops
import Prfs.ListingNames
import Prfs.TreeRemoval
import Prfs.WriteSizes
import Prfs.SeedFold
import Prfs.XdrBytes
import Prfs.StoreStamps
import Prfs.XdrAhead
import Prfs.XdrTypes
import Prfs.ChangeIds
import Prfs.Nfs3Setattr
import Prfs.FieldWrites
import Prfs.Nfs4Setattr
import Prfs.Nfs4Attrs
import Prfs.ParentPaths
import Prfs.RoundUp
import Prfs.AllocatedBlocks
import Prfs.FsUsage
import Prfs.WordMix
import Prfs.Fileids
import Prfs.TableReads
import Prfs.XdrItems
import Prfs.StoredCodecs
import Prfs.Nfs4Ops
import Prfs.StoreGrowth
import Prfs.Server
import Prfs.Interleavings
import Prfs.OpenFiles
import Prfs.SerialCompounds
import Prfs.SealedViews
import Prfs.SealedRecords
import Prfs.SealedCompounds
import Prfs.RecordStream
import Prfs.Sessions
import Prfs.WireCalls
import Prfs.PathWalks
import Prfs.FileCopies
import Prfs.PastPaths
import Prfs.NameChanges
import Prfs.Lifetimes
import Prfs.Loader
import Prfs.LoaderLifetimes
import Prfs.TreeGrowth
import Prfs.BigTree
import Prfs.BigTreePaths
import Prfs.BigTreeBuilt
