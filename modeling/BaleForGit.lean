import BaleForGit.Library.Machine
import BaleForGit.Library.FoldUntil
import BaleForGit.Library.Dag
import BaleForGit.Library.Table
import BaleForGit.Library.Texts
import BaleForGit.Library.RowOrder
import BaleForGit.Library.Results
import BaleForGit.Library.Locks
import BaleForGit.Library.Traced
import BaleForGit.Library.Hex
import BaleForGit.Library.Utf8
import BaleForGit.Library.StopFlag
import BaleForGit.Library.Tiling
import BaleForGit.Pointer
import BaleForGit.Git.Repository
import BaleForGit.Git.Reachable
import BaleForGit.Client.CleanCache
import BaleForGit.Client.CleanChunks
import BaleForGit.Client.CleanVerify
import BaleForGit.Client.CleanEntries
import BaleForGit.Client.PointerTests
import BaleForGit.Client.Store
import BaleForGit.Client.Gc
import BaleForGit.Client.GcSafety
import BaleForGit.Client.Filter
import BaleForGit.Client.PktLine
import BaleForGit.Client.FilterProcess
import BaleForGit.Client.FilterRequests
import BaleForGit.Client.PktGrammar
import BaleForGit.Client.Spill
import BaleForGit.Client.FilterSync
import BaleForGit.Client.FilterResponses
import BaleForGit.Client.Drain
import BaleForGit.Client.DrainSafety
import BaleForGit.Client.Smudge
import BaleForGit.Client.BaleLru
import BaleForGit.Client.PushRefs
import BaleForGit.Client.Site
import BaleForGit.Client.CleanHits
import BaleForGit.Client.Fleet
import BaleForGit.Client.Prune
import BaleForGit.Client.PruneSafety
import BaleForGit.Client.PruneSwap
import BaleForGit.Client.Race
import BaleForGit.Client.RaceSafety
import BaleForGit.Client.Mount
import BaleForGit.Client.MountView
import BaleForGit.Client.MountDiff
import BaleForGit.Client.DiffVfs
import BaleForGit.Client.MountRead
import BaleForGit.Client.Remote
import BaleForGit.Server.Types
import BaleForGit.Server.Xorb
import BaleForGit.Server.Metadata
import BaleForGit.Server.Registration
import BaleForGit.Server.TermTx
import BaleForGit.Server.WriteOnce
import BaleForGit.Server.UploadXorb
import BaleForGit.Server.Layout
import BaleForGit.Server.Shard
import BaleForGit.Server.ShardCodec
import BaleForGit.Server.ShardSafety
import BaleForGit.Server.Slices
import BaleForGit.Server.UploadShard
import BaleForGit.Server.Readable
import BaleForGit.Server.Requests
import BaleForGit.Server.Accounting
import BaleForGit.Server.Quota
import BaleForGit.Server.Headers
import BaleForGit.Server.QuotaAdmin
import BaleForGit.Server.Frames
import BaleForGit.Server.Sequential
import BaleForGit.Server.DiskBytes
import BaleForGit.Server.ShardOps
import BaleForGit.Server.FailedShard
import BaleForGit.Server.Reconstruct
import BaleForGit.Server.Content
import BaleForGit.Server.Reads
import BaleForGit.Server.Integrity
import BaleForGit.Server.Servable
import BaleForGit.Server.CrossRepo
import BaleForGit.Server.Independence
import BaleForGit.Server.Repeat
import BaleForGit.Server.Dedup
import BaleForGit.Server.Backends
import BaleForGit.Server.BackendsAgree
import BaleForGit.Server.Usage
import BaleForGit.Server.Repair
import BaleForGit.Server.Deadlock
import BaleForGit.Server.Statements
import BaleForGit.Server.Wire
import BaleForGit.Server.Transfer
import BaleForGit.Library.Fields
import BaleForGit.Library.Groups
import BaleForGit.Library.Maps
import BaleForGit.Server.Authz
import BaleForGit.Server.Http
import BaleForGit.Server.HttpAuthority
import BaleForGit.Server.UsageTotals
import BaleForGit.Library.Disk
import BaleForGit.Library.Replies
import BaleForGit.Server.BlobStores
import BaleForGit.Server.BlobStoresAgree
import BaleForGit.Client.MountFuse
import BaleForGit.Client.MountFuseSafety
import BaleForGit.Client.Resolver
import BaleForGit.Client.ResolverSafety
import BaleForGit.Server.Lasting
import BaleForGit.Server.SerialOrder
import BaleForGit.Client.HotFiles
import BaleForGit.Client.Handshake
