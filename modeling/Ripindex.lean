import Ripindex.Lib.Guarantee
import Ripindex.Lib.Schedule
import Ripindex.Store.Update
import Ripindex.Store.Merge
import Ripindex.Store.Build
import Ripindex.Store.Tombstone
import Ripindex.Store.Amend
import Ripindex.Store.Splice
import Ripindex.Store.Faults
import Ripindex.Store.Interleave
import Ripindex.Store.Opening
import Ripindex.Store.Live
import Ripindex.Store.Counts
import Ripindex.Store.Patches
import Ripindex.Query.Segmentation
import Ripindex.Daemon.Registry
import Ripindex.Format.Cursor
import Ripindex.Store.Limits
import Ripindex.Format.IdxView
import Ripindex.Format.IdxRoundTrip
import Ripindex.Format.IdxFaithful
import Ripindex.Format.ManifestCodec
import Ripindex.Daemon.Connection
import Ripindex.Daemon.ActorLive
import Ripindex.Daemon.Answers
import Ripindex.Store.Watcher
import Ripindex.Format.VerifySound
import Ripindex.Format.DocCodec
import Ripindex.Format.OverlayCodec
import Ripindex.Format.Readers
import Ripindex.Lib.Text
import Ripindex.Index.Documents
import Ripindex.Query.Positive
import Ripindex.Query.TopK
import Ripindex.Store.MergePlan
import Ripindex.Daemon.Paging
import Ripindex.Format.DelCodec
import Ripindex.Store.Converge
import Ripindex.Store.Success
import Ripindex.Store.Sharding
import Ripindex.Format.VarintWords
import Ripindex.Store.WatcherCalls
import Ripindex.Store.Governor
import Ripindex.Snippet
import Ripindex.Store.MergeAbort
import Ripindex.Store.Links
import Ripindex.Store.MergeDocs
import Ripindex.Store.Headroom
import Ripindex.Store.Contents
import Ripindex.Query.Found
import Ripindex.Store.Serial
import Ripindex.Query.Shared
import Ripindex.Lib.Disk
import Ripindex.Store.SyncOrder
import Ripindex.Store.PowerLoss
import Ripindex.Store.Durability
