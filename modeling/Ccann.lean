import Ccann.Cache.PageWrites
import Ccann.Cache.References
import Ccann.Dax.Growth
import Ccann.Disk.RoundTrip
import Ccann.Dynamic.Degree
import Ccann.Dynamic.Tombstones
import Ccann.Index.InterInsert
import Ccann.Index.Search
import Ccann.Insert.Coalesce
import Ccann.Journal.WriteAhead
import Ccann.Layout.AllocCompact
import Ccann.Locks.Sparse
import Ccann.Locks.ThreadPool
import Ccann.Locks.VecOwnership
import Ccann.Merge.Incremental
import Ccann.Merge.Medoid
import Ccann.Persist.FlushLines
import Ccann.Pq.Codes
import Ccann.Pq.Sample
import Ccann.Recovery.Reopen
import Ccann.Search.CoordMap
import Ccann.Search.EarlyExit
import Ccann.Search.PageExact
import Ccann.Search.RobustPrune
import Ccann.Soft.BeamCache
import Ccann.Soft.Lag
