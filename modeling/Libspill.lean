import Libspill.Lib.Prog
import Libspill.Lib.Bytes
import Libspill.Lib.Span
import Libspill.Lib.Chained
import Libspill.Lib.Sched
import Libspill.Lib.Crc
import Libspill.Os
import Libspill.Store
import Libspill.RawIo
import Libspill.Alloc
import Libspill.Tier
import Libspill.Data
import Libspill.Open
import Libspill.Calls
import Libspill.Ref
import Libspill.View
import Libspill.Transfer
import Libspill.Direct
import Libspill.FileIo
import Libspill.Tiles
import Libspill.Layout
import Libspill.Capacity
import Libspill.Spill
import Libspill.Critical
import Libspill.Abs
import Libspill.Enter
import Libspill.Pending
import Libspill.Sequential
import Libspill.Threads
import Libspill.Exact
import Libspill.Steady
import Libspill.Track
import Libspill.Distinct
import Libspill.Disjoint
import Libspill.Append
import Libspill.Toc
import Libspill.Rebuild
import Libspill.Cursor
import Libspill.Fence
import Libspill.Pieces
import Libspill.Reopen
import Libspill.Close
import Libspill.Session
import Libspill.Held
import Libspill.Vectored
import Libspill.Accumulate
import Libspill.Reach
import Libspill.Lib.Gaps
import Libspill.Canonical
import Libspill.Elements
import Libspill.Churn
import Libspill.Mapping
import Libspill.Growth
import Libspill.Mapped
import Libspill.Checksum
import Libspill.Writers
import Libspill.Processes
import Libspill.Shared
import Libspill.Blocks
import Libspill.Sizes
import Libspill.Lib.Words
import Libspill.Crayio
import Libspill.Hdf5
import Libspill.Backends
import Libspill.Usable
import Libspill.Short
import Libspill.Lib.Linked
import Libspill.Pool
import Libspill.PoolInv
import Libspill.PoolRun
import Libspill.Drain
import Libspill.Table
import Libspill.Lib.Recency
import Libspill.Lru
import Libspill.LruStore
import Libspill.Residency
import Libspill.Enlist
import Libspill.Budget
import Libspill.Lib.Ends
import Libspill.Async
import Libspill.Serial
import Libspill.Liveness
import Libspill.Handles
import Libspill.Options
import Libspill.Directory
