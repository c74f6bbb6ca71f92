import Cxlbuf.Lib.Memory
import Cxlbuf.Lib.UndoLog
import Cxlbuf.Lib.Persist
import Cxlbuf.Machine
import Cxlbuf.Log
import Cxlbuf.Log.Flush
import Cxlbuf.Process
import Cxlbuf.Recovery
import Cxlbuf.Recovery.Lines
import Cxlbuf.Recovery.Undo
import Cxlbuf.Snapshot
import Cxlbuf.Snapshot.Spec
import Cxlbuf.Snapshot.Commit
import Cxlbuf.Lib.Run
import Cxlbuf.Snapshot.Runs
import Cxlbuf.Machine.Lower
import Cxlbuf.Crash
import Cxlbuf.Threads
import Cxlbuf.Sessions
import Cxlbuf.Recovery.Codec
import Cxlbuf.Recovery.Files
import Cxlbuf.Snapshot.Exact
import Cxlbuf.Instrument
import Cxlbuf.Pass
import Cxlbuf.Recovery.Open
import Cxlbuf.Cxlfs.Blkdev
import Cxlbuf.Cxlfs.Controller
import Cxlbuf.Lib.WriteBack
import Cxlbuf.Cxlfs.Accounting
import Cxlbuf.Cxlfs.Transparent
import Cxlbuf.Cxlfs.Hazard
import Cxlbuf.Lib.PosixPath
import Cxlbuf.Recovery.Paths
import Cxlbuf.Lib.Table
import Cxlbuf.Mmap
import Cxlbuf.Mmap.Registry
import Cxlbuf.Instrument.Libc
import Cxlbuf.Instrument.Limits
import Cxlbuf.Snapshot.First
import Cxlbuf.Cxlfs.Io
import Cxlbuf.Cxlfs.Samples
import Cxlbuf.Cxlfs.Files
import Cxlbuf.Container.Vector
import Cxlbuf.Container.String
import Cxlbuf.Lib.Tiling
import Cxlbuf.Log.Bookkeeping
import Cxlbuf.Cxlfs.Reap
import Cxlbuf.Recovery.Walkers
import Cxlbuf.Btree
import Cxlbuf.Btree.Nodes
import Cxlbuf.Lib.ByKey
import Cxlbuf.Btree.Trees
import Cxlbuf.Btree.Insert
import Cxlbuf.Btree.Search
import Cxlbuf.Btree.Siblings
import Cxlbuf.Btree.Remove
import Cxlbuf.Btree.Runs
import Cxlbuf.Recovery.Restart
import Cxlbuf.Lib.Stutter
import Cxlbuf.Pass.Meaning
import Cxlbuf.Pmdk
import Cxlbuf.Hoh
import Cxlbuf.Cxlfs.AnyOrder
