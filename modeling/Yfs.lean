import Yfs.Base.Runs
import Yfs.Base.OrderedSet
import Yfs.Lock.Pool
import Yfs.Extent.Coherence
import Yfs.Rpc.EndToEnd
import Yfs.Base.Bytes
import Yfs.Base.Prog
import Yfs.Fs.Layout
import Yfs.Fs.Client
import Yfs.Fs.Volume
import Yfs.Base.Forest
import Yfs.Fs.Tree
import Yfs.Fs.Files
import Yfs.Fs.Dirs
import Yfs.Fs.Disk
import Yfs.Fs.Session
import Yfs.Fs.Locking
import Yfs.Fs.Listing
import Yfs.Extent.WriteBack
import Yfs.Extent.Server
import Yfs.Base.Procs
import Yfs.Fs.Clients
import Yfs.Fs.Alloc
import Yfs.Fs.Waiting
import Yfs.Fs.Regions
import Yfs.Fs.Keeping
import Yfs.Fs.Isolation
import Yfs.Base.Table
import Yfs.Rpc.Handle
import Yfs.Base.SortedMap
import Yfs.Base.Wire
import Yfs.Rpc.Marshall
import Yfs.Rpc.Stubs
import Yfs.Base.Cond
import Yfs.Rpc.ThrPool
import Yfs.Rpc.Dispatch
import Yfs.Rpc.Buffers
import Yfs.Base.PrefixFree
import Yfs.Rpc.Connection
import Yfs.Rpc.Poll
import Yfs.Rpc.Framing
import Yfs.Rpc.Callbacks
import Yfs.Extent.Failures
import Yfs.Fs.Content
import Yfs.Fs.Exhaustion
import Yfs.Fs.Links
import Yfs.Fs.LongNames
import Yfs.Fs.Missing
import Yfs.Fs.Unlinking
import Yfs.Lock.Failures
import Yfs.Rpc.Aio
import Yfs.Rpc.Deadline
import Yfs.Rpc.Growth
import Yfs.Rpc.Overrun
import Yfs.Rpc.Untrusted
import Yfs.Rpc.Window
import Yfs.Fuse.Refines
import Yfs.Lock.Usage
import Yfs.Stack.Machine
import Yfs.Stack.Refines
import Yfs.Stack.Requests
import Yfs.Fs.Turns
import Yfs.Stack.Serving
import Yfs.Base.Linear
import Yfs.Extent.Remote
