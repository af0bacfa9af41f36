import Cs537.Fs.Calls
import Cs537.Fs.Codec
import Cs537.Fs.Crash
import Cs537.Fs.Data
import Cs537.Fs.Dots
import Cs537.Fs.Failures
import Cs537.Fs.Growth
import Cs537.Fs.Holes
import Cs537.Fs.Indexes
import Cs537.Fs.Lives
import Cs537.Fs.Log
import Cs537.Fs.Model
import Cs537.Fs.Names
import Cs537.Fs.Parent
import Cs537.Fs.Refine
import Cs537.Fs.Retry
import Cs537.Fs.Run
import Cs537.Fs.Size
import Cs537.Fs.Store
import Cs537.Fs.Tree
import Cs537.Fs.View
import Cs537.Fs.Wrap
import Cs537.Lib.Bytes
import Cs537.Lib.CInt
import Cs537.Lib.CString
import Cs537.Lib.Count
import Cs537.Lib.DList
import Cs537.Lib.File
import Cs537.Lib.Net
import Cs537.Lib.Pool
import Cs537.Lib.Ring
import Cs537.Lib.Span
import Cs537.Lib.StableSort
import Cs537.Lib.Tree
import Cs537.Mem.Alloc
import Cs537.Mem.DoubleFree
import Cs537.Mem.Free
import Cs537.Mem.FreeList
import Cs537.Mem.Mapping
import Cs537.Mem.Model
import Cs537.Mem.Run
import Cs537.Mem.Session
import Cs537.Mfs.Answers
import Cs537.Mfs.Disk
import Cs537.Mfs.Exchange
import Cs537.Mfs.Malformed
import Cs537.Mfs.Model
import Cs537.Mfs.Replies
import Cs537.Mfs.Restart
import Cs537.Mfs.Tags
import Cs537.Mfs.Wire
import Cs537.Shell.Bounds
import Cs537.Shell.Grammar
import Cs537.Shell.Jobs
import Cs537.Shell.Model
import Cs537.Shell.Modes
import Cs537.Shell.Parse
import Cs537.Shell.Window
import Cs537.Shell.Words
import Cs537.Sort.Loading
import Cs537.Sort.Model
import Cs537.Sort.Order
import Cs537.Web.Client
import Cs537.Web.Fifo
import Cs537.Web.Header
import Cs537.Web.Missing
import Cs537.Web.Model
import Cs537.Web.Policy
import Cs537.Web.Reply
import Cs537.Web.Sorted
import Cs537.Web.Threads
import Cs537.Xv6.Bio
import Cs537.Xv6.BioRun
import Cs537.Xv6.Blocks
import Cs537.Xv6.Bmap
import Cs537.Xv6.Coherence
import Cs537.Xv6.Contents
import Cs537.Xv6.Files
import Cs537.Xv6.FsRun
import Cs537.Xv6.Inode
import Cs537.Xv6.Itrunc
import Cs537.Xv6.Pipe
import Cs537.Xv6.PipeRun
import Cs537.Xv6.Proc
import Cs537.Xv6.ProcKin
import Cs537.Xv6.ProcPages
import Cs537.Xv6.ProcRun
import Cs537.Xv6.Writei
