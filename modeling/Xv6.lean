import Xv6.Param
import Xv6.Lib.Table
import Xv6.Lib.Wp
import Xv6.Lib.Ring
import Xv6.Lib.Dlist
import Xv6.Lib.Cycle
import Xv6.Lib.Slots
import Xv6.Lib.Mem
import Xv6.Lib.Parts
import Xv6.Ipc.Pipe
import Xv6.Ipc.Waiters
import Xv6.Dev.Console
import Xv6.Dev.Uart
import Xv6.Process.State
import Xv6.Process.Calls
import Xv6.Process.Sched
import Xv6.Process.Locks
import Xv6.Process.Effect
import Xv6.Process.Inv
import Xv6.Process.Exec
import Xv6.Process.Machine
import Xv6.Process.LockOrder
import Xv6.Process.Sleep
import Xv6.Process.Wakeup
import Xv6.Process.Family
import Xv6.Process.Exits
import Xv6.Process.Interrupts
import Xv6.Process.Nesting
import Xv6.Process.Harts
import Xv6.Disk.Block
import Xv6.Disk.Nemu
import Xv6.Disk.Virtio
import Xv6.Disk.VirtioStatus
import Xv6.Disk.VirtioChains
import Xv6.Log.Commit
import Xv6.Log.Crash
import Xv6.Log.Reserve
import Xv6.Log.Group
import Xv6.Bio.Cache
import Xv6.Bio.Coherent
import Xv6.Bio.Commit
import Xv6.Fs.State
import Xv6.Fs.Inode
import Xv6.Fs.Dir
import Xv6.Fs.Syscall
import Xv6.Fs.Format
import Xv6.Fs.Logs
import Xv6.Fs.Owner
import Xv6.Fs.Alloc
import Xv6.Fs.Core
import Xv6.Fs.Content
import Xv6.Fs.Trunc
import Xv6.Fs.Writei
import Xv6.Fs.Readi
import Xv6.Fs.Table
import Xv6.Fs.Shared
import Xv6.Fs.Slot
import Xv6.Fs.Held
import Xv6.Fs.Walk
import Xv6.Fs.Enter
import Xv6.Fs.Between
import Xv6.Fs.Create
import Xv6.Fs.Namespace
import Xv6.Fs.Tree
import Xv6.Fs.Open
import Xv6.Fs.DirMap
import Xv6.Fs.FreeMap
import Xv6.Fs.Iput
import Xv6.Fs.IputLocks
import Xv6.Fs.IputSafe
import Xv6.Ipc.Files
import Xv6.Ipc.Ends
import Xv6.Ipc.Lifetime
import Xv6.Ipc.Replay
import Xv6.Vm.Machine
import Xv6.Vm.Heap
import Xv6.Vm.Sv32
import Xv6.Vm.Map
import Xv6.Vm.Grow
import Xv6.Vm.Refine
import Xv6.Vm.Copy
import Xv6.Vm.Space
import Xv6.Vm.Fork
import Xv6.Vm.Free
import Xv6.Vm.Exec
import Xv6.Vm.Load
import Xv6.Vm.Args
import Xv6.Vm.Program
import Xv6.Vm.Protect
import Xv6.Vm.Calls
import Xv6.Vm.System
import Xv6.Vm.Owners
import Xv6.Vm.Roles
import Xv6.User.Sh
import Xv6.User.ShGrammar
import Xv6.User.ShBuf
import Xv6.User.Grep
import Xv6.User.GrepMatch
import Xv6.User.GrepLines
import Xv6.User.Umalloc
import Xv6.User.FreeList
import Xv6.User.Malloc
import Xv6.User.Sbrk
