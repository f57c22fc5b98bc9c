
import Xv6.Bio.System
import Xv6.Bio.Coherence
import Xv6.Bio.Refinement
import Xv6.Library.Simulation
import Xv6.Shell.Parser
import Xv6.Shell.Tokens
import Xv6.Shell.Descent
import Xv6.Shell.Grammar
import Xv6.Shell.Acceptance
import Xv6.Library.Tiling
import Xv6.Library.Ownership
import Xv6.Fs.Contents
import Xv6.Library.CircularList
import Xv6.Umalloc.Heap
import Xv6.Umalloc.FreeList
import Xv6.Umalloc.Allocation
import Xv6.Umalloc.Calls
import Xv6.Console.Input
import Xv6.Console.LineDiscipline
import Xv6.Fs.Bookkeeping
import Xv6.Ide.Disk
import Xv6.Ide.Requests
import Xv6.Kernel.AddressSpace
import Xv6.Kernel.CallEffects
import Xv6.Kernel.Fork
import Xv6.Kernel.ForkContents
import Xv6.Library.Mutex
import Xv6.Library.Reservation
import Xv6.Library.Tokens
import Xv6.Log.Control
import Xv6.Log.CrashSafety
import Xv6.Log.Durability
import Xv6.Log.GroupCommit
import Xv6.Log.LogSpace
import Xv6.Pipes.Alert
import Xv6.Pipes.Wakeups
import Xv6.Ptable.Changes
import Xv6.Ptable.Cpus
import Xv6.Ptable.Families
import Xv6.Ptable.Kill
import Xv6.Ptable.Pages
import Xv6.Ptable.Reaping
import Xv6.Sleep.Attention
import Xv6.Sleep.Signals
import Xv6.Sleep.Sleeplock
import Xv6.Sleep.Spinlock
import Xv6.Kernel.PoolUse
import Xv6.Kernel.FreePages
import Xv6.Kernel.FirstFit
import Xv6.Kernel.Window
import Xv6.Kernel.FaultResolution
import Xv6.Kernel.FilePages
import Xv6.Kernel.Release
import Xv6.Kernel.DescriptorUse
import Xv6.Wmap.FiniteMap
import Xv6.Library.Inventory
import Xv6.Vm.Directory
import Xv6.Vm.Deallocation
import Xv6.Vm.Copy
import Xv6.Vm.Growth
import Xv6.Vm.Copyout
import Xv6.Vm.Arguments
import Xv6.Fs.ReadBack
import Xv6.Fs.TransactionSize
import Xv6.Strings.Memmove
import Xv6.Grep.Lines
import Xv6.Shell.Termination
import Xv6.Vm.PageInfo
import Xv6.Fs.SharedWriters
import Xv6.Syscall.FileName
import Xv6.Fs.DirectoryMap
import Xv6.Fs.PathResolution
import Xv6.Umalloc.Requests
import Xv6.Kernel.Chains
import Xv6.Bio.BufferList
import Xv6.Vm.PageWords
import Xv6.Fs.Bitmap
