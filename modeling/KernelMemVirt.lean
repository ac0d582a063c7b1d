import KernelMemVirt.Lib.ByteMem
import KernelMemVirt.Lib.BitField
import KernelMemVirt.Lib.Stack
import KernelMemVirt.Lib.Transition
import KernelMemVirt.Lib.FreeList
import KernelMemVirt.Lib.RecordWalk
import KernelMemVirt.Lib.PagedSpace
import KernelMemVirt.Lib.Ring
import KernelMemVirt.Lib.Chain
import KernelMemVirt.Lib.Terminal
import KernelMemVirt.Lib.Arena
import KernelMemVirt.Lib.Bitset
import KernelMemVirt.Lib.OwnerTree
import KernelMemVirt.Lib.ActionLog
import KernelMemVirt.Context
import KernelMemVirt.Rackdoll.Scheduler
import KernelMemVirt.Rackdoll.Rounds
import KernelMemVirt.Rackdoll.Pool
import KernelMemVirt.Rackdoll.PageTable
import KernelMemVirt.Rackdoll.Tables
import KernelMemVirt.Rackdoll.Leaves
import KernelMemVirt.Rackdoll.Walk
import KernelMemVirt.Rackdoll.MapPage
import KernelMemVirt.Rackdoll.Load
import KernelMemVirt.Rackdoll.Syscall
import KernelMemVirt.Rackdoll.Ownership
import KernelMemVirt.Rackdoll.KernelRange
import KernelMemVirt.Rackdoll.UsedPages
import KernelMemVirt.Rackdoll.Unmap
import KernelMemVirt.Rackdoll.LoadTask
import KernelMemVirt.Rackdoll.Multiboot
import KernelMemVirt.Rackdoll.Fork
import KernelMemVirt.Rackdoll.HeapPages
import KernelMemVirt.Rackdoll.Vga
import KernelMemVirt.Rackdoll.Printk
import KernelMemVirt.Rackdoll.NumberText
import KernelMemVirt.Rackdoll.FormatEnd
import KernelMemVirt.Gc.Alloc
import KernelMemVirt.Gc.Size
import KernelMemVirt.Gc.Heap
import KernelMemVirt.Gc.PageDesc
import KernelMemVirt.Gc.Resolve
import KernelMemVirt.Gc.ZoneTable
import KernelMemVirt.Gc.Uniform
import KernelMemVirt.Gc.Interior
import KernelMemVirt.Gc.Client
import KernelMemVirt.Gc.Statistics
import KernelMemVirt.Gc.FreeFrame
import KernelMemVirt.Gc.ScanWord
import KernelMemVirt.Gc.Threads
import KernelMemVirt.Gc.HashMap
import KernelMemVirt.Gc.Rehash
import KernelMemVirt.Gc.StringBuf
import KernelMemVirt.Gc.Mutator
import KernelMemVirt.Gc.MapMemory
import KernelMemVirt.Gc.MapProgram
import KernelMemVirt.Gc.Compute
import KernelMemVirt.Janus.State
import KernelMemVirt.Janus.LongMode
import KernelMemVirt.Janus.Intercept
import KernelMemVirt.Janus.Registers
import KernelMemVirt.Janus.Moves
import KernelMemVirt.Janus.Fault
import KernelMemVirt.Janus.Interrupt
import KernelMemVirt.Janus.Backend
import KernelMemVirt.Janus.GuestMemory
import KernelMemVirt.Janus.GuestTree
import KernelMemVirt.Janus.GuestMap
import KernelMemVirt.Janus.Duplicate
import KernelMemVirt.Janus.Exhaustion
import KernelMemVirt.Janus.Controls
import KernelMemVirt.Lib.AccessLog
import KernelMemVirt.Janus.Segments
import KernelMemVirt.Janus.Gates
import KernelMemVirt.Lib.CoalescingQueue
import KernelMemVirt.Janus.Pending
import KernelMemVirt.Janus.PhysicalAccess
import KernelMemVirt.Janus.HostMaps
import KernelMemVirt.Janus.LowMemory
import KernelMemVirt.Janus.Multiboot2
import KernelMemVirt.Janus.LoadImage
import KernelMemVirt.Janus.Vector
import KernelMemVirt.Lib.Sieve
import KernelMemVirt.Rackdoll.Sieve
import KernelMemVirt.Rackdoll.ScreenAccess
import KernelMemVirt.Lib.AddressSpace
import KernelMemVirt.Rackdoll.UserView
import KernelMemVirt.Rackdoll.UserImage
import KernelMemVirt.Rackdoll.TaskOs
import KernelMemVirt.Lib.TranslationCache
import KernelMemVirt.Lib.StateLogic
import KernelMemVirt.Rackdoll.TaskTlb
import KernelMemVirt.Janus.GuestSpace
import KernelMemVirt.Janus.GuestProgram
import KernelMemVirt.Janus.GuestRun
