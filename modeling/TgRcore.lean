import TgRcore.Lib.Bytes
import TgRcore.Lib.BlockProg
import TgRcore.Lib.Exec
import TgRcore.Lib.IdSet
import TgRcore.EasyFs.BitmapSet
import TgRcore.EasyFs.CachedRun
import TgRcore.EasyFs.Vfs
import TgRcore.EasyFs.IndexTree
import TgRcore.EasyFs.IndexRun
import TgRcore.EasyFs.Ownership
import TgRcore.EasyFs.Alloc
import TgRcore.EasyFs.IndexLaws
import TgRcore.EasyFs.Content
import TgRcore.EasyFs.Ops
import TgRcore.EasyFs.Format
import TgRcore.EasyFs.Runs
import TgRcore.EasyFs.Progress
import TgRcore.EasyFs.FileContents
import TgRcore.EasyFs.Dirent
import TgRcore.EasyFs.Directory
import TgRcore.EasyFs.Namespace
import TgRcore.EasyFs.Pipe
import TgRcore.Sync.Mutex
import TgRcore.Sync.Semaphore
import TgRcore.Sync.Condvar
import TgRcore.Task.ExitStatus
import TgRcore.Task.ProcTable
import TgRcore.Task.ExitTotal
import TgRcore.Task.Stride
import TgRcore.Task.Starvation
import TgRcore.Task.Sleep
import TgRcore.Kernel.ReadyQueue
import TgRcore.Kernel.SignalLaws
import TgRcore.Kernel.ProcessLoop
import TgRcore.Kernel.Delivery
import TgRcore.Kernel.Interrupted
import TgRcore.Kernel.Objects
import TgRcore.Kernel.Killed
import TgRcore.Kernel.Handles
import TgRcore.Kernel.Turns
import TgRcore.Kernel.ForkContext
import TgRcore.Vm.AddressSpace
import TgRcore.Vm.Tree
import TgRcore.Vm.Mapping
import TgRcore.Vm.Process
import TgRcore.Vm.Effects
import TgRcore.Vm.Machine
import TgRcore.Vm.Permissions
import TgRcore.Vm.Isolation
import TgRcore.Vm.Areas
import TgRcore.Vm.Clone
import TgRcore.Vm.Fork
import TgRcore.Vm.FileIo
import TgRcore.EasyFs.Recycling
import TgRcore.EasyFs.InodeSlots
import TgRcore.EasyFs.HardLinks
import TgRcore.EasyFs.Room
import TgRcore.EasyFs.GrowClear
import TgRcore.EasyFs.NameSafety
import TgRcore.EasyFs.Linkat
import TgRcore.EasyFs.Readdir
import TgRcore.EasyFs.Durability
import TgRcore.EasyFs.GrowthFailure
import TgRcore.EasyFs.DataArea
import TgRcore.EasyFs.Partition
import TgRcore.EasyFs.Sound
import TgRcore.Vm.Translation
import TgRcore.Vm.Break
import TgRcore.Vm.Mmap
import TgRcore.Vm.Elf
import TgRcore.Vm.ExecFile
import TgRcore.Vm.ThreadStack
import TgRcore.Kernel.FileSystem
import TgRcore.Vm.Descriptors
import TgRcore.Kernel.Waittid
import TgRcore.Kernel.SigReturn
import TgRcore.Kernel.HandlerEntry
import TgRcore.Kernel.Restore
import TgRcore.Kernel.SyscallCount
import TgRcore.Lib.Rotation
import TgRcore.Kernel.RoundRobin
import TgRcore.Vm.Scattered
import TgRcore.EasyFs.EmptyWrite
import TgRcore.EasyFs.Locking
