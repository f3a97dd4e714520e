import Tnix.Dev.Console
import Tnix.Dev.DiskProtocol
import Tnix.Dev.Uart
import Tnix.Fs.BioInvariant
import Tnix.Fs.EntryAdding
import Tnix.Fs.EntryRemoval
import Tnix.Fs.FileSlice
import Tnix.Fs.IcacheInvariant
import Tnix.Fs.NameBuffers
import Tnix.Fs.PipeFifo
import Tnix.Fs.PipeWakeup
import Tnix.Mem.CopyPaths
import Tnix.Mem.ForkIsolation
import Tnix.Mem.HeapFree
import Tnix.Mem.IdentityMap
import Tnix.Mem.Partition
import Tnix.Mkfs.Image
import Tnix.Syscall.DescriptorTable
import Tnix.Syscall.InodeReferences
import Tnix.Syscall.TableCopy
import Tnix.Task.ExecStack
import Tnix.Task.KernelOperations
import Tnix.Task.KernelStack
import Tnix.Task.KernelWait
import Tnix.Task.SleepLock
import Tnix.Task.Tid
import Tnix.User.Shell
import Tnix.Util.ListFamily
import Tnix.Util.Spinlock
