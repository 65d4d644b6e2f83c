import Vahi.Ebpf.Soundness
import Vahi.Syscalls.SandboxLineage
import Vahi.Syscalls.SignalMask
import Vahi.Syscalls.SignalMemory
import Vahi.Syscalls.SignalReturn
import Vahi.Task.ElfConfined
import Vahi.Ipc.MqAccounting
import Vahi.Kaslr.Directory
import Vahi.Kaslr.Reloc
import Vahi.Syscalls.FileOffsets
import Vahi.Task.ReapingRuns
import Vahi.Hypervisor.Registry
import Vahi.Skyfs.ExtentLoss
import Vahi.Task.SchedulerRuns
import Vahi.Syscalls.Futex
import Vahi.Syscalls.PiFutex
import Vahi.Task.VmaLookup
import Vahi.Syscalls.MremapPages
import Vahi.Syscalls.ShmLifetime
import Vahi.Skyfs.Directory
import Vahi.Skyfs.JournalRecovery
import Vahi.Syscalls.Credentials
import Vahi.Vfs.Pipe
import Vahi.Ipc.Port
import Vahi.Syscalls.IoUring
import Vahi.Net.UnixStream
import Vahi.Net.UnixLocks
import Vahi.Net.Dns
import Vahi.Syscalls.SeccompClassic
import Vahi.Vfs.MountTable
import Vahi.Vfs.BlockIo
import Vahi.Vfs.Tarfs
import Vahi.Crypto.Kdf
import Vahi.Syscalls.LandlockConfined
import Vahi.Vfs.Tmpfs
import Vahi.Ext4.LogicalFile
import Vahi.Ash.HandlerBound
import Vahi.Hal.GuardOrder
import Vahi.Hal.Reentrancy
import Vahi.Syscalls.TimerIsolation
import Vahi.Drivers.IoScheduler
import Vahi.Drivers.Partition
import Vahi.Memory.BuddyCoalescing
import Vahi.Interrupts.PageFault
import Vahi.Ebpf.JitCorrect
