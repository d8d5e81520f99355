import RpiKernel.Memory.KmallocRun
import RpiKernel.Sched.SchedRun
import RpiKernel.Sched.Progress
import RpiKernel.Mmu.TableRun
import RpiKernel.Mmu.TableFree
import RpiKernel.Vfs.Mount
import RpiKernel.Vfs.Lookup
import RpiKernel.Process.Dispatcher
import RpiKernel.Process.Signal
import RpiKernel.Process.Fault
import RpiKernel.Process.Custody
import RpiKernel.Process.Forking
import RpiKernel.Process.Ownership
import RpiKernel.Interrupt.Mask
import RpiKernel.Interrupt.IrqTask
import RpiKernel.Process.KernelFault
import RpiKernel.Interrupt.Preempt
import RpiKernel.Interrupt.Timer
import RpiKernel.Interrupt.AsyncUart
import RpiKernel.Interrupt.UartWait
import RpiKernel.Process.Delivery
import RpiKernel.Process.Slots
import RpiKernel.Process.WorkingDirs
import RpiKernel.Memory.Contents
import RpiKernel.Memory.Partition
import RpiKernel.Memory.SlabRun
import RpiKernel.Lib.FirstFit
import RpiKernel.Mmu.Teardown
import RpiKernel.Process.ExecBlocks
import RpiKernel.Process.ExecFailure
import RpiKernel.Process.Placement
import RpiKernel.Process.Isolation
import RpiKernel.Process.ForkReturns
import RpiKernel.Process.Handles
import RpiKernel.Process.Orderly
import RpiKernel.Process.ForkFailure
import RpiKernel.Process.OpenFailure
import RpiKernel.Vfs.Canonical
import RpiKernel.Vfs.Framebuffer
import RpiKernel.Vfs.Registry
import RpiKernel.Process.Reaping
import RpiKernel.Process.Copying
import RpiKernel.Process.Duplication
import RpiKernel.Boot.DeviceTree
import RpiKernel.Boot.StartupAllocator
import RpiKernel.Console.Numbers
import RpiKernel.Console.Vsprintf
import RpiKernel.Lib.Orbit
import RpiKernel.Lib.Slots
import RpiKernel.Lib.Window
import RpiKernel.Process.UserLengths
import RpiKernel.Sched.Fifo
import RpiKernel.Utils.StringCompare
import RpiKernel.Utils.Strncmp
import RpiKernel.Vfs.ArchiveReaders
import RpiKernel.Vfs.Loading
import RpiKernel.Vfs.Registration
import RpiKernel.Boot.Upload
import RpiKernel.Boot.Relocation
import RpiKernel.Boot.ReservedMemory
import RpiKernel.Boot.Ramdisk
import RpiKernel.Interrupt.ExceptionFrame
import RpiKernel.Sched.ContextSwitch
import RpiKernel.Sched.Fairness
import RpiKernel.Mmu.KernelMap
import RpiKernel.Vfs.Store
import RpiKernel.Process.Loading
