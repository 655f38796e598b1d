import Ostoo.Lib.Machine
import Ostoo.Lib.Serial
import Ostoo.Lib.OrdMap
import Ostoo.Lib.Segments
import Ostoo.Lib.Traced
import Ostoo.Lib.Linked
import Ostoo.Lib.Pieces
import Ostoo.Lib.RingBuffer
import Ostoo.Lib.LittleEndian
import Ostoo.CompletionPort.Ring
import Ostoo.CompletionPort.RingPages
import Ostoo.CompletionPort.Port
import Ostoo.CompletionPort.IoWait
import Ostoo.CompletionPort.RingEnter
import Ostoo.CompletionPort.SqLoop
import Ostoo.CompletionPort.SqHeader
import Ostoo.CompletionPort.Timeouts
import Ostoo.Memory.Page
import Ostoo.Memory.Vma
import Ostoo.Memory.Gap
import Ostoo.Memory.Syscalls
import Ostoo.Memory.Frames
import Ostoo.Memory.FrameAllocator
import Ostoo.Memory.Mapper
import Ostoo.Memory.Services
import Ostoo.Memory.Ledger
import Ostoo.Memory.References
import Ostoo.Memory.Teardown
import Ostoo.Memory.Elf
import Ostoo.Memory.Loader
import Ostoo.Memory.Confinement
import Ostoo.Memory.Pages
import Ostoo.Memory.Rights
import Ostoo.Memory.Unmapping
import Ostoo.Memory.Failing
import Ostoo.Memory.Holdings
import Ostoo.Memory.Objects
import Ostoo.Memory.Lifetimes
import Ostoo.Memory.Vfork
import Ostoo.File.Pipe
import Ostoo.File.Waking
import Ostoo.File.LockOrder
import Ostoo.File.Dirents
import Ostoo.Ipc.Channel
import Ostoo.Ipc.Buffered
import Ostoo.Ipc.Closing
import Ostoo.Ipc.Threads
import Ostoo.Ipc.Rendezvous
import Ostoo.Ipc.Progress
import Ostoo.Ipc.Sleepers
import Ostoo.Ipc.SendResult
import Ostoo.Ipc.OneShot
import Ostoo.Task.Scheduler
import Ostoo.Task.Executor
import Ostoo.Task.WakeUps
import Ostoo.Task.ReadyQueue
import Ostoo.Task.Runnable
import Ostoo.Task.Conservation
import Ostoo.Task.Spinning
import Ostoo.Task.Sleeping
import Ostoo.Task.Mailbox
import Ostoo.Proc.Lifecycle
import Ostoo.Proc.Stacks
import Ostoo.Proc.Reaping
import Ostoo.Proc.Death
import Ostoo.Proc.Statuses
import Ostoo.Proc.Waits
import Ostoo.Proc.Exhaustion
import Ostoo.User.Access
import Ostoo.User.Signals
import Ostoo.User.Pointers
import Ostoo.User.Registers
import Ostoo.User.Frames
import Ostoo.User.Faults
import Ostoo.Fd.Table
import Ostoo.Fd.Kernel
import Ostoo.Fd.Delivery
import Ostoo.Fd.Counts
import Ostoo.Fd.Calls
import Ostoo.Fd.Balance
import Ostoo.Fd.Exact
import Ostoo.Fd.PeerClosed
import Ostoo.Fd.Irq
import Ostoo.Fd.Submitter
import Ostoo.Fd.Slots
import Ostoo.Fd.Scancodes
import Ostoo.Vfs.Path
import Ostoo.Vfs.Mounts
import Ostoo.Exfat.ReadFile
import Ostoo.Compositor.Events
import Ostoo.Terminal.Vt100
