import ArtOS.Library.Transition
import ArtOS.Library.LinkedList
import ArtOS.Library.Counting
import ArtOS.Library.DoublyLinked
import ArtOS.Library.Intervals
import ArtOS.Library.CString
import ArtOS.Tasks.Fifo
import ArtOS.Tasks.FpuPrivate
import ArtOS.Tasks.HeapDescriptor
import ArtOS.Sync.Mailbox
import ArtOS.Sync.LostWakeup
import ArtOS.Sync.Deadlock
import ArtOS.Sync.TicketOrder
import ArtOS.Memory.FramePool
import ArtOS.Memory.VmaBounds
import ArtOS.Memory.VmaCopy
import ArtOS.Memory.BlockSize
import ArtOS.Memory.DoubleFree
import ArtOS.Memory.Realloc
import ArtOS.Memory.Overlap
import ArtOS.Memory.CopyResult
import ArtOS.Tasks.UserFrames
import ArtOS.Tasks.KernelSpace
import ArtOS.Memory.NullFrame
import ArtOS.Memory.Pfree
import ArtOS.Memory.VmaExact
import ArtOS.Tasks.TaskLife
import ArtOS.Tasks.UsageRun
import ArtOS.Tasks.Sbrk
import ArtOS.Tasks.ArgPassing
import ArtOS.Tasks.Creation
import ArtOS.Tasks.LoaderAccess
import ArtOS.Tasks.LoaderAreas
import ArtOS.Tasks.LoadedTask
import ArtOS.Users.Login
import ArtOS.Devices.Cursor
import ArtOS.Devices.Layout
import ArtOS.Devices.HandOff
import ArtOS.Tasks.Syscall
import ArtOS.Tasks.ReadCalls
import ArtOS.Libc.Gets
import ArtOS.Libc.Scanf
import ArtOS.FileSystem.NameRace
import ArtOS.FileSystem.Insertion
import ArtOS.FileSystem.RoundTrip
import ArtOS.FileSystem.Walkers
import ArtOS.FileSystem.Sequential
import ArtOS.FileSystem.Descriptors
import ArtOS.FileSystem.Blocks
import ArtOS.FileSystem.Listing
import ArtOS.FileSystem.PathBounds
import ArtOS.Memory.KmallocEnds
import ArtOS.FileSystem.Mounting
import ArtOS.Libc.BoundedConcat
import ArtOS.Libc.NameField
import ArtOS.Libc.Memmove
import ArtOS.Libc.Print
import ArtOS.Libc.Kprintf
import ArtOS.Devices.MpSearch
import ArtOS.Devices.ApicTable
import ArtOS.Devices.ApicBounds
import ArtOS.Devices.Rtc
import ArtOS.Sync.NestedIrq
import ArtOS.Tasks.Preemption
import ArtOS.Devices.Pic
import ArtOS.Memory.BootPaging
import ArtOS.Libc.NumberRoundTrip
import ArtOS.Cpu.Ports
import ArtOS.FileSystem.PriorityList
import ArtOS.Devices.ApicHandover
import ArtOS.Video.SnakeTrail
import ArtOS.Libc.Strstr
