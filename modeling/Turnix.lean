import Turnix.Lib.Run
import Turnix.Lib.Rust
import Turnix.Lib.Span
import Turnix.Lib.Chain
import Turnix.Lib.Stack
import Turnix.Lib.PanicM
import Turnix.Lib.Paging
import Turnix.Lib.PageTree
import Turnix.Lib.PageView
import Turnix.Lib.PageGrowth
import Turnix.Lib.RamBytes
import Turnix.Lib.Words
import Turnix.Lib.Sheet
import Turnix.Scheduler
import Turnix.SchedulerRuns
import Turnix.ContextSwitch
import Turnix.Tty
import Turnix.Vfs
import Turnix.Ramdisk
import Turnix.VfsRuns
import Turnix.VfsReads
import Turnix.VfsFrame
import Turnix.VfsContents
import Turnix.TtyInput
import Turnix.Heap
import Turnix.HeapRuns
import Turnix.HeapFit
import Turnix.HeapAssertions
import Turnix.FirstFit
import Turnix.FrameAllocator
import Turnix.FrameCoverage
import Turnix.MemoryMap
import Turnix.Cpu
import Turnix.Entry
import Turnix.Machine
import Turnix.ContextIntegrity
import Turnix.GsBase
import Turnix.Counters
import Turnix.Elf
import Turnix.ElfTable
import Turnix.Ext2
import Turnix.UefiElf
import Turnix.KernelImage
import Turnix.Syscall
import Turnix.Libturnix
import Turnix.VfsLock
import Turnix.UserPointers
import Turnix.FileSyscalls
import Turnix.DirectoryListing
import Turnix.Shell
import Turnix.ShellSession
import Turnix.Paging
import Turnix.DirectMap
import Turnix.SetupMappings
import Turnix.Scratchpad
import Turnix.MapRegion
import Turnix.CloneTables
import Turnix.CloneFaithful
import Turnix.AddressSpaces
import Turnix.KernelStacks
import Turnix.ForkIsolation
import Turnix.Loader
import Turnix.LoadedImage
import Turnix.LoaderIsolation
import Turnix.LoadedSpace
import Turnix.SegmentRights
import Turnix.LoadPanics
import Turnix.StaleMemory
import Turnix.StoreRights
import Turnix.ProcessIsolation
import Turnix.StackFrames
import Turnix.Console
import Turnix.ConsoleBounds
import Turnix.ConsolePicture
import Turnix.ConsoleSpace
import Turnix.Font
import Turnix.EarlyBoot
import Turnix.Echo
