import AstralOS.Foundation.Bytes
import AstralOS.Foundation.Memory
import AstralOS.Foundation.Runs
import AstralOS.Foundation.FirstFit
import AstralOS.Memory.Kmalloc
import AstralOS.Memory.KmallocBlocks
import AstralOS.Memory.KmallocSafety
import AstralOS.Memory.VmMaps
import AstralOS.Memory.VmMapsSafety
import AstralOS.Memory.VmMapsResults
import AstralOS.Foundation.Aarch64
import AstralOS.Cpu.ContextSwitch
import AstralOS.Cpu.RoundTrip
import AstralOS.Lib.CString
import AstralOS.Fs.Layout
import AstralOS.Fs.World
import AstralOS.Fs.Fs
import AstralOS.Fs.Volume
import AstralOS.Fs.VolumeRefines
import AstralOS.Fs.VolumeCalls
import AstralOS.Fs.VolumeReads
import AstralOS.Fs.Consistency
import AstralOS.Fs.Preservation
import AstralOS.Fs.Format
import AstralOS.Fs.Ownership
import AstralOS.Fs.CrashSafety
import AstralOS.Fs.Remount
import AstralOS.Fs.ReadBack
import AstralOS.Foundation.SlotTable
import AstralOS.Fs.Directory
import AstralOS.Fs.Catalog
import AstralOS.Fs.Namespace
import AstralOS.Fs.BlockRange
import AstralOS.Fs.Counters
import AstralOS.Foundation.Rotation
import AstralOS.Sched.RoundRobin
import AstralOS.Memory.KmallocClients
import AstralOS.Sched.Kernel
import AstralOS.Sched.Creation
import AstralOS.Sched.TaskIdentity
import AstralOS.Sched.FirstDispatch
import AstralOS.Drivers.BlockDevice
import AstralOS.Sched.Interrupts
import AstralOS.Sched.Timings
import AstralOS.Drivers.BlockRoundTrip
import AstralOS.Fs.Rejected
import AstralOS.Foundation.Residue
import AstralOS.Fs.Places
import AstralOS.Fs.Twins
import AstralOS.Fs.Isolation
import AstralOS.Boot.Dtb
import AstralOS.Boot.DeviceTree
import AstralOS.Foundation.Coalescing
import AstralOS.Memory.KmallocLists
import AstralOS.Memory.KmallocPolicy
import AstralOS.Foundation.Chains
import AstralOS.Fs.Vfs
import AstralOS.Fs.VfsTree
import AstralOS.Sched.BootInterrupts
import AstralOS.Security.Security
import AstralOS.Cpu.Cores
import AstralOS.Foundation.PageWalk
import AstralOS.Lib.Mem
import AstralOS.Memory.Mmu
import AstralOS.Memory.TaskPagetable
import AstralOS.Debug.Kprintf
import AstralOS.Debug.Console
import AstralOS.Drivers.UfsCommand
import AstralOS.Fs.HeapNeutral
import AstralOS.Fs.AllOrNothing
import AstralOS.Fs.ReadExtent
import AstralOS.Fs.Records
import AstralOS.Fs.WriteExtent
import AstralOS.Fs.Deleted
import AstralOS.Fs.MountedBitmaps
import AstralOS.Fs.WriteAnywhere
import AstralOS.Fs.Failures
import AstralOS.Sched.TaskBlocks
import AstralOS.Sched.StackPointer
import AstralOS.Cpu.Exceptions
import AstralOS.Fs.VfsNames
import AstralOS.Foundation.Traced
import AstralOS.Debug.ConsoleBounds
import AstralOS.Lib.FormatText
import AstralOS.Lib.Truncation
import AstralOS.Lib.Conversions
import AstralOS.Boot.DtbReads
import AstralOS.Boot.FdtBlob
import AstralOS.Boot.Lookup
import AstralOS.Boot.DamagedTree
import AstralOS.Boot.FindNode
import AstralOS.Memory.FramebufferWindow
import AstralOS.Boot.ClearBss
import AstralOS.Lib.Numerals
import AstralOS.Foundation.FreePairs
import AstralOS.Memory.KmallocFragments
import AstralOS.Debug.PrintedText
import AstralOS.Foundation.Delivery
import AstralOS.Drivers.Uart
import AstralOS.Boot.KernelMain
import AstralOS.Foundation.Known
import AstralOS.Fs.CutCalls
import AstralOS.Fs.Durability
import AstralOS.Foundation.AtOnce
import AstralOS.Fs.AtomicNames
import AstralOS.Fs.StableNames
import AstralOS.Fs.StorageOnUfs
import AstralOS.Foundation.ExceptionEntry
import AstralOS.Cpu.VectorTable
import AstralOS.Foundation.BitSets
import AstralOS.Fs.TableAndBitmaps
import AstralOS.Foundation.SpinLock
import AstralOS.Sched.Multicore
