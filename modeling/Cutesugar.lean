import Cutesugar.Kernel.Misc.Malloc
import Cutesugar.Lib.Run
import Cutesugar.Kernel.Misc.MallocPage
import Cutesugar.Kernel.Misc.MallocSafety
import Cutesugar.Kernel.Arch.Mmu
import Cutesugar.Kernel.Arch.PageTables
import Cutesugar.Kernel.Arch.Mapping
import Cutesugar.Kernel.Arch.PageMap
import Cutesugar.Kernel.Arch.KernelHalf
import Cutesugar.Kernel.Arch.CloneIsolation
import Cutesugar.Kernel.Arch.Task
import Cutesugar.Kernel.Arch.TaskSpec
import Cutesugar.Kernel.Arch.TaskRing
import Cutesugar.Kernel.Arch.Scheduler
import Cutesugar.Kernel.Arch.TaskPrivilege
import Cutesugar.Kernel.Object.Directory
import Cutesugar.Kernel.Object.PathName
import Cutesugar.Kernel.Object.Confinement
import Cutesugar.Kernel.Object.Passage
import Cutesugar.Kernel.Object.PathSoundness
import Cutesugar.Kernel.Arch.GsParity
import Cutesugar.Kernel.Arch.ContextSwitch
import Cutesugar.Kernel.Arch.ContextPreservation
import Cutesugar.Kernel.Arch.GsBase
import Cutesugar.Kernel.Arch.FramePool
import Cutesugar.Kernel.Arch.UserAccess
import Cutesugar.Kernel.Arch.Exhaustion
import Cutesugar.Kernel.Object.PathCompleteness
import Cutesugar.Kernel.Object.ListBuilders
import Cutesugar.Kernel.Misc.MallocLayout
import Cutesugar.Kernel.Misc.MallocLarge
import Cutesugar.Kernel.Misc.MallocRuns
import Cutesugar.Kernel.Misc.MallocShared
import Cutesugar.Kernel.Misc.MallocFresh
import Cutesugar.Kernel.Io.Iomgr
import Cutesugar.Kernel.Io.DeviceNames
import Cutesugar.Kernel.Object.WorkingDirectory
import Cutesugar.Kernel.Fs.Filesystem
import Cutesugar.Kernel.Fs.Ramfs
import Cutesugar.Kernel.Fs.Ext2
import Cutesugar.Lib.Worklist
import Cutesugar.Kernel.Fs.Ext2Machine
import Cutesugar.Kernel.Fs.Ext2Import
import Cutesugar.Kernel.Fs.Ext2Safety
import Cutesugar.Kernel.Fs.Ext2Termination
import Cutesugar.Kernel.Fs.Ext2Image
import Cutesugar.Kernel.Fs.Ext2Children
import Cutesugar.Kernel.Fs.Ext2Names
import Cutesugar.Kernel.Fs.FileDispatch
import Cutesugar.Kernel.Fs.Ext2Read
import Cutesugar.Kernel.Arch.AddressSpace
import Cutesugar.Kernel.Misc.Elf
import Cutesugar.Kernel.Misc.ElfSegments
import Cutesugar.Kernel.Misc.ElfCoverage
import Cutesugar.Kernel.Misc.ElfTail
import Cutesugar.Kernel.Misc.ElfHostile
import Cutesugar.Kernel.Misc.ElfModules
import Cutesugar.Kernel.Misc.ElfModuleImage
import Cutesugar.Kernel.Misc.ElfRelocation
import Cutesugar.Lib.CallStack
import Cutesugar.Kernel.Arch.Syscall
import Cutesugar.Lib.Preorder
import Cutesugar.Libc.Itoa
import Cutesugar.Kernel.Misc.Pci
import Cutesugar.Kernel.Misc.PciWalk
import Cutesugar.Kernel.Misc.PciDirectory
import Cutesugar.Kernel.Misc.PciRegistry
import Cutesugar.Kernel.Misc.PciSearch
import Cutesugar.Kernel.Misc.PciEnumeration
import Cutesugar.Kernel.Misc.TokenCheck
import Cutesugar.Kernel.Object.PathBuffers
import Cutesugar.Kernel.Object.RemoveChild
import Cutesugar.Kernel.Object.PathPrefix
import Cutesugar.Lib.Bump
import Cutesugar.Kernel.Misc.MallocBump
import Cutesugar.Kernel.Misc.BinLists
import Cutesugar.Kernel.Fs.Ext2Inode
import Cutesugar.Kernel.Arch.FirstRun
import Cutesugar.Kernel.Arch.BootTables
import Cutesugar.Libc.Format
import Cutesugar.Libc.Stdio
import Cutesugar.Libc.Strncmp
import Cutesugar.Kernel.Misc.Formatters
import Cutesugar.Kernel.Fs.FileStreams
import Cutesugar.Kernel.Arch.ProcessLookup
import Cutesugar.Kernel.Misc.Symbols
import Cutesugar.Kernel.Misc.SymbolNames
import Cutesugar.Kernel.Misc.Kprint
import Cutesugar.Kernel.Misc.FormatScan
import Cutesugar.Lib.Entries
import Cutesugar.Kernel.Arch.Acpi
import Cutesugar.Kernel.Arch.MadtWalk
import Cutesugar.Kernel.Arch.RsdtWalk
import Cutesugar.Kernel.Arch.Ps2
import Cutesugar.Lib.Endless
import Cutesugar.Lib.Poll
import Cutesugar.Kernel.Object.Processor
import Cutesugar.Kernel.Arch.BringUp
import Cutesugar.Modules.Bootvid
import Cutesugar.Modules.Ahci
import Cutesugar.Lib.SpinLock
import Cutesugar.Kernel.Arch.SwitchLock
import Cutesugar.Kernel.Arch.Idt
import Cutesugar.Kernel.Arch.IoApic
import Cutesugar.Kernel.Arch.IsrCommon
import Cutesugar.Modules.Console
import Cutesugar.Kernel.Arch.SharedSlots
import Cutesugar.Kernel.Arch.BootAccess
import Cutesugar.Kernel.Object.PathCompose
import Cutesugar.Lib.Unwinding
import Cutesugar.Kernel.Arch.Preemption
import Cutesugar.Kernel.Misc.PciPorts
import Cutesugar.Kernel.Arch.Gdt
import Cutesugar.Kernel.Object.Naming
import Cutesugar.Kernel.Arch.VirtualStores
import Cutesugar.Modules.AhciWindow
import Cutesugar.Modules.AhciPort
import Cutesugar.Modules.AhciCommand
import Cutesugar.Modules.AhciTransfer
import Cutesugar.Modules.AhciRuns
import Cutesugar.Modules.AhciBoot
import Cutesugar.Kernel.Arch.SyscallNumbers
import Cutesugar.Kernel.Fs.Mailboxes
