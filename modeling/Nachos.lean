import Nachos.Lib.Run
import Nachos.Lib.Placement
import Nachos.Kernel.Thread
import Nachos.Kernel.Step
import Nachos.Kernel.Place
import Nachos.Kernel.Schedule
import Nachos.Kernel.Semaphore
import Nachos.Kernel.Lock
import Nachos.Kernel.Condition
import Nachos.Kernel.Destroy
import Nachos.Filesys.BitMap
import Nachos.Filesys.FileHdr
import Nachos.Filesys.HeaderSpec
import Nachos.Filesys.OpenFile
import Nachos.Filesys.OpenFileSpec
import Nachos.Filesys.Allocation
import Nachos.Filesys.FreeMap
import Nachos.Filesys.Directory
import Nachos.Filesys.DirectorySpec
import Nachos.Lib.Walk
import Nachos.Filesys.FileSys
import Nachos.Filesys.Tree
import Nachos.Filesys.Path
import Nachos.Filesys.CreateSpec
import Nachos.Filesys.RemoveSpec
import Nachos.Filesys.FormatSpec
import Nachos.Filesys.Calls
import Nachos.Filesys.Refinement
import Nachos.Kernel.Driver
import Nachos.Drivers.DrvDisk
import Nachos.Drivers.DrvACIA
import Nachos.Drivers.TtySend
import Nachos.Drivers.TtyReceive
import Nachos.Lib.Exclusive
import Nachos.Vm.Frames
import Nachos.Vm.FrameSafety
import Nachos.Vm.FaultSafety
import Nachos.Lib.Accounts
import Nachos.Vm.Swap
import Nachos.Vm.Contents
import Nachos.Vm.MappedFiles
import Nachos.Vm.Loader
import Nachos.Lib.CallStack
import Nachos.Machine.Interrupt
import Nachos.Machine.Simulator
import Nachos.Machine.Levels
import Nachos.Machine.Firing
import Nachos.Kernel.ObjId
import Nachos.Kernel.StaleIds
import Nachos.Kernel.Misuse
import Nachos.Filesys.OfTable
import Nachos.Filesys.Interference
import Nachos.Filesys.OfEffects
import Nachos.Filesys.OfCounts
import Nachos.Filesys.OfAgree
import Nachos.Kernel.Context
import Nachos.Vm.Mapping
import Nachos.Vm.OpenFiles
import Nachos.Vm.ByteOrder
import Nachos.Filesys.Growth
import Nachos.Filesys.HeaderImage
import Nachos.Filesys.InitialSize
import Nachos.Filesys.PathArray
import Nachos.Filesys.Deferred
import Nachos.Filesys.OfRuns
import Nachos.Filesys.ByteFile
import Nachos.Filesys.AccessBounds
import Nachos.Filesys.Durable
import Nachos.Lib.DoubleWord
import Nachos.Machine.Mult
import Nachos.Lib.HostInt
import Nachos.Machine.Mips
import Nachos.Machine.MipsArch
import Nachos.Machine.MipsSpec
import Nachos.Vm.Translate
import Nachos.Vm.Layout
import Nachos.Lib.Region
import Nachos.Vm.Regions
import Nachos.Vm.ClockSearch
import Nachos.Vm.SwapFull
import Nachos.Vm.Exec
import Nachos.Filesys.FsMisc
import Nachos.Lib.Segment
import Nachos.Utility.List
import Nachos.Utility.SortedRuns
import Nachos.Filesys.BitMapRuns
import Nachos.Filesys.DirectoryRuns
import Nachos.Userlib.Format
import Nachos.Userlib.Libnachos
import Nachos.Userlib.FormatSpec
import Nachos.Drivers.DrvConsole
import Nachos.Kernel.Exception
import Nachos.Machine.LoadStore
import Nachos.Machine.Unaligned
import Nachos.Lib.Stdio
import Nachos.Utility.Config
import Nachos.Utility.ConfigSpec
import Nachos.Kernel.StringParams
import Nachos.Utility.RemoveItem
import Nachos.Filesys.PathBounds
import Nachos.Filesys.Space
import Nachos.Filesys.Store
import Nachos.Filesys.StoreRuns
import Nachos.Machine.MipsMemory
import Nachos.Machine.LoadDelay
import Nachos.Machine.LoadData
import Nachos.Machine.UserRuns
import Nachos.Machine.FlatRuns
import Nachos.Kernel.Critical
import Nachos.Kernel.Transcript
import Nachos.Drivers.Console
import Nachos.Drivers.ConsoleOutput
import Nachos.Drivers.ConsoleInput
import Nachos.Lib.Fifo
import Nachos.Kernel.Fairness
import Nachos.Lib.Rotation
import Nachos.Machine.DiskTiming
import Nachos.Lib.Preorder
import Nachos.Filesys.Listing
import Nachos.Kernel.Monitor
import Nachos.Programs.ProdCons
import Nachos.Lib.FlatMemory
import Nachos.Userlib.Strings
import Nachos.Userlib.StringCalls
import Nachos.Programs.Sorting
import Nachos.Programs.Shell
import Nachos.Programs.Matmult
