import Myos.Lib.Act
import Myos.Lib.Mem
import Myos.Lib.Chain
import Myos.Lib.Run
import Myos.Lib.Radix
import Myos.Lib.Owners
import Myos.Lib.Ring
import Myos.Lib.Bitmap
import Myos.Lib.Rotation
import Myos.Lib.Ledger
import Myos.Lib.Draws
import Myos.Lib.Numeral
import Myos.Lib.Loop
import Myos.Lib.Leaves
import Myos.Lib.Turns
import Myos.Lib.Stack
import Myos.Kernel.Mm
import Myos.Kernel.Page
import Myos.Kernel.Tables
import Myos.Kernel.PageTable
import Myos.Kernel.PageMap
import Myos.Kernel.State
import Myos.Kernel.Proc
import Myos.Kernel.AddressSpace
import Myos.Kernel.Access
import Myos.Kernel.Fault
import Myos.Kernel.Fork
import Myos.Kernel.Sweep
import Myos.Kernel.Exit
import Myos.Kernel.FreeTables
import Myos.Kernel.Process
import Myos.Kernel.CopyOnWrite
import Myos.Kernel.Isolation
import Myos.Kernel.Keyboard
import Myos.Kernel.Console
import Myos.Kernel.Fs
import Myos.Kernel.File
import Myos.Kernel.Blocks
import Myos.Kernel.Ide
import Myos.Kernel.FileRead
import Myos.Kernel.FileWrite
import Myos.Kernel.Mounted
import Myos.Kernel.BlockMap
import Myos.Kernel.Remount
import Myos.Kernel.Descriptors
import Myos.Kernel.Exec
import Myos.Kernel.Syscall
import Myos.Kernel.Slots
import Myos.Kernel.OpenFiles
import Myos.Kernel.Shortage
import Myos.Kernel.Waiting
import Myos.Kernel.Schedule
import Myos.Kernel.Refusals
import Myos.Kernel.X86
import Myos.Kernel.Lookup
import Myos.Kernel.Headers
import Myos.Kernel.Failing
import Myos.Kernel.Mapping
import Myos.Kernel.LoadImage
import Myos.Kernel.LoadFile
import Myos.Kernel.Execve
import Myos.Kernel.Leaks
import Myos.Kernel.Steady
import Myos.Kernel.Contexts
import Myos.Kernel.Entry
import Myos.Kernel.Typing
import Myos.Kernel.Interrupts
import Myos.Kernel.Directory
import Myos.Kernel.Guest
import Myos.Kernel.GuestMemory
import Myos.Kernel.Smp
import Myos.Kernel.Print
import Myos.Kernel.Itoa
import Myos.Kernel.Strcmp
import Myos.Kernel.InitPage
import Myos.Kernel.InitMem
import Myos.Kernel.PageCache
import Myos.Boot.Loader
import Myos.Boot.Segments
import Myos.Image.Mkxxx
import Myos.Image.Splits
import Myos.Image.Entering
import Myos.Image.Create
import Myos.Image.Dirents
import Myos.Image.Mount
import Myos.Image.InodeNumbers
import Myos.Image.DirectorySlots
import Myos.Image.Names
import Myos.Image.RoundTrip
import Myos.Kernel.SlotMap
import Myos.Image.AllOrNothing
import Myos.Image.Agreement
import Myos.Image.OldContents
import Myos.Image.Archive
import Myos.Image.Launch
import Myos.Image.SlotMap
import Myos.Image.Bitmaps
