import HanOS.Foundations.Chain
import HanOS.Foundations.Run
import HanOS.Foundations.ByteMem
import HanOS.Foundations.BitArray
import HanOS.Proc.Sched
import HanOS.Proc.Placement
import HanOS.Proc.KernelStacks
import HanOS.Lib.CString
import HanOS.Lib.Klib
import HanOS.Core.Page
import HanOS.Core.Pmm
import HanOS.Core.PmmSpec
import HanOS.Core.PmmInit
import HanOS.Fs.Fat32
import HanOS.Fs.Fat32Mount
import HanOS.Fs.Fat32Chain
import HanOS.Fs.Fat32Flush
import HanOS.Fs.Fat32Layout
import HanOS.Fs.Fat32Grow
import HanOS.Fs.Fat32Call
import HanOS.Fs.Fat32Content
import HanOS.Fs.Fat32Full
import HanOS.Fs.Fat32Sync
import HanOS.Fs.Vfs
import HanOS.Fs.FileBase
import HanOS.Fs.PathWalk
import HanOS.Lib.HeapBlocks
import HanOS.Lib.HeapRuns
import HanOS.Core.PmmAccess
import HanOS.Core.PmmGet
import HanOS.Core.PmmCount
import HanOS.Core.Smp
import HanOS.Core.TablePool
import HanOS.Core.TableTree
import HanOS.Core.VmmInit
import HanOS.Core.MapRange
import HanOS.Core.MapUndo
import HanOS.Core.DeviceMap
import HanOS.Fs.Handles
import HanOS.Fs.RefCounts
import HanOS.Fs.Fat32Dir
import HanOS.Fs.Fat32Lookup
import HanOS.Fs.Fat32Slot
import HanOS.Fs.ShortNames
import HanOS.Fs.Fat32Scan
import HanOS.Fs.Fat32Sectors
import HanOS.Fs.Fat32Listing
import HanOS.Fs.LongNames
import HanOS.Fs.CachedOpen
import HanOS.Lib.KmallocCpus
import HanOS.Fs.FsPointer
import HanOS.Foundations.Descent
import HanOS.Core.Pci
import HanOS.Lib.Vector
import HanOS.Fs.ReadClamp
import HanOS.Fs.OpenFallback
import HanOS.Fs.Fat32Read
import HanOS.Fs.Fat32Loops
import HanOS.Fs.TreeShape
import HanOS.Fs.CreateFrame
import HanOS.Fs.RefreshTree
import HanOS.Fs.RefreshAgain
import HanOS.Fs.FileSize
import HanOS.Core.ApicTimer
import HanOS.Foundations.Loop
import HanOS.Device.Framebuffer
import HanOS.Device.Term
import HanOS.Device.TermParse
import HanOS.Device.TermCursor
import HanOS.Device.TermScroll
import HanOS.Foundations.Ring
import HanOS.Lib.KlogRing
import HanOS.Lib.KlogPutint
import HanOS.Lib.KlogFormat
import HanOS.Proc.SelectionLaw
import HanOS.Foundations.Ticks
import HanOS.Core.Clock
import HanOS.Proc.Sleep
import HanOS.Lib.Realloc
import HanOS.Device.TermEscapes
import HanOS.Device.Keyboard
import HanOS.Proc.Shell
import HanOS.Foundations.Calendar
import HanOS.Core.Cmos
import HanOS.Lib.Time
import HanOS.Fs.Fat32Datetime
import HanOS.Core.Madt
import HanOS.Foundations.HighBits
import HanOS.Core.PciBar
import HanOS.Lib.KmallocWrap
import HanOS.Foundations.Sections
import HanOS.Lib.Lock
import HanOS.Lib.LockAside
import HanOS.Proc.LockedSections
import HanOS.Proc.Waiting
import HanOS.Core.CmosRead
import HanOS.Foundations.Fuel
import HanOS.Device.Ata
import HanOS.Device.AtaTransfer
import HanOS.Fs.Fat32Transfer
import HanOS.Core.Panic
