import PakOS.Machine.Word
import PakOS.Machine.Trace
import PakOS.Machine.Memory
import PakOS.Machine.Bitmap
import PakOS.Machine.BitField
import PakOS.Machine.Record
import PakOS.Machine.Paging
import PakOS.Machine.FlatMemory
import PakOS.Data.Coalesce
import PakOS.Data.Page
import PakOS.Data.Numeral
import PakOS.Kernel.State
import PakOS.Kmalloc.Header
import PakOS.Kmalloc.Alloc
import PakOS.Kmalloc.Free
import PakOS.Kmalloc.BlockList
import PakOS.Kmalloc.FreeSpec
import PakOS.Kmalloc.AllocSpec
import PakOS.Kmalloc.HeapInv
import PakOS.Kmalloc.Ops
import PakOS.Kmalloc.Walk
import PakOS.Kmalloc.Init
import PakOS.Kmalloc.Run
import PakOS.Kmalloc.Integrity
import PakOS.Kmalloc.Accounting
import PakOS.Kmalloc.FreeOrder
import PakOS.Kmalloc.Coalesced
import PakOS.Kmalloc.Window
import PakOS.Kmalloc.Requests
import PakOS.Kmalloc.OutOfMemory
import PakOS.Kmalloc.StaleFree
import PakOS.Kmalloc.FirstFit
import PakOS.Kmalloc.Realloc
import PakOS.Kmalloc.Client
import PakOS.Kmalloc.Overrun
import PakOS.Kmalloc.Buffer
import PakOS.Kmalloc.Alignment
import PakOS.Kmalloc.Sbrk
import PakOS.Kmalloc.ForeignGrowth
import PakOS.Kernel.Gdt
import PakOS.Kernel.Idt
import PakOS.Kernel.Boot
import PakOS.Kernel.Serial
import PakOS.PhyMM.Frames
import PakOS.PhyMM.Init
import PakOS.PhyMM.Bits
import PakOS.PhyMM.InUse
import PakOS.PhyMM.Pool
import PakOS.PhyMM.Fresh
import PakOS.PhyMM.Exclusive
import PakOS.PhyMM.MultiPage
import PakOS.PhyMM.SinglePage
import PakOS.PhyMM.MmapWalk
import PakOS.PhyMM.Region
import PakOS.PhyMM.Metadata
import PakOS.VirtMM.FramePool
import PakOS.VirtMM.Mapping
import PakOS.VirtMM.MapSpec
import PakOS.VirtMM.MapLoop
import PakOS.VirtMM.Mmap
import PakOS.VirtMM.Munmap
import PakOS.VirtMM.Driver
import PakOS.VirtMM.Lpa
import PakOS.VirtMM.Tlb
import PakOS.VirtMM.Entry
import PakOS.VirtMM.BootTables
import PakOS.VirtMM.Extends
import PakOS.VirtMM.PagedMemory
import PakOS.Vga.Console
import PakOS.Vga.Print
import PakOS.Vga.Screen
import PakOS.Vga.Scrolling
import PakOS.Klibc.String
import PakOS.Klibc.Itoa
import PakOS.Klibc.ItoaBuffer
import PakOS.Klibc.ItoaNumeral
import PakOS.Klibc.HexText
import PakOS.Klibc.Printk
import PakOS.Klibc.PrintkSpec
import PakOS.Klibc.PrintkOutput
import PakOS.Klibc.PrintkExpansion
import PakOS.Driver.Intel8254x
import PakOS.Driver.TxBuffer
import PakOS.Driver.TxBounds
import PakOS.Driver.Eeprom
import PakOS.Driver.MacAddr
import PakOS.Driver.MacText
import PakOS.Net.Arp
import PakOS.Pci.Config
import PakOS.Pci.Enumerate
import PakOS.Pci.Drivers
import PakOS.Pci.Access
import PakOS.Kmalloc.Provider
import PakOS.VirtMM.HeapPages
import PakOS.Data.ObjectStore
import PakOS.Kmalloc.Store
import PakOS.Machine.I8259
import PakOS.Kernel.Pic
import PakOS.Kmalloc.Payload
import PakOS.Kernel.Traps
import PakOS.Klibc.Memory
import PakOS.Data.Gap
import PakOS.PhyMM.TwoEnded
import PakOS.VirtMM.OwnFrames
import PakOS.VirtMM.BootHeap
import PakOS.Vga.OnHeap
import PakOS.Kernel.Panic
import PakOS.Kernel.Uart
import PakOS.Kmalloc.Lost
import PakOS.Klibc.ItoaLeak
import PakOS.Klibc.PrintkHeap
import PakOS.Klibc.Log
