import PakOS.Machine.Memory

/-!
# The kernel state

The status codes and the address map of `kernel.h`, and the record of the kernel's global variables
that the memory manager and the console share.  Addresses are 32-bit words, `0` is `NULL`, and
logical memory is one flat byte-addressed memory: what paging does to it is in `PakOS.VirtMM`.
-/

namespace PakOS

open Machine

/-- `status_t`: the status codes of `kernel.h`. -/
inductive Status
  | ok
  | borkdMem
  | doubleFree
  | invalidMem
  | failedInit
  | outOfMem
  | invalidFree
  | noDriver
  | driverError
  deriving DecidableEq, Repr

/-- `__kheap_start`: where the kernel heap starts. -/
def kheapStart : ℕ := 0xd0000000

/-- `VGA_BASE`: the logical address of the text buffer. -/
def vgaBase : ℕ := 0xc00ff000

/-- The global variables of the heap and the console, and the memory they live in.  `os` is the
state of whoever backs the heap with pages, seen through the calls that grow the heap. -/
structure Kernel (E : Type*) where
  /-- Logical memory. -/
  mem : Mem
  /-- `_first_blk` -/
  firstBlk : ℕ
  /-- `_heap_start` -/
  heapStart : ℕ
  /-- `_heap_size` -/
  heapSize : ℕ
  /-- `_min_heap_size` -/
  minHeapSize : ℕ
  /-- `vga_cursor_r`, an 8-bit variable -/
  vgaCursorR : ℕ
  /-- `vga_cursor_c`, an 8-bit variable -/
  vgaCursorC : ℕ
  /-- The bytes sent to the serial port so far. -/
  serial : List UInt8
  /-- The state of the provider of memory. -/
  os : E

end PakOS
