import PakOS.Machine.Paging
import PakOS.VirtMM.FramePool

/-!
# Mapping pages

`kernel/mm/virt-mm.c` and the macro `_lpa`, on physical memory with the page directory
`pde_table` in it.  The code reaches `pde_table` as an array, and the page tables through the
window that the directory's last entry opens: `load` and `store` translate such an address by the
walk of the processor, and fail with a page fault where there is no translation.
-/

namespace PakOS

open Machine

/-- `__logical_pde_base` -/
def logicalPdeBase : ℕ := 0xffc00000

/-- `__driver_space_start` -/
def driverSpaceStart : ℕ := 0xe0000000

/-- `__driver_space_size` -/
def driverSpaceSize : ℕ := 0x0fffffff

/-- The state of paging, over the states `P` of a frame allocator. -/
structure VirtMM (P : Type*) where
  /-- Physical memory. -/
  phys : PhysMem
  /-- The frame of `pde_table`, which the processor's walk begins with. -/
  pdeTable : ℕ
  /-- The frame allocator. -/
  pool : P
  /-- `__driver_space_head` -/
  driverSpaceHead : ℕ
  /-- The translations that the processor has cached, by page. -/
  tlb : ℕ → Option ℕ

namespace VirtMM

variable {P : Type*}

/-- `pde_table[i]` -/
def pde (s : VirtMM P) (i : ℕ) : ℕ := s.phys s.pdeTable i

/-- The frame that the processor translates page `p` to. -/
def translate (s : VirtMM P) (p : ℕ) : Option ℕ := pageWalk s.phys s.pdeTable p

/-- Read a word at a logical address. -/
def load (s : VirtMM P) (a : ℕ) : Option ℕ :=
  (s.translate (a / 4096)).map fun f => s.phys f (a % 4096 / 4)

/-- Store a word at a logical address. -/
def store (s : VirtMM P) (a v : ℕ) : Option (VirtMM P) :=
  (s.translate (a / 4096)).map fun f => { s with phys := setWord s.phys f (a % 4096 / 4) v }

/-- `__native_flush_tlb_single(addr)` -/
def nativeFlushTlbSingle (s : VirtMM P) (addr : ℕ) : VirtMM P :=
  { s with tlb := Function.update s.tlb (addr / 4096) none }

/-- `_lpa(lgaddr)` -/
def lpa (s : VirtMM P) (lgaddr : ℕ) : Option ℕ :=
  (s.load (add32 (logicalPdeBase ||| lgaddr >>> 22 <<< 12) (4 * (lgaddr >>> 12 &&& 0x3ff)))).map
    fun entry => add32 (entry &&& 0xfffffc00) (lgaddr &&& 0x3ff)

/-- The part of `mapfr` that makes the page table exist. -/
def createTable (F : FramePool P) (pdeIndex pteTable : ℕ) (s : VirtMM P) : Option (VirtMM P) :=
  if s.pde pdeIndex &&& 0x1 = 0 then
    (F.hwpalloc 1 s.pool).map fun (newHwTable, pool) =>
      nativeFlushTlbSingle
        { s with
          pool := pool
          phys := setWord s.phys s.pdeTable pdeIndex (newHwTable ||| 0x3) } pteTable
  else some s

/-- `mapfr(hwaddr, lgaddr)` -/
def mapfr (F : FramePool P) (hwaddr lgaddr : ℕ) (s : VirtMM P) : Option (VirtMM P) :=
  let pdeIndex := lgaddr >>> 22
  let pteIndex := lgaddr >>> 12 &&& 0x3ff
  let pteTable := logicalPdeBase ||| pdeIndex <<< 12
  (createTable F pdeIndex pteTable s).bind fun s =>
    (s.store (add32 pteTable (4 * pteIndex)) (hwaddr ||| 0x3)).map fun s =>
      s.nativeFlushTlbSingle (add32 pteTable (pteIndex * 4))

/-- `umapfr(lgaddr)` -/
def umapfr (lgaddr : ℕ) (s : VirtMM P) : Option (VirtMM P) :=
  let pdeIndex := lgaddr >>> 22
  let pteIndex := lgaddr >>> 12 &&& 0x3ff
  let pteTable := logicalPdeBase ||| pdeIndex <<< 12
  if s.pde pdeIndex &&& 0x1 = 0 then some s
  else
    (s.store (add32 pteTable (4 * pteIndex)) 0x0).map fun s =>
      s.nativeFlushTlbSingle (add32 pteTable (pteIndex * 4))

/-- The loop of `mmap` and of `maphwdev` that maps frames in a row, with `n` rounds to go from round
`i` on. -/
def mapPages (F : FramePool P) (hwaddr lgaddr : ℕ) : ℕ → ℕ → VirtMM P → Option (VirtMM P)
  | 0, _, s => some s
  | n + 1, i, s =>
    (mapfr F (add32 hwaddr (mul32 4096 i)) (add32 lgaddr (mul32 4096 i)) s).bind
      (mapPages F hwaddr lgaddr n (i + 1))

/-- The loop of `munmap`, with `n` rounds to go from round `i` on. -/
def umapPages (lgaddr : ℕ) : ℕ → ℕ → VirtMM P → Option (VirtMM P)
  | 0, _, s => some s
  | n + 1, i, s => (umapfr (add32 lgaddr (mul32 4096 i)) s).bind (umapPages lgaddr n (i + 1))

/-- `mmap(addr, length)`; the parameter of `hwpalloc` has 16 bits. -/
def mmap (F : FramePool P) (addr length : ℕ) (s : VirtMM P) : Option (Status × VirtMM P) :=
  let pages := add32 length 4095 / 4096
  (F.hwpalloc (pages % 65536) s.pool).bind fun (hwaddr, pool) =>
    (mapPages F hwaddr addr pages 0 { s with pool := pool }).map fun s => (.ok, s)

/-- `munmap(addr, length)` -/
def munmap (F : FramePool P) (addr length : ℕ) (s : VirtMM P) : Option (Status × VirtMM P) :=
  let pages := add32 length 4095 / 4096
  (s.lpa addr).bind fun hwaddr =>
    (umapPages addr (pages - 1) 1 s).map fun s =>
      let (st, pool) := F.hwpfree hwaddr (pages % 65536) s.pool
      (st, { s with pool := pool })

/-- `maphwdev(hwaddr, pages)` -/
def maphwdev (F : FramePool P) (hwaddr pages : ℕ) (s : VirtMM P) : Option (ℕ × VirtMM P) :=
  let lspace := if s.driverSpaceHead = 0 then driverSpaceStart else s.driverSpaceHead
  (mapPages F hwaddr lspace pages 0 { s with driverSpaceHead := add32 lspace pages }).map
    fun s => (lspace, s)

end VirtMM

end PakOS
