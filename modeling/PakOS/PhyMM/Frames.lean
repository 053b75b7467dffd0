import PakOS.Kernel.State
import PakOS.Machine.Bitmap

/-!
# The physical frame allocator

`hwpalloc` and `hwpfree` of `kernel/mm/phy-mm.c`, on the memory that holds the stack of free frames
and the bitmap behind it.  One frame is popped from the stack, several are searched for in slot
order; both mark what they hand out in the bitmap.  The pop loop runs on fuel.  What the functions
print is left out.
-/

namespace PakOS

open Machine

/-- `_PGUSE` -/
def pgUse : ℕ := 1

/-- `_PGFREE` -/
def pgFree : ℕ := 0

/-- The variables of the frame allocator, and the memory its stack and bitmap live in. -/
structure PhyMM where
  /-- Logical memory. -/
  mem : Mem
  /-- `_hwa_mmstart`: the first frame of the pool. -/
  hwaMmstart : ℕ
  /-- `_hwa_inu_bitmap` -/
  hwaInuBitmap : ℕ
  /-- `_hwas_bp`: the base of the stack, `__kernel_end`. -/
  hwasBp : ℕ
  /-- `_hwas_sp` -/
  hwasSp : ℕ
  /-- `_hwas_ssize`: the number of frames. -/
  hwasSsize : ℕ
  /-- `__phymm_end` -/
  phymmEnd : ℕ

/-- A word read as a signed number. -/
def toSigned (x : ℕ) : ℤ := if x < 2147483648 then x else x - 4294967296

namespace PhyMM

/-- `pgidx` of the bitmap macros: the signed difference of two pointers, divided by the frame size
towards zero, as an unsigned word. -/
def pgidx (s : PhyMM) (hwaddr : ℕ) : ℕ :=
  ((toSigned (sub32 hwaddr s.hwaMmstart)).tdiv 4096 % 4294967296).toNat

/-- `_hwa_inubm_get(hwaddr)` -/
def inubmGet (s : PhyMM) (hwaddr : ℕ) : ℕ :=
  readBit s.mem (add32 s.hwaInuBitmap (s.pgidx hwaddr / 8)) (s.pgidx hwaddr % 8)

/-- `_hwa_inubm_set(hwaddr, in_use)` -/
def inubmSet (s : PhyMM) (hwaddr inUse : ℕ) : PhyMM :=
  { s with
    mem := writeBit s.mem (add32 s.hwaInuBitmap (s.pgidx hwaddr / 8)) (s.pgidx hwaddr % 8)
      (inUse ≠ 0) }

/-- `_hwas_bp[i]` -/
def slot (s : PhyMM) (i : ℕ) : ℕ := loadLE 4 s.mem (add32 s.hwasBp (mul32 4 i))

/-- The pop loop of `hwpalloc(1)`: the address found and the stack pointer behind it. -/
def popUnused (s : PhyMM) : ℕ → ℕ → Option (ℕ × ℕ)
  | 0, _ => none
  | fuel + 1, sp =>
    let addr := loadLE 4 s.mem sp
    if s.inubmGet addr = pgUse then popUnused s fuel (sub32 sp 4) else some (addr, sub32 sp 4)

/-- The search of `hwpalloc(n)` with `rest` slots to go: the values of `i` and `cons` after the
loop. -/
def findRun (s : PhyMM) (n : ℕ) : ℕ → ℕ → ℕ → ℕ × ℕ
  | 0, i, cons => (i, cons)
  | rest + 1, i, cons =>
    if cons = n then (i, cons)
    else if s.inubmGet (s.slot i) = pgFree then findRun s n rest (i + 1) (cons + 1)
    else findRun s n rest (i + 1) 0

/-- Mark the `n` frames from `addr` on, in the loops of `hwpalloc` and `hwpfree`. -/
def setFrames (s : PhyMM) (addr inUse : ℕ) : ℕ → PhyMM
  | 0 => s
  | n + 1 => (setFrames s addr inUse n).inubmSet (add32 addr (n * 4096)) inUse

/-- `hwpalloc(n)` -/
def hwpalloc (fuel n : ℕ) (s : PhyMM) : Option (ℕ × PhyMM) :=
  if s.hwasSp = s.hwasBp then some (0, s)
  else if n = 1 then
    (s.popUnused fuel s.hwasSp).map fun (addr, sp) =>
      (addr, { s with hwasSp := sp }.inubmSet addr pgUse)
  else
    let (i, cons) := s.findRun n s.hwasSsize 0 0
    let addr := s.slot (sub32 i cons)
    some (addr, s.setFrames addr pgUse n)

/-- `hwpfree(hwaddr, n)` -/
def hwpfree (hwaddr n : ℕ) (s : PhyMM) : Status × PhyMM :=
  if hwaddr < s.hwaMmstart ∨ hwaddr ≥ add32 s.hwaMmstart (mul32 s.hwasSsize 4096) then
    (.invalidMem, s)
  else if s.inubmGet hwaddr = pgFree then (.doubleFree, s)
  else if n = 1 then
    if s.hwasSp < add32 s.hwasBp (mul32 4 s.hwasSsize) then (.borkdMem, s)
    else
      let s := s.inubmSet hwaddr pgFree
      let sp := add32 s.hwasSp 4
      (.ok, { s with hwasSp := sp, mem := storeLE 4 s.mem sp hwaddr })
  else (.ok, s.setFrames hwaddr pgFree n)

end PhyMM

end PakOS
