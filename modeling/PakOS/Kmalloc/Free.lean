import PakOS.Vga.Console

/-!
# `kfree`, `krealloc` and `init_kmalloc`

The freeing half of `kernel/mm/kmalloc.c`.  `kfreeBlock` is the part of `kfree` that runs on a
header with a valid magic word: merge forward, merge backward, repair the links of the neighbours,
set the free flag.
-/

namespace PakOS

open Machine

variable {E : Type*}

/-- The first `if` of `kfree`: the block absorbs a free next block. -/
def mergeNext (m : Mem) (block : ℕ) : Mem :=
  let next := getField m block .nextBlock
  if next ≠ 0 ∧ getField m next .free = mblkFree then
    let totalSize := add32 (getField m block .size) (getField m next .size)
    let m := setField m block .nextBlock (getField m next .nextBlock)
    setField m block .size totalSize
  else m

/-- The second `if` of `kfree`: a free previous block absorbs the block.  `prev` was read before the
first `if`.  Returns the memory and the new value of `block`. -/
def mergePrev (m : Mem) (prev block : ℕ) : Mem × ℕ :=
  if prev ≠ 0 ∧ getField m prev .free = mblkFree then
    let totalSize := add32 (getField m block .size) (getField m prev .size)
    let m := setField m prev .nextBlock (getField m block .nextBlock)
    (setField m prev .size totalSize, prev)
  else (m, block)

/-- The end of `kfree`: the neighbours are linked to the block, and it becomes free. -/
def relinkFree (m : Mem) (block : ℕ) : Mem :=
  let m :=
    if getField m block .nextBlock ≠ 0 then
      setField m (getField m block .nextBlock) .prevBlock block
    else m
  let m :=
    if getField m block .prevBlock ≠ 0 then
      setField m (getField m block .prevBlock) .nextBlock block
    else m
  setField m block .free mblkFree

/-- `kfree` from the point where the header was found valid. -/
def kfreeBlock (m : Mem) (block : ℕ) : Mem :=
  let prev := getField m block .prevBlock
  let (m, block) := mergePrev (mergeNext m block) prev block
  relinkFree m block

/-- `"Freeing invalid block:"` -/
def freeingInvalidBlock : List UInt8 :=
  [70, 114, 101, 101, 105, 110, 103, 32, 105, 110, 118, 97, 108, 105, 100, 32, 98, 108, 111, 99,
    107, 58]

/-- `"* malloc: Tried freeing invalid block at "` -/
def triedFreeingInvalidBlock : List UInt8 :=
  [42, 32, 109, 97, 108, 108, 111, 99, 58, 32, 84, 114, 105, 101, 100, 32, 102, 114, 101, 101, 105,
    110, 103, 32, 105, 110, 118, 97, 108, 105, 100, 32, 98, 108, 111, 99, 107, 32, 97, 116, 32]

/-- `"Invalid block!"` -/
def invalidBlock : List UInt8 :=
  [73, 110, 118, 97, 108, 105, 100, 32, 98, 108, 111, 99, 107, 33]

/-- What `kfree` prints when it refuses `addr`. -/
def reportInvalidFree (space : Space E) (kfree : Kfree E) (fuel addr : ℕ) (k : Kernel E) :
    Option (Kernel E) :=
  match vgaPrint space kfree fuel freeingInvalidBlock k with
  | none => none
  | some k => vgaPuthex space kfree fuel addr (serialPrint triedFreeingInvalidBlock k)

/-- `kfree(addr)` -/
def kfree (space : Space E) : ℕ → Kfree E
  | 0, _, _ => none
  | fuel + 1, addr, k =>
    if addr = 0 then some (.ok, k)
    else
      let block := headerOf addr
      if ¬MblkValid k.mem block then
        (reportInvalidFree space (kfree space fuel) fuel addr k).map fun k => (.invalidFree, k)
      else some (.ok, { k with mem := kfreeBlock k.mem block })

/-- The copy loop of `krealloc`: its bound `block->size` is read again before every byte. -/
def reallocCopy (block newData oldData : ℕ) : ℕ → ℕ → Mem → Option Mem
  | 0, _, _ => none
  | fuel + 1, i, m =>
    if i < getField m block .size then
      reallocCopy block newData oldData fuel (i + 1)
        (Function.update m (add32 newData i) (m (add32 oldData i)))
    else some m

/-- `krealloc(ptr, size)` -/
def krealloc (space : Space E) (fuel ptr size : ℕ) (k : Kernel E) : Option (ℕ × Kernel E) :=
  if ptr = 0 then kmalloc space fuel size k
  else
    let block := headerOf ptr
    if ¬MblkValid k.mem block then
      (vgaPrint space (kfree space fuel) fuel invalidBlock k).map fun k => (0, k)
    else if getField k.mem block .size ≥ size then some (ptr, k)
    else
      match kmalloc space fuel size k with
      | none => none
      | some (newData, k) =>
        if newData = 0 then some (0, k)
        else
          match reallocCopy block newData ptr fuel 0 k.mem with
          | none => none
          | some m => (kfree space fuel ptr { k with mem := m }).map fun r => (newData, r.2)

/-- `init_kmalloc(kheap_start, kheap_size)`, with its first allocation and free. -/
def initKmalloc (space : Space E) (fuel kheapStart kheapSize : ℕ) (k : Kernel E) :
    Option (Status × Kernel E) :=
  let k := { k with heapStart := kheapStart, minHeapSize := kheapSize, heapSize := 0 }
  match kmalloc space fuel 11000 k with
  | none => none
  | some (a, k) => (kfree space fuel a k).map fun r => (.ok, r.2)

end PakOS
