import PakOS.Kmalloc.Header

/-!
# `kmalloc` and `kcalloc`

The allocating half of `kernel/mm/kmalloc.c`, statement by statement.  Loops over the block list and
the recursion of `kmalloc` run on fuel: `none` means that the fuel did not suffice, never that the
code failed.

The one part of `__new_blockspace` that differs between the two builds (`#ifndef LINUX_MALLOC`) is
the parameter `space`: it obtains `nbytes` of new space and returns where that space starts.
`kernelSpace` is the kernel's version.  The kernel calls `mmap` and drops its status; `mmap` itself
is a parameter here, and is modelled from `virt-mm.c` in `PakOS.VirtMM`.
-/

namespace PakOS

open Machine

variable {E : Type*}

/-- `mmap(addr, length)` as the heap sees it: a status, and an effect on the provider's state. -/
abbrev Mmap (E : Type*) := ℕ → ℕ → E → Status × E

/-- The build-dependent part of `__new_blockspace`: obtain `nbytes` of new space, return its
start. -/
abbrev Space (E : Type*) := ℕ → Kernel E → ℕ × Kernel E

/-- The kernel's way to obtain space: map the pages behind the end of the heap. -/
def kernelSpace (mmap : Mmap E) : Space E := fun nbytes k =>
  let newSpaceStart := add32 k.heapStart k.heapSize
  -- the status of `mmap` is not looked at
  let os := (mmap newSpaceStart nbytes k.os).2
  (newSpaceStart, { k with os := os, heapSize := add32 k.heapSize nbytes })

/-- The loop of `__find_free_block(&last, size)`, from `current`: the block found (`0` for none) and
the value left in `last`. -/
def findFreeBlock (m : Mem) (size : ℕ) : ℕ → ℕ → ℕ → Option (ℕ × ℕ)
  | 0, _, _ => none
  | fuel + 1, current, last =>
    if current ≠ 0 ∧
        ¬(getField m current .free = mblkFree ∧ getField m current .size ≥ size) then
      findFreeBlock m size fuel (getField m current .nextBlock) current
    else
      some (current, last)

/-- The header `__new_blockspace` writes for a new block, and the link from the last block. -/
def appendHeader (m : Mem) (last block nbytes : ℕ) : Mem :=
  let m :=
    if last ≠ 0 then setField (setField m last .nextBlock block) block .prevBlock last
    else setField m block .prevBlock 0
  let m := setField m block .size (sub32 nbytes sizeofMallocH)
  let m := setField m block .nextBlock 0
  let m := setField m block .free mblkFree
  setField m block .magic 0xdeadbeef

/-- The number of bytes `__new_blockspace` asks for. -/
def growBytes (size : ℕ) : ℕ := add32 (add32 size sizeofMallocH) 0x1000 &&& 0xfffff000

/-- `__new_blockspace(last, size)` -/
def newBlockspace (space : Space E) (last size : ℕ) (k : Kernel E) : ℕ × Kernel E :=
  let nbytes := growBytes size
  let (block, k) := space nbytes k
  if block = 0xffffffff ∨ block = 0 then (0, k)
  else (block, { k with mem := appendHeader k.mem last block nbytes })

/-- The split of a found block: a header for the rest is written behind the first `length` payload
bytes and linked in after the block. -/
def squeezeBlock (m : Mem) (block length : ℕ) : Mem :=
  let squeeze := add32 (payload block) length
  let m := setField m squeeze .size (sub32 (sub32 (getField m block .size) sizeofMallocH) length)
  let m := setField m squeeze .free mblkFree
  let m := setField m squeeze .magic 0xb00bbabe
  let m := setField m squeeze .nextBlock (getField m block .nextBlock)
  let m := setField m squeeze .prevBlock block
  let m :=
    if getField m block .nextBlock ≠ 0 then
      setField m (getField m block .nextBlock) .prevBlock squeeze
    else m
  let m := setField m block .nextBlock squeeze
  setField m block .size length

/-- `(length + 0xf) & ~0xf` -/
def align16 (length : ℕ) : ℕ := add32 length 0xf &&& 0xfffffff0

/-- `kmalloc(length)` -/
def kmalloc (space : Space E) : ℕ → ℕ → Kernel E → Option (ℕ × Kernel E)
  | 0, _, _ => none
  | fuel + 1, length, k =>
    let length := align16 length
    if k.firstBlk = 0 then
      let k := if length > k.minHeapSize then { k with minHeapSize := length } else k
      let (block, k) := newBlockspace space 0 k.minHeapSize k
      kmalloc space fuel length { k with firstBlk := block }
    else
      match findFreeBlock k.mem length fuel k.firstBlk k.firstBlk with
      | none => none
      | some (found, last) =>
        let (block, k) :=
          if found = 0 then newBlockspace space last length k
          else if getField k.mem found .size > add32 (add32 256 length) sizeofMallocH then
            (found, { k with mem := squeezeBlock k.mem found length })
          else (found, k)
        some (payload block, { k with mem := setField k.mem block .free mblkInUse })

/-- `kcalloc(nmemb, size)` -/
def kcalloc (space : Space E) (fuel nmemb size : ℕ) (k : Kernel E) : Option (ℕ × Kernel E) :=
  let length := mul32 nmemb size
  match kmalloc space fuel length k with
  | none => none
  | some (data, k) => some (data, { k with mem := fillBytes k.mem data 0 length })

end PakOS
