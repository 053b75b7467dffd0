import PakOS.PhyMM.Frames

/-!
# `init_phymm`

The walk over the memory map that the boot loader left behind, and the set-up of the pool in the
first usable region.  `initPhymm_layout` says where the stack and the bitmap are after a successful
call.
-/

namespace PakOS

open Machine

namespace PhyMM

/-- The loops that fill the stack: slot `i` gets the address of frame `i`. -/
def fillStack (bp mmstart : ℕ) (m : Mem) : ℕ → Mem
  | 0 => m
  | n + 1 =>
    storeLE 4 (fillStack bp mmstart m n) (add32 bp (mul32 4 n)) (add32 mmstart (mul32 4096 n))

/-- `kernel_size` of `init_phymm` -/
def kernelSize (kernelEnd : ℕ) : ℕ := add32 (sub32 kernelEnd 0xc0100000) 0x1000

/-- The number of frames that `init_phymm` takes from a region: the length is a 64-bit number, and
so is the quotient before it is stored. -/
def poolSize (kernelEnd length : ℕ) : ℕ :=
  let ssize := (length + (18446744073709551616 - kernelSize kernelEnd)) % 18446744073709551616 /
    4096 % 4294967296
  if ssize > 128 then 128 else ssize

/-- Where `init_phymm` lets the bitmap begin: the stack pointer, rounded up to 256 bytes. -/
def bitmapStart (sp : ℕ) : ℕ := add32 sp 0xff &&& 0xffffff00

/-- Set up a pool of `ssize` frames from `mmstart` on: the stack, the bitmap behind it, and the end
of both. -/
def setUpPool (mmstart ssize : ℕ) (s : PhyMM) : PhyMM :=
  let bp := s.hwasBp
  let m := fillStack bp mmstart s.mem ssize
  let sp := sub32 (add32 bp (mul32 4 ssize)) 4
  let bitmap := bitmapStart sp
  let m := fillBytes m bitmap 0 (ssize / 8)
  let phymmEnd := add32 (add32 bitmap (ssize / 8)) 4096 &&& 0xfffffc00
  { mem := m, hwaMmstart := mmstart, hwaInuBitmap := bitmap, hwasBp := bp, hwasSp := sp,
    hwasSsize := ssize, phymmEnd := phymmEnd }

/-- The body of the `if` of `init_phymm`. -/
def usePool (kernelEnd baseAddr length : ℕ) (s : PhyMM) : PhyMM :=
  setUpPool (add32 (baseAddr % 4294967296) (kernelSize kernelEnd)) (poolSize kernelEnd length) s

/-- The `do` loop of `init_phymm`, from the entry at `ptr`. -/
def initLoop (kernelEnd mmapAddr mmapLen : ℕ) : ℕ → ℕ → PhyMM → Option (Status × PhyMM)
  | 0, _, _ => none
  | fuel + 1, ptr, s =>
    let baseAddr := loadLE 8 s.mem (ptr + 4)
    let length := loadLE 8 s.mem (ptr + 12)
    if baseAddr ≥ 0x100000 ∧ loadLE 4 s.mem (ptr + 20) = 1 then
      some (.ok, usePool kernelEnd baseAddr length s)
    else
      let ptr := add32 ptr (add32 (loadLE 4 s.mem ptr) 4)
      if ptr ≤ add32 mmapAddr mmapLen then initLoop kernelEnd mmapAddr mmapLen fuel ptr s
      else some (.failedInit, s)

/-- `init_phymm()`, with `__kernel_end` and the memory map of the boot loader; `_hwas_bp` is
`__kernel_end` from the start. -/
def initPhymm (kernelEnd mmapAddr mmapLen fuel : ℕ) (m : Mem) : Option (Status × PhyMM) :=
  initLoop kernelEnd mmapAddr mmapLen fuel mmapAddr
    { mem := m, hwaMmstart := 0, hwaInuBitmap := 0, hwasBp := kernelEnd, hwasSp := 0, hwasSsize := 0,
      phymmEnd := 0 }

/-! ### The layout after initialisation -/

/-- Where a successful `init_phymm` puts the stack and the bitmap. -/
structure Layout (kernelEnd : ℕ) (s : PhyMM) : Prop where
  /-- The stack begins at the end of the kernel. -/
  bp : s.hwasBp = kernelEnd
  /-- The number of frames is capped. -/
  size_le : s.hwasSsize ≤ 128
  /-- The stack pointer is at the last slot. -/
  sp : s.hwasSp = sub32 (add32 kernelEnd (mul32 4 s.hwasSsize)) 4
  /-- The bitmap begins at the last slot, rounded up. -/
  bitmap : s.hwaInuBitmap = bitmapStart s.hwasSp
  /-- The bytes of the bitmap that are cleared. -/
  cleared : ∀ i < s.hwasSsize / 8, s.mem (add32 s.hwaInuBitmap i) = 0

theorem poolSize_le (kernelEnd length : ℕ) : poolSize kernelEnd length ≤ 128 := by
  unfold poolSize
  simp only
  split <;> omega

theorem layout_setUpPool {mmstart ssize : ℕ} (hle : ssize ≤ 128) (s : PhyMM) :
    Layout s.hwasBp (setUpPool mmstart ssize s) :=
  ⟨rfl, hle, rfl, rfl, fun _ hi => fillBytes_of_mem hi⟩

/-- A successful `init_phymm` ends with the set-up of a pool. -/
theorem initPhymm_eq {kernelEnd mmapAddr mmapLen fuel : ℕ} {m : Mem} {s : PhyMM}
    (h : initPhymm kernelEnd mmapAddr mmapLen fuel m = some (.ok, s)) :
    ∃ baseAddr length s₁, s₁.hwasBp = kernelEnd ∧ usePool kernelEnd baseAddr length s₁ = s := by
  have hloop : ∀ fuel ptr s₀, initLoop kernelEnd mmapAddr mmapLen fuel ptr s₀ = some (.ok, s) →
      ∃ baseAddr length, usePool kernelEnd baseAddr length s₀ = s := by
    intro fuel
    induction fuel with
    | zero => intro ptr s₀ h; simp [initLoop] at h
    | succ fuel ih =>
      intro ptr s₀ h
      rw [initLoop] at h
      simp only at h
      split at h
      · simp only [Option.some.injEq, Prod.mk.injEq, true_and] at h
        exact ⟨_, _, h⟩
      · split at h
        · exact ih _ s₀ h
        · simp at h
  obtain ⟨baseAddr, length, hs⟩ := hloop fuel mmapAddr _ h
  exact ⟨baseAddr, length, _, rfl, hs⟩

/-- The layout after a successful `init_phymm`. -/
theorem initPhymm_layout {kernelEnd mmapAddr mmapLen fuel : ℕ} {m : Mem} {s : PhyMM}
    (h : initPhymm kernelEnd mmapAddr mmapLen fuel m = some (.ok, s)) : Layout kernelEnd s := by
  obtain ⟨baseAddr, length, s₁, rfl, rfl⟩ := initPhymm_eq h
  exact layout_setUpPool (poolSize_le _ _) s₁

end PhyMM

end PakOS
