import PakOS.PhyMM.Fresh
import PakOS.PhyMM.MmapWalk

/-!
# Where the frames of the pool come from

`init_phymm` computes with 32-bit pointers what a memory map says in 64-bit numbers.  The frames
that it pushes begin a page behind the image of the kernel, counted from the beginning of the
region, and their number is what is left of its length.

They are memory of the region that nobody else uses exactly if the region is no shorter than the
image and that page, and what is taken of it lies below 4G (`frames_in_ram_iff`).  Since regions
begin at 1M or above, the image is never in the way.
-/

namespace PakOS

open Machine

namespace PhyMM

/-- The physical address of a byte of the kernel, which is loaded at 1M. -/
def kernelPhysical (x : ℕ) : ℕ := x - 0xc0000000

/-- `(uint8_t*) _hwa_mmstart + 4096 * i`: what the loop of `init_phymm` pushes. -/
def pushed (s : PhyMM) (i : ℕ) : ℕ := add32 s.hwaMmstart (mul32 4096 i)

/-- The frames that fit into a region behind the image of the kernel, as `init_phymm` computes
them. -/
def framesFit (kernelEnd length : ℕ) : ℕ :=
  (length + (18446744073709551616 - kernelSize kernelEnd)) % 18446744073709551616 / 4096 % 4294967296

/-- The frame at `f` is memory of a region that nothing else uses. -/
structure FrameInRam (kernelEnd base length : ℕ) (s : PhyMM) (f : ℕ) : Prop where
  /-- It lies in the region. -/
  region : base ≤ f ∧ f + 4096 ≤ base + length
  /-- It lies below 4G. -/
  below : f + 4096 ≤ 4294967296
  /-- It is not part of the image of the kernel. -/
  image : f + 4096 ≤ 0x100000 ∨ kernelPhysical kernelEnd ≤ f
  /-- It is not part of the stack. -/
  stack : f + 4096 ≤ kernelPhysical s.hwasBp ∨ kernelPhysical s.hwasBp + 4 * s.hwasSsize ≤ f
  /-- It is not part of the bitmap. -/
  bitmap : f + 4096 ≤ kernelPhysical s.hwaInuBitmap ∨
    kernelPhysical s.hwaInuBitmap + (s.hwasSsize + 7) / 8 ≤ f

variable {kernelEnd addr len fuel p base length i : ℕ} {m : Mem} {s : PhyMM}

theorem poolSize_eq (kernelEnd length : ℕ) :
    poolSize kernelEnd length = min (framesFit kernelEnd length) 128 := by
  change (if framesFit kernelEnd length > 128 then 128 else framesFit kernelEnd length) = _
  split <;> omega

/-- The size of the image and a page. -/
theorem kernelSize_eq (hlow : 0xc0100000 ≤ kernelEnd) (hhigh : kernelEnd < 4294967296) :
    kernelSize kernelEnd = kernelEnd - 0xc0100000 + 4096 := by
  rw [kernelSize, sub32_of_le hhigh hlow, add32_of_lt (by omega)]

/-- A region that is long enough has room for the frames that fit. -/
theorem framesFit_of_le (hle : kernelSize kernelEnd ≤ length) (hlen : length < 18446744073709551616) :
    framesFit kernelEnd length = (length - kernelSize kernelEnd) / 4096 % 4294967296 := by
  have hsub : (length + (18446744073709551616 - kernelSize kernelEnd)) % 18446744073709551616 =
      length - kernelSize kernelEnd := by
    omega
  rw [framesFit, hsub]

/-- A region that is too short seems to have room for very many. -/
theorem lt_framesFit (hlt : length < kernelSize kernelEnd) (hsize : kernelSize kernelEnd < 4294967296) :
    128 < framesFit kernelEnd length := by
  unfold framesFit
  omega

/-- Where the frames of a pool are, when they are below 4G. -/
theorem pushed_of_le {n : ℕ} (hspace : base + kernelSize kernelEnd + 4096 * n ≤ 4294967296)
    (hmm : s.hwaMmstart = add32 (base % 4294967296) (kernelSize kernelEnd)) (hi : i < n) :
    s.pushed i = base + kernelSize kernelEnd + 4096 * i := by
  rw [pushed, hmm, Nat.mod_eq_of_lt (show base < 4294967296 by omega), mul32_of_lt (by omega),
    add32_of_lt (show base + kernelSize kernelEnd < 4294967296 by omega), add32_of_lt (by omega)]

/-- Where the bitmap begins. -/
theorem bitmapStart_le {bp n : ℕ} (hbp : 4096 ∣ bp) (hlow : 4 ≤ bp) (hhigh : bp < 4294967296)
    (hn : n ≤ 128) : bp ≤ bitmapStart (bp + 4 * n - 4) ∧ bitmapStart (bp + 4 * n - 4) ≤ bp + 512 := by
  rw [bitmapStart_eq (by omega)]
  omega

/-- Frames behind the image of the kernel and a page are not used by it. -/
theorem frameInRam_of_le (hl : Layout kernelEnd s) (hend : 4096 ∣ kernelEnd)
    (hlow : 0xc0100000 ≤ kernelEnd) (hhigh : kernelEnd < 4294967296) {f : ℕ}
    (hbase : 0x100000 ≤ base) (hf : base + kernelSize kernelEnd ≤ f)
    (hregion : f + 4096 ≤ base + length) (hbelow : f + 4096 ≤ 4294967296) :
    FrameInRam kernelEnd base length s f := by
  have hsize := kernelSize_eq hlow hhigh
  have hle := hl.size_le
  have hbp := hl.bp
  have hstart := bitmapStart_le hend (by omega) hhigh hle
  rw [← hl.bitmap_eq hend (by omega) hhigh] at hstart
  refine ⟨⟨by omega, hregion⟩, hbelow, Or.inr ?_, Or.inr ?_, Or.inr ?_⟩
  · unfold kernelPhysical
    omega
  · unfold kernelPhysical
    omega
  · unfold kernelPhysical
    omega

/-- A frame that lies in its region, below 4G, has the address that it was meant to have. -/
theorem eq_of_frameInRam (hmm : s.hwaMmstart = add32 (base % 4294967296) (kernelSize kernelEnd))
    (h : FrameInRam kernelEnd base length s (s.pushed i))
    (hsmall : kernelSize kernelEnd + 4096 * i < 4294967296) :
    s.pushed i = base + kernelSize kernelEnd + 4096 * i := by
  have hregion := h.region.1
  have hbelow := h.below
  have hbase : base % 4294967296 = base := Nat.mod_eq_of_lt (by omega)
  have hpushed : s.pushed i = (base + kernelSize kernelEnd + 4096 * i) % 4294967296 := by
    rw [pushed, hmm, hbase, mul32_of_lt (by omega), add32, add32, Nat.mod_add_mod]
  omega

/-- **Where the frames come from.**  Whatever the memory map, the frames that a successful
`init_phymm` pushes are memory of the region that it has chosen, below 4G, and of nobody else,
exactly if the region is no shorter than the image of the kernel and a page, and the frames that are
taken lie below 4G. -/
theorem frames_in_ram_iff (hend : 4096 ∣ kernelEnd) (hlow : 0xc0100000 ≤ kernelEnd)
    (hhigh : kernelEnd < 4294967296) (hp : Chosen kernelEnd addr len fuel m p)
    (hrun : initPhymm kernelEnd addr len fuel m = some (.ok, s)) :
    (∀ i < s.hwasSsize,
      FrameInRam kernelEnd (entryBase m p) (entryLength m p) s (s.pushed i)) ↔
    kernelSize kernelEnd ≤ entryLength m p ∧ (framesFit kernelEnd (entryLength m p) = 0 ∨
      entryBase m p + kernelSize kernelEnd +
        4096 * min (framesFit kernelEnd (entryLength m p)) 128 ≤ 4294967296) := by
  have hl := initPhymm_layout hrun
  obtain ⟨-, rfl⟩ := Prod.mk.inj (Option.some.inj (hp.initPhymm_eq.symm.trans hrun))
  have hbase : 0x100000 ≤ entryBase m p := hp.2.1
  have hlen : entryLength m p < 18446744073709551616 := loadLE_lt 8 m (p + 12)
  have hsize := kernelSize_eq hlow hhigh
  generalize entryBase m p = base at *
  generalize entryLength m p = length at *
  have hssize : (usePool kernelEnd base length (beforeInit kernelEnd m)).hwasSsize =
      min (framesFit kernelEnd length) 128 := poolSize_eq kernelEnd length
  have hmm : (usePool kernelEnd base length (beforeInit kernelEnd m)).hwaMmstart =
      add32 (base % 4294967296) (kernelSize kernelEnd) := rfl
  generalize usePool kernelEnd base length (beforeInit kernelEnd m) = s at *
  rw [hssize]
  constructor
  · intro h
    by_cases hle : kernelSize kernelEnd ≤ length
    · refine ⟨hle, ?_⟩
      by_cases h0 : framesFit kernelEnd length = 0
      · exact Or.inl h0
      · -- the last frame decides
        obtain ⟨n, hn⟩ : ∃ n, min (framesFit kernelEnd length) 128 = n + 1 :=
          Nat.exists_eq_add_one.mpr (by omega)
        have hlast := h n (by omega)
        have hpushed := eq_of_frameInRam hmm hlast (by omega)
        have hbelow := hlast.below
        refine Or.inr ?_
        omega
    · -- already the first frame lies behind the region
      have hmany := lt_framesFit (Nat.lt_of_not_le hle) (by omega)
      have hfirst := h 0 (by omega)
      have hpushed := eq_of_frameInRam hmm hfirst (by omega)
      have hregion := hfirst.region.2
      omega
  · rintro ⟨hle, hspace⟩ i hi
    have hspace' := hspace.resolve_left (by omega)
    have hfit := framesFit_of_le hle hlen
    have hpushed := pushed_of_le hspace' hmm hi
    rw [hpushed]
    exact frameInRam_of_le hl hend hlow hhigh hbase (Nat.le_add_right _ _) (by omega) (by omega)

/-- The frames that are taken from the memory of the emulated machine. -/
theorem frames_in_ram_pc :
    ∃ s, initPhymm 0xc0105000 0x10000 48 2 pcMmap = some (.ok, s) ∧ s.hwasSsize = 128 ∧
      ∀ i < s.hwasSsize,
        FrameInRam 0xc0105000 (entryBase pcMmap 0x10018) (entryLength pcMmap 0x10018) s
          (s.pushed i) := by
  have hp : Chosen 0xc0105000 0x10000 48 2 pcMmap 0x10018 := by decide +kernel
  have hbase : entryBase pcMmap 0x10018 = 0x100000 := by decide +kernel
  have hlength : entryLength pcMmap 0x10018 = 0x7ee0000 := by decide +kernel
  refine ⟨_, hp.initPhymm_eq, ?_, (frames_in_ram_iff (by decide) (by decide) (by decide) hp
    hp.initPhymm_eq).mpr ?_⟩
  · rw [hbase, hlength]
    decide +kernel
  · rw [hbase, hlength]
    decide +kernel

/-- Of a region with fewer frames than the image of the kernel the frames behind it are pushed; and
of a region above 4G those that have the same address modulo 4G. -/
theorem frames_not_in_ram :
    (∃ s, initPhymm 0xc0105000 0x10000 24 1 (mmapOf [(20, 0x100000, 0x5000, 1)]) = some (.ok, s) ∧
      s.hwasSsize = 128 ∧ s.pushed 0 = 0x106000 ∧
        ¬FrameInRam 0xc0105000 0x100000 0x5000 s (s.pushed 0)) ∧
    ∃ s, initPhymm 0xc0105000 0x10000 24 1 (mmapOf [(20, 0x100000000, 0x10000000, 1)]) =
        some (.ok, s) ∧ s.hwasSsize = 128 ∧ s.pushed 0 = 0x6000 ∧
        ¬FrameInRam 0xc0105000 0x100000000 0x10000000 s (s.pushed 0) := by
  have hsmall : Chosen 0xc0105000 0x10000 24 1 (mmapOf [(20, 0x100000, 0x5000, 1)]) 0x10000 := by
    decide +kernel
  have hhigh : Chosen 0xc0105000 0x10000 24 1 (mmapOf [(20, 0x100000000, 0x10000000, 1)])
      0x10000 := by
    decide +kernel
  refine ⟨⟨_, hsmall.initPhymm_eq, by decide +kernel, by decide +kernel, fun h => ?_⟩,
    _, hhigh.initPhymm_eq, by decide +kernel, by decide +kernel, fun h => ?_⟩
  · have hregion := h.region
    revert hregion
    decide +kernel
  · have hregion := h.region
    revert hregion
    decide +kernel

end PhyMM

end PakOS
