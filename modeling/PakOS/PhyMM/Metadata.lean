import PakOS.PhyMM.Region

/-!
# The stack and the bitmap after `init_phymm`

The bitmap begins at the last slot of the stack, rounded up, and is cleared in whole bytes.  Whether
the two collide, and whether every frame has a bit that was cleared, depends on the number of frames
only: all is well exactly if it is a multiple of eight (`metadata_iff`), as it is when the cap is
reached.
-/

namespace PakOS

open Machine

namespace PhyMM

/-- The stack and the bitmap are what `init_phymm` means them to be. -/
structure MetadataOk (s : PhyMM) : Prop where
  /-- Each slot holds what was pushed there. -/
  slots : ∀ i < s.hwasSsize, s.slot i = s.pushed i
  /-- No byte of the bitmap belongs to a slot. -/
  disjoint : ∀ i < s.hwasSsize, ∀ j < (s.hwasSsize + 7) / 8,
    add32 s.hwaInuBitmap j < add32 s.hwasBp (mul32 4 i) ∨
      add32 s.hwasBp (mul32 4 i) + 4 ≤ add32 s.hwaInuBitmap j
  /-- Each frame has a bit in a byte that is cleared. -/
  covered : ∀ i < s.hwasSsize, i / 8 < s.hwasSsize / 8
  /-- Each frame is marked free. -/
  free : ∀ i < s.hwasSsize, s.inubmGet (s.pushed i) = pgFree

variable {kernelEnd addr len fuel p i : ℕ} {m : Mem} {s : PhyMM}

/-- The bit of a frame that was pushed. -/
theorem bitLoc_pushed (hmm : s.hwaMmstart < 4294967296) (hi : i < 524288) :
    s.bitLoc (s.pushed i) = (add32 s.hwaInuBitmap (i / 8), i % 8) := by
  have hsub : sub32 (s.pushed i) s.hwaMmstart = 4096 * i := by
    rw [pushed, mul32_of_lt (by omega), sub32, add32]
    omega
  rw [bitLoc, pgidx_of_sub hsub, if_pos hi]

/-- With a multiple of eight frames all is well. -/
theorem metadataOk_of_dvd (hl : Layout kernelEnd s) (hend : 4096 ∣ kernelEnd)
    (hhigh : kernelEnd < 4294967296) (hmm : s.hwaMmstart < 4294967296)
    (hslots : s.hwasSsize ≠ 65 → ∀ i < s.hwasSsize, s.slot i = s.pushed i)
    (hpos : 1 ≤ s.hwasSsize) (hdvd : 8 ∣ s.hwasSsize) : MetadataOk s := by
  have hle := hl.size_le
  have hstart := le_bitmapStart hend (show 4 ≤ kernelEnd + 4 * s.hwasSsize by omega) hhigh hle
    (by omega) (by omega)
  rw [← hl.bitmap_eq hend (by omega) hhigh] at hstart
  refine ⟨hslots (by omega), fun i hi j hj => Or.inr ?_, fun i hi => by omega, fun i hi => ?_⟩
  · rw [hl.bp, mul32_of_lt (by omega), add32_of_lt (show kernelEnd + 4 * i < 4294967296 by omega),
      add32_of_lt (show s.hwaInuBitmap + j < 4294967296 by omega)]
    omega
  · have hcleared := hl.cleared (i / 8) (by omega)
    rw [inubmGet_eq, bitLoc_pushed hmm (by omega), memBit]
    simp only [hcleared]
    exact if_neg (by simp)

/-- **The layout of the metadata.**  For every region from which `init_phymm` takes frames: the
stack and the bitmap are what they are meant to be exactly if at least 128 frames fit, or a multiple
of eight. -/
theorem metadata_iff (hend : 4096 ∣ kernelEnd) (hhigh : kernelEnd < 4294967296)
    (hp : Chosen kernelEnd addr len fuel m p)
    (hrun : initPhymm kernelEnd addr len fuel m = some (.ok, s)) (hpos : 1 ≤ s.hwasSsize) :
    MetadataOk s ↔
      128 ≤ framesFit kernelEnd (entryLength m p) ∨ 8 ∣ framesFit kernelEnd (entryLength m p) := by
  have hl := initPhymm_layout hrun
  obtain ⟨-, rfl⟩ := Prod.mk.inj (Option.some.inj (hp.initPhymm_eq.symm.trans hrun))
  have hssize : (usePool kernelEnd (entryBase m p) (entryLength m p)
      (beforeInit kernelEnd m)).hwasSsize = min (framesFit kernelEnd (entryLength m p)) 128 :=
    poolSize_eq kernelEnd (entryLength m p)
  have hle := poolSize_le kernelEnd (entryLength m p)
  constructor
  · intro h
    have hlast := h.covered (min (framesFit kernelEnd (entryLength m p)) 128 - 1) (by omega)
    omega
  · intro hdvd
    refine metadataOk_of_dvd hl hend hhigh (add32_lt _ _) (fun h65 i hi => ?_) hpos ?_
    · exact slot_setUpPool hend hhigh hle h65 hi
    · rw [hssize]
      omega

/-- The pool in the memory of the emulated machine. -/
theorem metadata_pc :
    ∃ s, initPhymm 0xc0105000 0x10000 48 2 pcMmap = some (.ok, s) ∧ 1 ≤ s.hwasSsize ∧
      MetadataOk s := by
  have hp : Chosen 0xc0105000 0x10000 48 2 pcMmap 0x10018 := by decide +kernel
  have hlength : entryLength pcMmap 0x10018 = 0x7ee0000 := by decide +kernel
  have hpos : 1 ≤ (usePool 0xc0105000 (entryBase pcMmap 0x10018) (entryLength pcMmap 0x10018)
      (beforeInit 0xc0105000 pcMmap)).hwasSsize := by
    decide +kernel
  refine ⟨_, hp.initPhymm_eq, hpos, (metadata_iff ?_ ?_ hp hp.initPhymm_eq hpos).mpr ?_⟩
  · decide
  · decide
  · rw [hlength]
    decide +kernel

/-- With 65 frames the bitmap begins on the last slot, and clears it; with one frame the byte that
its bit is in is part of its slot. -/
theorem not_metadataOk :
    (∃ s, initPhymm 0xc0105000 0x10000 24 1 (mmapOf [(20, 0x100000, 0x47000, 1)]) = some (.ok, s) ∧
      s.hwasSsize = 65 ∧ s.pushed 64 = 0x146000 ∧ s.slot 64 = 0 ∧ ¬MetadataOk s) ∧
    ∃ s, initPhymm 0xc0105000 0x10000 24 1 (mmapOf [(20, 0x100000, 0x7000, 1)]) = some (.ok, s) ∧
      s.hwasSsize = 1 ∧ s.hwaInuBitmap = s.hwasBp ∧ ¬MetadataOk s := by
  have hcollide : Chosen 0xc0105000 0x10000 24 1 (mmapOf [(20, 0x100000, 0x47000, 1)]) 0x10000 := by
    decide +kernel
  have hsingle : Chosen 0xc0105000 0x10000 24 1 (mmapOf [(20, 0x100000, 0x7000, 1)]) 0x10000 := by
    decide +kernel
  refine ⟨⟨_, hcollide.initPhymm_eq, by decide +kernel, by decide +kernel, by decide +kernel,
    fun h => ?_⟩, _, hsingle.initPhymm_eq, by decide +kernel, by decide +kernel, fun h => ?_⟩
  · exact absurd (h.slots 64 (by decide +kernel)) (by decide +kernel)
  · exact absurd (h.covered 0 (by decide +kernel)) (by decide +kernel)

end PhyMM

end PakOS
