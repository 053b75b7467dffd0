import PakOS.PhyMM.Pool

/-!
# Freshly initialised pools

What a successful `init_phymm` leaves behind: a stack that holds the frames of the pool in order,
and a cleared bitmap behind it (`initPhymm_slots`, `Layout.pool`).  Two things go wrong.  A pool of
65 frames gets its bitmap on top of the last slot; and the bitmap is cleared in whole bytes, so that
the last frames of a pool whose size is no multiple of eight start with whatever was there.
-/

namespace PakOS

open Machine

namespace PhyMM

/-- Where the bitmap begins. -/
theorem bitmapStart_eq {sp : ℕ} (hsp : sp + 255 < 4294967296) :
    bitmapStart sp = (sp + 255) / 256 * 256 := by
  rw [bitmapStart, add32_of_lt hsp]
  exact @and_highMask (sp + 255) 8 hsp (by decide)

/-- Rounding up the stack pointer leaves the stack when the stack has not one slot only, nor one
slot more than a multiple of 64. -/
theorem le_bitmapStart {bp n : ℕ} (hbp : 4096 ∣ bp) (hlow : 4 ≤ bp + 4 * n)
    (hhigh : bp < 4294967296) (hn : n ≤ 128) (h1 : n ≠ 1) (h65 : n ≠ 65) :
    bp + 4 * n ≤ bitmapStart (bp + 4 * n - 4) ∧ bitmapStart (bp + 4 * n - 4) ≤ bp + 512 := by
  rw [bitmapStart_eq (by omega)]
  omega

variable {s : PhyMM} {kernelEnd : ℕ}

/-- The stack pointer after a successful `init_phymm` is at the last slot. -/
theorem Layout.sp_add (hl : Layout kernelEnd s) (hend : 4096 ∣ kernelEnd)
    (hlow : 4 ≤ kernelEnd + 4 * s.hwasSsize) (hhigh : kernelEnd < 4294967296) :
    s.hwasSp + 4 = s.hwasBp + 4 * s.hwasSsize := by
  have hle := hl.size_le
  rw [hl.sp, hl.bp, mul32_of_lt (by omega), add32_of_lt (by omega), sub32_of_le (by omega) (by omega)]
  omega

/-- The bitmap after a successful `init_phymm`. -/
theorem Layout.bitmap_eq (hl : Layout kernelEnd s) (hend : 4096 ∣ kernelEnd)
    (hlow : 4 ≤ kernelEnd + 4 * s.hwasSsize) (hhigh : kernelEnd < 4294967296) :
    s.hwaInuBitmap = bitmapStart (kernelEnd + 4 * s.hwasSsize - 4) := by
  rw [hl.bitmap, Nat.eq_sub_of_add_eq (hl.sp_add hend hlow hhigh), hl.bp]

/-- After a successful `init_phymm` whose stack is filled correctly there is a pool, unless it has a
single frame. -/
theorem Layout.pool (hl : Layout kernelEnd s) (hend : 4096 ∣ kernelEnd) (hlow : 4 ≤ kernelEnd)
    (hhigh : kernelEnd < 4294967296) (hslots : ∀ i < s.hwasSsize, s.slot i = s.frame i)
    (h1 : s.hwasSsize ≠ 1) : Pool s := by
  have hle := hl.size_le
  have hbitmap := hl.bitmap_eq hend (by omega) hhigh
  have h65 : s.hwasSsize ≠ 65 := by
    -- the bitmap would begin at slot 64 and clear it
    intro h65
    have hstart : s.hwaInuBitmap = kernelEnd + 256 := by
      rw [hbitmap, h65, bitmapStart_eq (by omega)]
      omega
    have hslot : s.slot 64 = loadLE 4 (fun _ => 0) (kernelEnd + 256) := by
      rw [slot, hl.bp, mul32_of_lt (by decide), add32_of_lt (by omega)]
      refine loadLE_congr fun x hx hxlt => ?_
      have hc := hl.cleared (x - (kernelEnd + 256)) (by omega)
      rwa [hstart, add32_of_lt (by omega), Nat.add_sub_cancel' hx] at hc
    have hzero : s.slot 64 = 0 := by simp [hslot, loadLE]
    rw [hslots 64 (by omega), frame] at hzero
    omega
  have hstart := le_bitmapStart hend (by omega) hhigh hle h1 h65
  rw [← hbitmap, ← hl.bp] at hstart
  exact ⟨hslots, hstart.1, by have := hl.bp; omega, hle⟩

/-- The slots after the loop that fills the stack. -/
theorem loadLE_fillStack {bp mmstart n i : ℕ} {m : Mem} (hbp : bp + 4 * n ≤ 4294967296) (hi : i < n) :
    loadLE 4 (fillStack bp mmstart m n) (bp + 4 * i) = add32 mmstart (mul32 4096 i) := by
  induction n with
  | zero => omega
  | succ n ih =>
    rw [fillStack, mul32_of_lt (show 4 * n < 4294967296 by omega), add32_of_lt (by omega)]
    rcases Nat.lt_succ_iff_lt_or_eq.mp hi with hlt | rfl
    · rw [loadLE_storeLE_disjoint (by omega), ih (by omega) hlt]
    · exact loadLE_storeLE_same (add32_lt _ _)

/-- The stack of a pool that was set up holds what was pushed, when there are not 65 frames. -/
theorem slot_setUpPool {mmstart ssize i : ℕ} (hbp : 4096 ∣ s.hwasBp) (hhigh : s.hwasBp < 4294967296)
    (hle : ssize ≤ 128) (h65 : ssize ≠ 65) (hi : i < ssize) :
    (setUpPool mmstart ssize s).slot i = add32 mmstart (mul32 4096 i) := by
  have hsp : sub32 (add32 s.hwasBp (mul32 4 ssize)) 4 = s.hwasBp + 4 * ssize - 4 := by
    rw [mul32_of_lt (by omega), add32_of_lt (by omega), sub32_of_le (by omega) (by omega)]
  have haddr : add32 s.hwasBp (mul32 4 i) = s.hwasBp + 4 * i := by
    rw [mul32_of_lt (by omega), add32_of_lt (by omega)]
  have hfill : loadLE 4 (fillStack s.hwasBp mmstart s.mem ssize) (s.hwasBp + 4 * i) =
      add32 mmstart (mul32 4096 i) := loadLE_fillStack (by omega) hi
  have hslot : (setUpPool mmstart ssize s).slot i =
      loadLE 4 (fillBytes (fillStack s.hwasBp mmstart s.mem ssize)
        (bitmapStart (s.hwasBp + 4 * ssize - 4)) 0 (ssize / 8)) (s.hwasBp + 4 * i) := by
    rw [← hsp, ← haddr]
    rfl
  rw [hslot, ← hfill]
  refine loadLE_congr fun x _ hx => ?_
  by_cases h1 : ssize = 1
  · subst h1
    rfl
  · have hstart := le_bitmapStart hbp (by omega) hhigh hle h1 h65
    exact fillBytes_of_notMem (by omega) (Or.inl (by omega))

/-- The stack after a successful `init_phymm`. -/
theorem initPhymm_slots {mmapAddr mmapLen fuel : ℕ} {m : Mem} (hend : 4096 ∣ kernelEnd)
    (hhigh : kernelEnd < 4294967296)
    (h : initPhymm kernelEnd mmapAddr mmapLen fuel m = some (.ok, s)) (h65 : s.hwasSsize ≠ 65)
    (hspace : s.hwaMmstart + 4096 * s.hwasSsize ≤ 4294967296) :
    ∀ i < s.hwasSsize, s.slot i = s.frame i := by
  obtain ⟨baseAddr, length, s₁, rfl, rfl⟩ := initPhymm_eq h
  have hle := poolSize_le s₁.hwasBp length
  intro i hi
  change _ = add32 _ _ + 4096 * i
  change add32 _ _ + 4096 * poolSize s₁.hwasBp length ≤ 4294967296 at hspace
  change i < poolSize s₁.hwasBp length at hi
  refine (slot_setUpPool hend hhigh hle h65 hi).trans ?_
  rw [mul32_of_lt (by omega), add32_of_lt (by omega)]

/-- The bits of the frames whose bytes `init_phymm` clears. -/
theorem Layout.used_eq_false (hl : Layout kernelEnd s) (hp : Pool s) {i : ℕ}
    (hi : i < s.hwasSsize / 8 * 8) : s.used i = false := by
  have hle := hp.size_le
  have hlt := hp.bitmap_lt
  have hbyte := hl.cleared (i / 8) (by omega)
  rw [add32_of_lt (by omega)] at hbyte
  rw [used, bitAt, hbyte]
  exact Nat.zero_testBit _

end PhyMM

end PakOS
