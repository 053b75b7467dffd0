import PakOS.PhyMM.Bits
import PakOS.PhyMM.Init

/-!
# The frame pool

`Pool s` says that the stack of the frame allocator is filled as `init_phymm` means to fill it and
that the bitmap lies behind it.  On such a state the bitmap is a set of frame numbers, `used`, and
the functions of the allocator are operations on that set: `Pool.popUnused_spec` and
`Pool.setFrames_spec` say what its loops do to it.  `SamePool s s'` collects what none of them
changes.
-/

namespace PakOS

open Machine

namespace PhyMM

/-- Frame `i` is marked in use. -/
def used (s : PhyMM) (i : ℕ) : Bool := bitAt s.mem s.hwaInuBitmap i

/-- The stack holds the frames in order, and the bitmap lies behind it. -/
structure Pool (s : PhyMM) : Prop where
  /-- Slot `i` holds frame `i`. -/
  slots : ∀ i < s.hwasSsize, s.slot i = s.frame i
  /-- The bitmap begins behind the stack. -/
  stack_le : s.hwasBp + 4 * s.hwasSsize ≤ s.hwaInuBitmap
  /-- The bitmap lies in the address space. -/
  bitmap_lt : s.hwaInuBitmap + 128 < 4294967296
  /-- The cap of `init_phymm`. -/
  size_le : s.hwasSsize ≤ 128

/-- Everything but the stack pointer and the bits of the pool is the same in both states. -/
structure SamePool (s s' : PhyMM) : Prop where
  /-- `_hwa_mmstart` -/
  mmstart : s'.hwaMmstart = s.hwaMmstart
  /-- `_hwa_inu_bitmap` -/
  bitmap : s'.hwaInuBitmap = s.hwaInuBitmap
  /-- `_hwas_bp` -/
  bp : s'.hwasBp = s.hwasBp
  /-- `_hwas_ssize` -/
  ssize : s'.hwasSsize = s.hwasSsize
  /-- `__phymm_end` -/
  last : s'.phymmEnd = s.phymmEnd
  /-- The bits of memory outside the bitmap of the pool. -/
  bits : ∀ x k, k < 8 → (∀ i < s.hwasSsize, ¬(x = s.hwaInuBitmap + i / 8 ∧ k = i % 8)) →
    (s'.mem x).toNat.testBit k = (s.mem x).toNat.testBit k

theorem SamePool.refl (s : PhyMM) : SamePool s s := ⟨rfl, rfl, rfl, rfl, rfl, fun _ _ _ _ => rfl⟩

theorem SamePool.trans {s₁ s₂ s₃ : PhyMM} (h : SamePool s₁ s₂) (h' : SamePool s₂ s₃) :
    SamePool s₁ s₃ := by
  refine ⟨h'.mmstart.trans h.mmstart, h'.bitmap.trans h.bitmap, h'.bp.trans h.bp,
    h'.ssize.trans h.ssize, h'.last.trans h.last, fun x k hk hx => ?_⟩
  rw [h'.bits x k hk, h.bits x k hk hx]
  rwa [h.ssize, h.bitmap]

/-- A byte outside the bitmap of the pool is the same in both states. -/
theorem SamePool.mem {s s' : PhyMM} (h : SamePool s s') {x : ℕ}
    (hx : ∀ i < s.hwasSsize, x ≠ s.hwaInuBitmap + i / 8) : s'.mem x = s.mem x := by
  exact byte_ext fun k hk => h.bits x k hk fun i hi hxi => hx i hi hxi.1

/-- The pool survives what keeps everything but its bits. -/
theorem Pool.of_samePool {s s' : PhyMM} (hp : Pool s) (h : SamePool s s') : Pool s' := by
  have hstack := hp.stack_le
  have hlt := hp.bitmap_lt
  have hle := hp.size_le
  refine ⟨fun i hi => ?_, ?_, ?_, h.ssize ▸ hle⟩
  · rw [h.ssize] at hi
    have hslot : s'.slot i = s.slot i := by
      unfold slot
      rw [h.bp, mul32_of_lt (by omega), add32_of_lt (by omega)]
      refine loadLE_congr fun x _ hx => h.mem fun j _ => ?_
      omega
    rw [hslot, hp.slots i hi, frame, frame, h.mmstart]
  · rw [h.bp, h.ssize, h.bitmap]
    exact hstack
  · rw [h.bitmap]
    exact hlt

variable {s : PhyMM}

/-- Frames of the pool have addresses. -/
theorem Pool.frame_lt (hp : Pool s) {i : ℕ} (hi : i < s.hwasSsize) : s.frame i < 4294967296 :=
  PhyMM.frame_lt hp.slots hi

/-- The bit of frame `i` is bit `i` of the bitmap. -/
theorem Pool.bitLoc_frame (hp : Pool s) {i : ℕ} (hi : i < s.hwasSsize) :
    s.bitLoc (s.frame i) = (s.hwaInuBitmap + i / 8, i % 8) := by
  have hle := hp.size_le
  have hlt := hp.bitmap_lt
  rw [bitLoc, pgidx_frame (hp.frame_lt hi), if_pos (by omega), add32_of_lt (by omega)]

/-- The bitmap macro reads `used`. -/
theorem Pool.inubmGet_frame (hp : Pool s) {i : ℕ} (hi : i < s.hwasSsize) :
    s.inubmGet (s.frame i) = if s.used i then pgUse else pgFree := by
  rw [inubmGet_eq, hp.bitLoc_frame hi]
  rfl

/-- Different frames have different bits. -/
theorem bit_eq_iff {b i j : ℕ} : (b + j / 8, j % 8) = (b + i / 8, i % 8) ↔ j = i := by
  rw [Prod.mk.injEq]
  omega

/-- The bitmap macro writes `used`, and nothing but the bit of its frame. -/
theorem Pool.inubmSet_frame (hp : Pool s) {i : ℕ} (hi : i < s.hwasSsize) (inUse : ℕ) :
    SamePool s (s.inubmSet (s.frame i) inUse) ∧
      ∀ j, (s.inubmSet (s.frame i) inUse).used j = if j = i then decide (inUse ≠ 0) else s.used j := by
  constructor
  · refine ⟨rfl, rfl, rfl, rfl, rfl, fun x k hk hx => ?_⟩
    refine (memBit_inubmSet hk).trans (if_neg fun hloc => hx i hi ?_)
    rw [hp.bitLoc_frame hi] at hloc
    exact Prod.mk.inj hloc
  · intro j
    refine (memBit_inubmSet (Nat.mod_lt j (by decide))).trans ?_
    change (if (s.hwaInuBitmap + j / 8, j % 8) = _ then _ else s.used j) = _
    rw [hp.bitLoc_frame hi]
    simp only [bit_eq_iff]

/-! ### The loops -/

/-- The loop that marks `n` frames of the pool marks these frames. -/
theorem Pool.setFrames_spec (hp : Pool s) {a n : ℕ} (han : a + n ≤ s.hwasSsize) (inUse : ℕ) :
    SamePool s (s.setFrames (s.frame a) inUse n) ∧
      (s.setFrames (s.frame a) inUse n).hwasSp = s.hwasSp ∧
      ∀ j, (s.setFrames (s.frame a) inUse n).used j =
        if a ≤ j ∧ j < a + n then decide (inUse ≠ 0) else s.used j := by
  have hloc : ∀ i < n, s.bitLoc (add32 (s.frame a) (i * 4096)) =
      (s.hwaInuBitmap + (a + i) / 8, (a + i) % 8) := by
    intro i hi
    rw [add32_frame (hp.frame_lt (by omega)), hp.bitLoc_frame (by omega)]
  have hbits := fun x k => @memBit_setFrames s (s.frame a) inUse n x k
  rw [setFrames_eq]
  refine ⟨⟨rfl, rfl, rfl, rfl, rfl, fun x k hk hx => ?_⟩, rfl, fun j => ?_⟩
  · refine (hbits x k hk).trans (if_neg fun ⟨i, hi, h⟩ => hx (a + i) (by omega) ?_)
    rw [hloc i hi] at h
    exact Prod.mk.inj h
  · refine (hbits _ _ (Nat.mod_lt j (by decide))).trans ?_
    congr 1
    refine propext ⟨fun ⟨i, hi, h⟩ => ?_, fun ⟨haj, hj⟩ => ⟨j - a, by omega, ?_⟩⟩
    · rw [hloc i hi, bit_eq_iff] at h
      omega
    · rw [hloc _ (by omega), bit_eq_iff]
      omega

/-- The word that the pop loop reads at slot `top`. -/
theorem Pool.loadLE_slot (hp : Pool s) {top : ℕ} (htop : top < s.hwasSsize) :
    loadLE 4 s.mem (s.hwasBp + 4 * top) = s.frame top := by
  have hle := hp.size_le
  have hstack := hp.stack_le
  have hlt := hp.bitmap_lt
  rw [← hp.slots top htop, slot, mul32_of_lt (by omega), add32_of_lt (by omega)]

/-- The stack pointer that a pop at slot `top` leaves. -/
theorem Pool.sub_slot (hp : Pool s) (hbp : 4 ≤ s.hwasBp) {top : ℕ} (htop : top < s.hwasSsize) :
    sub32 (s.hwasBp + 4 * top) 4 = s.hwasBp + 4 * top - 4 := by
  have hle := hp.size_le
  have hstack := hp.stack_le
  have hlt := hp.bitmap_lt
  exact sub32_of_le (by omega) (by omega)

/-- A free frame at or below slot `top`, whose own frame is in use, is below it. -/
theorem exists_below {top : ℕ} (hfree : ∃ i ≤ top, s.used i = false) (hu : s.used top = true) :
    ∃ t, top = t + 1 ∧ ∃ i ≤ t, s.used i = false := by
  obtain ⟨i, hi, hifree⟩ := hfree
  have hne : i ≠ top := by
    rintro rfl
    rw [hu] at hifree
    exact Bool.noConfusion hifree
  exact ⟨top - 1, by omega, i, by omega, hifree⟩

/-- One round of the pop loop. -/
theorem Pool.popUnused_succ (hp : Pool s) {top : ℕ} (htop : top < s.hwasSsize) (fuel : ℕ) :
    s.popUnused (fuel + 1) (s.hwasBp + 4 * top) =
      if s.used top then s.popUnused fuel (sub32 (s.hwasBp + 4 * top) 4)
      else some (s.frame top, sub32 (s.hwasBp + 4 * top) 4) := by
  rw [popUnused]
  simp only [hp.loadLE_slot htop, hp.inubmGet_frame htop]
  cases s.used top <;> rfl

/-- The pop loop finds the highest slot with a free frame, if there is one below the stack
pointer. -/
theorem Pool.popUnused_spec (hp : Pool s) {fuel top addr sp : ℕ} (hbp : 4 ≤ s.hwasBp)
    (htop : top < s.hwasSsize) (hfree : ∃ i ≤ top, s.used i = false)
    (hk : s.popUnused fuel (s.hwasBp + 4 * top) = some (addr, sp)) :
    ∃ i ≤ top, s.used i = false ∧ (∀ j, i < j → j ≤ top → s.used j = true) ∧ addr = s.frame i ∧
      sp + 4 = s.hwasBp + 4 * i := by
  induction fuel generalizing top with
  | zero => simp [popUnused] at hk
  | succ fuel ih =>
    rw [hp.popUnused_succ htop, hp.sub_slot hbp htop] at hk
    cases hu : s.used top with
    | false =>
      simp only [hu, Bool.false_eq_true, if_false, Option.some.injEq, Prod.mk.injEq] at hk
      exact ⟨top, le_rfl, hu, fun j h₁ h₂ => absurd h₁ (by omega), hk.1.symm, by omega⟩
    | true =>
      simp only [hu, if_true] at hk
      obtain ⟨top, rfl, hbelow⟩ := exists_below hfree hu
      have hdown : s.hwasBp + 4 * (top + 1) - 4 = s.hwasBp + 4 * top := by omega
      rw [hdown] at hk
      obtain ⟨r, hr, hrfree, habove, hres⟩ := ih (by omega) hbelow hk
      refine ⟨r, by omega, hrfree, fun j h₁ h₂ => ?_, hres⟩
      rcases Nat.lt_succ_iff_lt_or_eq.mp (Nat.lt_succ_of_le h₂) with hj | rfl
      · exact habove j h₁ (by omega)
      · exact hu

/-- The pop loop comes to an end if there is a free frame at or below the stack pointer. -/
theorem Pool.exists_popUnused (hp : Pool s) {fuel top : ℕ} (hbp : 4 ≤ s.hwasBp)
    (htop : top < s.hwasSsize) (hfuel : top < fuel) (hfree : ∃ i ≤ top, s.used i = false) :
    ∃ r, s.popUnused fuel (s.hwasBp + 4 * top) = some r := by
  induction fuel generalizing top with
  | zero => omega
  | succ fuel ih =>
    rw [hp.popUnused_succ htop, hp.sub_slot hbp htop]
    cases hu : s.used top with
    | false => exact ⟨_, rfl⟩
    | true =>
      obtain ⟨top, rfl, hbelow⟩ := exists_below hfree hu
      have hdown : s.hwasBp + 4 * (top + 1) - 4 = s.hwasBp + 4 * top := by omega
      rw [if_pos rfl, hdown]
      exact ih (by omega) (by omega) hbelow

end PhyMM

end PakOS
