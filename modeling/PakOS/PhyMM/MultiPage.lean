import PakOS.PhyMM.Exclusive

/-!
# Several frames at once

`hwpalloc(n)` and `hwpfree(p, n)` for `n` of at least two, on pools of every size and with every
bitmap.  The allocation is first fit (`hwpalloc_firstFit`).  The release looks at its first frame
only: it is right when that frame is refused, and otherwise exactly when all `n` frames are frames
of the pool in use (`hwpfree_checked_iff`).
-/

namespace PakOS

open Machine

namespace PhyMM

variable {s s' : PhyMM}

/-! ### First fit -/

/-- The `n` frames from frame `a` on are frames of the pool that the bitmap has free. -/
def FreeFrames (s : PhyMM) (n a : ℕ) : Prop :=
  a + n ≤ s.hwasSsize ∧ ∀ i < n, s.inubmGet (s.frame (a + i)) = pgFree

/-- No bit of a frame lies in the stack. -/
def BitmapApart (s : PhyMM) : Prop :=
  ∀ i < s.hwasSsize, ∀ j < s.hwasSsize, ∀ k < 4,
    (s.bitLoc (s.frame i)).1 ≠ add32 s.hwasBp (mul32 4 j) + k

/-- What first fit does: `n` frames are handed out at `p`, the lowest place where they are free. -/
structure FirstFit (n : ℕ) (s : PhyMM) (p : ℕ) (s' : PhyMM) : Prop where
  /-- The lowest run is handed out, and its frames are the ones marked. -/
  lowest : ∃ a, p = s.frame a ∧ FreeFrames s n a ∧ (∀ b, FreeFrames s n b → a ≤ b) ∧
    ∀ i < s.hwasSsize, s'.inubmGet (s.frame i) =
      if a ≤ i ∧ i < a + n then pgUse else s.inubmGet (s.frame i)
  /-- Every bit of memory that is none of theirs stays. -/
  bits : ∀ x k, k < 8 → (∀ i < n, (x, k) ≠ s.bitLoc (p + 4096 * i)) →
    memBit s'.mem (x, k) = memBit s.mem (x, k)
  /-- The variables stay, the stack pointer among them. -/
  same : s' = { s with mem := s'.mem }
  /-- The stack stays, where the bitmap does not overlap it. -/
  stack : BitmapApart s → ∀ i < s.hwasSsize, s'.slot i = s.slot i

/-- When the stack holds the pool's frames, the slots and the frames have the same runs. -/
theorem freeRun_iff (hslots : ∀ i < s.hwasSsize, s.slot i = s.frame i) {n a : ℕ} :
    FreeRun s n a ↔ FreeFrames s n a := by
  refine and_congr_right fun han => forall₂_congr fun i hi => ?_
  rw [hslots _ (by omega)]

/-- The scan of `hwpalloc(n)` finds the lowest run of `n` free frames if there is one. -/
theorem hwpalloc_of_freeFrames {n : ℕ} (hn : 2 ≤ n)
    (hslots : ∀ i < s.hwasSsize, s.slot i = s.frame i) (hsp : s.hwasSp ≠ s.hwasBp)
    (hrun : ∃ a, FreeFrames s n a) (fuel : ℕ) :
    ∃ a, s.hwpalloc fuel n = some (s.frame a, s.setFrames (s.frame a) pgUse n) ∧
      FreeFrames s n a ∧ ∀ b, FreeFrames s n b → a ≤ b := by
  obtain ⟨b, hb⟩ := hrun
  obtain ⟨a, hfind, ha, hlow⟩ := findRun_spec (Nat.zero_add _) (Nat.zero_le n) le_rfl
    (fun j _ hj => absurd hj (Nat.not_lt_zero j)) (fun a _ => Nat.zero_le a)
    ⟨b, (freeRun_iff hslots).mpr hb⟩
  have ha := (freeRun_iff hslots).mp ha
  have han := ha.1
  have hsub : sub32 (a + n) n = a := by
    have hlast := frame_lt hslots (show a + n - 1 < s.hwasSsize by omega)
    unfold frame at hlast
    rw [sub32_of_le (by omega) (Nat.le_add_left n a), Nat.add_sub_cancel]
  refine ⟨a, ?_, ha, fun b hb => hlow b ((freeRun_iff hslots).mpr hb)⟩
  rw [hwpalloc, if_neg hsp, if_neg (by omega)]
  simp only [hfind, hsub, hslots a (by omega)]

/-- Marking `n` frames from frame `a` on leaves the bits of all others alone. -/
theorem memBit_setFrames_frame {a n v x k : ℕ} (hlt : ∀ i < n, s.frame (a + i) < 4294967296)
    (hk : k < 8) (hx : ∀ i < n, (x, k) ≠ s.bitLoc (s.frame (a + i))) :
    memBit (s.setFrames (s.frame a) v n).mem (x, k) = memBit s.mem (x, k) := by
  refine (memBit_setFrames hk).trans (if_neg ?_)
  rintro ⟨i, hi, h⟩
  rw [add32_frame (hlt i hi)] at h
  exact hx i hi h

/-- Marking `n` frames of a pool in use marks these and no other. -/
theorem inubmGet_setFrames_frame {a n i : ℕ}
    (hlt : ∀ i < s.hwasSsize, s.frame i < 4294967296) (han : a + n ≤ s.hwasSsize)
    (hi : i < s.hwasSsize) :
    (s.setFrames (s.frame a) pgUse n).inubmGet (s.frame i) =
      if a ≤ i ∧ i < a + n then pgUse else s.inubmGet (s.frame i) := by
  have hloc : (s.setFrames (s.frame a) pgUse n).bitLoc (s.frame i) = s.bitLoc (s.frame i) := by
    rw [setFrames_eq]
    rfl
  rw [inubmGet_eq, hloc]
  by_cases hin : a ≤ i ∧ i < a + n
  · have hmark : memBit (s.setFrames (s.frame a) pgUse n).mem (s.bitLoc (s.frame i)) = true := by
      refine (memBit_setFrames (Nat.mod_lt _ (by decide))).trans (if_pos ⟨i - a, by omega, ?_⟩)
      rw [add32_frame (hlt _ (by omega)), Nat.add_sub_cancel' hin.1]
      rfl
    rw [hmark, if_pos rfl, if_pos hin]
  · have hkeep : memBit (s.setFrames (s.frame a) pgUse n).mem (s.bitLoc (s.frame i)) =
        memBit s.mem (s.bitLoc (s.frame i)) := by
      refine memBit_setFrames_frame (fun j hj => hlt _ (by omega)) (Nat.mod_lt _ (by decide))
        fun j hj h => hin ?_
      obtain rfl := bitLoc_frame_inj (hlt i hi) (hlt (a + j) (by omega)) h
      omega
    rw [hkeep, if_neg hin, inubmGet_eq]

/-- Marking `n` frames of a pool leaves a stack alone that the bitmap does not overlap. -/
theorem slot_setFrames_frame {a n v i : ℕ} (hlt : ∀ i < s.hwasSsize, s.frame i < 4294967296)
    (hapart : BitmapApart s) (han : a + n ≤ s.hwasSsize) (hi : i < s.hwasSsize) :
    (s.setFrames (s.frame a) v n).slot i = s.slot i := by
  have hbp : (s.setFrames (s.frame a) v n).hwasBp = s.hwasBp := by rw [setFrames_eq]
  rw [slot, slot, hbp]
  refine loadLE_congr fun x hx hx4 => byte_ext fun k hk =>
    memBit_setFrames_frame (fun j hj => hlt _ (by omega)) hk fun j hj h => ?_
  have hbyte := hapart (a + j) (by omega) i hi (x - add32 s.hwasBp (mul32 4 i)) (by omega)
  rw [Nat.add_sub_cancel' hx] at hbyte
  exact hbyte (congrArg Prod.fst h).symm

/-- With the pool's frames in the stack and a stack that does not look empty, `hwpalloc(n)` hands
out the lowest run of `n` free frames if there is one. -/
theorem hwpalloc_firstFit {n : ℕ} (hn : 2 ≤ n)
    (hslots : ∀ i < s.hwasSsize, s.slot i = s.frame i) (hsp : s.hwasSp ≠ s.hwasBp)
    (hrun : ∃ a, FreeFrames s n a) (fuel : ℕ) :
    ∃ p s', s.hwpalloc fuel n = some (p, s') ∧ FirstFit n s p s' := by
  obtain ⟨a, hcall, ha, hlow⟩ := hwpalloc_of_freeFrames hn hslots hsp hrun fuel
  have han := ha.1
  have hlt : ∀ i < s.hwasSsize, s.frame i < 4294967296 := fun i hi => frame_lt hslots hi
  refine ⟨_, _, hcall, ⟨a, rfl, ha, hlow, fun i hi => inubmGet_setFrames_frame hlt han hi⟩, ?_,
    setFrames_eq _ _ _, fun hapart i hi => slot_setFrames_frame hlt hapart han hi⟩
  intro x k hk hx
  refine memBit_setFrames_frame (fun i hi => hlt _ (by omega)) hk fun i hi => ?_
  have hsum : s.frame a + 4096 * i = s.frame (a + i) := by
    unfold frame
    omega
  rw [← hsum]
  exact hx i hi

/-- In a pool of `init_phymm` the bitmap does not overlap the stack. -/
theorem Pool.bitmapApart (hp : Pool s) : BitmapApart s := by
  intro i hi j hj k hk
  have hstack := hp.stack_le
  have hlt := hp.bitmap_lt
  rw [hp.bitLoc_frame hi, mul32_of_lt (by omega), add32_of_lt (by omega)]
  simp only
  omega

/-- The first three frames of a fresh pool of eight. -/
theorem hwpalloc_firstFit_smallPool :
    ∃ p s', smallPool.hwpalloc 1 3 = some (p, s') ∧ FirstFit 3 smallPool p s' :=
  hwpalloc_firstFit (by decide) (by decide +kernel) (by decide +kernel)
    ⟨0, by decide +kernel, by decide +kernel⟩ 1

/-! ### Releasing several frames -/

/-- The `n` frames at `hwaddr` lie in the pool. -/
def InPool (s : PhyMM) (hwaddr n : ℕ) : Prop :=
  s.hwaMmstart ≤ hwaddr ∧ hwaddr + 4096 * n ≤ s.hwaMmstart + 4096 * s.hwasSsize

/-- The `n` frames at `hwaddr` are in use. -/
def AllInUse (s : PhyMM) (hwaddr n : ℕ) : Prop :=
  ∀ i < n, s.inubmGet (add32 hwaddr (i * 4096)) = pgUse

/-- The checks of `hwpfree` refuse the first frame: it is not one of the pool, or it is free. -/
def FirstRefused (s : PhyMM) (hwaddr : ℕ) : Prop :=
  hwaddr < s.hwaMmstart ∨ add32 s.hwaMmstart (mul32 s.hwasSsize 4096) ≤ hwaddr ∨
    s.inubmGet hwaddr = pgFree

/-- What is asked of a release of `n` frames that returns `st`. -/
structure CheckedFree (hwaddr n : ℕ) (s : PhyMM) (st : Status) (s' : PhyMM) : Prop where
  /-- Success means that all the frames were in the pool and in use, and their bits are cleared. -/
  ok : st = .ok → InPool s hwaddr n ∧ AllInUse s hwaddr n ∧ s' = { s with mem := s'.mem } ∧
    ∀ x k, k < 8 → memBit s'.mem (x, k) =
      if ∃ i < n, (x, k) = s.bitLoc (add32 hwaddr (i * 4096)) then false else memBit s.mem (x, k)
  /-- An error leaves everything as it was. -/
  error : st ≠ .ok → s' = s

/-- `hwpfree(hwaddr, n)` of a first frame that the checks refuse. -/
theorem hwpfree_of_refused {hwaddr n : ℕ} (h : FirstRefused s hwaddr) :
    ∃ st, st ≠ .ok ∧ s.hwpfree hwaddr n = (st, s) := by
  unfold hwpfree
  by_cases hrange : hwaddr < s.hwaMmstart ∨ hwaddr ≥ add32 s.hwaMmstart (mul32 s.hwasSsize 4096)
  · exact ⟨.invalidMem, by decide, if_pos hrange⟩
  · rw [not_or] at hrange
    obtain hfree := (h.resolve_left hrange.1).resolve_left hrange.2
    refine ⟨.doubleFree, by decide, ?_⟩
    rw [if_neg (not_or.mpr hrange), if_pos hfree]

/-- `hwpfree(hwaddr, n)` of a first frame that passes the checks. -/
theorem hwpfree_of_not_refused {hwaddr n : ℕ} (hn : 2 ≤ n) (h : ¬FirstRefused s hwaddr) :
    s.hwpfree hwaddr n = (.ok, s.setFrames hwaddr pgFree n) := by
  rw [FirstRefused, not_or, not_or] at h
  obtain ⟨hlow, hhigh, hused⟩ := h
  rw [hwpfree, if_neg (not_or.mpr ⟨hlow, hhigh⟩), if_neg hused, if_neg (by omega)]

/-- On every pool and every bitmap, `hwpfree` of several frames does what is asked of it exactly
when its checks refuse the first frame, or all the frames are frames of the pool in use. -/
theorem hwpfree_checked_iff {hwaddr n : ℕ} (hn : 2 ≤ n) :
    CheckedFree hwaddr n s (s.hwpfree hwaddr n).1 (s.hwpfree hwaddr n).2 ↔
      FirstRefused s hwaddr ∨ (InPool s hwaddr n ∧ AllInUse s hwaddr n) := by
  by_cases hrefused : FirstRefused s hwaddr
  · obtain ⟨st, hst, hcall⟩ := hwpfree_of_refused (n := n) hrefused
    rw [hcall]
    exact iff_of_true ⟨fun h => absurd h hst, fun _ => rfl⟩ (Or.inl hrefused)
  · rw [hwpfree_of_not_refused hn hrefused]
    constructor
    · intro h
      obtain ⟨hpool, hused, -⟩ := h.ok rfl
      exact Or.inr ⟨hpool, hused⟩
    · intro h
      obtain ⟨hpool, hused⟩ := h.resolve_left hrefused
      refine ⟨fun _ => ⟨hpool, hused, setFrames_eq _ _ _, fun x k hk => ?_⟩, fun h => absurd rfl h⟩
      exact memBit_setFrames hk

/-- The pool of eight frames after `hwpalloc(2)`. -/
def twoUsed : PhyMM := smallPool.setFrames 0x106000 pgUse 2

/-- The two frames that are in use are released. -/
theorem hwpfree_checked_twoUsed :
    CheckedFree 0x106000 2 twoUsed (twoUsed.hwpfree 0x106000 2).1 (twoUsed.hwpfree 0x106000 2).2 :=
  (hwpfree_checked_iff (by decide)).mpr
    (Or.inr ⟨by unfold InPool; decide +kernel, by unfold AllInUse; decide +kernel⟩)

/-- Three frames are released with success although the third is free; nine frames although the pool
has eight. -/
theorem twoUsed_not_checked :
    smallPool.hwpalloc 1 2 = some (0x106000, twoUsed) ∧
      (twoUsed.hwpfree 0x106000 3).1 = .ok ∧ twoUsed.inubmGet 0x108000 = pgFree ∧
      ¬CheckedFree 0x106000 3 twoUsed (twoUsed.hwpfree 0x106000 3).1
        (twoUsed.hwpfree 0x106000 3).2 ∧
      ¬CheckedFree 0x106000 9 twoUsed (twoUsed.hwpfree 0x106000 9).1
        (twoUsed.hwpfree 0x106000 9).2 := by
  have hfree : twoUsed.inubmGet 0x108000 = pgFree := by decide +kernel
  refine ⟨rfl, by decide +kernel, hfree, fun h => ?_, fun h => ?_⟩
  · have hused := (h.ok (by decide +kernel)).2.1 2 (by decide)
    exact absurd (hused.symm.trans hfree) (by decide)
  · have hpool := (h.ok (by decide +kernel)).1
    revert hpool
    unfold InPool
    decide +kernel

end PhyMM

end PakOS
