import PakOS.PhyMM.Frames

/-!
# Bits and loops of the frame allocator

What the bitmap macros and the loops of `hwpalloc` and `hwpfree` do, on pools of every size and with
every bitmap.  `bitLoc s a` is the bit of memory that the macros touch for address `a`; on the
frames of a pool it is injective (`bitLoc_frame_inj`), also from frame `2 ^ 19` on, where the signed
difference of the macros turns negative.  `memBit_setFrames` says which bits marking a run of frames
changes, and `findRun_spec` that the search ends behind the lowest run.
-/

namespace PakOS

open Machine

namespace PhyMM

/-- The address of frame `i`. -/
def frame (s : PhyMM) (i : ℕ) : ℕ := s.hwaMmstart + 4096 * i

/-- A bit of memory: bit `l.2` of the byte at `l.1`. -/
def memBit (m : Mem) (l : ℕ × ℕ) : Bool := (m l.1).toNat.testBit l.2

/-- The bit that the bitmap macros touch for `hwaddr`. -/
def bitLoc (s : PhyMM) (hwaddr : ℕ) : ℕ × ℕ :=
  (add32 s.hwaInuBitmap (s.pgidx hwaddr / 8), s.pgidx hwaddr % 8)

variable {s : PhyMM}

/-! ### The bitmap macros -/

/-- `_hwa_inubm_get` reads the bit of its address. -/
theorem inubmGet_eq (a : ℕ) : s.inubmGet a = if memBit s.mem (s.bitLoc a) then pgUse else pgFree :=
  readBit_eq _ _ _

/-- `_hwa_inubm_set` writes the bit of its address and no other. -/
theorem memBit_inubmSet {a v x k : ℕ} (hk : k < 8) :
    memBit (s.inubmSet a v).mem (x, k) =
      if (x, k) = s.bitLoc a then decide (v ≠ 0) else memBit s.mem (x, k) := by
  have hbit := testBit_writeBit (m := s.mem) (a := (s.bitLoc a).1) (k := (s.bitLoc a).2) (x := x)
    (v := decide (v ≠ 0)) (Nat.mod_lt _ (by decide)) hk
  refine hbit.trans ?_
  congr 1
  rw [Prod.ext_iff]

/-- The index of an address that is a number of frames behind the first one; from `2 ^ 19` frames on
the difference is negative as a signed number. -/
theorem pgidx_of_sub {a i : ℕ} (hsub : sub32 a s.hwaMmstart = 4096 * i) :
    s.pgidx a = if i < 524288 then i else i + 4293918720 := by
  have hlt : 4096 * i < 4294967296 := hsub.symm.trans_lt (sub32_lt _ _)
  rw [pgidx, hsub, toSigned]
  by_cases hlow : i < 524288
  · have hcast : ((4096 * i : ℕ) : ℤ) = 4096 * (i : ℤ) := Nat.cast_mul _ _
    rw [if_pos hlow, if_pos (by omega), hcast, Int.mul_tdiv_cancel_left _ (by decide)]
    omega
  · have hcast : ((4096 * i : ℕ) : ℤ) - 4294967296 = 4096 * ((i : ℤ) - 1048576) := by
      rw [Nat.cast_mul]
      omega
    rw [if_neg hlow, if_neg (by omega), hcast, Int.mul_tdiv_cancel_left _ (by decide)]
    omega

/-- The index of a frame of the pool. -/
theorem pgidx_frame {i : ℕ} (hi : s.frame i < 4294967296) :
    s.pgidx (s.frame i) = if i < 524288 then i else i + 4293918720 := by
  apply pgidx_of_sub
  rw [sub32_of_le hi (Nat.le_add_right _ _)]
  exact Nat.add_sub_cancel_left _ _

/-- Two frames of the address space have two bits. -/
theorem bitLoc_frame_inj {i j : ℕ} (hi : s.frame i < 4294967296) (hj : s.frame j < 4294967296)
    (h : s.bitLoc (s.frame i) = s.bitLoc (s.frame j)) : i = j := by
  obtain ⟨hbyte, hbit⟩ := Prod.mk.inj h
  rw [pgidx_frame hi, pgidx_frame hj] at hbyte hbit
  unfold add32 at hbyte
  unfold frame at hi hj
  split at hbyte <;> split at hbyte <;> simp_all only [if_true, if_false] <;> omega

/-- Frames of the pool have addresses when the stack holds them. -/
theorem frame_lt (hslots : ∀ i < s.hwasSsize, s.slot i = s.frame i) {i : ℕ}
    (hi : i < s.hwasSsize) : s.frame i < 4294967296 := by
  rw [← hslots i hi]
  exact loadLE_lt 4 s.mem _

/-- The address that the marking loop computes for the `i`-th frame of a run. -/
theorem add32_frame {a i : ℕ} (h : s.frame (a + i) < 4294967296) :
    add32 (s.frame a) (i * 4096) = s.frame (a + i) := by
  have hsum : s.frame a + i * 4096 = s.frame (a + i) := by
    unfold frame
    omega
  rw [add32_of_lt (by omega), hsum]

/-! ### Marking a run of frames -/

/-- Marking frames changes memory only. -/
theorem setFrames_eq (addr v n : ℕ) :
    s.setFrames addr v n = { s with mem := (s.setFrames addr v n).mem } := by
  induction n with
  | zero => rfl
  | succ n ih =>
    rw [setFrames, inubmSet]
    rw [ih]

/-- Marking frames changes their bits and no others. -/
theorem memBit_setFrames {addr v n x k : ℕ} (hk : k < 8) :
    memBit (s.setFrames addr v n).mem (x, k) =
      if ∃ i < n, (x, k) = s.bitLoc (add32 addr (i * 4096)) then decide (v ≠ 0)
      else memBit s.mem (x, k) := by
  induction n with
  | zero => rw [setFrames, if_neg fun ⟨i, hi, _⟩ => Nat.not_lt_zero i hi]
  | succ n ih =>
    have hloc : (s.setFrames addr v n).bitLoc (add32 addr (n * 4096)) =
        s.bitLoc (add32 addr (n * 4096)) := by
      rw [setFrames_eq]
      rfl
    rw [setFrames, memBit_inubmSet hk, hloc, ih]
    by_cases hlast : (x, k) = s.bitLoc (add32 addr (n * 4096))
    · rw [if_pos hlast, if_pos ⟨n, Nat.lt_succ_self n, hlast⟩]
    · rw [if_neg hlast]
      congr 1
      refine propext ⟨fun ⟨i, hi, h⟩ => ⟨i, Nat.lt_succ_of_lt hi, h⟩, fun ⟨i, hi, h⟩ => ?_⟩
      rcases Nat.lt_succ_iff_lt_or_eq.mp hi with hi | rfl
      · exact ⟨i, hi, h⟩
      · exact absurd h hlast

/-! ### The search for a run -/

/-- The `n` slots from slot `a` on hold free frames. -/
def FreeRun (s : PhyMM) (n a : ℕ) : Prop :=
  a + n ≤ s.hwasSsize ∧ ∀ i < n, s.inubmGet (s.slot (a + i)) = pgFree

/-- The search ends with the slot behind the lowest run of free frames, if there is a run to be
found. In round `i` the last `cons` slots hold free frames, and no run begins before them. -/
theorem findRun_spec {n rest i cons : ℕ} (hi : i + rest = s.hwasSsize) (hcons : cons ≤ n)
    (hci : cons ≤ i) (hfree : ∀ j, i - cons ≤ j → j < i → s.inubmGet (s.slot j) = pgFree)
    (hlow : ∀ a, FreeRun s n a → i - cons ≤ a) (hrun : ∃ a, FreeRun s n a) :
    ∃ a, s.findRun n rest i cons = (a + n, n) ∧ FreeRun s n a ∧ ∀ b, FreeRun s n b → a ≤ b := by
  -- the loop stops behind the last `n` slots that it counted
  have hstop : ∀ i, i ≤ s.hwasSsize → n ≤ i →
      (∀ j, i - n ≤ j → j < i → s.inubmGet (s.slot j) = pgFree) →
      (∀ a, FreeRun s n a → i - n ≤ a) →
      ∃ a, (i, n) = (a + n, n) ∧ FreeRun s n a ∧ ∀ b, FreeRun s n b → a ≤ b := by
    intro i hi hni hfree hlow
    refine ⟨i - n, by rw [Nat.sub_add_cancel hni], ⟨by omega, fun j hj => ?_⟩, hlow⟩
    exact hfree _ (by omega) (by omega)
  induction rest generalizing i cons with
  | zero =>
    obtain ⟨a, ha⟩ := hrun
    have hstart := hlow a ha
    have hend := ha.1
    obtain rfl : cons = n := by omega
    exact hstop i (by omega) hci hfree hlow
  | succ rest ih =>
    rw [findRun]
    by_cases hn : cons = n
    · subst hn
      rw [if_pos rfl]
      exact hstop i (by omega) hci hfree hlow
    rw [if_neg hn]
    by_cases hslot : s.inubmGet (s.slot i) = pgFree
    · rw [if_pos hslot]
      refine ih (by omega) (by omega) (by omega) (fun j hj hji => ?_) fun a ha => ?_
      · rcases Nat.lt_succ_iff_lt_or_eq.mp hji with h | rfl
        · exact hfree j (by omega) h
        · exact hslot
      · have := hlow a ha
        omega
    · rw [if_neg hslot]
      refine ih (by omega) (by omega) (by omega) (fun j hj hji => by omega) fun a ha => ?_
      -- a run that starts at or before slot `i` would contain it
      have hstart := hlow a ha
      by_contra hle
      have hin := ha.2 (i - a) (by omega)
      rw [Nat.add_sub_cancel' (by omega)] at hin
      exact hslot hin

end PhyMM

end PakOS
