import Mathlib.Data.Nat.Notation

/-!
# Bit fields of a word

`place w s x` is the word of `w` bits that has the bits of `x` from bit `s` on and zeros elsewhere:
the C idiom `(uint32_t) x << s`.  A word that is put together from several fields by `|` gives each
of them back, as long as their ranges do not overlap (`extract_place`, `extract_place_of_disjoint`).
Masks, shifts and conversions take one placed field to another.
-/

namespace Machine

variable {n w s t m v : ℕ}

/-- The bits of `x` from bit `s` on, in a word of `w` bits. -/
def place (w s : ℕ) (x : BitVec n) : BitVec w := x.setWidth w <<< s

/-- The bits of a placed field. -/
theorem getLsbD_place (w s : ℕ) (x : BitVec n) (i : ℕ) :
    (place w s x).getLsbD i = (decide (i < w) && decide (s ≤ i) && x.getLsbD (i - s)) := by
  rw [place, BitVec.getLsbD_shiftLeft, BitVec.getLsbD_setWidth]
  by_cases hi : i < w
  · by_cases hs : s ≤ i
    · have hw : i - s < w := by omega
      simp [hi, hs, hw, Nat.not_lt.mpr hs]
    · simp [hs, Nat.not_le.mp hs]
  · simp [hi]

/-- A field that fits is read back. -/
theorem extract_place (x : BitVec n) (h : s + n ≤ w) : (place w s x).extractLsb' s n = x := by
  apply BitVec.eq_of_getLsbD_eq
  intro i hi
  have hw : s + i < w := by omega
  rw [BitVec.getLsbD_extractLsb', getLsbD_place, Nat.add_sub_cancel_left]
  simp [hi, hw]

/-- A field is not seen where it is not. -/
theorem extract_place_of_disjoint (x : BitVec n) (h : s + n ≤ t ∨ t + m ≤ s) :
    (place w s x).extractLsb' t m = 0#m := by
  apply BitVec.eq_of_getLsbD_eq
  intro i hi
  rw [BitVec.getLsbD_extractLsb', getLsbD_place, BitVec.getLsbD_zero]
  rcases h with h | h
  · have hout : x.getLsbD (t + i - s) = false := BitVec.getLsbD_of_ge x _ (by omega)
    simp [hout]
  · have hlow : ¬s ≤ t + i := by omega
    simp [hlow]

/-- A field that is the whole word. -/
theorem place_zero (x : BitVec w) : place w 0 x = x := by
  rw [place, BitVec.setWidth_eq, BitVec.shiftLeft_zero]

/-! ### Masks, shifts and conversions -/

/-- Masking keeps a field where it is. -/
theorem and_place_allOnes (x : BitVec w) (s n : ℕ) :
    x &&& place w s (BitVec.allOnes n) = place w s (x.extractLsb' s n) := by
  apply BitVec.eq_of_getLsbD_eq
  intro i hi
  rw [BitVec.getLsbD_and, getLsbD_place, getLsbD_place, BitVec.getLsbD_allOnes,
    BitVec.getLsbD_extractLsb']
  by_cases hs : s ≤ i
  · have hback : s + (i - s) = i := by omega
    rw [hback]
    simp only [hi, hs, decide_true, Bool.true_and]
    exact Bool.and_comm _ _
  · simp [hs]

/-- Shifting to the left. -/
theorem place_shiftLeft (x : BitVec n) : place w s x <<< t = place w (s + t) x := by
  rw [place, place, BitVec.shiftLeft_add]

/-- Shifting to the right, when no bit is lost. -/
theorem place_ushiftRight (x : BitVec n) (hw : s + n ≤ w) (hs : t ≤ s) :
    place w s x >>> t = place w (s - t) x := by
  apply BitVec.eq_of_getLsbD_eq
  intro i hi
  rw [BitVec.getLsbD_ushiftRight, getLsbD_place, getLsbD_place]
  by_cases hlow : s - t ≤ i
  · have hlow' : s ≤ t + i := by omega
    have hback : t + i - s = i - (s - t) := by omega
    rw [hback]
    by_cases hin : i - (s - t) < n
    · have hlt : t + i < w := by omega
      simp [hlow, hlow', hlt, hi]
    · simp [BitVec.getLsbD_of_ge x _ (Nat.not_lt.mp hin)]
  · have hlow' : ¬s ≤ t + i := by omega
    simp [hlow, hlow']

/-- What is read from a shifted word. -/
theorem extract_ushiftRight (x : BitVec w) (t s n : ℕ) :
    (x >>> t).extractLsb' s n = x.extractLsb' (t + s) n := by
  apply BitVec.eq_of_getLsbD_eq
  intro i hi
  rw [BitVec.getLsbD_extractLsb', BitVec.getLsbD_extractLsb', BitVec.getLsbD_ushiftRight,
    Nat.add_assoc]

/-- Converting to a wider type, when no bit is lost. -/
theorem setWidth_place (x : BitVec n) (hw : s + n ≤ w) : (place w s x).setWidth v = place v s x := by
  apply BitVec.eq_of_getLsbD_eq
  intro i hi
  rw [BitVec.getLsbD_setWidth, getLsbD_place, getLsbD_place]
  by_cases hin : i - s < n
  · by_cases hs : s ≤ i
    · have hlt : i < w := by omega
      simp [hi, hlt]
    · simp [hs]
  · simp [BitVec.getLsbD_of_ge x _ (Nat.not_lt.mp hin)]

/-- Converting a signed word to a wider type, when its sign bit is not part of the field. -/
theorem signExtend_place (x : BitVec n) (hw : s + n < w) :
    (place w s x).signExtend v = place v s x := by
  have hmsb : (place w s x).msb = false := by
    rw [BitVec.msb_eq_getLsbD_last, getLsbD_place, BitVec.getLsbD_of_ge x _ (by omega),
      Bool.and_false]
  rw [BitVec.signExtend_eq_setWidth_of_msb_false hmsb, setWidth_place x (by omega)]

end Machine
