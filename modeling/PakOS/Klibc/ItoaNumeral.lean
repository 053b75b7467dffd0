import PakOS.Klibc.ItoaBuffer

/-!
# The text of `itoa`

`itoa` converts the two halves of a 64-bit value on their own and joins the digits.  The digits of
the lower half are those of the numeral without its leading zeros, so that the text is the numeral
only if the upper half is zero or the lower half has as many digits as a half can have: eight in
base 16, and never in base 10, where the halves do not end at a digit (`itoa_canonical_iff`).
-/

namespace PakOS

open Machine Coalesce Numeral

variable {E : Type*} {base : HeapBase} {mmap : Mmap E} {radix value : ℕ}

/-- For a value of 32 bits the text is the numeral. -/
theorem itoaText_of_lt (h : value < 4294967296) : itoaText radix value = numeral radix value := by
  unfold itoaText numeral itoaDigitList
  rw [Nat.mod_eq_of_lt h, Nat.div_eq_of_lt h, Nat.digits_zero, List.append_nil]

/-- The place value of the upper half's digits is the right one exactly if the lower half has eight
digits in base 16. -/
theorem pow_length_digits_iff {lower : ℕ} (hradix : radix = 10 ∨ radix = 16)
    (hlower : lower < 4294967296) :
    radix ^ (Nat.digits radix lower).length = 4294967296 ↔ radix = 16 ∧ 268435456 ≤ lower := by
  have hlen := @length_digits_half radix lower (by omega) hlower
  rcases hradix with rfl | rfl
  · have hall : ∀ n ≤ 10, 10 ^ n ≠ 4294967296 := by decide
    exact ⟨fun h => absurd h (hall _ hlen), fun h => absurd h.1 (by decide)⟩
  · have hall : ∀ n ≤ 10, 16 ^ n = 4294967296 ↔ n = 8 := by decide
    have hle : (Nat.digits 16 lower).length ≤ 8 :=
      (Nat.digits_length_le_iff (by decide) lower).mpr hlower
    have hlt : 7 < (Nat.digits 16 lower).length ↔ 268435456 ≤ lower :=
      Nat.lt_digits_length_iff (by decide) lower
    rw [hall _ hlen, ← hlt]
    constructor
    · intro h8
      exact ⟨rfl, by omega⟩
    · intro h
      omega

/-- The text is the numeral of a value above 32 bits exactly if the digits of the lower half fill
it. -/
theorem canonical_itoaText_iff (hradix : radix = 10 ∨ radix = 16) :
    Canonical radix value (itoaText radix value) ↔
      value < 4294967296 ∨ radix = 16 ∧ 268435456 ≤ value % 4294967296 := by
  have hone : 1 < radix := by omega
  have h36 : radix ≤ 36 := by omega
  by_cases hlt : value < 4294967296
  · rw [itoaText_of_lt hlt]
    exact ⟨fun _ => Or.inl hlt, fun _ => canonical_numeral hone h36 value⟩
  have hupper : value / 4294967296 ≠ 0 := by omega
  have hne : Nat.digits radix (value / 4294967296) ≠ [] := Nat.digits_ne_nil_iff_ne_zero.mpr hupper
  have hne' : itoaDigitList radix value ≠ [] := List.append_ne_nil_of_right_ne_nil _ hne
  have hdigits : ∀ d ∈ itoaDigitList radix value, d < radix := fun d hd =>
    (List.mem_append.mp hd).elim (Nat.digits_lt_base hone) (Nat.digits_lt_base hone)
  have hlast : (itoaDigitList radix value).getLast hne' ≠ 0 := by
    have heq : (itoaDigitList radix value).getLast hne' =
        (Nat.digits radix (value / 4294967296)).getLast hne := List.getLast_append_of_ne_nil _ hne
    rw [heq]
    exact Nat.getLast_digit_ne_zero radix hupper
  rw [itoaText, if_neg (by omega), canonical_text_iff h36 hdigits hne' hlast, itoaDigitList,
    Nat.ofDigits_append, Nat.ofDigits_digits, Nat.ofDigits_digits]
  rw [← pow_length_digits_iff hradix (Nat.mod_lt value (by decide))]
  have hsplit := Nat.mod_add_div value 4294967296
  constructor
  · intro h
    refine Or.inr (Nat.eq_of_mul_eq_mul_right (Nat.pos_of_ne_zero hupper) ?_)
    omega
  · intro h
    rw [h.resolve_left hlt]
    omega

/-- Numerals are unique, so these are also the values whose text is the numeral. -/
theorem itoaText_eq_numeral_iff (hradix : radix = 10 ∨ radix = 16) :
    itoaText radix value = numeral radix value ↔
      value < 4294967296 ∨ radix = 16 ∧ 268435456 ≤ value % 4294967296 := by
  have hone : 1 < radix := by omega
  have h36 : radix ≤ 36 := by omega
  rw [← canonical_itoaText_iff hradix]
  constructor
  · intro h
    rw [h]
    exact canonical_numeral hone h36 value
  · intro h
    exact h.eq_numeral hone h36

/-- On every reachable heap whose end does not wrap around `itoa` returns its text. -/
theorem Reachable.itoa_text {s : History E} (hs : Reachable base mmap s)
    (hradix : radix = 10 ∨ radix = 16) (hvalue : value < 18446744073709551616)
    (hend : ∀ fuel p k₁, kmalloc (kernelSpace mmap) fuel (itoaSize value) s.kernel = some (p, k₁) →
      EndOk s.kernel k₁) :
    ∃ log p k', Completes (fun n => itoa (kernelSpace mmap) n value radix s.kernel) log (p, k') ∧
      CString k'.mem p (itoaText radix value) := by
  obtain ⟨bs, h⟩ := hs.inv
  obtain ⟨k₁, bs₁, b, log, k', -, hall, hcomp, hconv⟩ := h.itoa_completes hradix hvalue hend
  obtain ⟨hb, -, hsize⟩ := hall.block (sizeOk_of_small (itoaSize_small value).1).1
  exact ⟨log, b.addr + 20, k', hcomp,
    hconv.cstring hall.heap hb hsize (by omega) (by omega) hvalue⟩

/-- **The text of `itoa`.**  On every reachable heap whose end does not wrap around, for every
64-bit value and base 10 or 16, `itoa` returns a string; it is the canonical numeral exactly if the
value has 32 bits, or the base is 16 and the leading digit of the lower half is not zero. -/
theorem itoa_canonical_iff {s : History E} (hs : Reachable base mmap s)
    (hradix : radix = 10 ∨ radix = 16) (hvalue : value < 18446744073709551616)
    (hend : ∀ fuel p k₁, kmalloc (kernelSpace mmap) fuel (itoaSize value) s.kernel = some (p, k₁) →
      EndOk s.kernel k₁) :
    ∃ log p k' t, Completes (fun n => itoa (kernelSpace mmap) n value radix s.kernel) log (p, k') ∧
      CString k'.mem p t ∧
      (Canonical radix value t ↔
        value < 4294967296 ∨ radix = 16 ∧ 268435456 ≤ value % 4294967296) := by
  obtain ⟨log, p, k', hcomp, hstr⟩ := hs.itoa_text hradix hvalue hend
  exact ⟨log, p, k', itoaText radix value, hcomp, hstr, canonical_itoaText_iff hradix⟩

theorem itoa_canonical_threeLive :
    ∃ log p k' t, Completes (fun n => itoa (kernelSpace mapAll) n 6442450944 16 threeLive.kernel) log
      (p, k') ∧ CString k'.mem p t ∧ Canonical 16 6442450944 t := by
  have hreach : Reachable kernelHeap mapAll threeLive := reachable_historyOf _ _ _
  have hcall : ((kmalloc (kernelSpace mapAll) 8 (itoaSize 6442450944) threeLive.kernel).map fun r =>
      decide (EndOk threeLive.kernel r.2)) = some true := by decide +kernel
  obtain ⟨r, hr, hend⟩ := Option.map_eq_some_iff.mp hcall
  obtain ⟨log, p, k', t, hcomp, hstr, hiff⟩ := itoa_canonical_iff hreach (Or.inr rfl)
    (show 6442450944 < 18446744073709551616 by decide) (endOk_of_kmalloc hr (of_decide_eq_true hend))
  exact ⟨log, p, k', t, hcomp, hstr, hiff.mpr (by decide)⟩

/-- The text of 2 to the 32 is that of one: the lower half has no digits at all. -/
theorem not_canonical_freshHeap :
    Reachable kernelHeap mapAll freshHeap ∧ ∃ p k',
      (itoa (kernelSpace mapAll) 8 4294967296 10 freshHeap.kernel).result = some (p, k') ∧
      CString k'.mem p [49] ∧ ¬Canonical 10 4294967296 [49] := by
  refine ⟨reachable_historyOf _ _ _, ?_⟩
  have hrun : ((itoa (kernelSpace mapAll) 8 4294967296 10 freshHeap.kernel).result.map fun r =>
      (r.1, r.2.mem r.1, r.2.mem (r.1 + 1))) = some (0xd0000014, 49, 0) := by decide +kernel
  obtain ⟨r, hr, hval⟩ := Option.map_eq_some_iff.mp hrun
  simp only [Prod.mk.injEq] at hval
  obtain ⟨hp, hone, hzero⟩ := hval
  refine ⟨r.1, r.2, hr, ⟨⟨hone, hzero, trivial⟩, by decide, ?_⟩, fun hcan => ?_⟩
  · rw [hp]
    decide
  · exact absurd hcan.eval (by decide)

end PakOS
