import Mathlib.Data.List.Nodup
import Mathlib.Data.Nat.Bitwise
import PakOS.Machine.Memory

/-!
# Bitmaps in memory

`readBit` and `writeBit` are the C idioms `(b & (1 << k)) >> k`, `b |= 1 << k` and `b &= ~(1 << k)`
on one byte of memory.  `bitAt m base i` is bit `i` of the bitmap that begins at `base`, eight bits
a byte, lowest first.  Writing a bit changes that bit and no other (`testBit_writeBit`), so that
different bits may be written in any order (`writeBits_perm`).
-/

namespace Machine

/-- `(b & (1 << k)) >> k` of the byte `b` at address `a`. -/
def readBit (m : Mem) (a k : ℕ) : ℕ := ((m a).toNat &&& 1 <<< k) >>> k

/-- `b |= 1 << k` or `b &= ~(1 << k)`, by the bit `v`, on the byte `b` at address `a`. -/
def writeBit (m : Mem) (a k : ℕ) (v : Bool) : Mem :=
  Function.update m a
    (if v then m a ||| UInt8.ofNat (1 <<< k) else m a &&& ~~~UInt8.ofNat (1 <<< k))

/-- Bit `i` of the bitmap at `base`. -/
def bitAt (m : Mem) (base i : ℕ) : Bool := (m (base + i / 8)).toNat.testBit (i % 8)

/-- Reading a bit gives `1` or `0`. -/
theorem readBit_eq (m : Mem) (a k : ℕ) :
    readBit m a k = if (m a).toNat.testBit k then 1 else 0 := by
  rw [readBit, Nat.one_shiftLeft, Nat.and_two_pow, Nat.shiftRight_eq_div_pow,
    Nat.mul_div_cancel _ (Nat.two_pow_pos k)]
  cases (m a).toNat.testBit k <;> rfl

/-- The bits of a byte after writing one of them. -/
theorem testBit_writeBit {m : Mem} {a k x j : ℕ} {v : Bool} (hk : k < 8) (hj : j < 8) :
    (writeBit m a k v x).toNat.testBit j =
      if x = a ∧ j = k then v else (m x).toNat.testBit j := by
  by_cases hx : x = a
  · subst hx
    have hpow : 2 ^ k < 256 := Nat.pow_lt_pow_right (by decide) hk
    have hbit : (UInt8.ofNat (1 <<< k)).toNat = 2 ^ k := by
      rw [UInt8.toNat_ofNat', Nat.one_shiftLeft, Nat.mod_eq_of_lt hpow]
    rw [writeBit, Function.update_self]
    cases v with
    | true =>
      rw [if_pos rfl, UInt8.toNat_or, Nat.testBit_or, hbit, Nat.testBit_two_pow]
      by_cases hjk : j = k
      · simp [hjk]
      · simp [hjk, Ne.symm hjk]
    | false =>
      have hnot : (~~~UInt8.ofNat (1 <<< k)).toNat = 2 ^ 8 - (2 ^ k + 1) := by
        rw [UInt8.toNat_not, hbit, UInt8.size]
        omega
      rw [if_neg Bool.false_ne_true, UInt8.toNat_and, Nat.testBit_and, hnot,
        Nat.testBit_two_pow_sub_succ hpow, Nat.testBit_two_pow]
      by_cases hjk : j = k
      · simp [hjk]
      · simp [hjk, hj, Ne.symm hjk]
  · rw [writeBit, Function.update_of_ne hx, if_neg fun h => hx h.1]

/-- A byte keeps its value with its bits. -/
theorem byte_ext {m m' : Mem} {x : ℕ}
    (h : ∀ j < 8, (m' x).toNat.testBit j = (m x).toNat.testBit j) : m' x = m x := by
  apply UInt8.toNat_inj.mp
  apply Nat.eq_of_testBit_eq
  intro j
  by_cases hj : j < 8
  · exact h j hj
  · have hpow : 2 ^ 8 ≤ 2 ^ j := Nat.pow_le_pow_right (by decide) (Nat.le_of_not_lt hj)
    rw [Nat.testBit_lt_two_pow ((m' x).toNat_lt.trans_le hpow),
      Nat.testBit_lt_two_pow ((m x).toNat_lt.trans_le hpow)]

/-- Two bits may be written in any order. -/
theorem writeBit_comm {a k b j : ℕ} (m : Mem) (v w : Bool) (hk : k < 8) (hj : j < 8)
    (hne : (a, k) ≠ (b, j)) :
    writeBit (writeBit m a k v) b j w = writeBit (writeBit m b j w) a k v := by
  funext x
  refine byte_ext fun i hi => ?_
  rw [testBit_writeBit hj hi, testBit_writeBit hk hi, testBit_writeBit hk hi, testBit_writeBit hj hi]
  by_cases hb : x = b ∧ i = j
  · have ha : ¬(x = a ∧ i = k) := fun ha => hne (Prod.ext (ha.1.symm.trans hb.1) (ha.2.symm.trans hb.2))
    rw [if_pos hb, if_neg ha, if_pos hb]
  · rw [if_neg hb, if_neg hb]

/-- Write bits one after the other: where, and what. -/
def writeBits (m : Mem) (bits : List ((ℕ × ℕ) × Bool)) : Mem :=
  bits.foldl (fun m b => writeBit m b.1.1 b.1.2 b.2) m

/-- Different bits may be written in any order. -/
theorem writeBits_perm (m : Mem) {bits bits' : List ((ℕ × ℕ) × Bool)} (hperm : bits.Perm bits')
    (hlt : ∀ b ∈ bits, b.1.2 < 8) (hnd : (bits.map Prod.fst).Nodup) :
    writeBits m bits = writeBits m bits' := by
  refine hperm.foldl_eq' (fun b hb c hc m => ?_) m
  by_cases hbc : b.1 = c.1
  · rw [List.inj_on_of_nodup_map hnd hb hc hbc]
  · exact writeBit_comm m b.2 c.2 (hlt b hb) (hlt c hc) hbc

end Machine
