import Mathlib.Data.Nat.Digits.Defs
import Mathlib.Logic.Function.Basic
import Mathlib.Tactic.Ring
import PakOS.Machine.Word

/-!
# Byte-addressed little-endian memory

A memory gives every address a byte.  `loadLE n m a` reads the `n` bytes from `a` as one number,
lowest byte first, and `storeLE n m a v` writes the `n` low bytes of `v` there.  A word written is
read back (`loadLE_storeLE_same`), and a store is not seen by a read of other addresses
(`loadLE_storeLE_disjoint`, `storeLE_of_notMem`).

`fillBytes` and `copyBytes` are the byte loops of the C library, index after index, with the
addresses computed in 32 bits; where their ranges do not wrap they touch exactly the destination.
-/

namespace Machine

/-- A memory: one byte at every address. -/
abbrev Mem := ℕ → UInt8

/-- The number whose `n` little-endian bytes stand from address `a`. -/
def loadLE : ℕ → Mem → ℕ → ℕ
  | 0, _, _ => 0
  | n + 1, m, a => (m a).toNat + 256 * loadLE n m (a + 1)

/-- Write the `n` low bytes of `v`, lowest first, from address `a`. -/
def storeLE : ℕ → Mem → ℕ → ℕ → Mem
  | 0, m, _, _ => m
  | n + 1, m, a, v => storeLE n (Function.update m a (UInt8.ofNat v)) (a + 1) (v / 256)

/-- A number read from `n` bytes has at most `n` bytes. -/
theorem loadLE_lt (n : ℕ) (m : Mem) (a : ℕ) : loadLE n m a < 256 ^ n := by
  induction n generalizing a with
  | zero => simp [loadLE]
  | succ n ih =>
    have hbyte := (m a).toNat_lt
    have hrest := ih (a + 1)
    simp only [loadLE, pow_succ]
    omega

/-- A number read after some of its bytes were lowered is lower. -/
theorem loadLE_mono {n : ℕ} {m m' : Mem} {a : ℕ} (h : ∀ x, (m' x).toNat ≤ (m x).toNat) :
    loadLE n m' a ≤ loadLE n m a := by
  induction n generalizing a with
  | zero => exact le_rfl
  | succ n ih =>
    have hbyte := h a
    have hrest := ih (a := a + 1)
    simp only [loadLE]
    omega

/-- A read only depends on the bytes it reads. -/
theorem loadLE_congr {n : ℕ} {m m' : Mem} {a : ℕ}
    (h : ∀ x, a ≤ x → x < a + n → m' x = m x) : loadLE n m' a = loadLE n m a := by
  induction n generalizing a with
  | zero => rfl
  | succ n ih =>
    simp only [loadLE]
    rw [h a le_rfl (by omega), ih fun x hx hlt => h x (by omega) (by omega)]

/-- The same bytes at another place give the same number. -/
theorem loadLE_eq_of_forall {n : ℕ} {m m' : Mem} {a b : ℕ} (h : ∀ i < n, m' (a + i) = m (b + i)) :
    loadLE n m' a = loadLE n m b := by
  induction n generalizing a b with
  | zero => rfl
  | succ n ih =>
    have hfirst := h 0 (Nat.succ_pos n)
    have hrest : loadLE n m' (a + 1) = loadLE n m (b + 1) := by
      refine ih fun i hi => ?_
      rw [Nat.add_assoc, Nat.add_assoc, Nat.add_comm 1 i]
      exact h (i + 1) (Nat.succ_lt_succ hi)
    simp only [loadLE, hrest]
    rw [Nat.add_zero, Nat.add_zero] at hfirst
    rw [hfirst]

/-- The low bytes of a number that is read. -/
theorem loadLE_add_mod (n k : ℕ) (m : Mem) (a : ℕ) :
    loadLE (n + k) m a % 256 ^ n = loadLE n m a := by
  induction n generalizing a with
  | zero => rw [pow_zero, Nat.mod_one, loadLE]
  | succ n ih =>
    have hbyte := (m a).toNat_lt
    rw [Nat.add_right_comm, loadLE, loadLE, pow_succ, Nat.mul_comm (256 ^ n), Nat.mod_mul,
      Nat.add_mul_mod_self_left, Nat.mod_eq_of_lt hbyte, Nat.add_mul_div_left _ _ (by decide),
      Nat.div_eq_of_lt hbyte, Nat.zero_add, ih]

/-- A store leaves every byte outside its range alone. -/
theorem storeLE_of_notMem {n : ℕ} {m : Mem} {a v x : ℕ} (h : x < a ∨ a + n ≤ x) :
    storeLE n m a v x = m x := by
  induction n generalizing m a v with
  | zero => rfl
  | succ n ih =>
    rw [storeLE, ih (by omega), Function.update_of_ne (by omega)]

/-- Reading a word that was just written gives its value modulo the width. -/
theorem loadLE_storeLE_mod (n : ℕ) (m : Mem) (a v : ℕ) :
    loadLE n (storeLE n m a v) a = v % 256 ^ n := by
  induction n generalizing m a v with
  | zero => simp [loadLE, Nat.mod_one]
  | succ n ih =>
    rw [loadLE, storeLE, storeLE_of_notMem (Or.inl (Nat.lt_succ_self a)), Function.update_self,
      ih, pow_succ, Nat.mul_comm (256 ^ n) 256, Nat.mod_mul, UInt8.toNat_ofNat']

/-- Reading a word that was just written gives the word. -/
theorem loadLE_storeLE_same {n : ℕ} {m : Mem} {a v : ℕ} (hv : v < 256 ^ n) :
    loadLE n (storeLE n m a v) a = v := by
  rw [loadLE_storeLE_mod, Nat.mod_eq_of_lt hv]

/-- A store is not seen by a read of a disjoint range. -/
theorem loadLE_storeLE_disjoint {n k : ℕ} {m : Mem} {a b v : ℕ} (h : b + k ≤ a ∨ a + n ≤ b) :
    loadLE k (storeLE n m a v) b = loadLE k m b :=
  loadLE_congr fun _ _ _ => storeLE_of_notMem (by omega)

/-- Storing what was read from another place copies its bytes. -/
theorem storeLE_loadLE {n : ℕ} {m m' : Mem} {a b i : ℕ} (hi : i < n) :
    storeLE n m a (loadLE n m' b) (a + i) = m' (b + i) := by
  induction n generalizing m a b i with
  | zero => exact absurd hi (Nat.not_lt_zero i)
  | succ n ih =>
    have hlow : UInt8.ofNat ((m' b).toNat + 256 * loadLE n m' (b + 1)) = m' b := by
      apply UInt8.toNat_inj.mp
      have hbyte := (m' b).toNat_lt
      rw [UInt8.toNat_ofNat']
      omega
    have hhigh : ((m' b).toNat + 256 * loadLE n m' (b + 1)) / 256 = loadLE n m' (b + 1) := by
      have hbyte := (m' b).toNat_lt
      omega
    rw [storeLE, loadLE, hlow, hhigh]
    cases i with
    | zero =>
      have hkeep := storeLE_of_notMem (n := n) (m := Function.update m a (m' b))
        (v := loadLE n m' (b + 1)) (Or.inl (Nat.lt_add_one a))
      exact hkeep.trans (Function.update_self a (m' b) m)
    | succ i =>
      have hrest := ih (m := Function.update m a (m' b)) (a := a + 1) (b := b + 1)
        (Nat.lt_of_succ_lt_succ hi)
      rwa [Nat.add_assoc, Nat.add_comm 1 i, Nat.add_assoc b, Nat.add_comm 1 i] at hrest

/-! ### Byte loops -/

/-- `for (i = 0; i < n; i++) d[i] = v;` -/
def fillBytes (m : Mem) (d : ℕ) (v : UInt8) : ℕ → Mem
  | 0 => m
  | n + 1 => Function.update (fillBytes m d v n) (add32 d n) v

/-- `for (i = 0; i < n; i++) d[i] = s[i];` -/
def copyBytes (m : Mem) (d s : ℕ) : ℕ → Mem
  | 0 => m
  | n + 1 => Function.update (copyBytes m d s n) (add32 d n) (copyBytes m d s n (add32 s n))

/-- Every byte of the destination is filled, also where the addresses wrap around. -/
theorem fillBytes_of_mem {m : Mem} {d n i : ℕ} {v : UInt8} (hi : i < n) :
    fillBytes m d v n (add32 d i) = v := by
  induction n with
  | zero => omega
  | succ n ih =>
    rw [fillBytes]
    by_cases hin : add32 d i = add32 d n
    · rw [hin, Function.update_self]
    · have hne : i ≠ n := fun h => hin (h ▸ rfl)
      rw [Function.update_of_ne hin, ih (by omega)]

/-- Filling leaves every byte that is not in the destination alone, also where the addresses wrap
around. -/
theorem fillBytes_of_forall_ne {m : Mem} {d n x : ℕ} {v : UInt8} (h : ∀ i < n, x ≠ add32 d i) :
    fillBytes m d v n x = m x := by
  induction n with
  | zero => rfl
  | succ n ih =>
    rw [fillBytes, Function.update_of_ne (h n (Nat.lt_succ_self n)),
      ih fun i hi => h i (Nat.lt_succ_of_lt hi)]

/-- Filling a range that does not wrap around leaves the bytes outside it alone. -/
theorem fillBytes_of_notMem {m : Mem} {d n x : ℕ} {v : UInt8} (hd : d + n ≤ 4294967296)
    (h : x < d ∨ d + n ≤ x) : fillBytes m d v n x = m x := by
  refine fillBytes_of_forall_ne fun i hi => ?_
  rw [add32_of_lt (by omega)]
  omega

/-- Copying leaves the bytes outside the destination alone. -/
theorem copyBytes_of_notMem {m : Mem} {d s n x : ℕ} (hd : d + n ≤ 4294967296)
    (h : x < d ∨ d + n ≤ x) : copyBytes m d s n x = m x := by
  induction n with
  | zero => rfl
  | succ n ih =>
    rw [copyBytes, add32_of_lt (by omega), Function.update_of_ne (by omega),
      ih (by omega) (by omega)]

/-- Copying from the first byte on, to a place in front of the source or behind it. -/
theorem copyBytes_of_mem {m : Mem} {d s n i : ℕ} (hd : d + n ≤ 4294967296)
    (hs : s + n ≤ 4294967296) (hds : d ≤ s ∨ s + n ≤ d) (hi : i < n) :
    copyBytes m d s n (d + i) = m (s + i) := by
  induction n with
  | zero => omega
  | succ n ih =>
    rw [copyBytes, add32_of_lt (by omega), add32_of_lt (by omega)]
    by_cases hin : i = n
    · -- the source of the last byte is not written before
      rw [hin, Function.update_self, copyBytes_of_notMem (by omega) (by omega)]
    · rw [Function.update_of_ne (by omega), ih (by omega) (by omega) (by omega) (by omega)]

/-! ### Strings of bytes -/

/-- The bytes `l` stand in memory from `a` on. -/
def Holds (m : Mem) : ℕ → List UInt8 → Prop
  | _, [] => True
  | a, c :: l => m a = c ∧ Holds m (a + 1) l

theorem holds_cons {m : Mem} {a : ℕ} {c : UInt8} {l : List UInt8} :
    Holds m a (c :: l) ↔ m a = c ∧ Holds m (a + 1) l := Iff.rfl

/-- Two strings stand one behind the other. -/
theorem holds_append {m : Mem} {a : ℕ} {l l' : List UInt8} :
    Holds m a (l ++ l') ↔ Holds m a l ∧ Holds m (a + l.length) l' := by
  induction l generalizing a with
  | nil => exact (and_iff_right trivial).symm
  | cons c l ih =>
    rw [List.cons_append, holds_cons, holds_cons, ih, and_assoc, List.length_cons,
      Nat.add_right_comm]
    exact Iff.rfl

/-- A string stands in memory if each of its bytes does. -/
theorem holds_iff {m : Mem} {a : ℕ} {l : List UInt8} :
    Holds m a l ↔ ∀ i (hi : i < l.length), m (a + i) = l[i] := by
  induction l generalizing a with
  | nil => exact iff_of_true trivial fun i hi => absurd hi (Nat.not_lt_zero i)
  | cons c l ih =>
    rw [holds_cons, ih]
    constructor
    · rintro ⟨h0, hl⟩ i hi
      cases i with
      | zero => exact h0
      | succ i =>
        have hnext := hl i (Nat.lt_of_succ_lt_succ hi)
        rwa [Nat.add_assoc, Nat.add_comm 1] at hnext
    · intro h
      refine ⟨h 0 (Nat.succ_pos _), fun i hi => ?_⟩
      rw [Nat.add_assoc, Nat.add_comm 1]
      exact h (i + 1) (Nat.succ_lt_succ hi)

/-- A string only depends on its bytes. -/
theorem Holds.congr {m m' : Mem} {a : ℕ} {l : List UInt8} (h : Holds m a l)
    (hm : ∀ x, a ≤ x → x < a + l.length → m' x = m x) : Holds m' a l := by
  rw [holds_iff] at h ⊢
  intro i hi
  rw [hm _ (by omega) (by omega), h i hi]

/-- Two strings of one length that stand at one place are the same. -/
theorem Holds.eq {m : Mem} {a : ℕ} {l l' : List UInt8} (h : Holds m a l) (h' : Holds m a l')
    (hlen : l.length = l'.length) : l = l' := by
  rw [holds_iff] at h h'
  exact List.ext_getElem hlen fun i hi hi' => (h i hi).symm.trans (h' i hi')

/-- A number that is read has the bytes that stand there as its digits. -/
theorem Holds.loadLE {m : Mem} {a : ℕ} {l : List UInt8} (h : Holds m a l) :
    Machine.loadLE l.length m a = Nat.ofDigits 256 (l.map UInt8.toNat) := by
  induction l generalizing a with
  | nil => rfl
  | cons c l ih =>
    rw [List.length_cons, Machine.loadLE, ih h.2, h.1, List.map_cons, Nat.ofDigits_cons]

/-- A string that was copied. -/
theorem Holds.copyBytes {m : Mem} {d s : ℕ} {l : List UInt8} (h : Holds m s l)
    (hd : d + l.length ≤ 4294967296) (hs : s + l.length ≤ 4294967296)
    (hds : d ≤ s ∨ s + l.length ≤ d) : Holds (Machine.copyBytes m d s l.length) d l := by
  rw [holds_iff] at h ⊢
  intro i hi
  rw [copyBytes_of_mem hd hs hds hi, h i hi]

/-- Memory after the bytes `l` were stored from `a` on. -/
def storeBytes (m : Mem) : ℕ → List UInt8 → Mem
  | _, [] => m
  | a, c :: l => Function.update (storeBytes m (a + 1) l) a c

/-- Storing bytes leaves the others alone. -/
theorem storeBytes_of_notMem {m : Mem} {a x : ℕ} {l : List UInt8} (h : x < a ∨ a + l.length ≤ x) :
    storeBytes m a l x = m x := by
  induction l generalizing a with
  | nil => rfl
  | cons c l ih =>
    rw [List.length_cons] at h
    rw [storeBytes, Function.update_of_ne (by omega), ih (by omega)]

/-- The bytes that were stored. -/
theorem holds_storeBytes (m : Mem) (a : ℕ) (l : List UInt8) : Holds (storeBytes m a l) a l := by
  induction l generalizing a with
  | nil => trivial
  | cons c l ih =>
    refine ⟨Function.update_self _ _ _, (ih (a + 1)).congr fun x hx _ => ?_⟩
    exact Function.update_of_ne (by omega) _ _

end Machine
