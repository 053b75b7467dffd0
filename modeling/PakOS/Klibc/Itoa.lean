import PakOS.Data.Numeral
import PakOS.Klibc.String
import PakOS.Kmalloc.Overrun

/-!
# `itoa`

`itoa` of `klibc/kstdlib.c`, as a trace of the addresses that it stores to itself, in addition to
what the allocator writes.  It takes a block of 32 bytes, writes the digits of the lower half of the
value and then those of the upper half from the last byte downwards, and moves them to the front.

`itoa_completes` is the specification: the block holds `itoaText base value`, which is the digits of
the upper half followed by those of the lower half, and a terminator; the only byte outside the
request that is written is the one behind it.
-/

namespace PakOS

open Machine Coalesce Numeral

variable {E : Type*}

/-- The character that the digit loop stores: `digit + '0'` or `digit + 'A' - 10`, in a byte. -/
def itoaChar (digit : ℕ) : UInt8 :=
  if digit % 256 < 10 then UInt8.ofNat (digit + 48) else UInt8.ofNat (digit + 55)

/-- `while (val > 0)`: the digits of `val`, the least significant first, at falling addresses; `i`
is an 8-bit variable, and `buflen` is 31. -/
def itoaDigits (s base : ℕ) : ℕ → ℕ → ℕ → Mem → Trace ℕ (ℕ × Mem)
  | 0, _, _, _ => ⟨[], none⟩
  | fuel + 1, val, i, m =>
    if val > 0 then
      let a := add32 s (sub32 31 i)
      (Trace.emit [a] (Function.update m a (itoaChar (val % base)))).bind fun m =>
        itoaDigits s base fuel (val / base) ((i + 1) % 256) m
    else Trace.emit [] (i, m)

/-- The `for` loop over the lower and the upper half of the value. -/
def itoaRounds (s base fuel value : ℕ) (m : Mem) : Trace ℕ (ℕ × Mem) :=
  (itoaDigits s base fuel (value % 4294967296) 0 m).bind fun d =>
    itoaDigits s base fuel (value / 4294967296 % 4294967296) d.1 d.2

/-- The part of `itoa` behind its `kcalloc`, for a value that is not zero. -/
def itoaFill (fuel value base s : ℕ) (k : Kernel E) : Trace ℕ (ℕ × Kernel E) :=
  -- `s[buflen--] = 0` with `buflen` 32: the byte behind the request
  (Trace.emit [add32 s 32] (Function.update k.mem (add32 s 32) 0)).bind fun m =>
    (itoaRounds s base fuel value m).bind fun d =>
      let i := d.1
      let m := copyBytes d.2 s (add32 (sub32 (add32 s 31) i) 1) i
      Trace.emit ((List.range i).map (add32 s) ++ [add32 s i])
        (s, { k with mem := Function.update m (add32 s i) 0 })

/-- `itoa(value, base)` -/
def itoa (space : Space E) (fuel value base : ℕ) (k : Kernel E) : Trace ℕ (ℕ × Kernel E) :=
  if value = 0 then
    (Trace.ofOption (kmalloc space fuel 2 k)).bind fun r =>
      let s := r.1
      Trace.emit [s, add32 s 1]
        (s, { r.2 with mem := Function.update (Function.update r.2.mem s 48) (add32 s 1) 0 })
  else
    (Trace.ofOption (kcalloc space fuel 32 1 k)).bind fun r => itoaFill fuel value base r.1 r.2

/-- The digits that `itoa` writes, the least significant first: those of the lower half, and then
those of the upper half. -/
def itoaDigitList (base value : ℕ) : List ℕ :=
  Nat.digits base (value % 4294967296) ++ Nat.digits base (value / 4294967296)

/-- The characters that `itoa` leaves. -/
def itoaText (base value : ℕ) : List UInt8 :=
  if value = 0 then [48] else text (itoaDigitList base value)

/-- The number of bytes that `itoa` asks for. -/
def itoaSize (value : ℕ) : ℕ := if value = 0 then 2 else 32

/-- It asks for little. -/
theorem itoaSize_small (value : ℕ) :
    itoaSize value + 35 < 4096 ∧ align16 (itoaSize value) ≤ 32 := by
  unfold itoaSize
  split <;> decide

/-! ### The digit loop -/

theorem itoaChar_eq {d : ℕ} (hd : d < 36) : itoaChar d = digitChar d := by
  unfold itoaChar digitChar
  rw [Nat.mod_eq_of_lt (by omega)]

theorem text_append (l l' : List ℕ) : text (l ++ l') = text l' ++ text l := by
  unfold text
  rw [List.reverse_append, List.map_append]

/-- The digit loop leaves the digits of `val` in front of the `i` characters that are there. -/
theorem itoaDigits_completes {s base val i : ℕ} {m : Mem} {l : List ℕ} (hb : 1 < base)
    (hb' : base ≤ 36) (hl : Nat.digits base val = l) (hi : i + l.length ≤ 32)
    (hs : s + 32 < 4294967296) :
    ∃ log m', Completes (fun n => itoaDigits s base n val i m) log (i + l.length, m') ∧
      Holds m' (s + 32 - i - l.length) (text l) ∧
      (∀ x, x < s ∨ s + 32 - i ≤ x → m' x = m x) ∧ ∀ a ∈ log, s ≤ a ∧ a < s + 32 := by
  induction l generalizing val i m with
  | nil =>
    have hval : ¬val > 0 := by
      rw [Nat.digits_eq_nil_iff_eq_zero.mp hl]
      exact Nat.lt_irrefl 0
    have hcomp : Completes (fun n => itoaDigits s base n val i m) [] (i, m) :=
      (Completes.emit [] (i, m)).succ rfl fun n => by rw [itoaDigits, if_neg hval]
    exact ⟨[], m, hcomp, trivial, fun _ _ => rfl, fun a ha => absurd ha List.not_mem_nil⟩
  | cons d l ih =>
    have hval : val > 0 := by
      refine Nat.pos_of_ne_zero fun h0 => ?_
      rw [h0, Nat.digits_zero] at hl
      exact absurd hl (List.cons_ne_nil d l).symm
    rw [Nat.digits_def' hb hval, List.cons.injEq] at hl
    obtain ⟨hd, hl⟩ := hl
    rw [List.length_cons] at hi
    have hdlt : d < 36 := hd ▸ (Nat.mod_lt val (by omega)).trans_le hb'
    have ha : add32 s (sub32 31 i) = s + 31 - i := by
      rw [sub32_of_le (by decide) (by omega), add32_of_lt (by omega)]
      omega
    have hi' : (i + 1) % 256 = i + 1 := Nat.mod_eq_of_lt (by omega)
    obtain ⟨log, m', hcomp, hholds, hframe, hlog⟩ := ih
      (m := Function.update m (s + 31 - i) (digitChar d)) hl (show i + 1 + l.length ≤ 32 by omega)
    refine ⟨[s + 31 - i] ++ log, m', ?_, ?_, fun x hx => ?_, fun a hmem => ?_⟩
    · have hstep := (Completes.emit [s + 31 - i] (Function.update m (s + 31 - i) (digitChar d))).bind
        (g := fun m n => itoaDigits s base n (val / base) (i + 1) m) hcomp
      rw [List.length_cons, Nat.add_comm l.length 1, ← Nat.add_assoc]
      refine hstep.succ rfl fun n => ?_
      rw [itoaDigits, if_pos hval, hd, itoaChar_eq hdlt, hi']
      simp only [ha]
    · -- the digit stands behind those that follow it
      rw [text_cons, holds_append, length_text, List.length_cons]
      have hrest : s + 32 - i - (l.length + 1) = s + 32 - (i + 1) - l.length := by omega
      have hlast : s + 32 - (i + 1) - l.length + l.length = s + 31 - i := by omega
      rw [hrest, hlast]
      refine ⟨hholds, ?_, trivial⟩
      rw [hframe _ (by omega), Function.update_self]
    · rw [hframe x (by omega), Function.update_of_ne (by omega)]
    · rcases List.mem_append.mp hmem with hmem | hmem
      · rw [List.mem_singleton.mp hmem]
        omega
      · exact hlog a hmem

/-! ### The whole function -/

/-- What `itoa(value, base)` makes of the block `b` that it was given in the state `k₁`. -/
structure Converted (k₁ : Kernel E) (b : Block) (base value : ℕ) (log : List ℕ) (k' : Kernel E) :
    Prop where
  /-- Only memory changes. -/
  kernel : ∃ m, k' = { k₁ with mem := m }
  /-- The block holds the characters and a terminator. -/
  text : Holds k'.mem (b.addr + 20) (itoaText base value ++ [0])
  /-- Outside the request nothing changes but the byte behind the 32 bytes. -/
  frame : ∀ x, x < b.addr + 20 ∨ b.addr + 20 + itoaSize value ≤ x →
    k'.mem x = if value ≠ 0 ∧ x = b.addr + 20 + 32 then 0 else k₁.mem x
  /-- The stores are to the request, or to this byte. -/
  stores : ∀ a ∈ log, b.addr + 20 ≤ a ∧
    (a < b.addr + 20 + itoaSize value ∨ value ≠ 0 ∧ a = b.addr + 20 + 32)
  /-- This byte is stored to. -/
  behind : value ≠ 0 → b.addr + 20 + 32 ∈ log

/-- A half of the value has at most ten digits. -/
theorem length_digits_half {base v : ℕ} (hbase : 10 ≤ base) (hv : v < 4294967296) :
    (Nat.digits base v).length ≤ 10 := by
  refine (Nat.digits_length_le_iff (by omega) v).mpr ?_
  calc v < 10 ^ 10 := hv.trans (by decide)
    _ ≤ base ^ 10 := Nat.pow_le_pow_left hbase 10

/-- All characters fit into the 32 bytes, with room to spare. -/
theorem length_itoaDigitList {base value : ℕ} (hbase : 10 ≤ base)
    (hvalue : value < 18446744073709551616) : (itoaDigitList base value).length ≤ 20 := by
  have hlower := @length_digits_half base (value % 4294967296) hbase (by omega)
  have hupper := @length_digits_half base (value / 4294967296) hbase (by omega)
  rw [itoaDigitList, List.length_append]
  omega

theorem length_itoaText_le {base value : ℕ} (hbase : 10 ≤ base)
    (hvalue : value < 18446744073709551616) : (itoaText base value).length ≤ 20 := by
  unfold itoaText
  split
  · exact Nat.le_of_ble_eq_true rfl
  · rw [length_text]
    exact length_itoaDigitList hbase hvalue

/-- The characters and their terminator fit into the request. -/
theorem length_itoaText_lt {base value : ℕ} (hbase : 10 ≤ base)
    (hvalue : value < 18446744073709551616) : (itoaText base value).length < itoaSize value := by
  by_cases hv : value = 0
  · rw [itoaText, itoaSize, if_pos hv, if_pos hv]
    decide
  · have hle := length_itoaText_le hbase hvalue
    rw [itoaSize, if_neg hv]
    omega

/-- None of the characters is the terminator. -/
theorem zero_notMem_itoaText {base value : ℕ} (hbase : 10 ≤ base) (hbase' : base ≤ 36) :
    0 ∉ itoaText base value := by
  unfold itoaText
  split
  · decide
  · intro hmem
    obtain ⟨d, hd, h0⟩ := mem_text hmem
    have hlt : d < base := by
      rcases List.mem_append.mp hd with hd | hd
      · exact Nat.digits_lt_base (by omega) hd
      · exact Nat.digits_lt_base (by omega) hd
    exact digitChar_ne_zero (show d < 36 by omega) h0.symm

/-- The two rounds of the `for` loop leave all characters at the end of the 32 bytes at `s`. -/
theorem itoaRounds_completes {s base value : ℕ} (m : Mem) (hbase : 10 ≤ base) (hbase' : base ≤ 36)
    (hvalue : value < 18446744073709551616) (hs : s + 32 < 4294967296) :
    ∃ log n m', Completes (fun fuel => itoaRounds s base fuel value m) log (n, m') ∧
      n = (text (itoaDigitList base value)).length ∧
      Holds m' (s + 32 - n) (text (itoaDigitList base value)) ∧
      (∀ x, x < s ∨ s + 32 ≤ x → m' x = m x) ∧ ∀ a ∈ log, s ≤ a ∧ a < s + 32 := by
  have hb : 1 < base := by omega
  have hlen := length_itoaDigitList hbase hvalue
  rw [itoaDigitList, List.length_append] at hlen
  have hupper : value / 4294967296 % 4294967296 = value / 4294967296 := Nat.mod_eq_of_lt (by omega)
  obtain ⟨log₁, m₁, hcomp₁, hholds₁, hframe₁, hlog₁⟩ := itoaDigits_completes (i := 0) (m := m) hb
    hbase' (l := Nat.digits base (value % 4294967296)) rfl (by omega) hs
  rw [Nat.zero_add] at hcomp₁
  obtain ⟨log₂, m₂, hcomp₂, hholds₂, hframe₂, hlog₂⟩ := itoaDigits_completes
    (i := (Nat.digits base (value % 4294967296)).length) (m := m₁) hb hbase'
    (l := Nat.digits base (value / 4294967296)) rfl (by omega) hs
  unfold itoaRounds
  rw [hupper]
  refine ⟨log₁ ++ log₂, _, m₂, hcomp₁.bind (g := fun d fuel =>
    itoaDigits s base fuel (value / 4294967296) d.1 d.2) hcomp₂, ?_, ?_, fun x hx => ?_,
    fun a ha => ?_⟩
  · rw [length_text, itoaDigitList, List.length_append]
  · -- the second round writes in front of what the first one wrote
    rw [itoaDigitList, text_append, holds_append, length_text]
    rw [Nat.sub_sub] at hholds₂
    refine ⟨hholds₂, ?_⟩
    rw [show s + 32 - ((Nat.digits base (value % 4294967296)).length +
        (Nat.digits base (value / 4294967296)).length) +
        (Nat.digits base (value / 4294967296)).length =
      s + 32 - 0 - (Nat.digits base (value % 4294967296)).length by omega]
    refine hholds₁.congr fun x hx _ => hframe₂ x (Or.inr ?_)
    omega
  · rw [hframe₂ x (by omega), hframe₁ x (by omega)]
  · exact (List.mem_append.mp ha).elim (hlog₁ a) (hlog₂ a)

/-- The part of `itoa` behind its `kcalloc` fills the 32 bytes at `s` and clears the byte behind
them. -/
theorem itoaFill_completes {s base value : ℕ} (hbase : 10 ≤ base) (hbase' : base ≤ 36)
    (hvalue : value < 18446744073709551616) (hs : s + 32 < 4294967296) (k : Kernel E) :
    ∃ log m', Completes (fun fuel => itoaFill fuel value base s k) log (s, { k with mem := m' }) ∧
      Holds m' s (text (itoaDigitList base value) ++ [0]) ∧
      (∀ x, x < s ∨ s + 32 ≤ x → m' x = if x = s + 32 then 0 else k.mem x) ∧
      (∀ a ∈ log, s ≤ a ∧ a ≤ s + 32) ∧ s + 32 ∈ log := by
  have hbehind : add32 s 32 = s + 32 := add32_of_lt hs
  obtain ⟨log, n, m', hcomp, hn, hholds, hframe, hlog⟩ :=
    itoaRounds_completes (Function.update k.mem (s + 32) 0) hbase hbase' hvalue hs
  have hlen := length_itoaDigitList hbase hvalue
  rw [← length_text, ← hn] at hlen
  have hsrc : add32 (sub32 (add32 s 31) n) 1 = s + 32 - n := by
    have h31 : add32 s 31 = s + 31 := add32_of_lt (by omega)
    rw [h31, sub32_of_le (by omega) (by omega), add32_of_lt (by omega)]
    omega
  have hterm : add32 s n = s + n := add32_of_lt (by omega)
  refine ⟨[s + 32] ++ (log ++ ((List.range n).map (add32 s) ++ [s + n])),
    Function.update (copyBytes m' s (s + 32 - n) n) (s + n) 0, ?_, ?_, fun x hx => ?_,
    fun a ha => ?_, by simp⟩
  · unfold itoaFill
    rw [hbehind]
    refine (Completes.emit _ _).bind (hcomp.bind ?_)
    dsimp only
    rw [hsrc, hterm]
    exact Completes.emit _ _
  · -- the move to the front reads every byte before it is overwritten
    have hmoved := hholds.copyBytes (d := s) (by omega) (by omega) (by omega)
    rw [holds_append, ← hn]
    rw [← hn] at hmoved
    refine ⟨hmoved.congr fun x _ hlt => Function.update_of_ne (by omega) _ _, ?_, trivial⟩
    exact Function.update_self _ _ _
  · rw [Function.update_of_ne (by omega), copyBytes_of_notMem (by omega) (by omega),
      hframe x hx, Function.update_apply]
  · simp only [List.mem_append, List.mem_singleton, List.mem_map, List.mem_range] at ha
    rcases ha with rfl | ha | ⟨j, hj, rfl⟩ | rfl
    · omega
    · have := hlog a ha
      omega
    · rw [add32_of_lt (by omega)]
      omega
    · omega

/-- `itoa(0, base)` in a block of 2 bytes. -/
theorem itoa_zero_completes {space : Space E} {k k₁ : Kernel E} {b : Block} (base : ℕ)
    (hyields : Yields (fun n => kmalloc space n (itoaSize 0) k) (b.addr + 20, k₁))
    (hlt : b.addr + 20 + 1 < 4294967296) :
    ∃ log k', Completes (fun n => itoa space n 0 base k) log (b.addr + 20, k') ∧
      Converted k₁ b base 0 log k' := by
  have hone : add32 (b.addr + 20) 1 = b.addr + 20 + 1 := add32_of_lt hlt
  refine ⟨[b.addr + 20, b.addr + 20 + 1], { k₁ with
      mem := Function.update (Function.update k₁.mem (b.addr + 20) 48) (b.addr + 20 + 1) 0 }, ?_,
    ⟨_, rfl⟩, ⟨?_, ?_, trivial⟩, fun x hx => ?_, fun a ha => ?_, fun hne => absurd rfl hne⟩
  · unfold itoa
    simp only [if_true]
    rw [← List.nil_append [b.addr + 20, b.addr + 20 + 1]]
    refine (Completes.ofOption hyields).bind ?_
    dsimp only
    rw [hone]
    exact Completes.emit _ _
  · exact (Function.update_of_ne (by omega) _ _).trans (Function.update_self _ _ _)
  · exact Function.update_self _ _ _
  · have hsize : itoaSize 0 = 2 := rfl
    rw [hsize] at hx
    rw [if_neg fun hne => hne.1 rfl]
    exact (Function.update_of_ne (by omega) _ _).trans (Function.update_of_ne (by omega) _ _)
  · have hsize : itoaSize 0 = 2 := rfl
    simp only [List.mem_cons, List.not_mem_nil, or_false] at ha
    omega

/-- `itoa(value, base)` of a positive value, in a block of 32 bytes. -/
theorem itoa_pos_completes {space : Space E} {k k₁ : Kernel E} {b : Block} {base value : ℕ}
    (hyields : Yields (fun n => kmalloc space n (itoaSize value) k) (b.addr + 20, k₁))
    (hlt : b.addr + 20 + 32 < 4294967296) (hbase : 10 ≤ base) (hbase' : base ≤ 36) (hv : value ≠ 0)
    (hvalue : value < 18446744073709551616) :
    ∃ log k', Completes (fun n => itoa space n value base k) log (b.addr + 20, k') ∧
      Converted k₁ b base value log k' := by
  have hsize : itoaSize value = 32 := if_neg hv
  rw [hsize] at hyields
  obtain ⟨log, m', hcomp, hholds, hframe, hlog, hbehind⟩ := itoaFill_completes hbase hbase' hvalue
    hlt { k₁ with mem := fillBytes k₁.mem (b.addr + 20) 0 32 }
  refine ⟨log, { k₁ with mem := m' }, ?_, ⟨_, rfl⟩, ?_, fun x hx => ?_, fun a ha => ?_,
    fun _ => hbehind⟩
  · unfold itoa
    simp only [if_neg hv, kcalloc_eq_map]
    exact (Completes.ofOption (hyields.map _)).bind hcomp
  · rwa [itoaText, if_neg hv]
  · rw [hsize] at hx
    have hx' : m' x = if x = b.addr + 20 + 32 then 0
        else fillBytes k₁.mem (b.addr + 20) 0 32 x := hframe x hx
    rw [fillBytes_of_notMem (by omega) hx] at hx'
    exact hx'.trans (if_congr (and_iff_right hv).symm rfl rfl)
  · have := hlog a ha
    rw [hsize]
    omega

/-- **`itoa`.**  On a heap that is ready for 32 bytes, `itoa` returns a block that the allocator
gave it, and leaves the characters there. -/
theorem itoa_completes (mmap : Mmap E) {k : Kernel E} {bs : List Block} {limit base value : ℕ}
    (h : HeapInv k bs) (hready : Ready (align16 (itoaSize value)) limit k bs)
    (hlimit : limit < 4294967296) (hbase : 10 ≤ base) (hbase' : base ≤ 36)
    (hvalue : value < 18446744073709551616) :
    ∃ k₁ bs₁ b log k',
      Yields (fun n => kmalloc (kernelSpace mmap) n (itoaSize value) k) (b.addr + 20, k₁) ∧
      Allocated limit k bs (itoaSize value) k₁ bs₁ b ∧
      Completes (fun n => itoa (kernelSpace mmap) n value base k) log (b.addr + 20, k') ∧
      Converted k₁ b base value log k' := by
  have hsmall := (itoaSize_small value).1
  obtain ⟨k₁, bs₁, b, hyields, hall⟩ := hready.yields_kmalloc mmap h hlimit hsmall le_rfl
  obtain ⟨hb, -, hsize⟩ := hall.block (sizeOk_of_small hsmall).1
  have hbounds := hall.heap.block_bounds hb
  by_cases hv : value = 0
  · subst hv
    have htwo : 2 ≤ b.size := hsize
    obtain ⟨log, k', hcomp, hconv⟩ := itoa_zero_completes base hyields (by omega)
    exact ⟨k₁, bs₁, b, log, k', hyields, hall, hcomp, hconv⟩
  · rw [itoaSize, if_neg hv] at hsize
    obtain ⟨log, k', hcomp, hconv⟩ :=
      itoa_pos_completes hyields (by omega) hbase hbase' hv hvalue
    exact ⟨k₁, bs₁, b, log, k', hyields, hall, hcomp, hconv⟩

/-- The block that `itoa` returns holds a string. -/
theorem Converted.cstring {k₁ k' : Kernel E} {bs : List Block} {b : Block} {base value : ℕ}
    {log : List ℕ} (h : Converted k₁ b base value log k') (hk : HeapInv k₁ bs) (hb : b ∈ bs)
    (hsize : itoaSize value ≤ b.size) (hbase : 10 ≤ base) (hbase' : base ≤ 36)
    (hvalue : value < 18446744073709551616) :
    CString k'.mem (b.addr + 20) (itoaText base value) := by
  have hbounds := hk.block_bounds hb
  have hlen := length_itoaText_lt hbase hvalue
  exact ⟨h.text, zero_notMem_itoaText hbase hbase', by omega⟩

end PakOS
