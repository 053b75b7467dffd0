import PakOS.Klibc.ItoaNumeral
import PakOS.Vga.Print

/-!
# Two ways to print a hexadecimal number

`vga_puthex` takes the nibbles of a word from its bytes, the highest first, and prints all eight;
`itoa` divides by the base until nothing is left, and returns a string.  Both write the digits of
one numeral: `vga_puthex` pads it with zeros to the width of a word (`hexDigits_eq`), and without
them it is what `itoa(v, 16)` returns (`hexPrinters_agree`).
-/

namespace PakOS

open Machine Coalesce Numeral

variable {E : Type*} {base : HeapBase} {mmap : Mmap E}

/-- `0`–`9` or `A`–`F`. -/
def UpperHexDigit (c : UInt8) : Prop := 48 ≤ c ∧ c ≤ 57 ∨ 65 ≤ c ∧ c ≤ 70

instance (c : UInt8) : Decidable (UpperHexDigit c) := by
  unfold UpperHexDigit
  infer_instance

/-- Printing a string after another is printing both. -/
theorem vgaPrint_append (space : Space E) (kfree : Kfree E) (fuel : ℕ) (cs ds : List UInt8)
    (k : Kernel E) : vgaPrint space kfree fuel (cs ++ ds) k =
      (vgaPrint space kfree fuel cs k).bind fun k => vgaPrint space kfree fuel ds k := by
  induction cs generalizing k with
  | nil => rfl
  | cons c cs ih =>
    rw [List.cons_append, vgaPrint, vgaPrint]
    cases vgaPutchar space kfree fuel c k with
    | none => rfl
    | some k₁ => exact ih k₁

/-- `vga_puthex` prints `0x` and the digits. -/
theorem vgaPuthex_eq (space : Space E) (kfree : Kfree E) (fuel v : ℕ) (k : Kernel E) :
    vgaPuthex space kfree fuel v k = vgaPrint space kfree fuel (48 :: 120 :: hexDigits v) k := by
  refine Eq.trans ?_ (vgaPrint_append space kfree fuel [48, 120] (hexDigits v) k).symm
  rw [vgaPuthex]
  cases vgaPrint space kfree fuel [48, 120] k <;> rfl

/-- The character of a nibble is that of a digit. -/
theorem hexNibble_eq (n : ℕ) : hexNibble n = digitChar n := by
  unfold hexNibble digitChar
  simp only [Nat.lt_succ_iff]

/-- The nibbles of the bytes are the eight digits. -/
theorem hexDigits_eq (v : ℕ) : hexDigits v = text (lowDigits 16 8 v) := by
  have hnibble : ∀ j, v / 256 ^ j % 256 / 16 = v / 16 ^ (2 * j + 1) % 16 ∧
      v / 256 ^ j % 256 % 16 = v / 16 ^ (2 * j) % 16 := by
    intro j
    have hbyte : (256 : ℕ) ^ j = 16 ^ (2 * j) := Nat.pow_mul 16 2 j ▸ rfl
    rw [hbyte, Nat.pow_succ, ← Nat.div_div_eq_div_mul]
    omega
  simp only [hexDigits, List.flatMap_cons, List.flatMap_nil, hexNibble_eq, (hnibble _).1,
    (hnibble _).2]
  rfl

/-- The characters of hexadecimal digits. -/
theorem upperHexDigit_digitChar {d : ℕ} (hd : d < 16) : UpperHexDigit (digitChar d) := by
  have hall : ∀ d < 16, UpperHexDigit (digitChar d) := by decide
  exact hall d hd

/-- **The hexadecimal printers agree.**  `vga_puthex(v)` prints `0x` and eight upper-case digits;
without their leading zeros these are the string that `itoa(v, 16)` returns on a reachable heap
whose end does not wrap around. -/
theorem hexPrinters_agree {v : ℕ} (hv : v < 4294967296) :
    (∀ (space : Space E) kfree fuel k,
      vgaPuthex space kfree fuel v k = vgaPrint space kfree fuel (48 :: 120 :: hexDigits v) k) ∧
    (hexDigits v).length = 8 ∧ (∀ c ∈ hexDigits v, UpperHexDigit c) ∧
    ∀ (base : HeapBase) (mmap : Mmap E) s, Reachable base mmap s →
      (∀ fuel p k₁, kmalloc (kernelSpace mmap) fuel (itoaSize v) s.kernel = some (p, k₁) →
        EndOk s.kernel k₁) →
      ∃ log p k', Completes (fun n => itoa (kernelSpace mmap) n v 16 s.kernel) log (p, k') ∧
        CString k'.mem p (dropZeros (hexDigits v)) := by
  refine ⟨fun space kfree fuel k => vgaPuthex_eq space kfree fuel v k, ?_, fun c hc => ?_,
    fun base mmap s hs hend => ?_⟩
  · rw [hexDigits_eq, length_text, length_lowDigits]
  · rw [hexDigits_eq] at hc
    obtain ⟨d, hd, rfl⟩ := mem_text hc
    exact upperHexDigit_digitChar (lowDigits_lt (by decide) 8 v d hd)
  · obtain ⟨log, p, k', hcomp, hstr⟩ := hs.itoa_text (Or.inr rfl)
      (show v < 18446744073709551616 by omega) hend
    refine ⟨log, p, k', hcomp, ?_⟩
    rwa [hexDigits_eq, dropZeros_text (by decide) (by decide) (lowDigits_lt (by decide) 8 v),
      ofDigits_lowDigits, Nat.mod_eq_of_lt (show v < 16 ^ 8 from hv), ← itoaText_of_lt hv]

/-- The vendor of an Intel card, on the heap of the kernel as it boots. -/
theorem hexPrinters_agree_vendor :
    hexDigits 0x8086 = [48, 48, 48, 48, 56, 48, 56, 54] ∧
      ∃ log p k', Completes (fun n => itoa (kernelSpace mapAll) n 0x8086 16 freshHeap.kernel) log
        (p, k') ∧ CString k'.mem p [56, 48, 56, 54] := by
  have hcall : ((kmalloc (kernelSpace mapAll) 8 (itoaSize 0x8086) freshHeap.kernel).map fun r =>
      decide (EndOk freshHeap.kernel r.2)) = some true := by decide +kernel
  obtain ⟨r, hr, hend⟩ := Option.map_eq_some_iff.mp hcall
  have hdrop : dropZeros (hexDigits 0x8086) = [56, 48, 56, 54] := by decide
  obtain ⟨-, -, -, hitoa⟩ := hexPrinters_agree (E := Unit) (show 0x8086 < 4294967296 by decide)
  refine ⟨by decide, hdrop ▸ hitoa kernelHeap mapAll freshHeap (reachable_historyOf _ _ _) ?_⟩
  exact endOk_of_kmalloc hr (of_decide_eq_true hend)

end PakOS
