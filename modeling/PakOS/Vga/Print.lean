import PakOS.Vga.Console

/-!
# Printing that does not scroll

A character that is no control character is stored at the cursor, and the cursor moves on.  As long
as the last row is not reached the console needs no memory from the heap: it writes into the text
buffer, moves its cursor, and sends the character to the serial port (`SameAbove`).
-/

namespace PakOS

open Machine

variable {E : Type*}

/-- The states differ at most in the text buffer and below, the cursor, and what went to the serial
port. -/
structure SameAbove (k k' : Kernel E) : Prop where
  /-- `_first_blk` -/
  first : k'.firstBlk = k.firstBlk
  /-- `_heap_start` -/
  start : k'.heapStart = k.heapStart
  /-- `_heap_size` -/
  size : k'.heapSize = k.heapSize
  /-- The memory behind the text buffer. -/
  mem : ∀ x, vgaBase + 4000 ≤ x → k'.mem x = k.mem x

theorem SameAbove.trans {k₁ k₂ k₃ : Kernel E} (h : SameAbove k₁ k₂) (h' : SameAbove k₂ k₃) :
    SameAbove k₁ k₃ :=
  ⟨h'.first.trans h.first, h'.start.trans h.start, h'.size.trans h.size,
    fun x hx => (h'.mem x hx).trans (h.mem x hx)⟩

/-- The position of the cursor on the screen, counted along the rows. -/
def cursor (k : Kernel E) : ℕ := k.vgaCursorR * vgaWidth + k.vgaCursorC

/-- The cursor stands in a column, and `n` more characters do not reach the last row. -/
def Roomy (k : Kernel E) (n : ℕ) : Prop :=
  k.vgaCursorC < vgaWidth ∧ cursor k + n < (vgaHeight - 1) * vgaWidth

instance (k : Kernel E) (n : ℕ) : Decidable (Roomy k n) := by
  unfold Roomy
  infer_instance

/-- The characters that `vga_putchar` stores. -/
def Printable (c : UInt8) : Prop := c ≠ 10 ∧ c ≠ 13 ∧ c ≠ 9

instance (c : UInt8) : Decidable (Printable c) := by
  unfold Printable
  infer_instance

/-- Storing a character on the screen does not touch the memory behind the text buffer. -/
theorem vgaSetChar_above {r c : ℕ} {ch : UInt8} {m : Mem}
    (h : r * vgaWidth + c < (vgaHeight - 1) * vgaWidth) {x : ℕ} (hx : vgaBase + 4000 ≤ x) :
    vgaSetChar r c ch m x = m x := by
  unfold vgaHeight vgaWidth at h
  unfold vgaSetChar vgaWidth
  exact storeLE_of_notMem (by omega)

/-- A printable character is stored at the cursor. -/
theorem vgaPlace_of_printable {c : UInt8} (hc : Printable c) (k : Kernel E) :
    vgaPlace c k = { k with
      mem := vgaSetChar k.vgaCursorR k.vgaCursorC c k.mem
      vgaCursorC := (k.vgaCursorC + 1) % 256 } := by
  obtain ⟨h10, h13, h9⟩ := hc
  rw [vgaPlace, if_neg h10, if_neg h13, if_neg h9]

/-- Wrapping the cursor keeps its position on the screen. -/
theorem cursor_vgaWrap {k : Kernel E} {p : ℕ} (hcol : k.vgaCursorC ≤ vgaWidth) (hp : cursor k = p)
    (hrow : p < (vgaHeight - 1) * vgaWidth) :
    cursor (vgaWrap k) = p ∧ (vgaWrap k).vgaCursorC < vgaWidth := by
  by_cases hwrap : k.vgaCursorC ≥ vgaWidth
  · rw [vgaWrap, if_pos hwrap]
    simp only [cursor, vgaWidth, vgaHeight] at *
    omega
  · rw [vgaWrap, if_neg hwrap]
    simp only [cursor, vgaWidth, vgaHeight] at *
    omega

/-- Wrapping the cursor changes nothing but the cursor. -/
theorem sameAbove_vgaWrap (k : Kernel E) : SameAbove k (vgaWrap k) := by
  unfold vgaWrap
  split <;> exact ⟨rfl, rfl, rfl, fun _ _ => rfl⟩

/-- `vga_putchar` of a printable character that does not reach the last row. -/
theorem vgaPutchar_of_roomy (space : Space E) (kfree : Kfree E) (fuel : ℕ) {n : ℕ} {c : UInt8}
    {k : Kernel E} (hc : Printable c) (hk : Roomy k (n + 1)) :
    ∃ k', vgaPutchar space kfree fuel c k = some k' ∧ SameAbove k k' ∧ Roomy k' n := by
  obtain ⟨hcol, hpos⟩ := hk
  have hmem : ∀ x, vgaBase + 4000 ≤ x → vgaSetChar k.vgaCursorR k.vgaCursorC c k.mem x = k.mem x :=
    fun x hx => vgaSetChar_above ((Nat.le_add_right _ _).trans_lt hpos) hx
  rw [vgaPutchar, vgaPlace_of_printable hc]
  generalize hk₁ : ({ k with
    serial := k.serial ++ [c]
    mem := vgaSetChar k.vgaCursorR k.vgaCursorC c k.mem
    vgaCursorC := (k.vgaCursorC + 1) % 256 } : Kernel E) = k₁
  have hC : k₁.vgaCursorC = k.vgaCursorC + 1 := by
    subst hk₁
    unfold vgaWidth at hcol
    exact Nat.mod_eq_of_lt (by omega)
  have hR : k₁.vgaCursorR = k.vgaCursorR := by subst hk₁; rfl
  have hsame : SameAbove k k₁ := by subst hk₁; exact ⟨rfl, rfl, rfl, hmem⟩
  obtain ⟨hcursor, hcol'⟩ := cursor_vgaWrap (k := k₁) (p := cursor k + 1) (by omega)
    (by rw [cursor, hR, hC]; rfl) (by omega)
  have hrow : ¬(vgaWrap k₁).vgaCursorR ≥ vgaHeight - 1 := by
    unfold cursor vgaWidth vgaHeight at *
    omega
  refine ⟨vgaWrap k₁, by simp only [if_neg hrow], hsame.trans (sameAbove_vgaWrap k₁), hcol', ?_⟩
  omega

/-- `vga_print` of printable characters that do not reach the last row. -/
theorem vgaPrint_of_roomy (space : Space E) (kfree : Kfree E) (fuel : ℕ) {n : ℕ} (str : List UInt8)
    {k : Kernel E} (hstr : ∀ c ∈ str, Printable c) (hk : Roomy k (str.length + n)) :
    ∃ k', vgaPrint space kfree fuel str k = some k' ∧ SameAbove k k' ∧ Roomy k' n := by
  induction str generalizing k with
  | nil => exact ⟨k, rfl, ⟨rfl, rfl, rfl, fun _ _ => rfl⟩, by simpa using hk⟩
  | cons c cs ih =>
    rw [List.length_cons, Nat.add_right_comm] at hk
    obtain ⟨k₁, hk₁, hsame₁, hfits₁⟩ :=
      vgaPutchar_of_roomy space kfree fuel (hstr c List.mem_cons_self) hk
    obtain ⟨k₂, hk₂, hsame₂, hfits₂⟩ := ih (fun d hd => hstr d (List.mem_cons_of_mem c hd)) hfits₁
    exact ⟨k₂, by rw [vgaPrint, hk₁]; exact hk₂, hsame₁.trans hsame₂, hfits₂⟩

end PakOS
