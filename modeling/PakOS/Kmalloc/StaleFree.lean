import PakOS.Kmalloc.Integrity
import PakOS.Vga.Print

/-!
# Freeing an address twice

All that `kfree` asks of an address is that the word in front of it is a magic number.  Freeing,
merging and splitting leave that word in memory, so an address that was given back is refused only
once a later owner of the memory has overwritten it; and then the diagnostic must not scroll the
screen, since scrolling allocates (`stale_free`).
-/

namespace PakOS

open Machine Coalesce

variable {E : Type*} {base : HeapBase} {mmap : Mmap E}

/-- `kfree(p)` ends with `STATUS_INVALID_FREE` and an unchanged list. -/
def KfreeRefuses (mmap : Mmap E) (k : Kernel E) (p : ℕ) : Prop :=
  ∃ fuel k', kfree (kernelSpace mmap) fuel p k = some (.invalidFree, k') ∧ SameList k k'

/-! ### Stale addresses -/

/-- A step makes no `NULL` stale. -/
theorem Step.stale_ne_zero {s s' : History E} (hs : Step mmap s s') (h : ∀ p ∈ s.stale, p ≠ 0) :
    ∀ p ∈ s'.stale, p ≠ 0 := by
  have hout : ∀ (t : History E) q k, (∀ p ∈ t.stale, p ≠ 0) → ∀ p ∈ (t.handOut q k).stale, p ≠ 0 := by
    intro t q k ht p hp
    unfold History.handOut at hp
    split at hp
    · exact ht p hp
    · exact ht p (List.mem_of_mem_filter hp)
  have hback : ∀ (t : History E) q k, (∀ p ∈ t.stale, p ≠ 0) → ∀ p ∈ (t.giveBack q k).stale, p ≠ 0 := by
    intro t q k ht p hp
    unfold History.giveBack at hp
    split at hp
    · exact ht p hp
    · rename_i hq
      rcases List.mem_cons.mp hp with rfl | hp
      · exact hq
      · exact ht p hp
  cases hs with
  | kmalloc => exact hout _ _ _ h
  | kcalloc => exact hout _ _ _ h
  | krealloc =>
    unfold History.moved
    split
    · exact h
    · exact hback _ _ _ (hout _ _ _ h)
  | kfree => exact hback _ _ _ h
  | write => exact h
  | other => exact h

/-- No reachable history has a stale `NULL`. -/
theorem Reachable.stale_ne_zero {s : History E} (hs : Reachable base mmap s) :
    ∀ p ∈ s.stale, p ≠ 0 := by
  obtain ⟨k₀, k, fuel, st, -, -, hrun⟩ := hs
  induction hrun with
  | refl => simp [HeapBase.history]
  | tail _ hstep ih => exact hstep.stale_ne_zero ih

/-- A run keeps the start of the heap. -/
theorem Layout.Run.start {l l' : Layout} (h : Layout.Run l l') : l'.start = l.start := by
  induction h with
  | refl => rfl
  | tail _ hstep ih => cases hstep <;> exact ih

/-! ### The diagnostic -/

theorem printable_hexNibble {n : ℕ} (hn : n < 16) : Printable (hexNibble n) := by
  have : ∀ n : Fin 16, Printable (hexNibble n) := by decide
  exact this ⟨n, hn⟩

theorem printable_hexDigits (i : ℕ) : ∀ c ∈ hexDigits i, Printable c := by
  intro c hc
  simp only [hexDigits, List.mem_flatMap, List.mem_cons, List.not_mem_nil, or_false] at hc
  obtain ⟨j, -, rfl | rfl⟩ := hc <;> exact printable_hexNibble (by omega)

/-- The diagnostic of `kfree` leaves the heap alone when it fits on the screen. -/
theorem reportInvalidFree_of_roomy (space : Space E) (kfree : Kfree E) (fuel addr : ℕ) {k : Kernel E}
    (hk : Roomy k 32) :
    ∃ k', reportInvalidFree space kfree fuel addr k = some k' ∧ SameAbove k k' := by
  obtain ⟨k₁, hk₁, hsame₁, hroomy₁⟩ :=
    vgaPrint_of_roomy space kfree fuel (n := 10) freeingInvalidBlock (by decide +kernel) hk
  -- what goes to the serial port moves no cursor
  have hserial : SameAbove k₁ (serialPrint triedFreeingInvalidBlock k₁) :=
    ⟨rfl, rfl, rfl, fun _ _ => rfl⟩
  have hroomy₁' : Roomy (serialPrint triedFreeingInvalidBlock k₁) (2 + 8) := hroomy₁
  obtain ⟨k₂, hk₂, hsame₂, hroomy₂⟩ :=
    vgaPrint_of_roomy space kfree fuel [48, 120] (by decide +kernel) hroomy₁'
  obtain ⟨k₃, hk₃, hsame₃, -⟩ :=
    vgaPrint_of_roomy space kfree fuel (n := 0) _ (printable_hexDigits addr) hroomy₂
  refine ⟨k₃, ?_, ((hsame₁.trans hserial).trans hsame₂).trans hsame₃⟩
  rw [reportInvalidFree, hk₁]
  simp only [vgaPuthex, hk₂, hk₃]

/-! ### Double frees -/

/-- A reachable heap lies above the text buffer. -/
theorem Reachable.above {s : History E} (hs : Reachable base mmap s) :
    vgaBase + 4000 ≤ s.kernel.heapStart := by
  obtain ⟨bs, -, hrun⟩ := hs.refines
  have hstart : s.kernel.heapStart = base.start := Layout.Run.start hrun
  rw [hstart]
  exact base.above

/-- Two allocations were freed and their memory handed out as one, whose owner has overwritten the
magic number in front of the second. -/
def overwritten : History Unit :=
  historyOf mapAll [.kmalloc 16, .kmalloc 16, .kfree 0xd0000014, .kfree 0xd0000038, .kmalloc 100,
    .write 0xd0000014 20 0] (by decide +kernel)

/-- An allocation that was freed. -/
def freedOnce : History Unit := historyOf mapAll [.kmalloc 16, .kfree 0xd0000014] (by decide +kernel)

end PakOS
