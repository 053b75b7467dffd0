import Mathlib.Data.Finset.Card
import Mathlib.Order.Interval.Finset.Nat
import PakOS.VirtMM.MapSpec

/-!
# Mapping a range of pages

The loops of `mmap`, `maphwdev` and `munmap`.  `missingTables` counts the page tables that a range
lacks; when the frame allocator has that many single frames to give, and no page of the range is the
window onto a table of the range (`NoOwnWindow`), the loop maps every page of the range to its frame
(`Sound.mapPages_spec`).
-/

namespace PakOS

open Machine

namespace VirtMM

variable {P : Type*} {F : FramePool P} {s s' : VirtMM P}

/-- The regions of the `n` pages from `page` on, pages being counted modulo the address space.  The
elaborator is kept from evaluating it at numerals. -/
@[irreducible] def regions (page n : ℕ) : Finset ℕ := (Finset.Ico page (page + n)).image (· % 1048576 / 1024)

/-- The number of page tables that the `n` pages from `page` on lack. -/
def missingTables (s : VirtMM P) (page n : ℕ) : ℕ :=
  ((regions page n).filter fun d => ¬Present (s.pde d)).card

/-- No page of the range is the window onto a table that maps a page of the range. -/
def NoOwnWindow (page n : ℕ) : Prop :=
  ∀ i < n, ∀ j < n, page + j ≠ windowPage ((page + i) / 1024)

instance (page n : ℕ) : Decidable (NoOwnWindow page n) :=
  inferInstanceAs (Decidable (∀ i < n, ∀ j < n, page + j ≠ windowPage ((page + i) / 1024)))

theorem mem_regions {page n d : ℕ} :
    d ∈ regions page n ↔ ∃ i < n, (page + i) % 1048576 / 1024 = d := by
  simp only [regions, Finset.mem_image, Finset.mem_Ico]
  constructor
  · rintro ⟨p, ⟨hle, hlt⟩, rfl⟩
    exact ⟨p - page, by omega, by rw [Nat.add_sub_cancel' hle]⟩
  · rintro ⟨i, hi, rfl⟩
    exact ⟨page + i, ⟨Nat.le_add_right _ _, by omega⟩, rfl⟩

/-- The first page of a range brings its region. -/
theorem regions_succ (page n : ℕ) :
    regions page (n + 1) = insert (page % 1048576 / 1024) (regions (page + 1) n) := by
  ext d
  rw [Finset.mem_insert, mem_regions, mem_regions]
  constructor
  · rintro ⟨i, hi, rfl⟩
    cases i with
    | zero => exact Or.inl rfl
    | succ i => exact Or.inr ⟨i, by omega, by rw [Nat.add_assoc, Nat.add_comm 1 i]⟩
  · rintro (rfl | ⟨i, hi, rfl⟩)
    · exact ⟨0, by omega, rfl⟩
    · exact ⟨i + 1, by omega, by rw [Nat.add_assoc, Nat.add_comm 1 i]⟩

/-- A range that does not map its own tables ends before the last page. -/
theorem NoOwnWindow.lt {page n : ℕ} (h : NoOwnWindow page n) (hpage : page < 1048576) {i : ℕ}
    (hi : i < n) : page + i < 1048575 := by
  by_contra hle
  have hlast := h (1048575 - page) (by omega) (1048575 - page) (by omega)
  unfold windowPage at hlast
  omega

theorem NoOwnWindow.tail {page n : ℕ} (h : NoOwnWindow page (n + 1)) : NoOwnWindow (page + 1) n := by
  intro i hi j hj
  have := h (i + 1) (by omega) (j + 1) (by omega)
  rwa [← Nat.add_assoc, ← Nat.add_assoc, Nat.add_right_comm page j, Nat.add_right_comm page i] at this

/-- The tables that are missing after the first page of a range was mapped. -/
theorem Mapped.missingTables {page n f : ℕ} (h : Mapped F page f s s') (hpage : page < 1048576)
    (hn : NoOwnWindow page (n + 1)) :
    missingTables s page (n + 1) =
      missingTables s' (page + 1) n + if Present (s.pde (page / 1024)) then 0 else 1 := by
  have hmod : page % 1048576 / 1024 = page / 1024 := by omega
  -- on the regions that are left, only the table of the first page can have appeared
  have hsame : ∀ d ∈ regions (page + 1) n,
      ¬Present (s'.pde d) ↔ ¬Present (s.pde d) ∧ d ≠ page / 1024 := by
    intro d hd
    obtain ⟨i, hi, rfl⟩ := mem_regions.mp hd
    have hlt := hn.lt hpage (show i + 1 < n + 1 by omega)
    have hmod' : (page + 1 + i) % 1048576 / 1024 = (page + (i + 1)) / 1024 := by omega
    rw [hmod']
    by_cases hreg : (page + (i + 1)) / 1024 = page / 1024
    · rw [hreg]
      simp [h.present]
    · have hwin := hn (i + 1) (by omega) 0 (by omega)
      rw [h.present_iff _ (by omega) hreg hwin]
      simp [hreg]
  have hrest : (regions (page + 1) n).filter (fun d => ¬Present (s'.pde d)) =
      ((regions (page + 1) n).filter fun d => ¬Present (s.pde d)).erase (page / 1024) := by
    ext d
    rw [Finset.mem_filter, Finset.mem_erase, Finset.mem_filter]
    constructor
    · rintro ⟨hd, hpres⟩
      have := (hsame d hd).mp hpres
      exact ⟨this.2, hd, this.1⟩
    · rintro ⟨hne, hd, hpres⟩
      exact ⟨hd, (hsame d hd).mpr ⟨hpres, hne⟩⟩
  unfold VirtMM.missingTables
  rw [hrest, regions_succ, hmod, Finset.filter_insert]
  by_cases hpres : Present (s.pde (page / 1024))
  · rw [if_neg (not_not.mpr hpres), if_pos hpres, Finset.erase_eq_of_notMem]
    · rfl
    · simp [hpres]
  · rw [if_pos hpres, if_neg hpres, ← Finset.card_erase_add_one (Finset.mem_insert_self _ _),
      Finset.erase_insert_eq_erase]

/-! ### The loops -/

/-- The addresses that the loops hand on. -/
theorem add32_pages (a i : ℕ) : add32 (4096 * a) (mul32 4096 i) = 4096 * ((a + i) % 1048576) := by
  unfold add32 mul32
  omega

/-- The first page of a range that is supplied with tables is supplied with its own. -/
theorem tableSupplied_of_singles {page n : ℕ} (hpage : page < 1048576)
    (h : F.Singles (missingTables s page (n + 1)) s.pool) : TableSupplied F s page := by
  intro hpres
  have hmem : page / 1024 ∈ (regions page (n + 1)).filter fun d => ¬Present (s.pde d) :=
    Finset.mem_filter.mpr ⟨mem_regions.mpr ⟨0, by omega, by rw [Nat.add_zero]; omega⟩, hpres⟩
  obtain ⟨m, hm⟩ := Nat.exists_eq_succ_of_ne_zero (Finset.card_ne_zero_of_mem hmem)
  rw [missingTables, hm] at h
  obtain ⟨q, p', hk, hq, -⟩ := h
  exact ⟨q, p', hk, hq⟩

/-- A table that is there keeps sparing what it spared. -/
theorem Spares.mono {p q : ℕ} (h : Spares s p q) (hp : p < 1048576)
    (hmono : ∀ d ≤ 1023, Present (s.pde d) → Present (s'.pde d)) : Spares s' p q :=
  ⟨h.1, h.2.1, h.2.2.imp (hmono _ (by omega)) id⟩

/-- When the tables of a range are supplied, those of its rest are still supplied once its first
page is mapped. -/
theorem Mapped.singles_tail {page n f : ℕ} (h : Mapped F page f s s') (hpage : page < 1048576)
    (hn : NoOwnWindow page (n + 1)) (hsup : F.Singles (VirtMM.missingTables s page (n + 1)) s.pool)
    (hpool : Present (s.pde (page / 1024)) → s'.pool = s.pool)
    (hpool' : ¬Present (s.pde (page / 1024)) → ∃ q, F.hwpalloc 1 s.pool = some (q, s'.pool)) :
    F.Singles (VirtMM.missingTables s' (page + 1) n) s'.pool := by
  rw [h.missingTables hpage hn] at hsup
  by_cases hpres : Present (s.pde (page / 1024))
  · rw [if_pos hpres] at hsup
    rw [hpool hpres]
    exact hsup
  · rw [if_neg hpres] at hsup
    obtain ⟨q, hk⟩ := hpool' hpres
    obtain ⟨q', p', hk', -, hsingles⟩ := hsup
    obtain ⟨-, rfl⟩ : q = q' ∧ s'.pool = p' := by simpa using hk.symm.trans hk'
    exact hsingles

/-- A frame that is in use and no table has not become one when another frame is mapped. -/
theorem Mapped.frameOf_ne {page f g : ℕ} (h : Mapped F page f s s') (huse : F.inUse s.pool g = true)
    (htables : ∀ e ≤ 1023, Present (s.pde e) → frameOf (s.pde e) ≠ g) (hfg : f ≠ g) :
    ∀ e ≤ 1023, Present (s'.pde e) → frameOf (s'.pde e) ≠ g := by
  intro e he hpres heq
  rcases h.tables e he hpres with hf | ⟨d, hd, hdpres, hdeq⟩ | hfree
  · exact hfg (hf.symm.trans heq)
  · exact htables d hd hdpres (hdeq.trans heq)
  · rw [heq, huse] at hfree
    exact Bool.noConfusion hfree

/-- The loop that maps the frames from `f` on to the pages from `page` on, with `n` rounds to go
from round `i` on: the pages are mapped, and what they spare stays.  The tables that are missing
must be supplied, and a page of the window may only be given a frame that is in use and no table. -/
theorem Sound.mapPages_spec (hF : F.Lawful) {f page n i : ℕ} (hs : Sound F s)
    (hpage : page + i < 1048576) (hn : NoOwnWindow (page + i) n)
    (hf : ∀ j, i ≤ j → j < i + n → 1047552 ≤ page + j →
      F.inUse s.pool ((f + j) % 1048576) = true ∧
        ∀ e ≤ 1023, Present (s.pde e) → frameOf (s.pde e) ≠ (f + j) % 1048576)
    (hsup : F.Singles (missingTables s (page + i) n) s.pool) :
    ∃ s', mapPages F (4096 * f) (4096 * page) n i s = some s' ∧ Sound F s' ∧
      (∀ j, i ≤ j → j < i + n → s'.translate (page + j) = some ((f + j) % 1048576)) ∧
      (∀ q < 1048576, (∀ j, i ≤ j → j < i + n → Spares s (page + j) q) →
        s'.translate q = s.translate q) ∧
      ∀ j, F.inUse s.pool j = true → F.inUse s'.pool j = true := by
  induction n generalizing i s with
  | zero => exact ⟨s, rfl, hs, fun j h₁ h₂ => by omega, fun _ _ _ => rfl, fun _ h => h⟩
  | succ n ih =>
    have hlast : page + i < 1048575 := hn.lt hpage (Nat.succ_pos n)
    have hlt : ∀ j, i ≤ j → j < i + (n + 1) → page + j < 1048575 := by
      intro j hij hj
      have := hn.lt hpage (show j - i < n + 1 by omega)
      omega
    have hwin : ∀ j, i ≤ j → j < i + (n + 1) → ∀ k, i ≤ k → k < i + (n + 1) →
        page + k ≠ windowPage ((page + j) / 1024) := by
      intro j hij hj k hik hk
      have := hn (j - i) (by omega) (k - i) (by omega)
      rwa [show page + i + (j - i) = page + j by omega,
        show page + i + (k - i) = page + k by omega] at this
    -- the first page
    obtain ⟨s₁, hmapfr, hmapped, hpool, hpool'⟩ := hs.mapfr_spec hF hlast
      (hf i le_rfl (by omega)) (tableSupplied_of_singles hpage hsup)
    -- the tables of the rest are supplied
    have hsup₁ := hmapped.singles_tail hpage hn hsup hpool hpool'
    -- the frames that are left have not become tables
    have hf₁ : ∀ j, i + 1 ≤ j → j < i + 1 + n → 1047552 ≤ page + j →
        F.inUse s₁.pool ((f + j) % 1048576) = true ∧
          ∀ e ≤ 1023, Present (s₁.pde e) → frameOf (s₁.pde e) ≠ (f + j) % 1048576 := by
      intro j hij hj hjw
      have hjlt := hlt j (by omega) (by omega)
      obtain ⟨huse, htables⟩ := hf j (by omega) (by omega) hjw
      exact ⟨hmapped.inUse _ huse, hmapped.frameOf_ne huse htables (by omega)⟩
    obtain ⟨s', hloop, hs', hmap, hspare, hmono⟩ :=
      ih hmapped.sound (i := i + 1) (by omega) hn.tail hf₁ hsup₁
    refine ⟨s', ?_, hs', fun j hij hj => ?_, fun q hq hspares => ?_,
      fun j hj => hmono j (hmapped.inUse j hj)⟩
    · rw [mapPages, add32_pages, add32_pages, Nat.mod_eq_of_lt hpage, hmapfr, Option.bind_some]
      exact hloop
    · rcases Nat.eq_or_lt_of_le hij with rfl | hij
      · refine (hspare (page + i) hpage fun k hik hk => ?_).trans hmapped.translate_self
        refine ⟨by omega, hwin i le_rfl (by omega) k (by omega) (by omega), ?_⟩
        by_cases hreg : (page + i) / 1024 = (page + k) / 1024
        · exact Or.inl (hreg ▸ hmapped.present)
        · exact Or.inr ⟨hreg, hwin k (by omega) (by omega) i le_rfl (by omega)⟩
      · exact hmap j hij (by omega)
    · refine (hspare q hq fun k hik hk => ?_).trans
        (hmapped.translate_of_spares q hq (hspares i le_rfl (by omega)))
      have hklt := hlt k (by omega) (by omega)
      exact (hspares k (by omega) (by omega)).mono (by omega) hmapped.present_mono

/-- The loop that unmaps pages leaves alone what is neither one of them nor has its table shown by
one of them. -/
theorem Sound.umapPages_spec {page n i : ℕ} (hs : Sound F s)
    (hlt : ∀ j, i ≤ j → j < i + n → page + j < 1048575) :
    ∃ s', umapPages (4096 * page) n i s = some s' ∧ Sound F s' ∧ s'.pool = s.pool ∧
      ∀ q < 1048576, (∀ j, i ≤ j → j < i + n → q ≠ page + j ∧ page + j ≠ windowPage (q / 1024)) →
        s'.translate q = s.translate q := by
  induction n generalizing i s with
  | zero => exact ⟨s, rfl, hs, rfl, fun _ _ _ => rfl⟩
  | succ n ih =>
    have hp := hlt i le_rfl (by omega)
    obtain ⟨s₁, humapfr, hs₁, hpool, -, htrans⟩ := hs.umapfr_spec hp
    obtain ⟨s', hloop, hs', hpool', htrans'⟩ :=
      ih hs₁ (i := i + 1) fun j h₁ h₂ => hlt j (by omega) (by omega)
    refine ⟨s', ?_, hs', hpool'.trans hpool, fun q hq hfar => ?_⟩
    · rw [umapPages, add32_pages, Nat.mod_eq_of_lt (by omega), humapfr, Option.bind_some]
      exact hloop
    · obtain ⟨hne, hwin⟩ := hfar i le_rfl (by omega)
      exact (htrans' q hq fun j h₁ h₂ => hfar j (by omega) (by omega)).trans
        (htrans q hq hne hwin)

end VirtMM

end PakOS
