import PakOS.VirtMM.Mmap

/-!
# What mapping leaves alone

`Extends F s s'` says that the page tables of `s` are still there in `s'`, that the tables that are
new were free frames, and that no frame was written that is in use and no table.  It is a preorder,
every call that maps pages below the window extends the state (`Sound.mapfr_extends`,
`Sound.mapPages_extends`), and it is all that is needed to see that mapping a page does not disturb
the contents of another.
-/

namespace PakOS

open Machine

namespace VirtMM

variable {P : Type*} {F : FramePool P} {s s₁ s' : VirtMM P}

/-- The frame is a page table, the directory included. -/
def IsTable (s : VirtMM P) (f : ℕ) : Prop := ∃ d ≤ 1023, Present (s.pde d) ∧ frameOf (s.pde d) = f

/-- From `s` to `s'` tables were added and pages mapped, and nothing else was written. -/
structure Extends (F : FramePool P) (s s' : VirtMM P) : Prop where
  /-- The directory stays where it is. -/
  pdeTable : s'.pdeTable = s.pdeTable
  /-- The entries of the directory stay. -/
  pde : ∀ d ≤ 1023, Present (s.pde d) → s'.pde d = s.pde d
  /-- The new tables were free frames. -/
  fresh : ∀ d ≤ 1023, Present (s'.pde d) → ¬Present (s.pde d) →
    F.inUse s.pool (frameOf (s'.pde d)) = false
  /-- No frame is given back. -/
  inUse : ∀ f, F.inUse s.pool f = true → F.inUse s'.pool f = true
  /-- Frames in use that are no tables keep their contents. -/
  phys : ∀ f, F.inUse s.pool f = true → ¬IsTable s f → s'.phys f = s.phys f

theorem Extends.refl (F : FramePool P) (s : VirtMM P) : Extends F s s :=
  ⟨rfl, fun _ _ _ => rfl, fun _ _ h h' => absurd h h', fun _ h => h, fun _ _ _ => rfl⟩

/-- A frame in use that is no table does not become one. -/
theorem Extends.not_isTable (h : Extends F s s') {f : ℕ} (huse : F.inUse s.pool f = true)
    (hf : ¬IsTable s f) : ¬IsTable s' f := by
  rintro ⟨d, hd, hpres, rfl⟩
  by_cases hold : Present (s.pde d)
  · rw [h.pde d hd hold] at hf
    exact hf ⟨d, hd, hold, rfl⟩
  · exact Bool.noConfusion (huse.symm.trans (h.fresh d hd hpres hold))

theorem Extends.trans (h : Extends F s s₁) (h' : Extends F s₁ s') : Extends F s s' := by
  refine ⟨h'.pdeTable.trans h.pdeTable, fun d hd hpres => ?_, fun d hd hpres habs => ?_,
    fun f hf => h'.inUse f (h.inUse f hf), fun f huse hf => ?_⟩
  · have hfirst := h.pde d hd hpres
    exact (h'.pde d hd (hfirst ▸ hpres)).trans hfirst
  · by_cases hmid : Present (s₁.pde d)
    · rw [h'.pde d hd hmid]
      exact h.fresh d hd hmid habs
    · refine Bool.eq_false_iff.mpr fun huse => ?_
      exact Bool.noConfusion ((h.inUse _ huse).symm.trans (h'.fresh d hd hpres hmid))
  · exact (h'.phys f (h.inUse f huse) (h.not_isTable huse hf)).trans (h.phys f huse hf)

/-- What becomes of frames that are marked and of the pointers beside the tables does not matter. -/
theorem Extends.of_eq (hphys : s'.phys = s.phys) (hdir : s'.pdeTable = s.pdeTable)
    (hpool : ∀ f, F.inUse s.pool f = true → F.inUse s'.pool f = true) : Extends F s s' := by
  have hpde : ∀ d, s'.pde d = s.pde d := fun d => by rw [VirtMM.pde, VirtMM.pde, hphys, hdir]
  exact ⟨hdir, fun d _ _ => hpde d, fun d _ h h' => absurd (hpde d ▸ h) h', hpool,
    fun f _ _ => by rw [hphys]⟩

/-- Replacing the entry of a page outside the window. -/
theorem Sound.edit_extends (hs : Sound F s) {p v : ℕ} (hp : p < 1047552)
    (hpres : Present (s.pde (p / 1024))) : Extends F s (s.edit p v) := by
  have hpde : ∀ d ≤ 1023, (s.edit p v).pde d = s.pde d := by
    intro d hd
    rw [hs.pde_edit (by omega) hpres hd, if_neg (by unfold windowPage; omega)]
  refine ⟨rfl, fun d hd _ => hpde d hd, fun d hd h h' => absurd (hpde d hd ▸ h) h', fun _ h => h,
    fun f _ hf => ?_⟩
  -- the entry lies in the table of the page
  exact Function.update_of_ne (fun heq => hf ⟨p / 1024, by omega, hpres, heq.symm⟩) _ _

/-- Flushing the cache changes nothing that matters here. -/
theorem Extends.nativeFlushTlbSingle (h : Extends F s s') (a : ℕ) :
    Extends F s (s'.nativeFlushTlbSingle a) :=
  ⟨h.pdeTable, h.pde, h.fresh, h.inUse, h.phys⟩

/-- The directory is a table. -/
theorem Sound.isTable_pdeTable (hs : Sound F s) : IsTable s s.pdeTable :=
  ⟨1023, le_rfl, hs.selfMapped.present, hs.selfMapped.self⟩

/-- Creating a table writes to the directory only. -/
theorem createTable_phys {d pteTable : ℕ} (hk : createTable F d pteTable s = some s₁) :
    s₁.pdeTable = s.pdeTable ∧ ∀ f, f ≠ s.pdeTable → s₁.phys f = s.phys f := by
  unfold createTable at hk
  split at hk
  · obtain ⟨r, -, rfl⟩ := Option.map_eq_some_iff.mp hk
    exact ⟨rfl, fun f hf => Function.update_of_ne hf _ _⟩
  · obtain rfl := Option.some.inj hk
    exact ⟨rfl, fun _ _ => rfl⟩

/-- A table that is created extends the state. -/
theorem TableCreated.extends {d pteTable : ℕ} (h : TableCreated F d s s₁) (hs : Sound F s)
    (habs : ¬Present (s.pde d)) (hk : createTable F d pteTable s = some s₁) : Extends F s s₁ := by
  obtain ⟨t, hfree, hpde⟩ := h.pde
  obtain ⟨hdir, hphys⟩ := createTable_phys hk
  refine ⟨hdir, fun e he hpres => ?_, fun e he hpres habs' => ?_, h.inUse, fun f _ hf => ?_⟩
  · rw [hpde e he, if_neg]
    rintro rfl
    exact habs hpres
  · rw [hpde e he] at hpres ⊢
    by_cases hed : e = d
    · rw [if_pos hed, frameOf_or_three]
      exact hfree
    · rw [if_neg hed] at hpres
      exact absurd hpres habs'
  · refine hphys f ?_
    rintro rfl
    exact hf hs.isTable_pdeTable

/-- `mapfr(hwaddr, lgaddr)` of a page outside the window, when its table exists or there is a frame
for it. -/
theorem Sound.mapfr_extends (hs : Sound F s) (hF : F.Lawful) {p f : ℕ} (hp : p < 1047552)
    (htable : TableSupplied F s p) (hk : mapfr F (4096 * f) (4096 * p) s = some s') :
    Extends F s s' := by
  by_cases hpres : Present (s.pde (p / 1024))
  · obtain ⟨a, hmapfr⟩ := mapfr_of_createTable (f := f) hs (by omega) hpres
      (if_neg fun h => and_one_eq_zero_iff.mp h hpres)
    obtain rfl := Option.some.inj (hk.symm.trans hmapfr)
    exact (hs.edit_extends hp hpres).nativeFlushTlbSingle a
  · obtain ⟨q, p', hcall, hq⟩ := htable hpres
    obtain ⟨s₁, hcreate, -, hcreated⟩ :=
      hs.createTable_spec hF (by omega) hpres hcall hq (logicalPdeBase ||| (p / 1024) <<< 12)
    have hpres₁ := hcreated.present (by omega)
    obtain ⟨a, hmapfr⟩ := mapfr_of_createTable (f := f) hcreated.sound (by omega) hpres₁ hcreate
    obtain rfl := Option.some.inj (hk.symm.trans hmapfr)
    exact (hcreated.extends hs hpres hcreate).trans
      ((hcreated.sound.edit_extends hp hpres₁).nativeFlushTlbSingle a)

/-- A range below the window does not map its own tables. -/
theorem noOwnWindow_of_le {page n : ℕ} (h : page + n ≤ 1047552) : NoOwnWindow page n := by
  intro i _ j hj
  unfold windowPage
  omega

/-- The loop of `mmap` and of `maphwdev`, on pages below the window whose tables are supplied. -/
theorem Sound.mapPages_extends (hF : F.Lawful) {f page n i : ℕ} (hs : Sound F s)
    (hpage : page + i + n ≤ 1047552)
    (hsup : F.Singles (missingTables s (page + i) n) s.pool)
    (hk : mapPages F (4096 * f) (4096 * page) n i s = some s') : Extends F s s' := by
  induction n generalizing i s with
  | zero =>
    obtain rfl := Option.some.inj hk
    exact .refl F s
  | succ n ih =>
    have hn := noOwnWindow_of_le hpage
    have htable := tableSupplied_of_singles (by omega) hsup
    obtain ⟨s₁, hmapfr, hmapped, hpool, hpool'⟩ :=
      hs.mapfr_spec hF (f := (f + i) % 1048576) (show page + i < 1048575 by omega)
        (fun hle => absurd hle (by omega)) htable
    have hrest := hmapped.singles_tail (by omega) hn hsup hpool hpool'
    rw [mapPages, add32_pages, add32_pages, Nat.mod_eq_of_lt (show page + i < 1048576 by omega),
      hmapfr, Option.bind_some] at hk
    exact (hs.mapfr_extends hF (by omega) htable hmapfr).trans
      (ih hmapped.sound (i := i + 1) (by omega) hrest hk)

/-- What a translation that is there is worth when pages below the window are mapped: it stays,
unless it is the one of a page that is mapped. -/
theorem spares_of_present {q page : ℕ} (hpres : Present (s.pde (q / 1024))) (hne : q ≠ page)
    (hpage : page < 1047552) (hq : q < 1047552) : Spares s page q := by
  refine ⟨hne, by unfold windowPage; omega, ?_⟩
  by_cases hreg : q / 1024 = page / 1024
  · exact Or.inl (hreg ▸ hpres)
  · exact Or.inr ⟨hreg, by unfold windowPage; omega⟩

/-! ### `mmap` -/

/-- What `mmap` does to the `k` pages from `page` on: it gives them the frames from `a` on. -/
structure MapsFresh (F : FramePool P) (page k a : ℕ) (s s' : VirtMM P) : Prop where
  /-- Paging stays sound. -/
  sound : Sound F s'
  /-- Nothing else is written. -/
  extended : Extends F s s'
  /-- The pages are mapped. -/
  mapped : ∀ i < k, s'.translate (page + i) = some (a + i)
  /-- The frames were free. -/
  free : ∀ i < k, F.inUse s.pool (a + i) = false
  /-- They are in use. -/
  taken : ∀ i < k, F.inUse s'.pool (a + i) = true
  /-- They are no tables. -/
  not_isTable : ∀ i < k, ¬IsTable s' (a + i)
  /-- The other pages stay. -/
  kept : ∀ q < 1048576, (∀ i < k, Spares s (page + i) q) → s'.translate q = s.translate q

/-- `mmap` of fewer than 65536 pages below the window, when the frame allocator has the frames. -/
theorem Sound.mmap_mapsFresh (hs : Sound F s) (hF : F.Lawful) {page length : ℕ}
    (hlen : length < 4294967296) (hk : pageCount length < 65536)
    (hpage : page + pageCount length ≤ 1047552) (hsup : Supplied F page (pageCount length) s) :
    ∃ s' a, mmap F (4096 * page) length s = some (.ok, s') ∧
      MapsFresh F page (pageCount length) a s s' := by
  obtain ⟨q, p', hcall, hq, hsingles⟩ := hsup
  have hpages : add32 length 4095 / 4096 = pageCount length := by
    unfold pageCount add32 at *
    omega
  rw [Nat.mod_eq_of_lt hk] at hcall
  obtain ⟨a, rfl, htakes⟩ := hF.takes hk hcall hq
  have hle := htakes.le
  have hmono : ∀ f, F.inUse s.pool f = true → F.inUse p' f = true := fun _ => htakes.inUse_mono
  have htaken : ∀ i < pageCount length, F.inUse p' (a + i) = true := by
    intro i hi
    rw [htakes.marked, if_pos (by omega)]
  have hfree : ∀ i < pageCount length, F.inUse s.pool (a + i) = false :=
    fun i hi => htakes.free _ (Nat.le_add_right _ _) (by omega)
  have hs₁ : Sound F { s with pool := p' } := hs.of_inUse hmono
  obtain ⟨s', hloop, hs', hmap, hkept, hmono'⟩ :=
    hs₁.mapPages_spec hF (f := a) (i := 0) (show page + 0 < 1048576 by omega)
      (noOwnWindow_of_le hpage) (fun j _ hj hjw => absurd hjw (by omega)) hsingles
  have hext₁ : Extends F { s with pool := p' } s' :=
    Sound.mapPages_extends (i := 0) hF hs₁ hpage hsingles hloop
  have hmarked : Extends F s { s with pool := p' } := .of_eq rfl rfl hmono
  refine ⟨s', a, ?_, hs', hmarked.trans hext₁, fun i hi => ?_, hfree, fun i hi => hmono' _ (htaken i hi),
    fun i hi => ?_, fun q hq hspares => hkept q hq fun j _ hj => hspares j (by omega)⟩
  · rw [mmap, hpages, Nat.mod_eq_of_lt hk, hcall, Option.bind_some]
    exact congrArg (Option.map fun s => (Status.ok, s)) hloop
  · rw [hmap i (Nat.zero_le i) (by omega), Nat.mod_eq_of_lt (by omega)]
  · -- the tables of `s` were in use, and the new ones were not taken for the range
    refine hext₁.not_isTable (htaken i hi) ?_
    rintro ⟨d, hd, hpres, heq⟩
    have hused := hs.inUse d hd hpres
    rw [show frameOf (s.pde d) = a + i from heq, hfree i hi] at hused
    exact Bool.noConfusion hused

/-! ### `maphwdev` -/

/-- The low bits of the addresses play no part in mapping a page. -/
theorem mapfr_page {hw lg lg' : ℕ} (h : lg / 4096 = lg' / 4096) :
    mapfr F hw lg s = mapfr F hw lg' s := by
  simp only [mapfr, shiftRight_22, shiftRight_12_and, h]

/-- Nor in mapping a range. -/
theorem mapPages_page {hw lg n i : ℕ} :
    mapPages F hw lg n i s = mapPages F hw (4096 * (lg / 4096)) n i s := by
  induction n generalizing i s with
  | zero => rfl
  | succ n ih =>
    have hpage : add32 lg (mul32 4096 i) / 4096 =
        add32 (4096 * (lg / 4096)) (mul32 4096 i) / 4096 := by
      unfold add32 mul32
      omega
    simp only [mapPages, mapfr_page hpage, ih]

/-- `maphwdev` of pages below the window, when there are frames for the tables. -/
theorem Sound.maphwdev_extends (hs : Sound F s) (hF : F.Lawful) {hw pages lspace : ℕ}
    (hlspace : lspace = if s.driverSpaceHead = 0 then driverSpaceStart else s.driverSpaceHead)
    (halign : 4096 ∣ hw) (hpage : lspace / 4096 + pages ≤ 1047552)
    (htables : F.Singles (s.missingTables (lspace / 4096) pages) s.pool) :
    ∃ s', maphwdev F hw pages s = some (lspace, s') ∧ Sound F s' ∧ Extends F s s' ∧
      (∀ i < pages, s'.translate (lspace / 4096 + i) = some ((hw / 4096 + i) % 1048576)) ∧
      ∀ q < 1048576, (∀ i < pages, Spares s (lspace / 4096 + i) q) →
        s'.translate q = s.translate q := by
  obtain ⟨f₀, rfl⟩ := halign
  have hs₁ : Sound F { s with driverSpaceHead := add32 lspace pages } := ⟨hs.selfMapped, hs.inUse⟩
  by_cases hnone : pages = 0
  · subst hnone
    refine ⟨_, ?_, hs₁, .of_eq rfl rfl fun _ h => h, fun i hi => absurd hi (Nat.not_lt_zero i),
      fun _ _ _ => rfl⟩
    rw [maphwdev, ← hlspace]
    rfl
  obtain ⟨s', hloop, hs', hmap, hkept, -⟩ :=
    hs₁.mapPages_spec hF (f := f₀) (i := 0) (show lspace / 4096 + 0 < 1048576 by omega)
      (noOwnWindow_of_le hpage) (fun j _ hj hjw => absurd hjw (by omega)) htables
  have hmoved : Extends F s { s with driverSpaceHead := add32 lspace pages } :=
    .of_eq rfl rfl fun _ h => h
  refine ⟨s', ?_, hs',
    hmoved.trans (Sound.mapPages_extends (i := 0) hF hs₁ hpage htables hloop), fun i hi => ?_,
    fun q hq hspares => hkept q hq fun j _ hj => hspares j (by omega)⟩
  · rw [maphwdev, ← hlspace]
    rw [mapPages_page, hloop, Option.map_some]
  · rw [hmap i (Nat.zero_le i) (by omega), Nat.mul_div_cancel_left f₀ (by decide)]

end VirtMM

end PakOS
