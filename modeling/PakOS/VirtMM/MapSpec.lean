import PakOS.VirtMM.Mapping

/-!
# What mapping a page does

`Sound F s` is the invariant of paging: the directory maps itself, no two regions share a table, and
every table is a frame that the allocator has in use.  `Mapped F p f s s'` collects what `mapfr`
does to a sound state, whether the table of the page exists or has to be created; `mapfr_spec` is
the only place where the function is unfolded.
-/

namespace PakOS

open Machine

namespace VirtMM

variable {P : Type*} {F : FramePool P} {s s' : VirtMM P}

/-- The directory maps itself, and the page tables are different frames that are in use. -/
structure Sound (F : FramePool P) (s : VirtMM P) : Prop where
  /-- The directory maps itself and shares no table. -/
  selfMapped : SelfMapped s.phys s.pdeTable
  /-- The tables are not free frames. -/
  inUse : ∀ d ≤ 1023, Present (s.pde d) → F.inUse s.pool (frameOf (s.pde d)) = true

/-- Replace the entry of page `p`. -/
def edit (s : VirtMM P) (p v : ℕ) : VirtMM P :=
  { s with phys := setEntry s.phys s.pdeTable p v }

/-! ### Addresses -/

/-- The ten highest bits of an address. -/
theorem shiftRight_22 (lg : ℕ) : lg >>> 22 = lg / 4096 / 1024 := by
  rw [Nat.shiftRight_eq_div_pow, Nat.div_div_eq_div_mul]

/-- The ten bits below them. -/
theorem shiftRight_12_and (lg : ℕ) : lg >>> 12 &&& 0x3ff = lg / 4096 % 1024 := by
  rw [Nat.shiftRight_eq_div_pow]
  exact Nat.and_two_pow_sub_one_eq_mod _ 10

/-- The address of the window onto table `d`. -/
theorem pdeBase_or {d : ℕ} (hd : d ≤ 1023) : logicalPdeBase ||| d <<< 12 = 4096 * windowPage d := by
  have h := Nat.shiftLeft_add_eq_or_of_lt (show d <<< 12 < 2 ^ 22 by
    rw [Nat.shiftLeft_eq]
    omega) 1023
  have hbase : logicalPdeBase = 1023 <<< 22 := by decide
  rw [hbase, ← h, Nat.shiftLeft_eq, Nat.shiftLeft_eq, windowPage]
  omega

/-- The address through which the code edits the entry of `lg`. -/
theorem entryAddr_eq {lg : ℕ} (hlg : lg < 4294967296) :
    add32 (logicalPdeBase ||| lg >>> 22 <<< 12) (4 * (lg >>> 12 &&& 0x3ff)) =
      4096 * windowPage (lg / 4096 / 1024) + 4 * (lg / 4096 % 1024) := by
  rw [shiftRight_22, shiftRight_12_and, pdeBase_or (by omega), add32_of_lt]
  unfold windowPage
  omega

/-- When the directory's last entry is the directory, the code's address is translated to the table of
the page. -/
theorem translate_entryAddr (hlast : Present (s.pde 1023)) (hself : frameOf (s.pde 1023) = s.pdeTable)
    {lg : ℕ} (hlg : lg < 4294967296) (hpres : Present (s.pde (lg / 4096 / 1024))) :
    let a := add32 (logicalPdeBase ||| lg >>> 22 <<< 12) (4 * (lg >>> 12 &&& 0x3ff))
    s.translate (a / 4096) = some (frameOf (s.pde (lg / 4096 / 1024))) ∧
      a % 4096 / 4 = lg / 4096 % 1024 := by
  have hdiv : (4096 * windowPage (lg / 4096 / 1024) + 4 * (lg / 4096 % 1024)) / 4096 =
      windowPage (lg / 4096 / 1024) := by omega
  have hmod : (4096 * windowPage (lg / 4096 / 1024) + 4 * (lg / 4096 % 1024)) % 4096 / 4 =
      lg / 4096 % 1024 := by omega
  simp only [entryAddr_eq hlg]
  rw [hdiv, hmod, translate, pageWalk_windowPage hlast hself (by omega)]
  exact ⟨decode_of_present hpres, rfl⟩

/-- The code's address leads to the entry of the page. -/
theorem load_entry (hlast : Present (s.pde 1023)) (hself : frameOf (s.pde 1023) = s.pdeTable)
    {lg : ℕ} (hlg : lg < 4294967296) (hpres : Present (s.pde (lg / 4096 / 1024))) :
    s.load (add32 (logicalPdeBase ||| lg >>> 22 <<< 12) (4 * (lg >>> 12 &&& 0x3ff))) =
      some (s.phys (frameOf (s.pde (lg / 4096 / 1024))) (lg / 4096 % 1024)) := by
  obtain ⟨htable, hindex⟩ := translate_entryAddr hlast hself hlg hpres
  rw [load, htable, hindex, Option.map_some]

/-- Storing through the code's address replaces the entry of the page. -/
theorem store_entry (hlast : Present (s.pde 1023)) (hself : frameOf (s.pde 1023) = s.pdeTable)
    {lg v : ℕ} (hlg : lg < 4294967296) (hpres : Present (s.pde (lg / 4096 / 1024))) :
    s.store (add32 (logicalPdeBase ||| lg >>> 22 <<< 12) (4 * (lg >>> 12 &&& 0x3ff))) v =
      some (s.edit (lg / 4096) v) := by
  obtain ⟨htable, hindex⟩ := translate_entryAddr hlast hself hlg hpres
  rw [store, htable, hindex, Option.map_some]
  rfl

/-! ### Editing a sound state -/

/-- The directory after an edit. -/
theorem Sound.pde_edit (hs : Sound F s) {p v d : ℕ} (hp : p < 1048576)
    (hpres : Present (s.pde (p / 1024))) (hd : d ≤ 1023) :
    (s.edit p v).pde d = if p = windowPage d then v else s.pde d :=
  hs.selfMapped.dir_setEntry hp hpres hd

/-- A page of the window may only get a frame that is in use and no table. -/
theorem Sound.of_edit (hs : Sound F s) {p v : ℕ} (hp : p < 1048575)
    (hpres : Present (s.pde (p / 1024)))
    (hv : ∀ d ≤ 1023, p = windowPage d → Present v → F.inUse s.pool (frameOf v) = true ∧
      ∀ i ≤ 1023, Present (s.pde i) → frameOf (s.pde i) ≠ frameOf v) : Sound F (s.edit p v) := by
  refine ⟨hs.selfMapped.of_setEntry hp hpres fun d hd hpd hvp => (hv d hd hpd hvp).2, ?_⟩
  intro d hd
  rw [hs.pde_edit (by omega) hpres hd]
  split
  · next hpd => exact fun hvp => (hv d hd hpd hvp).1
  · exact hs.inUse d hd

/-- Replacing the entry of page `p` leaves the translation of `q` alone: the table of `p` is there,
or it has nothing to do with `q`. -/
def Spares (s : VirtMM P) (p q : ℕ) : Prop :=
  q ≠ p ∧ p ≠ windowPage (q / 1024) ∧
    (Present (s.pde (p / 1024)) ∨ (q / 1024 ≠ p / 1024 ∧ q ≠ windowPage (p / 1024)))

/-- What mapping page `p` to frame `f` does to a sound state. -/
structure Mapped (F : FramePool P) (p f : ℕ) (s s' : VirtMM P) : Prop where
  /-- The state stays sound. -/
  sound : Sound F s'
  /-- The page is translated to the frame. -/
  translate_self : s'.translate p = some f
  /-- The other translations stay. -/
  translate_of_spares : ∀ q < 1048576, Spares s p q → s'.translate q = s.translate q
  /-- The page has a table. -/
  present : Present (s'.pde (p / 1024))
  /-- No table vanishes. -/
  present_mono : ∀ d ≤ 1023, Present (s.pde d) → Present (s'.pde d)
  /-- No other table appears. -/
  present_iff : ∀ d ≤ 1023, d ≠ p / 1024 → p ≠ windowPage d →
    (Present (s'.pde d) ↔ Present (s.pde d))
  /-- A table was one before, or is the frame, or was free. -/
  tables : ∀ d ≤ 1023, Present (s'.pde d) → frameOf (s'.pde d) = f ∨
    (∃ e ≤ 1023, Present (s.pde e) ∧ frameOf (s.pde e) = frameOf (s'.pde d)) ∨
      F.inUse s.pool (frameOf (s'.pde d)) = false
  /-- No frame is given back. -/
  inUse : ∀ j, F.inUse s.pool j = true → F.inUse s'.pool j = true

/-- `mapfr` on a page whose table exists. -/
theorem Sound.mapped_edit (hs : Sound F s) {p f : ℕ} (hp : p < 1048575)
    (hpres : Present (s.pde (p / 1024)))
    (hf : 1047552 ≤ p → F.inUse s.pool f = true ∧
      ∀ i ≤ 1023, Present (s.pde i) → frameOf (s.pde i) ≠ f) :
    Mapped F p f s (s.edit p (4096 * f ||| 3)) := by
  have hpde : ∀ d ≤ 1023, (s.edit p (4096 * f ||| 3)).pde d =
      if p = windowPage d then 4096 * f ||| 3 else s.pde d :=
    fun d => hs.pde_edit (by omega) hpres
  have hmono : ∀ d ≤ 1023, Present (s.pde d) → Present ((s.edit p (4096 * f ||| 3)).pde d) := by
    intro d hd hdpres
    rw [hpde d hd]
    split
    · exact present_or_three _
    · exact hdpres
  refine ⟨hs.of_edit hp hpres ?_, ?_, ?_, hmono _ (by omega) hpres, hmono, ?_, ?_, fun _ h => h⟩
  · intro d _ hpd _
    rw [frameOf_or_three]
    exact hf (by rw [hpd]; exact Nat.le_add_right _ _)
  · have hwalk := hs.selfMapped.pageWalk_setEntry_self (v := 4096 * f ||| 3) hp hpres
    rwa [decode_of_present (present_or_three _), frameOf_or_three] at hwalk
  · intro q hq hspares
    exact hs.selfMapped.pageWalk_setEntry_of_ne (by omega) hq hpres hspares.1 hspares.2.1
  · intro d hd _ hpd
    rw [hpde d hd, if_neg hpd]
  · intro d hd
    rw [hpde d hd]
    split
    · exact fun _ => Or.inl (frameOf_or_three f)
    · exact fun hdpres => Or.inr (Or.inl ⟨d, hd, hdpres, rfl⟩)

/-- Flushing the cache changes no page table. -/
theorem sound_nativeFlushTlbSingle {a : ℕ} : Sound F (s.nativeFlushTlbSingle a) ↔ Sound F s :=
  ⟨fun h => ⟨h.selfMapped, h.inUse⟩, fun h => ⟨h.selfMapped, h.inUse⟩⟩

theorem Mapped.nativeFlushTlbSingle {p f : ℕ} (h : Mapped F p f s s') (a : ℕ) :
    Mapped F p f s (s'.nativeFlushTlbSingle a) :=
  ⟨sound_nativeFlushTlbSingle.mpr h.sound, h.translate_self, h.translate_of_spares, h.present,
    h.present_mono, h.present_iff, h.tables, h.inUse⟩

/-! ### Creating a table -/

/-- A sound state stays sound when frames are marked. -/
theorem Sound.of_inUse (hs : Sound F s) {p' : P}
    (h : ∀ j, F.inUse s.pool j = true → F.inUse p' j = true) : Sound F { s with pool := p' } :=
  ⟨hs.selfMapped, fun d hd hpres => h _ (hs.inUse d hd hpres)⟩

/-- What a new table for region `d` does to a sound state. -/
structure TableCreated (F : FramePool P) (d : ℕ) (s s₁ : VirtMM P) : Prop where
  /-- The state stays sound. -/
  sound : Sound F s₁
  /-- A free frame has become the table of the region. -/
  pde : ∃ t, F.inUse s.pool t = false ∧
    ∀ e ≤ 1023, s₁.pde e = if e = d then 4096 * t ||| 3 else s.pde e
  /-- The translations outside the region stay, but for the page of the table's window. -/
  translate : ∀ q < 1048576, q / 1024 ≠ d → q ≠ windowPage d → s₁.translate q = s.translate q
  /-- No frame is given back. -/
  inUse : ∀ j, F.inUse s.pool j = true → F.inUse s₁.pool j = true

/-- What the part of `mapfr` that creates a table does when it gets a frame: the new table is a
frame that was free, and the old entries stay. -/
theorem Sound.createTable_spec (hs : Sound F s) (hF : F.Lawful) {d q : ℕ} {p' : P} (hd : d ≤ 1023)
    (habs : ¬Present (s.pde d)) (hk : F.hwpalloc 1 s.pool = some (q, p')) (hq : q ≠ 0)
    (pteTable : ℕ) :
    ∃ s₁, createTable F d pteTable s = some s₁ ∧ s₁.pool = p' ∧ TableCreated F d s s₁ := by
  obtain ⟨t, rfl, htakes⟩ := hF.takes (by decide) hk hq
  have hfree : F.inUse s.pool t = false := htakes.free t le_rfl (Nat.lt_succ_self t)
  have hmono : ∀ j, F.inUse s.pool j = true → F.inUse p' j = true := fun _ => htakes.inUse_mono
  have hs' : Sound F { s with pool := p' } := hs.of_inUse hmono
  -- the last entry is present, so `d` is another one
  have hd' : d ≠ 1023 := by
    rintro rfl
    exact habs hs.selfMapped.present
  have hp : windowPage d < 1048575 := by unfold windowPage; omega
  have hdiv : windowPage d / 1024 = 1023 := by unfold windowPage; omega
  have hpres : Present (s.pde (windowPage d / 1024)) := by
    rw [hdiv]
    exact hs.selfMapped.present
  have hs₁ : Sound F ({ s with pool := p' }.edit (windowPage d) (4096 * t ||| 3)) := by
    apply hs'.of_edit hp hpres
    intro e he hde hv
    rw [frameOf_or_three]
    refine ⟨?_, fun i hi hipres heq => ?_⟩
    · change F.inUse p' t = true
      rw [htakes.marked, if_pos ⟨le_rfl, Nat.lt_succ_self t⟩]
    · have huse := hs.inUse i hi hipres
      rw [show frameOf (s.pde i) = t from heq, hfree] at huse
      exact Bool.noConfusion huse
  refine ⟨({ s with pool := p' }.edit (windowPage d) (4096 * t ||| 3)).nativeFlushTlbSingle
    pteTable, ?_, rfl, sound_nativeFlushTlbSingle.mpr hs₁, ⟨t, hfree, ?_⟩, ?_, hmono⟩
  · rw [createTable, if_pos (and_one_eq_zero_iff.mpr habs), hk, edit,
      hs.selfMapped.setEntry_windowPage hd]
    rfl
  · intro e he
    have hpde := hs'.pde_edit (v := 4096 * t ||| 3) (show windowPage d < 1048576 by omega) hpres he
    refine hpde.trans ?_
    by_cases hed : e = d
    · rw [if_pos hed, if_pos (by rw [hed])]
    · rw [if_neg hed, if_neg (by unfold windowPage; omega)]
      rfl
  · intro q hq hqd hqw
    exact hs.selfMapped.pageWalk_setEntry_of_ne (by omega) hq hpres hqw
      (by unfold windowPage; omega)

/-- The rest of `mapfr`, once the table of the page is there. -/
theorem mapfr_of_createTable {s₁ : VirtMM P} {p f : ℕ} (hs₁ : Sound F s₁) (hp : p < 1048576)
    (hpres : Present (s₁.pde (p / 1024)))
    (hcreate : createTable F (p / 1024) (logicalPdeBase ||| (p / 1024) <<< 12) s = some s₁) :
    ∃ a, mapfr F (4096 * f) (4096 * p) s =
      some ((s₁.edit p (4096 * f ||| 3)).nativeFlushTlbSingle a) := by
  have hpage : 4096 * p / 4096 = p := Nat.mul_div_cancel_left p (by decide)
  have hindex : (4096 * p) >>> 22 = p / 1024 := by rw [shiftRight_22, hpage]
  have hstore := store_entry (v := 4096 * f ||| 3) hs₁.selfMapped.present
    hs₁.selfMapped.self (show 4096 * p < 4294967296 by omega) (by rwa [hpage])
  rw [hpage, hindex] at hstore
  refine ⟨add32 (logicalPdeBase ||| (p / 1024) <<< 12) (((4096 * p) >>> 12 &&& 0x3ff) * 4), ?_⟩
  rw [mapfr]
  simp only [hindex, hcreate, Option.bind_some, hstore, Option.map_some]

/-- The table of page `p` exists, or there is a frame for it. -/
def TableSupplied (F : FramePool P) (s : VirtMM P) (p : ℕ) : Prop :=
  ¬Present (s.pde (p / 1024)) → ∃ q p', F.hwpalloc 1 s.pool = some (q, p') ∧ q ≠ 0

/-- The table of the region has an entry. -/
theorem TableCreated.present {d : ℕ} {s₁ : VirtMM P} (h : TableCreated F d s s₁) (hd : d ≤ 1023) :
    Present (s₁.pde d) := by
  obtain ⟨t, -, hpde⟩ := h.pde
  rw [hpde d hd, if_pos rfl]
  exact present_or_three _

/-- A page that is mapped after its table was created. -/
theorem TableCreated.mapped {p f : ℕ} {s₁ s' : VirtMM P} (h : TableCreated F (p / 1024) s s₁)
    (hp : p / 1024 ≤ 1023) (habs : ¬Present (s.pde (p / 1024))) (hmapped : Mapped F p f s₁ s') :
    Mapped F p f s s' := by
  have hpres₁ := h.present hp
  obtain ⟨t, hfree, hpde⟩ := h.pde
  refine ⟨hmapped.sound, hmapped.translate_self, ?_, hmapped.present, ?_, ?_, ?_,
    fun j hj => hmapped.inUse j (h.inUse j hj)⟩
  · intro r hr hspares
    obtain ⟨hrp, hpw, hcase⟩ := hspares
    obtain ⟨hreg, hwin⟩ := hcase.resolve_left habs
    exact (hmapped.translate_of_spares r hr ⟨hrp, hpw, Or.inl hpres₁⟩).trans
      (h.translate r hr hreg hwin)
  · intro d hd hdpres
    apply hmapped.present_mono d hd
    rw [hpde d hd]
    split
    · exact present_or_three _
    · exact hdpres
  · intro d hd hdp hpd
    refine (hmapped.present_iff d hd hdp hpd).trans ?_
    rw [hpde d hd, if_neg hdp]
  · intro d hd hdpres
    rcases hmapped.tables d hd hdpres with hframe | ⟨e, he, hepres, heq⟩ | hunused
    · exact Or.inl hframe
    · rw [hpde e he] at hepres heq
      by_cases hed : e = p / 1024
      · rw [if_pos hed, frameOf_or_three] at heq
        exact Or.inr (Or.inr (heq ▸ hfree))
      · rw [if_neg hed] at hepres heq
        exact Or.inr (Or.inl ⟨e, he, hepres, heq⟩)
    · refine Or.inr (Or.inr (Bool.eq_false_iff.mpr fun hused => ?_))
      exact Bool.noConfusion (hunused.symm.trans (h.inUse _ hused))

/-- `mapfr(hwaddr, lgaddr)` of a frame and a page that is not the last one, when the table of the
page exists or there is a frame for it.  A page of the window shows a table: it may only be given a
frame that is in use and no table yet. -/
theorem Sound.mapfr_spec (hs : Sound F s) (hF : F.Lawful) {p f : ℕ} (hp : p < 1048575)
    (hf : 1047552 ≤ p → F.inUse s.pool f = true ∧
      ∀ i ≤ 1023, Present (s.pde i) → frameOf (s.pde i) ≠ f)
    (htable : TableSupplied F s p) :
    ∃ s', mapfr F (4096 * f) (4096 * p) s = some s' ∧ Mapped F p f s s' ∧
      (Present (s.pde (p / 1024)) → s'.pool = s.pool) ∧
      (¬Present (s.pde (p / 1024)) → ∃ q, F.hwpalloc 1 s.pool = some (q, s'.pool)) := by
  by_cases hpres : Present (s.pde (p / 1024))
  · obtain ⟨a, hmapfr⟩ := mapfr_of_createTable (f := f) hs (by omega) hpres
      (if_neg fun h => and_one_eq_zero_iff.mp h hpres)
    exact ⟨_, hmapfr, (hs.mapped_edit hp hpres hf).nativeFlushTlbSingle a, fun _ => rfl,
      fun h => absurd hpres h⟩
  · obtain ⟨q, p', hk, hq⟩ := htable hpres
    obtain ⟨s₁, hcreate, hpool, hcreated⟩ :=
      hs.createTable_spec hF (by omega) hpres hk hq (logicalPdeBase ||| (p / 1024) <<< 12)
    have hpres₁ := hcreated.present (by omega)
    obtain ⟨a, hmapfr⟩ := mapfr_of_createTable (f := f) hcreated.sound (by omega) hpres₁ hcreate
    -- a window page whose table is missing would be a page of the last region
    have hlow : p < 1047552 := by
      by_contra hle
      have hlast : p / 1024 = 1023 := by omega
      rw [hlast] at hpres
      exact hpres hs.selfMapped.present
    have hedit := (hcreated.sound.mapped_edit (f := f) hp hpres₁ fun hle => absurd hle (by omega))
    exact ⟨_, hmapfr, hcreated.mapped (by omega) hpres (hedit.nativeFlushTlbSingle a),
      fun h => absurd h hpres, fun _ => ⟨q, by rw [hk, ← hpool]; rfl⟩⟩

/-! ### Unmapping -/

/-- `umapfr(lgaddr)` of a page that is not the last one: it is translated no more, and no other page
changes, unless the page shows the other's table. -/
theorem Sound.umapfr_spec (hs : Sound F s) {p : ℕ} (hp : p < 1048575) :
    ∃ s', umapfr (4096 * p) s = some s' ∧ Sound F s' ∧ s'.pool = s.pool ∧
      s'.translate p = none ∧
      ∀ q < 1048576, q ≠ p → p ≠ windowPage (q / 1024) → s'.translate q = s.translate q := by
  have hpage : 4096 * p / 4096 = p := Nat.mul_div_cancel_left p (by decide)
  have hindex : (4096 * p) >>> 22 = p / 1024 := by rw [shiftRight_22, hpage]
  rw [umapfr]
  simp only [hindex]
  by_cases hpres : Present (s.pde (p / 1024))
  · have hstore := store_entry (v := 0x0) hs.selfMapped.present hs.selfMapped.self
      (show 4096 * p < 4294967296 by omega) (by rwa [hpage])
    rw [hpage, hindex] at hstore
    rw [if_neg fun h => and_one_eq_zero_iff.mp h hpres, hstore]
    refine ⟨_, rfl, sound_nativeFlushTlbSingle.mpr ?_, rfl, ?_, ?_⟩
    · apply hs.of_edit hp hpres
      intro d _ _ h0
      exact absurd h0 (by decide)
    · exact hs.selfMapped.pageWalk_setEntry_self hp hpres
    · intro q hq hqp hpw
      exact hs.selfMapped.pageWalk_setEntry_of_ne (by omega) hq hpres hqp hpw
  · rw [if_pos (and_one_eq_zero_iff.mpr hpres)]
    exact ⟨s, rfl, hs, rfl, pageWalk_of_not_present hpres, fun _ _ _ _ => rfl⟩

/-! ### A small address space -/

/-- A directory in frame 200 with a single table, in frame 201, for the first 4M of the heap, and
eight free frames from 1M on. -/
def oneTable : VirtMM (ℕ → Bool) where
  phys f i :=
    if f = 200 then if i = 1023 then 4096 * 200 ||| 3 else if i = 832 then 4096 * 201 ||| 3 else 0
    else 0
  pdeTable := 200
  pool f := decide (f < 256 ∨ 264 ≤ f)
  driverSpaceHead := 0
  tlb _ := none

/-- The first heap page in the frame at 1M, with the present and the write bit only. -/
def firstHeapPage : VirtMM (ℕ → Bool) :=
  oneTable.edit (kheapStart / 4096) (4096 * 256 ||| 3)

/-- The allocator of these frames. -/
def eightFrames : FramePool (ℕ → Bool) := FramePool.bitmapPool 256 8

theorem eightFrames_lawful : eightFrames.Lawful :=
  FramePool.bitmapPool_lawful (by decide) (by decide)

theorem oneTable_sound : Sound eightFrames oneTable := by
  have hpde : ∀ d, Present (oneTable.pde d) → d = 1023 ∨ d = 832 := by
    intro d hd
    by_contra hne
    rw [not_or] at hne
    simp [pde, oneTable, hne, Present] at hd
  refine ⟨⟨by decide, by decide, fun i _ j _ hi hj heq => ?_⟩, fun d _ hd => ?_⟩
  · rcases hpde i hi with rfl | rfl <;> rcases hpde j hj with rfl | rfl
    · rfl
    · exact absurd heq (by decide)
    · exact absurd heq (by decide)
    · rfl
  · rcases hpde d hd with rfl | rfl
    · decide
    · decide

end VirtMM

end PakOS
