import PakOS.VirtMM.Tlb

/-!
# The word that is written

`entryPlace s p` is the place of the word that the processor reads last when it translates page
`p`: the frame of the page's table and the index in it.  The code never computes this frame.  It
writes through an address in the window that the directory's last entry opens, and this address is
translated by the tables it edits.  `mapfr_umapfr_entry` says that it leads to the right place: both
functions write that word, and no other word of physical memory changes.

When the table of the page is missing, `mapfr` takes a frame for it and writes one entry into it.
The other 1023 entries are what the frame held before, and a `NULL` from the allocator is entered
like a frame.  So only the page that was asked for is mapped exactly when there was a frame and none
of its other words has the present bit (`newTable_iff`).
-/

namespace PakOS

open Machine

namespace VirtMM

variable {P : Type*} {F : FramePool P} {s s' : VirtMM P} {lg : ℕ}

/-- The frame and the index of the word that the processor reads last for page `p`, when the page
has a table. -/
def entryPlace (s : VirtMM P) (p : ℕ) : Option (ℕ × ℕ) :=
  (decode (s.pde (p / 1024))).map fun t => (t, p % 1024)

/-- The processor translates a page by the word at its place. -/
theorem translate_eq_entryPlace (s : VirtMM P) (p : ℕ) :
    s.translate p = (s.entryPlace p).bind fun e => decode (s.phys e.1 e.2) := by
  rw [entryPlace, Option.bind_map]
  rfl

theorem entryPlace_of_present {p : ℕ} (h : Present (s.pde (p / 1024))) :
    s.entryPlace p = some (frameOf (s.pde (p / 1024)), p % 1024) := by
  rw [entryPlace, decode_of_present h, Option.map_some]

/-- A page has a place exactly if its directory entry is present. -/
theorem entryPlace_eq_some_iff {p : ℕ} {e : ℕ × ℕ} :
    s.entryPlace p = some e ↔
      Present (s.pde (p / 1024)) ∧ e = (frameOf (s.pde (p / 1024)), p % 1024) := by
  by_cases h : Present (s.pde (p / 1024))
  · rw [entryPlace_of_present h, Option.some.injEq, eq_comm]
    exact (and_iff_right h).symm
  · rw [entryPlace, decode_of_not_present h, Option.map_none]
    exact iff_of_false (Option.some_ne_none e).symm fun hp => h hp.1

/-! ### A table that is there -/

/-- `mapfr` once the table of the page is there. -/
theorem mapfr_of_table {s₁ : VirtMM P} (hlast : Present (s₁.pde 1023))
    (hself : frameOf (s₁.pde 1023) = s₁.pdeTable) (hlg : lg < 4294967296)
    (hpres : Present (s₁.pde (lg / 4096 / 1024))) (hw : ℕ)
    (hcreate : createTable F (lg >>> 22) (logicalPdeBase ||| lg >>> 22 <<< 12) s = some s₁) :
    ∃ a, mapfr F hw lg s =
      some ((s₁.edit (lg / 4096) (hw ||| 0x3)).nativeFlushTlbSingle a) := by
  refine ⟨add32 (logicalPdeBase ||| lg >>> 22 <<< 12) ((lg >>> 12 &&& 0x3ff) * 4), ?_⟩
  rw [mapfr]
  simp only [hcreate, Option.bind_some, store_entry hlast hself hlg hpres, Option.map_some]

/-- `umapfr` of a page with a table. -/
theorem umapfr_of_table (hlast : Present (s.pde 1023)) (hself : frameOf (s.pde 1023) = s.pdeTable)
    (hlg : lg < 4294967296) (hpres : Present (s.pde (lg / 4096 / 1024))) :
    ∃ a, umapfr lg s = some ((s.edit (lg / 4096) 0x0).nativeFlushTlbSingle a) := by
  refine ⟨add32 (logicalPdeBase ||| lg >>> 22 <<< 12) ((lg >>> 12 &&& 0x3ff) * 4), ?_⟩
  have htest : ¬s.pde (lg >>> 22) &&& 0x1 = 0 := by
    rw [shiftRight_22]
    exact fun h => and_one_eq_zero_iff.mp h hpres
  rw [umapfr]
  simp only [if_neg htest, store_entry hlast hself hlg hpres, Option.map_some]

/-- `umapfr` of a page without a table does nothing. -/
theorem umapfr_of_no_table (habs : ¬Present (s.pde (lg / 4096 / 1024))) :
    umapfr lg s = some s := by
  have htest : s.pde (lg >>> 22) &&& 0x1 = 0 := by
    rw [shiftRight_22]
    exact and_one_eq_zero_iff.mpr habs
  rw [umapfr]
  exact if_pos htest

/-- What is translated to what after the entry of page `p` was replaced. -/
theorem translate_edit_of_selfMapped (h : SelfMapped s.phys s.pdeTable) {p v : ℕ}
    (hp : p < 1047552) (hpres : Present (s.pde (p / 1024))) :
    (s.edit p v).translate p = decode v ∧
      ∀ q < 1047552, q ≠ p → (s.edit p v).translate q = s.translate q := by
  refine ⟨h.pageWalk_setEntry_self (by omega) hpres, fun q hq hqp => ?_⟩
  apply h.pageWalk_setEntry_of_ne (by omega) (by omega) hpres hqp
  unfold windowPage
  omega

/-- In a directory that maps itself and shares no table, `mapfr(hw, lg)` writes `hw | 3` to the word
that the walk reads for `lg` and `umapfr(lg)` writes 0 to it, and both leave every other word alone:
the page is then translated to the frame, or to nothing, and the other pages below the window are
translated as before.  Without a table `umapfr` changes nothing. -/
theorem mapfr_umapfr_entry (F : FramePool P) (h : SelfMapped s.phys s.pdeTable) (f : ℕ)
    (hlg : lg < 0xffc00000) :
    (∀ e, s.entryPlace (lg / 4096) = some e →
      (∃ s', mapfr F (4096 * f) lg s = some s' ∧
        s'.phys = setWord s.phys e.1 e.2 (4096 * f ||| 0x3) ∧ s'.pdeTable = s.pdeTable ∧
        s'.translate (lg / 4096) = some f ∧
        ∀ q < 1047552, q ≠ lg / 4096 → s'.translate q = s.translate q) ∧
      ∃ s', umapfr lg s = some s' ∧
        s'.phys = setWord s.phys e.1 e.2 0x0 ∧ s'.pdeTable = s.pdeTable ∧
        s'.translate (lg / 4096) = none ∧
        ∀ q < 1047552, q ≠ lg / 4096 → s'.translate q = s.translate q) ∧
    (s.entryPlace (lg / 4096) = none → umapfr lg s = some s ∧ s.translate (lg / 4096) = none) := by
  constructor
  · intro e he
    obtain ⟨hpres, rfl⟩ := entryPlace_eq_some_iff.mp he
    have htest : ¬s.pde (lg >>> 22) &&& 0x1 = 0 := by
      rw [shiftRight_22]
      exact fun h0 => and_one_eq_zero_iff.mp h0 hpres
    have hedit := fun v => translate_edit_of_selfMapped (v := v) h (by omega) hpres
    constructor
    · obtain ⟨a, hmap⟩ := mapfr_of_table h.present h.self (by omega) hpres (4096 * f)
        (show createTable F (lg >>> 22) _ s = some s from if_neg htest)
      refine ⟨_, hmap, rfl, rfl, ?_, (hedit _).2⟩
      refine (hedit (4096 * f ||| 0x3)).1.trans ?_
      rw [decode_of_present (present_or_three _), frameOf_or_three]
    · obtain ⟨a, hunmap⟩ := umapfr_of_table h.present h.self (by omega) hpres
      exact ⟨_, hunmap, rfl, rfl, (hedit 0x0).1, (hedit 0x0).2⟩
  · intro hnone
    have habs : ¬Present (s.pde (lg / 4096 / 1024)) := fun hpres =>
      absurd (hnone.symm.trans (entryPlace_of_present hpres)) (Option.some_ne_none _).symm
    exact ⟨umapfr_of_no_table habs, pageWalk_of_not_present habs⟩

/-- The first heap page, at an address inside it. -/
theorem mapfr_umapfr_oneTable :
    oneTable.entryPlace (0xd0000004 / 4096) = some (201, 0) ∧
      (∃ s', mapfr eightFrames (4096 * 256) 0xd0000004 oneTable = some s' ∧
        s'.phys = setWord oneTable.phys 201 0 (4096 * 256 ||| 0x3) ∧
        s'.translate (0xd0000004 / 4096) = some 256) ∧
      umapfr 0xd0400004 oneTable = some oneTable := by
  have hmapped := oneTable_sound.selfMapped
  have hplace : oneTable.entryPlace (0xd0000004 / 4096) = some (201, 0) := by decide
  obtain ⟨⟨s', hmap, hphys, -, hself, -⟩, -⟩ :=
    (mapfr_umapfr_entry eightFrames hmapped 256 (by decide)).1 _ hplace
  exact ⟨hplace, ⟨s', hmap, hphys, hself⟩,
    ((mapfr_umapfr_entry eightFrames hmapped 256 (by decide)).2 (by decide)).1⟩

/-! ### A table that is missing -/

/-- `mapfr(hwaddr, lgaddr)` maps only what was asked: with a frame for the table, `lg` is the only
page of its region that is translated; without one there is no table. -/
def MapsOnlyAsked (F : FramePool P) (hw lg : ℕ) (s : VirtMM P) : Prop :=
  ∃ q p' s', F.hwpalloc 1 s.pool = some (q, p') ∧ mapfr F hw lg s = some s' ∧
    (q ≠ 0 → ∀ p, p / 1024 = lg / 4096 / 1024 →
      (s'.translate p ≠ none ↔ p = lg / 4096)) ∧
    (q = 0 → ¬Present (s'.pde (lg / 4096 / 1024)))

/-- The state of `mapfr` between its two steps, when the table is missing and the allocator gives
`q`. -/
def withTable (s : VirtMM P) (d q : ℕ) (p' : P) : VirtMM P :=
  nativeFlushTlbSingle { s with pool := p', phys := setWord s.phys s.pdeTable d (q ||| 0x3) }
    (logicalPdeBase ||| d <<< 12)

/-- The directory with the new table. -/
theorem pde_withTable (s : VirtMM P) (d q : ℕ) (p' : P) (i : ℕ) :
    (s.withTable d q p').pde i = if i = d then q ||| 0x3 else s.pde i := by
  change setWord s.phys s.pdeTable d (q ||| 0x3) s.pdeTable i = _
  rw [setWord_apply]
  exact if_congr (and_iff_right rfl) rfl rfl

/-- `mapfr` when the table is missing. -/
theorem mapfr_newTable (hlast : Present (s.pde 1023)) (hself : frameOf (s.pde 1023) = s.pdeTable)
    (hlg : lg < 4294967296) (habs : ¬Present (s.pde (lg / 4096 / 1024))) {q : ℕ} {p' : P}
    (hcall : F.hwpalloc 1 s.pool = some (q, p')) (hw : ℕ) :
    ∃ a, mapfr F hw lg s = some (((s.withTable (lg / 4096 / 1024) q p').edit (lg / 4096)
      (hw ||| 0x3)).nativeFlushTlbSingle a) := by
  have hne : 1023 ≠ lg / 4096 / 1024 := fun heq => habs (heq ▸ hlast)
  -- the last entry stays, so that the window is still open
  have hlast' : (s.withTable (lg / 4096 / 1024) q p').pde 1023 = s.pde 1023 := by
    rw [pde_withTable, if_neg hne]
  have hpres : Present ((s.withTable (lg / 4096 / 1024) q p').pde (lg / 4096 / 1024)) := by
    rw [pde_withTable, if_pos rfl]
    exact present_or_three q
  have hcreate : createTable F (lg >>> 22) (logicalPdeBase ||| lg >>> 22 <<< 12) s =
      some (s.withTable (lg / 4096 / 1024) q p') := by
    rw [createTable, shiftRight_22, if_pos (and_one_eq_zero_iff.mpr habs), hcall]
    rfl
  have hself' : frameOf ((s.withTable (lg / 4096 / 1024) q p').pde 1023) = s.pdeTable := by
    rw [hlast', hself]
  rw [← hlast'] at hlast
  exact mapfr_of_table hlast hself' hlg hpres hw hcreate

/-- The pages of the region after `mapfr` made its table: each is translated by the word that the
frame held, but for the page that was asked for. -/
theorem translate_newTable {p q v : ℕ} {p' : P} (hfresh : frameOf (q ||| 0x3) ≠ s.pdeTable)
    (hp : p / 1024 = lg / 4096 / 1024) :
    ((s.withTable (lg / 4096 / 1024) q p').edit (lg / 4096) v).translate p =
      decode (if p = lg / 4096 then v else s.phys (frameOf (q ||| 0x3)) (p % 1024)) := by
  have hpde : (s.withTable (lg / 4096 / 1024) q p').pde (lg / 4096 / 1024) = q ||| 0x3 := by
    rw [pde_withTable, if_pos rfl]
  have hpdep : (s.withTable (lg / 4096 / 1024) q p').pde (p / 1024) = q ||| 0x3 := by
    rw [hp]
    exact hpde
  have hedit := @translate_edit P (s.withTable (lg / 4096 / 1024) q p') (lg / 4096) p v
    (by rw [hpde]; exact hfresh)
  rw [hedit, hpdep, hpde]
  by_cases heq : p = lg / 4096
  · rw [if_pos ⟨present_or_three q, rfl, by rw [heq]⟩, if_pos heq]
  · rw [if_neg fun h => heq (by omega), if_neg heq]
    have hpres : Present ((s.withTable (lg / 4096 / 1024) q p').pde (p / 1024)) := by
      rw [hpdep]
      exact present_or_three q
    refine (pageWalk_of_present hpres).trans ?_
    change decode (setWord s.phys _ _ _ (frameOf ((s.withTable _ q p').pde (p / 1024))) _) = _
    rw [hpdep, setWord_apply, if_neg fun h => hfresh h.1]

/-- When the directory's last entry is the directory, the table of `lg` is missing and the allocator
answers with a frame other than the directory or with `NULL`: only what was asked is mapped exactly
if the answer is a frame in which no word has the present bit, but for the one that becomes the
entry of `lg`. -/
theorem newTable_iff (hlast : Present (s.pde 1023)) (hself : frameOf (s.pde 1023) = s.pdeTable)
    (hlg : lg < 0xffc00000) (habs : ¬Present (s.pde (lg / 4096 / 1024))) {q : ℕ} {p' : P}
    (hcall : F.hwpalloc 1 s.pool = some (q, p')) (hfresh : frameOf (q ||| 0x3) ≠ s.pdeTable)
    (hw : ℕ) :
    MapsOnlyAsked F hw lg s ↔
      q ≠ 0 ∧ ∀ i < 1024, i ≠ lg / 4096 % 1024 → ¬Present (s.phys (frameOf (q ||| 0x3)) i) := by
  obtain ⟨a, hmap⟩ := mapfr_newTable hlast hself (by omega) habs hcall hw
  -- the directory entry is not the word that is stored last
  have hpde : Present ((((s.withTable (lg / 4096 / 1024) q p').edit (lg / 4096)
      (hw ||| 0x3)).nativeFlushTlbSingle a).pde (lg / 4096 / 1024)) := by
    have hword : (s.withTable (lg / 4096 / 1024) q p').pde (lg / 4096 / 1024) = q ||| 0x3 := by
      rw [pde_withTable, if_pos rfl]
    change Present (setWord (s.withTable _ q p').phys
      (frameOf ((s.withTable _ q p').pde (lg / 4096 / 1024))) _ _ s.pdeTable _)
    rw [hword, setWord_apply, if_neg fun h => hfresh h.1.symm]
    have hpres := present_or_three q
    rwa [← hword] at hpres
  have htrans : ∀ p, p / 1024 = lg / 4096 / 1024 →
      (((s.withTable (lg / 4096 / 1024) q p').edit (lg / 4096)
        (hw ||| 0x3)).nativeFlushTlbSingle a).translate p =
      decode (if p = lg / 4096 then hw ||| 0x3 else s.phys (frameOf (q ||| 0x3)) (p % 1024)) :=
    fun p => translate_newTable hfresh
  constructor
  · rintro ⟨q', p'', s', hcall', hmap', honly, hnull⟩
    obtain ⟨rfl, rfl⟩ : q' = q ∧ p'' = p' := by simpa using hcall'.symm.trans hcall
    obtain rfl := Option.some.inj (hmap'.symm.trans hmap)
    have hq : q' ≠ 0 := fun h0 => hnull h0 hpde
    refine ⟨hq, fun i hi hne hpres => ?_⟩
    have hpage := (honly hq (lg / 4096 / 1024 * 1024 + i) (by omega)).mp
    rw [htrans _ (by omega), if_neg (by omega),
      show (lg / 4096 / 1024 * 1024 + i) % 1024 = i by omega, decode_of_present hpres] at hpage
    have := hpage (Option.some_ne_none _)
    omega
  · rintro ⟨hq, hclear⟩
    refine ⟨q, p', _, hcall, hmap, fun _ p hp => ?_, fun h0 => absurd h0 hq⟩
    rw [htrans p hp]
    by_cases heq : p = lg / 4096
    · rw [if_pos heq, decode_of_present (present_or_three hw)]
      exact iff_of_true (Option.some_ne_none _) heq
    · rw [if_neg heq, decode_of_not_present (hclear _ (by omega) (by omega))]
      exact iff_of_false (fun h => h rfl) heq

/-- The eight frames are cleared: the first page of the second heap region gets a table of its
own. -/
theorem newTable_oneTable : MapsOnlyAsked eightFrames (4096 * 256) 0xd0400000 oneTable := by
  have hcall : eightFrames.hwpalloc 1 oneTable.pool =
      some (4096 * 263, fun f => if 263 ≤ f ∧ f < 264 then true else oneTable.pool f) := rfl
  refine (newTable_iff (by decide) (by decide) (by decide) (by decide) hcall (by decide)
    (4096 * 256)).mpr ⟨by decide, fun i _ _ => ?_⟩
  have hword : oneTable.phys (frameOf (4096 * 263 ||| 0x3)) i = 0 := rfl
  rw [hword]
  decide

/-- The last frame was a table before: it holds the entry of a page, the first of its region. -/
def recycledFrame : VirtMM (ℕ → Bool) :=
  { oneTable with phys := setWord oneTable.phys 263 0 (4096 * 300 ||| 0x3) }

/-- No frame is free. -/
def emptyPool : VirtMM (ℕ → Bool) := { oneTable with pool := fun _ => true }

/-- With a recycled frame a second page is mapped; without a frame the zeroth one becomes the
table. -/
theorem not_mapsOnlyAsked :
    ¬Present (recycledFrame.pde (0xd0401000 / 4096 / 1024)) ∧
      ¬Present (emptyPool.pde (0xd0401000 / 4096 / 1024)) ∧
      (eightFrames.hwpalloc 1 recycledFrame.pool).map Prod.fst = some (4096 * 263) ∧
      (mapfr eightFrames (4096 * 256) 0xd0401000 recycledFrame).map
        (fun s => (s.translate 0xd0401, s.translate 0xd0400)) = some (some 256, some 300) ∧
      ¬MapsOnlyAsked eightFrames (4096 * 256) 0xd0401000 recycledFrame ∧
      (eightFrames.hwpalloc 1 emptyPool.pool).map Prod.fst = some 0 ∧
      (mapfr eightFrames (4096 * 256) 0xd0401000 emptyPool).map
        (fun s => s.pde (0xd0401 / 1024)) = some 3 ∧
      ¬MapsOnlyAsked eightFrames (4096 * 256) 0xd0401000 emptyPool := by
  refine ⟨by decide, by decide, by decide +kernel, by decide +kernel, ?_, by decide +kernel,
    by decide +kernel, ?_⟩
  · rintro ⟨q, p', s', hcall, hmap, honly, -⟩
    have hq : q = 4096 * 263 := by
      have := congrArg (Option.map Prod.fst) hcall
      exact (Option.some.inj ((show some (4096 * 263) = _ by decide +kernel).trans this)).symm
    have hpage : s'.translate 0xd0400 = some 300 := by
      have := congrArg (Option.map fun s => s.translate 0xd0400) hmap
      exact (Option.some.inj ((show some (some 300) = _ by decide +kernel).trans this)).symm
    have := (honly (by omega) 0xd0400 (by decide)).mp (hpage ▸ Option.some_ne_none 300)
    omega
  · rintro ⟨q, p', s', hcall, hmap, -, hnull⟩
    have hq : q = 0 := by
      have := congrArg (Option.map Prod.fst) hcall
      exact (Option.some.inj ((show some 0 = _ by decide +kernel).trans this)).symm
    have hpde : s'.pde (0xd0401000 / 4096 / 1024) = 3 := by
      have := congrArg (Option.map fun s => s.pde (0xd0401000 / 4096 / 1024)) hmap
      exact (Option.some.inj ((show some 3 = _ by decide +kernel).trans this)).symm
    exact hnull hq (hpde ▸ by decide)

end VirtMM

end PakOS
