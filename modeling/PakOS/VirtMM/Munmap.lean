import PakOS.VirtMM.Mmap

/-!
# Unmapping what was mapped

The loop of `munmap` begins with the second page.  The first page of a range therefore stays
translated to the frame that `mmap` gave it, also when `hwpfree` has taken the frame back:
`not_roundTrip` holds for every range that can be mapped at all.
-/

namespace PakOS

open Machine

namespace VirtMM

variable {P : Type*} {F : FramePool P} {s : VirtMM P}

/-- `munmap(addr, length)` takes back what `mmap(addr, length)` did: it succeeds, none of the pages
is translated any more, the other pages are translated as before, and the same frames are in use. -/
def RoundTrip (F : FramePool P) (addr length : ℕ) (s : VirtMM P) : Prop :=
  ∃ st s₁ s₂, mmap F addr length s = some (st, s₁) ∧ munmap F addr length s₁ = some (.ok, s₂) ∧
    (∀ i < pageCount length, s₂.translate ((addr / 4096 + i) % 1048576) = none) ∧
    (∀ p < 1048576, (∀ i < pageCount length, p ≠ (addr / 4096 + i) % 1048576) →
      s₂.translate p = s.translate p) ∧
    ∀ f, F.inUse s₂.pool f = F.inUse s.pool f

/-- The window onto a table that is there is translated. -/
theorem Sound.translate_windowPage_ne (hs : Sound F s) {d : ℕ} (hd : d ≤ 1023)
    (hpres : Present (s.pde d)) : s.translate (windowPage d) ≠ none := by
  have hwalk := (hs.selfMapped.pageWalk_windowPage hd).trans (decode_of_present hpres)
  exact fun h => Option.some_ne_none _ (hwalk.symm.trans h)

/-- A range of untranslated pages whose tables exist does not map its own tables: the windows onto
these are translated. -/
theorem Sound.noOwnWindow (hs : Sound F s) {page k : ℕ} (hpage : page < 1048576)
    (hunmapped : ∀ i < k, s.translate ((page + i) % 1048576) = none)
    (htables : ∀ i < k, Present (s.pde ((page + i) % 1048576 / 1024))) : NoOwnWindow page k := by
  have hlt : ∀ i < k, page + i < 1048576 := by
    intro i hi
    by_contra hle
    -- the last page shows the directory
    have hlast := hunmapped (1048575 - page) (by omega)
    rw [Nat.add_sub_cancel' (by omega)] at hlast
    exact hs.translate_windowPage_ne le_rfl hs.selfMapped.present hlast
  intro i hi j hj heq
  have hilt := hlt i hi
  have hpres := htables i hi
  have hnone := hunmapped j hj
  rw [Nat.mod_eq_of_lt hilt] at hpres
  rw [Nat.mod_eq_of_lt (hlt j hj), heq] at hnone
  exact hs.translate_windowPage_ne (by omega) hpres hnone

/-- A range whose tables exist lacks none. -/
theorem missingTables_eq_zero {page k : ℕ}
    (htables : ∀ i < k, Present (s.pde ((page + i) % 1048576 / 1024))) :
    s.missingTables page k = 0 := by
  rw [missingTables, Finset.card_eq_zero, Finset.filter_eq_empty_iff]
  intro d hd
  obtain ⟨i, hi, rfl⟩ := mem_regions.mp hd
  exact not_not.mpr (htables i hi)

/-- `munmap` leaves the translation of the first page of its range alone. -/
theorem Sound.translate_munmap (hs : Sound F s) {page length : ℕ} {st : Status} {s' : VirtMM P}
    (hpos : 0 < pageCount length)
    (hn : NoOwnWindow page (pageCount length)) (hpage : page < 1048576)
    (hcall : munmap F (4096 * page) length s = some (st, s')) :
    s'.translate page = s.translate page := by
  have hpages : add32 length 4095 / 4096 ≤ pageCount length := by
    unfold pageCount add32
    omega
  obtain ⟨hw, -, hcall⟩ := Option.bind_eq_some_iff.mp hcall
  obtain ⟨s₁, hloop, heq⟩ := Option.map_eq_some_iff.mp hcall
  obtain ⟨s₂, hloop', -, -, htrans⟩ :=
    hs.umapPages_spec (n := add32 length 4095 / 4096 - 1) (i := 1)
      fun j _ hj => hn.lt hpage (show j < pageCount length by omega)
  obtain rfl : s₁ = s₂ := Option.some.inj (hloop.symm.trans hloop')
  have hfirst := htrans page hpage fun j h₁ h₂ =>
    ⟨by omega, hn 0 hpos j (show j < pageCount length by omega)⟩
  rw [← (Prod.mk.inj heq).2]
  exact hfirst

/-- **`munmap` never undoes `mmap`.**  Whatever range is mapped, its first page stays mapped. -/
theorem not_roundTrip (hF : F.Lawful) (hs : Sound F s) {addr length q : ℕ} {p' : P}
    (haddr : 4096 ∣ addr) (haddr' : addr < 4294967296) (hlen : 0 < length)
    (hlen' : length < 4294967296)
    (hunmapped : ∀ i < pageCount length, s.translate ((addr / 4096 + i) % 1048576) = none)
    (htables : ∀ i < pageCount length, Present (s.pde ((addr / 4096 + i) % 1048576 / 1024)))
    (hk : pageCount length < 65536) (hcall : F.hwpalloc (pageCount length) s.pool = some (q, p'))
    (hq : q ≠ 0) : ¬RoundTrip F addr length s := by
  rintro ⟨st, s₁, s₂, hmmap, hmunmap, hnone, -, -⟩
  have hpage : addr / 4096 < 1048576 := by omega
  have hpos : 0 < pageCount length := by unfold pageCount; omega
  have hn := hs.noOwnWindow hpage hunmapped htables
  have hsup : Supplied F (addr / 4096) (pageCount length) s := by
    refine ⟨q, p', by rwa [Nat.mod_eq_of_lt hk], hq, ?_⟩
    rw [missingTables_eq_zero htables]
    trivial
  obtain ⟨s', hmmap', hs', frame, hframe, -⟩ :=
    hs.mmap_spec hF haddr haddr' hlen' hk hsup hn
  obtain rfl : s₁ = s' := (Prod.mk.inj (Option.some.inj (hmmap.symm.trans hmmap'))).2
  obtain ⟨page, rfl⟩ := haddr
  rw [Nat.mul_div_cancel_left page (by decide)] at hn hnone hpage hframe
  have hstays := hs'.translate_munmap hpos hn hpage hmunmap
  have hfirst := (hframe 0 hpos).1
  have hgone := hnone 0 hpos
  rw [Nat.add_zero, Nat.mod_eq_of_lt hpage] at hfirst hgone
  rw [hstays, hfirst] at hgone
  exact Option.some_ne_none _ hgone

theorem not_roundTrip_oneTable : ¬RoundTrip eightFrames 0xd0000000 8192 oneTable :=
  not_roundTrip (q := 4096 * 256) eightFrames_lawful oneTable_sound (by decide) (by decide)
    (by decide) (by decide) (by decide +kernel) (by decide +kernel) (by decide) rfl (by decide)

/-- Three pages of the heap: `munmap` succeeds and frees the three frames, and the first page is
still translated to the first of them. -/
theorem munmap_keeps_page :
    ((mmap eightFrames 0xd0000000 12288 oneTable).bind fun r =>
      munmap eightFrames 0xd0000000 12288 r.2).map
        (fun r => (r.1, r.2.translate 0xd0000, eightFrames.inUse r.2.pool 256)) =
      some (.ok, some 256, false) ∧
    ¬RoundTrip eightFrames 0xd0000000 12288 oneTable := by
  have hrun : ((mmap eightFrames 0xd0000000 12288 oneTable).bind fun r =>
      munmap eightFrames 0xd0000000 12288 r.2).map
        (fun r => (r.1, r.2.translate 0xd0000, eightFrames.inUse r.2.pool 256)) =
      some (.ok, some 256, false) := by
    decide +kernel
  refine ⟨hrun, ?_⟩
  rintro ⟨st, s₁, s₂, hmmap, hmunmap, hnone, -, -⟩
  have hgone := hnone 0 (by decide)
  rw [hmmap, Option.bind_some, hmunmap, Option.map_some] at hrun
  have hstays := congrArg (fun r => r.2.1) (Option.some.inj hrun)
  exact Option.some_ne_none _ (hstays.symm.trans hgone)

end VirtMM

end PakOS
