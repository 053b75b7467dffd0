import PakOS.VirtMM.MapLoop

/-!
# Mapping devices

`maphwdev` hands out driver space from a pointer that only moves up.  The pointer is moved by the
number of pages and not by their size, so that the second range overlaps the first:
`driverMapped_iff` says that a sequence of calls does what it should exactly if it is one call at
most.
-/

namespace PakOS

open Machine

namespace VirtMM

variable {P : Type*} {F : FramePool P} {s s' : VirtMM P}

/-- A sequence of calls of `maphwdev`, each a hardware address and a number of pages, and the
pointers that they return. -/
def maphwdevAll (F : FramePool P) : List (ℕ × ℕ) → VirtMM P → Option (List ℕ × VirtMM P)
  | [], s => some ([], s)
  | (hwaddr, pages) :: calls, s =>
    (maphwdev F hwaddr pages s).bind fun r =>
      (maphwdevAll F calls r.2).map fun rs => (r.1 :: rs.1, rs.2)

/-- What a sequence of calls should do: the pointers are page aligned, the ranges are disjoint and
in driver space, and at the end each range shows its device. -/
def DriverMapped (F : FramePool P) (calls : List (ℕ × ℕ)) (s : VirtMM P) : Prop :=
  ∃ ps s', maphwdevAll F calls s = some (ps, s') ∧
    (∀ p ∈ ps, 4096 ∣ p) ∧
    (ps.zip (calls.map Prod.snd)).Pairwise PhyMM.DisjointRuns ∧
    (∀ r ∈ ps.zip (calls.map Prod.snd), driverSpaceStart ≤ r.1 ∧
      r.1 + 4096 * r.2 ≤ driverSpaceStart + driverSpaceSize) ∧
    ∀ r ∈ ps.zip calls, ∀ i < r.2.2,
      s'.translate ((r.1 + 4096 * i) / 4096) = some ((r.2.1 + 4096 * i) % 4294967296 / 4096)

/-- Mapping a page moves no driver space. -/
theorem mapfr_driverSpaceHead {hw lg : ℕ} (hk : mapfr F hw lg s = some s') :
    s'.driverSpaceHead = s.driverSpaceHead := by
  obtain ⟨s₁, hcreate, hedit⟩ := Option.bind_eq_some_iff.mp hk
  obtain ⟨s₂, hstore, rfl⟩ := Option.map_eq_some_iff.mp hedit
  obtain ⟨f, -, rfl⟩ := Option.map_eq_some_iff.mp hstore
  change s₁.driverSpaceHead = s.driverSpaceHead
  unfold createTable at hcreate
  split at hcreate
  · obtain ⟨r, -, rfl⟩ := Option.map_eq_some_iff.mp hcreate
    rfl
  · rw [Option.some.inj hcreate]

theorem mapPages_driverSpaceHead {hw lg n i : ℕ} (hk : mapPages F hw lg n i s = some s') :
    s'.driverSpaceHead = s.driverSpaceHead := by
  induction n generalizing i s with
  | zero => rw [Option.some.inj hk]
  | succ n ih =>
    obtain ⟨s₁, hmapfr, hk⟩ := Option.bind_eq_some_iff.mp hk
    exact (ih hk).trans (mapfr_driverSpaceHead hmapfr)

/-- What a call of `maphwdev` returns, and where the next one begins. -/
theorem maphwdev_head {hw pages p : ℕ} (hk : maphwdev F hw pages s = some (p, s')) :
    p = (if s.driverSpaceHead = 0 then driverSpaceStart else s.driverSpaceHead) ∧
      s'.driverSpaceHead = add32 p pages := by
  obtain ⟨s₁, hloop, heq⟩ := Option.map_eq_some_iff.mp hk
  obtain ⟨rfl, rfl⟩ := Prod.mk.inj heq
  exact ⟨rfl, mapPages_driverSpaceHead hloop⟩

/-- The first page of driver space. -/
def driverPage : ℕ := driverSpaceStart / 4096

theorem driverSpaceStart_eq : driverSpaceStart = 4096 * driverPage := by decide

/-- A first call maps its device at the start of driver space. -/
theorem Sound.maphwdev_first (hs : Sound F s) (hF : F.Lawful) {hw pages : ℕ}
    (hhead : s.driverSpaceHead = 0) (halign : 4096 ∣ hw)
    (htotal : 4096 * pages ≤ driverSpaceSize)
    (htables : F.Singles (s.missingTables driverPage pages) s.pool) :
    ∃ s', maphwdev F hw pages s = some (driverSpaceStart, s') ∧ ∀ i < pages,
      s'.translate ((driverSpaceStart + 4096 * i) / 4096) =
        some ((hw + 4096 * i) % 4294967296 / 4096) := by
  obtain ⟨f₀, rfl⟩ := halign
  have hlt : driverPage + pages < 1047552 := by
    have : driverPage = 917504 := by decide
    unfold driverSpaceSize at htotal
    omega
  have hn : NoOwnWindow (driverPage + 0) pages := by
    intro i _ j hj
    unfold windowPage
    omega
  have hs' : Sound F { s with driverSpaceHead := add32 driverSpaceStart pages } :=
    ⟨hs.selfMapped, hs.inUse⟩
  obtain ⟨s', hloop, -, hmap, -, -⟩ :=
    hs'.mapPages_spec hF (f := f₀) (show driverPage + 0 < 1048576 by omega) hn
      (fun j _ hj hjw => absurd hjw (by omega)) htables
  refine ⟨s', ?_, fun i hi => ?_⟩
  · rw [maphwdev, if_pos hhead]
    rw [← driverSpaceStart_eq] at hloop
    exact congrArg (Option.map fun s => (driverSpaceStart, s)) hloop
  · have hpage : (driverSpaceStart + 4096 * i) / 4096 = driverPage + i := by
      rw [driverSpaceStart_eq]
      omega
    have hframe : (4096 * f₀ + 4096 * i) % 4294967296 / 4096 = (f₀ + i) % 1048576 := by omega
    rw [hpage, hframe]
    exact hmap i (Nat.zero_le i) (by omega)

/-- Two calls in a row overlap: the second range begins as many bytes behind the first as that has
pages. -/
theorem not_disjoint_of_two (hhead : s.driverSpaceHead = 0) {hw₁ pages₁ hw₂ pages₂ p₁ p₂ : ℕ}
    {s₁ s₂ : VirtMM P} (hpos₁ : 1 ≤ pages₁) (hpos₂ : 1 ≤ pages₂)
    (htotal : 4096 * pages₁ ≤ driverSpaceSize) (hcall₁ : maphwdev F hw₁ pages₁ s = some (p₁, s₁))
    (hcall₂ : maphwdev F hw₂ pages₂ s₁ = some (p₂, s₂)) :
    ¬PhyMM.DisjointRuns (p₁, pages₁) (p₂, pages₂) := by
  obtain ⟨hp₁, hhead₁⟩ := maphwdev_head hcall₁
  obtain ⟨hp₂, -⟩ := maphwdev_head hcall₂
  rw [if_pos hhead] at hp₁
  have hadd : add32 p₁ pages₁ = p₁ + pages₁ := by
    rw [hp₁]
    unfold driverSpaceStart driverSpaceSize at *
    exact add32_of_lt (by omega)
  rw [hhead₁, hadd, if_neg (by omega)] at hp₂
  unfold PhyMM.DisjointRuns
  simp only
  omega

/-- **When devices are mapped disjointly.**  A sequence of calls of `maphwdev` that fits in driver
space does what it should if and only if it is at most one call. -/
theorem driverMapped_iff (hF : F.Lawful) (hs : Sound F s) (hhead : s.driverSpaceHead = 0)
    {calls : List (ℕ × ℕ)} (hcalls : ∀ c ∈ calls, 4096 ∣ c.1 ∧ 1 ≤ c.2)
    (htotal : 4096 * (calls.map Prod.snd).sum ≤ driverSpaceSize)
    (htables : F.Singles (s.missingTables driverPage (calls.map Prod.snd).sum) s.pool) :
    DriverMapped F calls s ↔ calls.length ≤ 1 := by
  rcases calls with _ | ⟨⟨hw, pages⟩, _ | ⟨⟨hw₂, pages₂⟩, calls⟩⟩
  · refine iff_of_true ⟨[], s, rfl, ?_, .nil, ?_, ?_⟩ (Nat.zero_le 1)
    all_goals exact fun _ h => absurd h List.not_mem_nil
  · refine iff_of_true ?_ le_rfl
    obtain ⟨halign, -⟩ := hcalls _ List.mem_cons_self
    simp only [List.map_cons, List.map_nil, List.sum_cons, List.sum_nil, Nat.add_zero]
      at htotal htables
    obtain ⟨s', hcall, hmap⟩ := hs.maphwdev_first hF hhead halign htotal htables
    refine ⟨[driverSpaceStart], s', ?_, ?_, List.pairwise_singleton _ _, ?_, ?_⟩
    · rw [maphwdevAll, hcall]
      rfl
    · intro p hp
      rw [List.mem_singleton.mp hp]
      decide
    · intro r hr
      rw [List.mem_singleton.mp hr]
      exact ⟨le_rfl, Nat.add_le_add_left htotal _⟩
    · intro r hr
      rw [List.mem_singleton.mp hr]
      exact hmap
  · refine iff_of_false ?_ (by simp)
    rintro ⟨ps, s', hk, -, hdisj, -, -⟩
    obtain ⟨⟨p₁, s₁⟩, hcall₁, hk⟩ := Option.bind_eq_some_iff.mp hk
    obtain ⟨⟨ps₁, s₁'⟩, hk, heq⟩ := Option.map_eq_some_iff.mp hk
    obtain ⟨⟨p₂, s₂⟩, hcall₂, hk⟩ := Option.bind_eq_some_iff.mp hk
    obtain ⟨⟨ps₂, s₂'⟩, -, heq'⟩ := Option.map_eq_some_iff.mp hk
    obtain ⟨rfl, rfl⟩ := Prod.mk.inj heq
    obtain ⟨rfl, rfl⟩ := Prod.mk.inj heq'
    rw [List.map_cons, List.sum_cons] at htotal
    have hpos₁ := (hcalls _ List.mem_cons_self).2
    have hpos₂ := (hcalls _ (List.mem_cons_of_mem _ List.mem_cons_self)).2
    refine not_disjoint_of_two hhead hpos₁ hpos₂ ?_ hcall₁ hcall₂
      ((List.pairwise_cons.mp hdisj).1 (p₂, pages₂) List.mem_cons_self)
    exact (Nat.mul_le_mul_left 4096 (Nat.le_add_right _ _)).trans htotal

/-- The registers of one network card, 32 pages. -/
theorem driverMapped_iff_oneTable : DriverMapped eightFrames [(0xfebc0000, 32)] oneTable := by
  have hmissing : oneTable.missingTables driverPage 32 = 1 := by decide +kernel
  refine (driverMapped_iff eightFrames_lawful oneTable_sound rfl (by decide) (by decide) ?_).mpr
    (by decide)
  rw [List.map_singleton, List.sum_singleton, hmissing]
  exact ⟨4096 * 263, _, rfl, by decide, trivial⟩

/-- A second card is handed a pointer into the first page of the first, and takes its place. -/
theorem twoCards_not_driverMapped :
    (maphwdevAll eightFrames [(0xfebc0000, 32), (0xfebe0000, 16)] oneTable).map
        (fun r => (r.1, r.2.translate 0xe0000)) =
      some ([0xe0000000, 0xe0000020], some 0xfebe0) ∧
    ¬DriverMapped eightFrames [(0xfebc0000, 32), (0xfebe0000, 16)] oneTable := by
  have hrun : (maphwdevAll eightFrames [(0xfebc0000, 32), (0xfebe0000, 16)] oneTable).map
        (fun r => (r.1, r.2.translate 0xe0000)) =
      some ([0xe0000000, 0xe0000020], some 0xfebe0) := by
    decide +kernel
  refine ⟨hrun, ?_⟩
  rintro ⟨ps, s', hk, halign, -, -, -⟩
  rw [hk] at hrun
  have hps : ps = [0xe0000000, 0xe0000020] := (Prod.mk.inj (Option.some.inj hrun)).1
  have hdvd := halign 0xe0000020 (by rw [hps]; simp)
  omega

end VirtMM

end PakOS
