import PakOS.PhyMM.TwoEnded
import PakOS.VirtMM.Munmap
import PakOS.VirtMM.PagedMemory

/-!
# Paging on the kernel's own frames

The results about paging suppose a lawful frame allocator, which the kernel's is not: it hands out
whatever it finds when it has run out of frames.  `prudent` is the same allocator, but that it
refuses what it cannot serve.  It is lawful (`prudent_lawful`), and the two cannot be told apart by
calls of `mmap` for which there are frames (`Sound.mmap_congr`).
-/

namespace PakOS

open Machine

namespace FramePool

variable {P : Type*} {F G : FramePool P}

/-- What `G` hands out is what `F` would. -/
def Cautious (F G : FramePool P) : Prop :=
  ∀ n p q p', G.hwpalloc n p = some (q, p') → q ≠ 0 → F.hwpalloc n p = some (q, p')

/-- The state `p'` is reached from `p` by `n` calls for single frames. -/
def Draws (F : FramePool P) : ℕ → P → P → Prop
  | 0, p, p' => p' = p
  | n + 1, p, p' => ∃ q p₁, F.hwpalloc 1 p = some (q, p₁) ∧ Draws F n p₁ p'

end FramePool

namespace VirtMM

variable {P : Type*} {F G : FramePool P} {s : VirtMM P}

/-- A page table is created in the same way. -/
theorem createTable_congr (hFG : F.Cautious G) {d t : ℕ}
    (hsup : ¬Present (s.pde d) → ∃ q p', G.hwpalloc 1 s.pool = some (q, p') ∧ q ≠ 0) :
    createTable F d t s = createTable G d t s := by
  unfold createTable
  split
  · next habs =>
    obtain ⟨q, p', hk, hq⟩ := hsup (and_one_eq_zero_iff.mp habs)
    rw [hk, hFG 1 s.pool q p' hk hq]
  · rfl

/-- A page is mapped in the same way. -/
theorem mapfr_congr (hFG : F.Cautious G) {hw page : ℕ} (hsup : TableSupplied G s page) : mapfr F hw (4096 * page) s = mapfr G hw (4096 * page) s := by
  have hindex : (4096 * page) >>> 22 = page / 1024 := by
    rw [shiftRight_22]
    omega
  rw [mapfr, mapfr, createTable_congr hFG (hindex ▸ hsup)]

/-- The loop that maps pages below the window does the same with both allocators when the missing
tables are supplied, and draws a frame for each of these. -/
theorem Sound.mapPages_congr (hFG : F.Cautious G) (hG : G.Lawful) (hs : Sound G s) {f page n i : ℕ}
    (hle : page + i + n ≤ 1047552)
    (hsup : G.Singles (missingTables s (page + i) n) s.pool) :
    ∃ s', mapPages G (4096 * f) (4096 * page) n i s = some s' ∧
      mapPages F (4096 * f) (4096 * page) n i s = some s' ∧
      G.Draws (missingTables s (page + i) n) s.pool s'.pool := by
  induction n generalizing i s with
  | zero =>
    rw [missingTables_eq_zero fun j hj => absurd hj (Nat.not_lt_zero j)]
    exact ⟨s, rfl, rfl, rfl⟩
  | succ n ih =>
    have hpage : page + i < 1048576 := by omega
    have hown : NoOwnWindow (page + i) (n + 1) := fun j hj l hl => by
      unfold windowPage
      omega
    have htable := tableSupplied_of_singles hpage hsup
    obtain ⟨s₁, hmapfr, hmapped, hpool, hpool'⟩ :=
      hs.mapfr_spec hG (f := (f + i) % 1048576) (by omega) (fun h => by omega) htable
    have hsup₁ := hmapped.singles_tail hpage hown hsup hpool hpool'
    obtain ⟨s', hloop, hloop', hdraws⟩ := ih hmapped.sound (i := i + 1) (by omega) hsup₁
    refine ⟨s', ?_, ?_, ?_⟩
    · rw [mapPages, add32_pages, add32_pages, Nat.mod_eq_of_lt hpage, hmapfr, Option.bind_some]
      exact hloop
    · rw [mapPages, add32_pages, add32_pages, Nat.mod_eq_of_lt hpage, mapfr_congr hFG htable,
        hmapfr, Option.bind_some]
      exact hloop'
    · rw [hmapped.missingTables hpage hown]
      by_cases hpres : Present (s.pde ((page + i) / 1024))
      · rw [if_pos hpres, Nat.add_zero, ← hpool hpres]
        exact hdraws
      · rw [if_neg hpres]
        obtain ⟨q, hk⟩ := hpool' hpres
        exact ⟨q, _, hk, hdraws⟩

/-- `mmap` below the window does the same with both allocators when the frames are supplied: it takes
the frames of the range, and then those for the missing tables. -/
theorem Sound.mmap_congr (hFG : F.Cautious G) (hG : G.Lawful) (hs : Sound G s) {page k : ℕ}
    (hk : k < 65536) (hle : page + k ≤ 1047552) (hsup : Supplied G page k s) :
    ∃ q p' s', mmap F (4096 * page) (4096 * k) s = mmap G (4096 * page) (4096 * k) s ∧
      mmap G (4096 * page) (4096 * k) s = some (.ok, s') ∧
      G.hwpalloc k s.pool = some (q, p') ∧ q ≠ 0 ∧
      G.Draws (missingTables s page k) p' s'.pool := by
  obtain ⟨q, p', hcall, hq, hsingles⟩ := hsup
  have hpages : add32 (4096 * k) 4095 / 4096 = k := by
    unfold add32
    omega
  rw [Nat.mod_eq_of_lt hk] at hcall
  obtain ⟨a, rfl, htakes⟩ := hG.takes hk hcall hq
  obtain ⟨s', hloop, hloop', hdraws⟩ :=
    (hs.of_inUse fun _ => htakes.inUse_mono).mapPages_congr hFG hG (f := a) (i := 0) hle hsingles
  refine ⟨4096 * a, p', s', ?_, ?_, hcall, hq, hdraws⟩
  · rw [mmap, mmap, hpages, Nat.mod_eq_of_lt hk, hcall, hFG k s.pool _ p' hcall hq,
      Option.bind_some, Option.bind_some]
    exact congrArg (Option.map _) (hloop'.trans hloop.symm)
  · rw [mmap, hpages, Nat.mod_eq_of_lt hk, hcall, Option.bind_some]
    exact congrArg (Option.map _) hloop

end VirtMM

/-! ### The kernel's allocator -/

namespace FramePool

/-- The allocator is two-ended with the gap `g`, and its frames are page frames behind the first. -/
structure Stocked (g : Gap) (s : PhyMM) : Prop extends s.TwoEnded g where
  /-- The first frame is not at address 0. -/
  start_pos : 0 < s.hwaMmstart
  /-- The frames are aligned. -/
  aligned : 4096 ∣ s.hwaMmstart

open Classical in
/-- The kernel's allocator, which refuses what there are no frames for. -/
noncomputable def prudent : FramePool PhyMM where
  hwpalloc n s :=
    if 1 ≤ n ∧ ∃ g, Stocked g s ∧ PhyMM.Room g n then phyMM.hwpalloc n s else some (0, s)
  hwpfree := phyMM.hwpfree
  inUse := phyMM.inUse

variable {g : Gap} {s s' : PhyMM} {n q : ℕ}

/-- What it hands out is what the kernel's allocator hands out. -/
theorem cautious_prudent : phyMM.Cautious prudent := by
  intro n p q p' hk hq
  unfold prudent at hk
  dsimp only at hk
  split at hk
  · exact hk
  · obtain ⟨rfl, -⟩ := Prod.mk.inj (Option.some.inj hk)
    exact absurd rfl hq

/-- A request that there is room for. -/
theorem Stocked.prudent_hwpalloc (h : Stocked g s) (hn : 1 ≤ n) (hroom : PhyMM.Room g n) :
    ∃ s', prudent.hwpalloc n s = some (s.frame (g.place n), s') ∧ s.frame (g.place n) ≠ 0 ∧
      PhyMM.SamePool s s' ∧ Stocked (g.take n) s' := by
  have hsize := h.le
  have hlo := hroom.1
  obtain ⟨fuel, hfuel⟩ : ∃ fuel, s.hwasSsize = fuel + 1 := ⟨s.hwasSsize - 1, by omega⟩
  obtain ⟨s', hk, hsame, h'⟩ := h.toTwoEnded.hwpalloc hn hroom fuel
  refine ⟨s', ?_, ?_, hsame, h', hsame.mmstart ▸ h.start_pos, hsame.mmstart ▸ h.aligned⟩
  · unfold prudent
    dsimp only
    rw [if_pos ⟨hn, g, h, hroom⟩]
    change s.hwpalloc s.hwasSsize n = _
    rw [hfuel]
    exact hk
  · have hpos := h.start_pos
    unfold PhyMM.frame
    omega

/-- Requests that there is room for find their frames. -/
theorem Stocked.supplied (h : Stocked g s) (hroom : PhyMM.Room g n) : s.Supplied n := by
  obtain ⟨hroom, hone⟩ := hroom
  have hsize := h.le
  have hsp := h.sp
  have hfree : ∀ i < s.hwasSsize, g.Left i → s.inubmGet (s.slot i) = pgFree := fun i hi hleft =>
    (h.pool.inubmGet_slot hi).mpr ((h.used i hi).mpr hleft)
  refine Or.inr ?_
  split
  · exact ⟨g.hi - 1, by omega, by omega, hfree _ (by omega) ⟨by omega, by omega⟩⟩
  · exact ⟨g.lo, by omega, fun i hi => hfree _ (by omega) ⟨by omega, by omega⟩⟩

/-- It is lawful. -/
theorem prudent_lawful : prudent.Lawful := by
  intro n hn s
  by_cases hcan : 1 ≤ n ∧ ∃ g, Stocked g s ∧ PhyMM.Room g n
  · have hcall : prudent.hwpalloc n s = phyMM.hwpalloc n s := if_pos hcan
    obtain ⟨hpos, g, h, hroom⟩ := hcan
    have hsp : s.StackPointer := ⟨g.hi, h.le.2, h.sp⟩
    obtain ⟨q, s', hk, hlaw⟩ := phyMM_lawfulCall h.pool h.bp hsp h.start_pos h.aligned hpos
      (h.supplied hroom)
    refine ⟨q, s', hcall.trans hk, hlaw.imp_right fun ⟨a, hq, htakes⟩ => ?_⟩
    exact ⟨a, hq, htakes.pos, htakes.le, htakes.free, htakes.marked⟩
  · refine ⟨0, s, ?_, Or.inl ⟨rfl, rfl⟩⟩
    unfold prudent
    exact if_neg hcan

/-- Single frames, when several have been taken before. -/
theorem Stocked.singles (h : Stocked g s) (hlo : 1 ≤ g.lo) (hroom : g.lo + n ≤ g.hi) :
    prudent.Singles n s := by
  induction n generalizing g s with
  | zero => trivial
  | succ n ih =>
    obtain ⟨s', hk, hq, -, h'⟩ := h.prudent_hwpalloc (n := 1) le_rfl ⟨by omega, by omega⟩
    refine ⟨_, s', hk, hq, ih h' ?_ ?_⟩
    · rw [Gap.take_one]
      exact hlo
    · rw [Gap.take_one]
      simp only
      omega

/-- Drawing single frames. -/
theorem Stocked.draws (h : Stocked g s) (hlo : 1 ≤ g.lo) (hroom : g.lo + n ≤ g.hi)
    (hdraws : prudent.Draws n s s') :
    PhyMM.SamePool s s' ∧ Stocked ⟨g.lo, g.hi - n⟩ s' := by
  induction n generalizing g s with
  | zero =>
    obtain rfl : s' = s := hdraws
    exact ⟨.refl s', h⟩
  | succ n ih =>
    obtain ⟨q, s₁, hk, hdraws⟩ := hdraws
    obtain ⟨s₂, hk₂, -, hsame, h₁⟩ := h.prudent_hwpalloc (n := 1) le_rfl ⟨by omega, by omega⟩
    obtain ⟨-, rfl⟩ := Prod.mk.inj (Option.some.inj (hk.symm.trans hk₂))
    obtain ⟨hsame', h'⟩ := ih h₁ (by rw [Gap.take_one]; exact hlo)
      (by rw [Gap.take_one]; simp only; omega) hdraws
    rw [Gap.take_one, Nat.sub_sub, Nat.add_comm 1 n] at h'
    exact ⟨hsame.trans hsame', h'⟩

end FramePool

/-! ### `mmap` on the kernel's frames -/

namespace VirtMM

open FramePool

/-- `mmap` of pages that there are frames for, and for whose missing tables there are, does on the
kernel's allocator what it does on a lawful one. -/
theorem Sound.mmap_stocked {g : Gap} {v : VirtMM PhyMM} (hs : Sound prudent v)
    (h : Stocked g v.pool) {page k : ℕ} (hpos : 1 ≤ k) (hle : page + k ≤ 1047552)
    (hroom : PhyMM.Room g k) (hlo : 1 ≤ (g.take k).lo)
    (htables : (g.take k).lo + v.missingTables page k ≤ (g.take k).hi) :
    Supplied prudent page k v ∧ ∃ v', mmap phyMM (4096 * page) (4096 * k) v = some (.ok, v') ∧
      mmap prudent (4096 * page) (4096 * k) v = some (.ok, v') ∧ PhyMM.SamePool v.pool v'.pool ∧
      Stocked ⟨(g.take k).lo, (g.take k).hi - v.missingTables page k⟩ v'.pool := by
  have hk : k < 65536 := by
    have hsize := h.pool.size_le
    have hgap := h.le
    have hfits := hroom.1
    omega
  obtain ⟨p', hcall, hq, hsame, h'⟩ := h.prudent_hwpalloc hpos hroom
  have hsup : Supplied prudent page k v :=
    ⟨_, p', by rw [Nat.mod_eq_of_lt hk]; exact hcall, hq, h'.singles hlo htables⟩
  obtain ⟨q, p₁, v', heq, hmmap, hcall₁, -, hdraws⟩ :=
    hs.mmap_congr cautious_prudent prudent_lawful hk hle hsup
  obtain ⟨-, rfl⟩ := Prod.mk.inj (Option.some.inj (hcall₁.symm.trans hcall))
  obtain ⟨hsame', hstocked⟩ := h'.draws hlo htables hdraws
  exact ⟨hsup, v', heq.trans hmmap, hmmap, hsame.trans hsame', hstocked⟩

end VirtMM

end PakOS
