import PakOS.Data.Gap
import PakOS.PhyMM.MultiPage
import PakOS.PhyMM.Region

/-!
# The frame allocator works from both ends

`hwpalloc(1)` pops the stack, and `hwpalloc(n)` scans it from the bottom.  As long as nothing is given
back, the frames that are free therefore stay in one piece: `TwoEnded g s` says that they are those
of the gap `g`, and that the stack pointer is at its upper end.

`hwpalloc_twoEnded` is the run theorem: from `init_phymm` on, requests that the pool has the frames
for are all served, and at the places that `Gap.places` says.
-/

namespace PakOS

open Machine

namespace PhyMM

variable {s s' : PhyMM} {g : Gap} {n fuel : ℕ} {ns : List ℕ}

/-- The free frames are those of the gap, and the stack pointer is at its upper end. -/
structure TwoEnded (g : Gap) (s : PhyMM) : Prop where
  /-- The pool. -/
  pool : s.Pool
  /-- The stack does not begin at the lowest address. -/
  bp : 4 ≤ s.hwasBp
  /-- The gap is one of frames of the pool. -/
  le : g.lo ≤ g.hi ∧ g.hi ≤ s.hwasSsize
  /-- The stack pointer. -/
  sp : s.hwasSp + 4 = s.hwasBp + 4 * g.hi
  /-- The free frames. -/
  used : ∀ i < s.hwasSsize, s.used i = false ↔ g.Left i

/-- There are `n` frames left, and the stack pointer is not at the first slot, where the stack counts
as empty. -/
def Room (g : Gap) (n : ℕ) : Prop := g.lo + n ≤ g.hi ∧ g.hi ≠ 1

/-- The frames that are marked are those of the part that is handed out. -/
theorem TwoEnded.of_marked (h : TwoEnded g s) (hroom : g.lo + n ≤ g.hi) (hsame : SamePool s s')
    (hsp : s'.hwasSp + 4 = s.hwasBp + 4 * (g.take n).hi)
    (hused : ∀ i, s'.used i = if Gap.InPart (g.place n, n) i then true else s.used i) :
    TwoEnded (g.take n) s' := by
  have hle := h.le
  refine ⟨h.pool.of_samePool hsame, hsame.bp ▸ h.bp, ?_, by rw [hsp, hsame.bp], fun i hi => ?_⟩
  · obtain ⟨-, hle', hhi⟩ := Gap.take_le hroom
    rw [hsame.ssize]
    exact ⟨hle', hhi.trans hle.2⟩
  · rw [hsame.ssize] at hi
    rw [hused i, (Gap.left_take_iff hroom).2, ← h.used i hi]
    split
    · next hin => simp [hin]
    · next hout => simp [hout]

/-- A request that there is room for is served at its place, and leaves the allocator two-ended. -/
theorem TwoEnded.hwpalloc (h : TwoEnded g s) (hn : 1 ≤ n) (hroom : Room g n) (fuel : ℕ) :
    ∃ s', s.hwpalloc (fuel + 1) n = some (s.frame (g.place n), s') ∧ SamePool s s' ∧
      TwoEnded (g.take n) s' := by
  obtain ⟨hroom, hone⟩ := hroom
  obtain ⟨hle, hsize⟩ := h.le
  have hsp := h.sp
  have hbp := h.bp
  have hne : s.hwasSp ≠ s.hwasBp := by omega
  by_cases hn1 : n = 1
  · subst hn1
    -- the frame at the stack pointer is free, so that the loop ends at once
    have htop : g.hi - 1 < s.hwasSsize := by omega
    have hfree : s.used (g.hi - 1) = false := (h.used _ htop).mpr ⟨by omega, by omega⟩
    have hspeq : s.hwasSp = s.hwasBp + 4 * (g.hi - 1) := by omega
    obtain ⟨⟨p, s'⟩, hk⟩ : ∃ r, s.hwpalloc (fuel + 1) 1 = some r := by
      rw [PhyMM.hwpalloc, if_neg hne, if_pos rfl, hspeq, h.pool.popUnused_succ htop, hfree]
      exact ⟨_, rfl⟩
    obtain ⟨i, hi, rfl, -, habove, hsame, hsp', hused⟩ :=
      h.pool.hwpalloc_one hbp htop hspeq hne ⟨_, le_rfl, hfree⟩ hk
    obtain rfl : i = g.hi - 1 := by
      by_contra hlt
      have hinUse := habove (g.hi - 1) (by omega) le_rfl
      rw [hfree] at hinUse
      exact Bool.noConfusion hinUse
    refine ⟨s', hk, hsame, h.of_marked hroom hsame hsp' fun j => (hused j).trans ?_⟩
    refine if_congr ?_ rfl rfl
    unfold Gap.InPart
    simp only [Gap.place_one]
    omega
  · -- the scan finds the lower end of the gap
    have hfree : ∀ i < s.hwasSsize, s.inubmGet (s.frame i) = pgFree ↔ g.Left i := fun i hi => by
      rw [← h.used i hi, ← h.pool.inubmGet_slot hi, h.pool.slots i hi]
    have hlow : s.FreeFrames n g.lo := ⟨by omega, fun i hi => (hfree _ (by omega)).mpr
      ⟨by omega, by omega⟩⟩
    obtain ⟨a, hk, ha, hmin⟩ := hwpalloc_of_freeFrames (by omega) h.pool.slots hne ⟨_, hlow⟩
      (fuel + 1)
    obtain rfl : a = g.lo := by
      have hfirst := (hfree (a + 0) (by have := ha.1; omega)).mp (ha.2 0 (by omega))
      exact Nat.le_antisymm (hmin _ hlow) hfirst.1
    obtain ⟨hsame, hsp', hused⟩ := h.pool.setFrames_spec ha.1 pgUse
    rw [Gap.place_of_ne_one hn1]
    refine ⟨_, hk, hsame, h.of_marked hroom hsame ?_ fun j => (hused j).trans ?_⟩
    · rw [hsp', hsp, Gap.take_of_ne_one hn1]
    · rw [Gap.place_of_ne_one hn1]
      rfl

/-! ### Requests one after the other -/

/-- Calls of `hwpalloc`, one after the other, and what they return. -/
def hwpallocs (fuel : ℕ) : List ℕ → PhyMM → Option (List ℕ × PhyMM)
  | [], s => some ([], s)
  | n :: ns, s => (s.hwpalloc fuel n).bind fun (p, s) =>
      (hwpallocs fuel ns s).map fun (ps, s) => (p :: ps, s)

/-- Requests that there are frames for are all served, each at its place. -/
theorem TwoEnded.hwpallocs (h : TwoEnded g s) (hpos : ∀ n ∈ ns, 1 ≤ n)
    (hsum : g.lo + ns.sum ≤ g.hi) (hone : ns.count 1 < g.hi) (fuel : ℕ) :
    ∃ s', s.hwpallocs (fuel + 1) ns = some ((g.places ns).map fun a => s.frame a.1, s') ∧
      SamePool s s' ∧ TwoEnded (g.takeAll ns) s' := by
  induction ns generalizing g s with
  | nil => exact ⟨s, rfl, .refl s, h⟩
  | cons n ns ih =>
    rw [List.forall_mem_cons] at hpos
    rw [List.sum_cons] at hsum
    have hn := hpos.1
    have hroom : g.lo + n ≤ g.hi := by omega
    have hhi : ns.count 1 < (g.take n).hi ∧ g.hi ≠ 1 := by
      by_cases hn1 : n = 1
      · subst hn1
        rw [List.count_cons_self] at hone
        rw [Gap.take_one]
        simp only
        omega
      · rw [List.count_cons_of_ne hn1] at hone
        rw [Gap.take_of_ne_one hn1]
        simp only
        omega
    obtain ⟨s₁, hk, hsame, h₁⟩ := h.hwpalloc hn ⟨hroom, hhi.2⟩ fuel
    obtain ⟨s', hks, hsame', h'⟩ := ih h₁ hpos.2 ((Gap.take_lo_add hroom).mpr (by omega)) hhi.1
    have hframe : ∀ i, s₁.frame i = s.frame i := fun i => by rw [frame, frame, hsame.mmstart]
    refine ⟨s', ?_, hsame.trans hsame', h'⟩
    simp only [PhyMM.hwpallocs, hk, Option.bind_some, hks, Option.map_some, Gap.places,
      List.map_cons, hframe]

/-! ### From `init_phymm` on -/

variable {kernelEnd mmapAddr mmapLen : ℕ} {m : Mem}

/-- A pool whose frames come in eights begins with all of them free. -/
theorem Layout.twoEnded (hl : Layout kernelEnd s) (hend : 4096 ∣ kernelEnd) (hlow : 4 ≤ kernelEnd)
    (hhigh : kernelEnd < 4294967296) (hslots : ∀ i < s.hwasSsize, s.slot i = s.frame i)
    (hdvd : 8 ∣ s.hwasSsize) : TwoEnded ⟨0, s.hwasSsize⟩ s := by
  have hp := hl.pool hend hlow hhigh hslots (by omega)
  refine ⟨hp, hl.bp.symm ▸ hlow, ⟨Nat.zero_le _, le_rfl⟩, hl.sp_add hend (by omega) hhigh,
    fun i hi => iff_of_true (hl.used_eq_false hp (by omega)) ⟨Nat.zero_le i, hi⟩⟩

/-- **The frame allocator works from both ends.**  After a successful `init_phymm` whose pool has a
multiple of eight frames below 4G, every sequence of requests that the pool has the frames for, of
which not all frames are asked for one by one, is served: a single frame comes from above and several
come from below; no frame is handed out twice, and the frames in use are those handed out. -/
theorem hwpalloc_twoEnded (hend : 4096 ∣ kernelEnd) (hlow : 4 ≤ kernelEnd)
    (hhigh : kernelEnd < 4294967296)
    (hinit : initPhymm kernelEnd mmapAddr mmapLen fuel m = some (.ok, s)) (hdvd : 8 ∣ s.hwasSsize)
    (hspace : s.hwaMmstart + 4096 * s.hwasSsize ≤ 4294967296) (hpos : ∀ n ∈ ns, 1 ≤ n)
    (hsum : ns.sum ≤ s.hwasSsize) (hone : ns.count 1 < s.hwasSsize) (fuel' : ℕ) :
    ∃ s', s.hwpallocs (fuel' + 1) ns =
        some ((Gap.places ⟨0, s.hwasSsize⟩ ns).map fun a => s.frame a.1, s') ∧ SamePool s s' ∧
      (∀ a ∈ Gap.places ⟨0, s.hwasSsize⟩ ns, ∀ i, Gap.InPart a i → i < s.hwasSsize) ∧
      (Gap.places ⟨0, s.hwasSsize⟩ ns).Pairwise
        (fun a b => ∀ i, Gap.InPart a i → ¬Gap.InPart b i) ∧
      ∀ i < s.hwasSsize, s'.used i = true ↔ ∃ a ∈ Gap.places ⟨0, s.hwasSsize⟩ ns, Gap.InPart a i := by
  have hslots := initPhymm_slots hend hhigh hinit (by omega) hspace
  have h := (initPhymm_layout hinit).twoEnded hend hlow hhigh hslots hdvd
  have hroom : (⟨0, s.hwasSsize⟩ : Gap).lo + ns.sum ≤ s.hwasSsize := by
    rw [Nat.zero_add]
    exact hsum
  obtain ⟨s', hks, hsame, h'⟩ := h.hwpallocs hpos hroom hone fuel'
  refine ⟨s', hks, hsame, fun a ha i hi => ((Gap.left_takeAll_iff hroom).1 a ha hi).2,
    Gap.places_apart hroom, fun i hi => ?_⟩
  have hfree := h'.used i (hsame.ssize ▸ hi)
  rw [(Gap.left_takeAll_iff hroom).2, and_iff_right ⟨Nat.zero_le i, hi⟩] at hfree
  rw [← Bool.not_eq_false, hfree]
  simp only [not_forall, not_not, exists_prop]

/-- Three frames, one, two and one again, from the memory of the emulated machine. -/
theorem hwpalloc_twoEnded_pc :
    ∃ s s', initPhymm 0xc0105000 0x10000 48 2 pcMmap = some (.ok, s) ∧
      s.hwpallocs 1 [3, 1, 2, 1] = some ([0x106000, 0x185000, 0x109000, 0x184000], s') := by
  have hp : Chosen 0xc0105000 0x10000 48 2 pcMmap 0x10018 := by decide +kernel
  have hinit := hp.initPhymm_eq
  have hsize : (usePool 0xc0105000 (entryBase pcMmap 0x10018) (entryLength pcMmap 0x10018)
      (beforeInit 0xc0105000 pcMmap)).hwasSsize = 128 := by decide +kernel
  have hstart : (usePool 0xc0105000 (entryBase pcMmap 0x10018) (entryLength pcMmap 0x10018)
      (beforeInit 0xc0105000 pcMmap)).hwaMmstart = 0x106000 := by decide +kernel
  generalize usePool 0xc0105000 (entryBase pcMmap 0x10018) (entryLength pcMmap 0x10018)
    (beforeInit 0xc0105000 pcMmap) = s at *
  have hpos : ∀ n ∈ [3, 1, 2, 1], 1 ≤ n := by decide
  obtain ⟨s', hks, -⟩ := hwpalloc_twoEnded (by decide) (by decide) (by decide) hinit (by omega)
    (by omega) hpos (by rw [hsize]; decide) (by rw [hsize]; decide) 0
  refine ⟨s, s', hinit, hks.trans ?_⟩
  rw [hsize]
  simp only [frame, hstart]
  rfl

end PhyMM

end PakOS
