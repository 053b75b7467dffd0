import PakOS.PhyMM.Exclusive

/-!
# One frame at a time

`hwpalloc(1)` pops the stack until it finds a frame that the bitmap has free, but asks before the
loop whether the stack is empty, and then only whether the pointer is at the first slot.  On a pool
it hands out a free frame exactly when there is one, and stays inside the stack, if and only if
`PopFinds` holds (`Pool.popsFree_iff`): at the first slot no frame may be free, and elsewhere a slot
up to the pointer has to hold a free frame.  The guard of `hwpfree(p, 1)` is the wrong way round, so
that in no run a single frame is ever taken back (`hwpfree_one_not_lifo`).
-/

namespace PakOS

open Machine

namespace PhyMM

variable {s s' : PhyMM} {kernelEnd : ℕ}

/-! ### Runs of single frames -/

/-- What is asked of the release of a single frame: it is accepted, frees that frame and nothing
else, and the next allocation hands it out again. -/
structure LifoFree (s : PhyMM) (p : ℕ) : Prop where
  /-- The release is accepted. -/
  ok : (s.hwpfree p 1).1 = .ok
  /-- The frame is free afterwards. -/
  freed : (s.hwpfree p 1).2.inubmGet p = pgFree
  /-- The other frames stay. -/
  others : ∀ i < s.hwasSsize, s.frame i ≠ p →
    (s.hwpfree p 1).2.inubmGet (s.frame i) = s.inubmGet (s.frame i)
  /-- It is the next frame to be handed out. -/
  next : ∃ fuel s', (s.hwpfree p 1).2.hwpalloc fuel 1 = some (p, s')

/-- The calls of a client that asks for single frames only. -/
def Single (_ : PhyMM) (n : ℕ) : Prop := n = 1

/-- The invariant of a run of single frames from a pool none of whose frames was in use: the frames
below the stack pointer are free, and the pointer has not passed the first slot. -/
structure SingleInv (s₀ : PhyMM) (h : FrameHistory) : Prop extends FrameInv s₀ h where
  /-- The frames in the slots up to the stack pointer are free. -/
  below : ∃ top, 1 ≤ top ∧ top ≤ s₀.hwasSsize ∧ h.phy.hwasSp + 4 = s₀.hwasBp + 4 * top ∧
    ∀ i < top, h.phy.used i = false
  /-- The live allocations are single frames. -/
  single : ∀ a ∈ h.live, a.2 = 1

/-- `hwpalloc(1)` takes the frame at the stack pointer. -/
theorem SingleInv.hwpalloc_one {s₀ : PhyMM} {h : FrameHistory} (hi : SingleInv s₀ h)
    (hbp : 4 ≤ s₀.hwasBp) {fuel p : ℕ} {phy : PhyMM} (hne : h.phy.hwasSp ≠ h.phy.hwasBp)
    (hk : h.phy.hwpalloc fuel 1 = some (p, phy)) :
    Supplied h.phy 1 ∧ ∃ top, 1 ≤ top ∧ top ≤ s₀.hwasSsize ∧
      phy.hwasSp + 4 = s₀.hwasBp + 4 * top ∧ ∀ i < top, phy.used i = false := by
  obtain ⟨top, htop, hle, hsp, hbelow⟩ := hi.below
  have hbp' := hi.same.bp
  have hsize := hi.same.ssize
  have htopfree : h.phy.used (top - 1) = false := hbelow _ (by omega)
  obtain ⟨i, hile, -, -, habove, -, hsp', hused⟩ := hi.pool.hwpalloc_one
    (hbp'.symm ▸ hbp) (show top - 1 < h.phy.hwasSsize by omega) (by omega) hne
    ⟨top - 1, le_rfl, htopfree⟩ hk
  -- the frame at the stack pointer is free, so that the loop ends at once
  obtain rfl : i = top - 1 := by
    by_contra hlt
    have hinUse := habove (top - 1) (by omega) le_rfl
    rw [htopfree] at hinUse
    exact Bool.noConfusion hinUse
  constructor
  · refine Or.inr ?_
    rw [if_pos rfl]
    exact ⟨top - 1, by omega, by omega, (hi.pool.inubmGet_slot (by omega)).mpr htopfree⟩
  · refine ⟨top - 1, by omega, by omega, by omega, fun i hi => ?_⟩
    rw [hused, if_neg (by omega)]
    exact hbelow i (by omega)

/-- In such a run every call of `hwpalloc` finds a frame, and the invariant is kept. -/
theorem FrameStep.singleInv {s₀ : PhyMM} {h h' : FrameHistory} (hbp : 4 ≤ s₀.hwasBp)
    (hi : SingleInv s₀ h) (hs : FrameStep Single h h') :
    FrameStep Supplied h h' ∧ SingleInv s₀ h' := by
  cases hs with
  | @alloc fuel n p phy hn hn16 hg hk =>
    obtain rfl : n = 1 := hg
    by_cases hempty : h.phy.hwasSp = h.phy.hwasBp
    · have hstep : FrameStep Supplied h ⟨phy, if p = 0 then h.live else (p, 1) :: h.live⟩ :=
        .alloc hn hn16 (Or.inl hempty) hk
      refine ⟨hstep, ⟨hstep.inv hbp hi.toFrameInv, ?_, ?_⟩⟩
      all_goals
        rw [hwpalloc, if_pos hempty] at hk
        obtain ⟨rfl, rfl⟩ := Prod.mk.inj (Option.some.inj hk)
      · exact hi.below
      · rw [if_pos rfl]
        exact hi.single
    · obtain ⟨hsupp, hbelow⟩ := hi.hwpalloc_one hbp hempty hk
      have hstep : FrameStep Supplied h ⟨phy, if p = 0 then h.live else (p, 1) :: h.live⟩ :=
        .alloc hn hn16 hsupp hk
      refine ⟨hstep, ⟨hstep.inv hbp hi.toFrameInv, hbelow, ?_⟩⟩
      split
      · exact hi.single
      · exact List.forall_mem_cons.mpr ⟨rfl, hi.single⟩
  | @free n p st phy hlive hk =>
    obtain rfl : n = 1 := hi.single _ hlive
    refine ⟨.free hlive hk, ?_⟩
    obtain ⟨st', hst', hcall⟩ := hi.pool.hwpfree_one hi.sp p
    obtain ⟨rfl, rfl⟩ := Prod.mk.inj (hcall.symm.trans hk)
    rw [if_neg hst']
    exact hi

/-- A run of single frames is a run whose allocations are supplied. -/
theorem SingleInv.run {s₀ : PhyMM} {h h' : FrameHistory} (hbp : 4 ≤ s₀.hwasBp) (hi : SingleInv s₀ h)
    (hrun : Relation.ReflTransGen (FrameStep Single) h h') :
    Relation.ReflTransGen (FrameStep Supplied) h h' ∧ SingleInv s₀ h' := by
  induction hrun with
  | refl => exact ⟨.refl, hi⟩
  | tail _ hstep ih =>
    obtain ⟨hstep', hi'⟩ := hstep.singleInv hbp ih.2
    exact ⟨ih.1.tail hstep', hi'⟩

/-- The first state of a run of single frames. -/
theorem Layout.singleInv (hl : Layout kernelEnd s) (hend : 4096 ∣ kernelEnd) (hlow : 4 ≤ kernelEnd)
    (hhigh : kernelEnd < 4294967296) (hslots : ∀ i < s.hwasSsize, s.slot i = s.frame i)
    (hfree : ∀ i < s.hwasSsize, s.used i = false) (h2 : 2 ≤ s.hwasSsize) : SingleInv s ⟨s, []⟩ := by
  have hsp := hl.sp_add hend (by omega) hhigh
  refine ⟨⟨hl.pool hend hlow hhigh hslots (by omega), .refl s, ⟨_, le_rfl, hsp⟩, ?_, .nil⟩,
    ⟨s.hwasSsize, by omega, le_rfl, hsp, hfree⟩, ?_⟩
  · exact fun a ha => absurd ha List.not_mem_nil
  · exact fun a ha => absurd ha List.not_mem_nil

/-- No call changes the range of the pool. -/
theorem FrameStep.ssize {guard : PhyMM → ℕ → Prop} {h h' : FrameHistory} (hs : FrameStep guard h h') :
    h'.phy.hwasSsize = h.phy.hwasSsize := by
  cases hs with
  | @alloc fuel n p phy _ _ _ hk =>
    unfold hwpalloc at hk
    split at hk
    · obtain ⟨-, rfl⟩ := Prod.mk.inj (Option.some.inj hk)
      rfl
    split at hk
    · obtain ⟨_, _, hk⟩ := Option.map_eq_some_iff.mp hk
      obtain ⟨-, rfl⟩ := Prod.mk.inj hk
      rfl
    · obtain ⟨-, rfl⟩ := Prod.mk.inj (Option.some.inj hk)
      rw [setFrames_eq]
  | @free n p st phy _ hk =>
    unfold hwpfree at hk
    split at hk
    · obtain ⟨-, rfl⟩ := Prod.mk.inj hk
      rfl
    split at hk
    · obtain ⟨-, rfl⟩ := Prod.mk.inj hk
      rfl
    split at hk
    · split at hk
      · obtain ⟨-, rfl⟩ := Prod.mk.inj hk
        rfl
      · obtain ⟨-, rfl⟩ := Prod.mk.inj hk
        rfl
    · obtain ⟨-, rfl⟩ := Prod.mk.inj hk
      rw [setFrames_eq]

/-- In no run of single frames from a fresh pool is the release of a live frame accepted: the guard
against overruns lets only a stack pointer pass that is behind the stack. -/
theorem hwpfree_one_not_lifo {mmapAddr mmapLen fuel p : ℕ} {m : Mem} {s₀ : PhyMM} {h : FrameHistory}
    (hend : 4096 ∣ kernelEnd) (hlow : 0xc0100000 ≤ kernelEnd) (hhigh : kernelEnd < 4294967296)
    (hinit : initPhymm kernelEnd mmapAddr mmapLen fuel m = some (.ok, s₀))
    (hslots : ∀ i < s₀.hwasSsize, s₀.slot i = s₀.frame i)
    (hfree : ∀ i < s₀.hwasSsize, s₀.used i = false)
    (hrun : Relation.ReflTransGen (FrameStep Single) ⟨s₀, []⟩ h) (hlive : (p, 1) ∈ h.live) :
    ¬LifoFree h.phy p := by
  have hl := initPhymm_layout hinit
  have hrefused : (h.phy.hwpfree p 1).1 ≠ .ok := by
    by_cases h0 : s₀.hwasSsize = 0
    · have hsize : h.phy.hwasSsize = 0 := by
        clear hlive
        induction hrun with
        | refl => exact h0
        | tail _ hstep ih => exact hstep.ssize.trans ih
      have hrange : p < h.phy.hwaMmstart ∨
          p ≥ add32 h.phy.hwaMmstart (mul32 h.phy.hwasSsize 4096) := by
        rw [hsize]
        unfold add32 mul32
        omega
      rw [hwpfree, if_pos hrange]
      exact fun hok => Status.noConfusion hok
    by_cases h1 : s₀.hwasSsize = 1
    · have hsp := hl.sp_add hend (by omega) hhigh
      obtain rfl := eq_of_run_of_sp_eq (by omega) hrun
      exact absurd hlive List.not_mem_nil
    · have hinv := ((hl.singleInv hend (by omega) hhigh hslots hfree (by omega)).run
        (by rw [hl.bp]; omega) hrun).2
      obtain ⟨st, hst, hcall⟩ := hinv.pool.hwpfree_one hinv.sp p
      rw [hcall]
      exact hst
  exact fun hlifo => hrefused hlifo.ok

/-- The pool of eight frames is fresh. -/
theorem smallPool_fresh : initPhymm 0xc0105000 0x10000 24 1 oneRegion = some (.ok, smallPool) ∧
    (∀ i < smallPool.hwasSsize, smallPool.slot i = smallPool.frame i) ∧
    ∀ i < smallPool.hwasSsize, smallPool.used i = false := by
  have hslots : ∀ i < smallPool.hwasSsize, smallPool.slot i = smallPool.frame i :=
    initPhymm_slots (by decide) (by decide) initPhymm_oneRegion (by decide +kernel)
      (by decide +kernel)
  have hl := initPhymm_layout initPhymm_oneRegion
  have hp : Pool smallPool :=
    hl.pool (by decide) (by decide) (by decide) hslots (by decide +kernel)
  have hsize : smallPool.hwasSsize / 8 * 8 = smallPool.hwasSsize := by decide +kernel
  exact ⟨initPhymm_oneRegion, hslots, fun i hi => hl.used_eq_false hp (hsize.symm ▸ hi)⟩

/-- A client that asks for single frames makes such a run. -/
theorem run_singles {k : ℕ} {h h' : FrameHistory}
    (hk : hwpallocAll 1 (List.replicate k 1) h = some h') :
    Relation.ReflTransGen (FrameStep Single) h h' :=
  run_hwpallocAll (fun n hn => by
    obtain rfl := List.eq_of_mem_replicate hn
    exact ⟨le_rfl, by decide, fun _ => rfl⟩) hk

/-- The first frame that `hwpalloc(1)` hands out is the last of the pool. -/
theorem exists_run_one : ∃ h, Relation.ReflTransGen (FrameStep Single) ⟨smallPool, []⟩ h ∧
    (0x10d000, 1) ∈ h.live ∧ (h.phy.hwpfree 0x10d000 1).1 = .borkdMem := by
  have hcall : (hwpallocAll 1 (List.replicate 1 1) ⟨smallPool, []⟩).map
      (fun h => (h.live, (h.phy.hwpfree 0x10d000 1).1)) = some ([(0x10d000, 1)], .borkdMem) := by
    decide +kernel
  obtain ⟨h, hk, hres⟩ := Option.map_eq_some_iff.mp hcall
  obtain ⟨hlive, hst⟩ := Prod.mk.inj hres
  exact ⟨h, run_singles hk, hlive ▸ List.mem_cons_self, hst⟩

/-- The release of the first frame that is handed out. -/
theorem hwpfree_one_not_lifo_smallPool :
    ∃ h, Relation.ReflTransGen (FrameStep Single) ⟨smallPool, []⟩ h ∧ (0x10d000, 1) ∈ h.live ∧
      ¬LifoFree h.phy 0x10d000 := by
  obtain ⟨h, hrun, hlive, -⟩ := exists_run_one
  exact ⟨h, hrun, hlive, hwpfree_one_not_lifo (by decide) (by decide) (by decide) smallPool_fresh.1
    smallPool_fresh.2.1 smallPool_fresh.2.2 hrun hlive⟩

/-- A frame is handed out and `hwpfree` of it reports a broken memory. -/
theorem smallPool_not_lifo :
    initPhymm 0xc0105000 0x10000 24 1 oneRegion = some (.ok, smallPool) ∧
      ∃ h, Relation.ReflTransGen (FrameStep Single) ⟨smallPool, []⟩ h ∧ (0x10d000, 1) ∈ h.live ∧
        (h.phy.hwpfree 0x10d000 1).1 = .borkdMem ∧ ¬LifoFree h.phy 0x10d000 := by
  obtain ⟨h, hrun, hlive, hst⟩ := exists_run_one
  refine ⟨initPhymm_oneRegion, h, hrun, hlive, hst, fun hlifo => ?_⟩
  exact absurd (hst.symm.trans hlifo.ok) (by decide)

/-! ### A free frame is found -/

/-- The addresses that the pop loop of `hwpalloc(1)` reads. -/
def popReads (s : PhyMM) : ℕ → ℕ → List ℕ
  | 0, _ => []
  | fuel + 1, sp =>
    sp :: if s.inubmGet (loadLE 4 s.mem sp) = pgUse then popReads s fuel (sub32 sp 4) else []

/-- What is asked of `hwpalloc(1)`. -/
structure PopsFree (s : PhyMM) : Prop where
  /-- If a frame of the pool is free, a free frame is handed out and nothing else is marked. -/
  found : (∃ i < s.hwasSsize, s.inubmGet (s.frame i) = pgFree) → ∃ fuel i s', i < s.hwasSsize ∧
    s.inubmGet (s.frame i) = pgFree ∧ s.hwpalloc fuel 1 = some (s.frame i, s') ∧ SamePool s s' ∧
    ∀ j < s.hwasSsize, s'.inubmGet (s.frame j) = if j = i then pgUse else s.inubmGet (s.frame j)
  /-- If none is free, the answer is `NULL` and nothing changes. -/
  null : (∀ i < s.hwasSsize, s.inubmGet (s.frame i) = pgUse) → ∃ fuel, s.hwpalloc fuel 1 = some (0, s)
  /-- However long it runs, the loop reads slots of the stack only. -/
  reads : s.hwasSp ≠ s.hwasBp → ∀ fuel, ∀ a ∈ s.popReads fuel s.hwasSp,
    ∃ i < s.hwasSsize, a = s.hwasBp + 4 * i

/-- The test for an empty stack is right, and the pop loop finds something. -/
def PopFinds (s : PhyMM) : Prop :=
  if s.hwasSp = s.hwasBp then ∀ i < s.hwasSsize, s.inubmGet (s.frame i) = pgUse
  else ∃ i < s.hwasSsize, s.hwasBp + 4 * i ≤ s.hwasSp ∧ s.inubmGet (s.frame i) = pgFree

/-- A frame of the pool is in use or free. -/
theorem inubmGet_eq_or (s : PhyMM) (a : ℕ) : s.inubmGet a = pgUse ∨ s.inubmGet a = pgFree := by
  rw [inubmGet_eq]
  cases memBit s.mem (s.bitLoc a)
  · exact Or.inr rfl
  · exact Or.inl rfl

theorem Pool.inubmGet_frame_eq_pgFree (hp : Pool s) {i : ℕ} (hi : i < s.hwasSsize) :
    s.inubmGet (s.frame i) = pgFree ↔ s.used i = false := by
  rw [hp.inubmGet_frame hi]
  cases s.used i <;> decide

/-- One round of the reads. -/
theorem Pool.popReads_succ (hp : Pool s) {top : ℕ} (htop : top < s.hwasSsize) (fuel : ℕ) :
    s.popReads (fuel + 1) (s.hwasBp + 4 * top) = (s.hwasBp + 4 * top) ::
      if s.used top then s.popReads fuel (sub32 (s.hwasBp + 4 * top) 4) else [] := by
  rw [popReads, hp.loadLE_slot htop, hp.inubmGet_frame htop]
  cases s.used top <;> rfl

/-- With a free frame at or below the stack pointer the loop reads slots only. -/
theorem Pool.popReads_mem (hp : Pool s) {fuel top a : ℕ} (hbp : 4 ≤ s.hwasBp)
    (htop : top < s.hwasSsize) (hfree : ∃ i ≤ top, s.used i = false)
    (ha : a ∈ s.popReads fuel (s.hwasBp + 4 * top)) : ∃ i < s.hwasSsize, a = s.hwasBp + 4 * i := by
  induction fuel generalizing top with
  | zero => exact absurd ha List.not_mem_nil
  | succ fuel ih =>
    rw [hp.popReads_succ htop, hp.sub_slot hbp htop] at ha
    rcases List.mem_cons.mp ha with rfl | ha
    · exact ⟨top, htop, rfl⟩
    cases hu : s.used top with
    | false =>
      rw [hu] at ha
      exact absurd ha List.not_mem_nil
    | true =>
      obtain ⟨top, rfl, hbelow⟩ := exists_below hfree hu
      have hdown : s.hwasBp + 4 * (top + 1) - 4 = s.hwasBp + 4 * top := by omega
      rw [hu, if_pos rfl, hdown] at ha
      exact ih (by omega) hbelow ha

/-- Without one it reads the word before the stack. -/
theorem Pool.exists_popReads (hp : Pool s) {top sp : ℕ} (hbp : 4 ≤ s.hwasBp)
    (htop : top ≤ s.hwasSsize) (hsp : sp + 4 = s.hwasBp + 4 * top)
    (hused : ∀ i < top, s.used i = true) : s.hwasBp - 4 ∈ s.popReads (top + 1) sp := by
  induction top generalizing sp with
  | zero =>
    obtain rfl : sp = s.hwasBp - 4 := by omega
    exact List.mem_cons_self
  | succ top ih =>
    obtain rfl : sp = s.hwasBp + 4 * top := by omega
    rw [hp.popReads_succ (by omega), hused top (Nat.lt_succ_self top), if_pos rfl,
      hp.sub_slot hbp (by omega)]
    exact List.mem_cons_of_mem _
      (ih (by omega) (by omega) fun i hi => hused i (Nat.lt_succ_of_lt hi))

/-- With the pointer at the first slot `hwpalloc(1)` returns `NULL`, which is right exactly when
every frame is in use. -/
theorem popsFree_iff_of_empty (hempty : s.hwasSp = s.hwasBp) :
    PopsFree s ↔ ∀ i < s.hwasSsize, s.inubmGet (s.frame i) = pgUse := by
  have hcall : ∀ fuel, s.hwpalloc fuel 1 = some (0, s) := fun fuel => if_pos hempty
  constructor
  · intro h i hi
    by_contra hne
    obtain ⟨fuel, j, s', hj, hjfree, hk, -, hmark⟩ :=
      h.found ⟨i, hi, (inubmGet_eq_or s _).resolve_left hne⟩
    obtain ⟨-, rfl⟩ := Prod.mk.inj (Option.some.inj ((hcall fuel).symm.trans hk))
    -- the frame would be free and in use
    have hused := hmark j hj
    rw [if_pos rfl, hjfree] at hused
    exact absurd hused (by decide)
  · intro h
    refine ⟨fun ⟨i, hi, hfree⟩ => ?_, fun _ => ⟨0, hcall 0⟩, fun hne => absurd hempty hne⟩
    exact absurd (hfree.symm.trans (h i hi)) (by decide)

/-- With the pointer above the first slot the loop must meet a free frame at the pointer or
below. -/
theorem Pool.popsFree_iff_of_ne (hp : Pool s) (hbp : 4 ≤ s.hwasBp) (hsp : StackPointer s)
    (hne : s.hwasSp ≠ s.hwasBp) :
    PopsFree s ↔
      ∃ i < s.hwasSsize, s.hwasBp + 4 * i ≤ s.hwasSp ∧ s.inubmGet (s.frame i) = pgFree := by
  obtain ⟨top, htop, hsp⟩ := hsp
  constructor
  · intro h
    by_contra hnone
    have hused : ∀ i < top, s.used i = true := by
      intro i hi
      by_contra hfree
      rw [Bool.not_eq_true] at hfree
      exact hnone ⟨i, by omega, by omega, (hp.inubmGet_frame_eq_pgFree (by omega)).mpr hfree⟩
    obtain ⟨i, -, hi⟩ := h.reads hne _ _ (hp.exists_popReads hbp htop hsp hused)
    omega
  · rintro ⟨i, hi, hile, hifree⟩
    have hsp' : s.hwasSp = s.hwasBp + 4 * (top - 1) := by omega
    have hbelow : ∃ i ≤ top - 1, s.used i = false :=
      ⟨i, by omega, (hp.inubmGet_frame_eq_pgFree hi).mp hifree⟩
    refine ⟨fun _ => ?_, fun hall => ?_, fun _ fuel a ha => ?_⟩
    · obtain ⟨⟨p, s'⟩, hk⟩ : ∃ r, s.hwpalloc s.hwasSsize 1 = some r :=
        hp.exists_hwpalloc hbp ⟨top, htop, hsp⟩
          (Or.inr ((if_pos rfl).mpr ⟨i, hi, hile, (hp.slots i hi).symm ▸ hifree⟩))
      obtain ⟨j, hj, rfl, hjfree, -, hsame, -, hused⟩ :=
        hp.hwpalloc_one hbp (by omega) hsp' hne hbelow hk
      have hp' := hp.of_samePool hsame
      refine ⟨_, j, s', by omega, (hp.inubmGet_frame_eq_pgFree (by omega)).mpr hjfree, hk, hsame,
        fun l hl => ?_⟩
      have hframe : s.frame l = s'.frame l := by rw [frame, frame, hsame.mmstart]
      have hget := hp'.inubmGet_frame (show l < s'.hwasSsize by rw [hsame.ssize]; exact hl)
      rw [hp.inubmGet_frame hl, hframe, hget, hused]
      split <;> rfl
    · exact absurd ((hall i hi).symm.trans hifree) (by decide)
    · rw [hsp'] at ha
      exact hp.popReads_mem hbp (by omega) hbelow ha

/-- On a pool `hwpalloc(1)` does what is asked of it exactly when its test for an empty stack is
right and its loop finds something. -/
theorem Pool.popsFree_iff (hp : Pool s) (hbp : 4 ≤ s.hwasBp) (hsp : StackPointer s) :
    PopsFree s ↔ PopFinds s := by
  unfold PopFinds
  by_cases hempty : s.hwasSp = s.hwasBp
  · rw [if_pos hempty]
    exact popsFree_iff_of_empty hempty
  · rw [if_neg hempty]
    exact hp.popsFree_iff_of_ne hbp hsp hempty

/-- After every run from a freshly initialised pool whose allocations find what they look for,
`hwpalloc(1)` does what is asked of it exactly when its test for an empty stack is right and its
loop finds something.  Pools of 65 frames are not initialised properly. -/
theorem hwpalloc_one_iff {mmapAddr mmapLen fuel : ℕ} {m : Mem} {s₀ : PhyMM} {h : FrameHistory}
    (hend : 4096 ∣ kernelEnd) (hlow : 0xc0100000 ≤ kernelEnd) (hhigh : kernelEnd < 4294967296)
    (hinit : initPhymm kernelEnd mmapAddr mmapLen fuel m = some (.ok, s₀))
    (hspace : s₀.hwaMmstart + 4096 * s₀.hwasSsize ≤ 4294967296) (hsize : 2 ≤ s₀.hwasSsize)
    (h65 : s₀.hwasSsize ≠ 65) (hrun : Relation.ReflTransGen (FrameStep Supplied) ⟨s₀, []⟩ h) :
    PopsFree h.phy ↔ PopFinds h.phy := by
  have hl := initPhymm_layout hinit
  have hbp : 4 ≤ s₀.hwasBp := by rw [hl.bp]; omega
  have hslots := initPhymm_slots hend hhigh hinit h65 hspace
  have hinv : FrameInv s₀ ⟨s₀, []⟩ :=
    ⟨hl.pool hend (by omega) hhigh hslots (by omega), .refl s₀,
      ⟨_, le_rfl, hl.sp_add hend (by omega) hhigh⟩, fun a ha => absurd ha List.not_mem_nil, .nil⟩
  have hinv := hinv.run hbp hrun
  exact hinv.pool.popsFree_iff (by rw [hinv.same.bp]; exact hbp) hinv.sp

/-- The first call finds the last frame. -/
theorem hwpalloc_one_iff_smallPool : PopsFree smallPool :=
  (hwpalloc_one_iff (h := ⟨smallPool, []⟩) (by decide) (by decide) (by decide) initPhymm_oneRegion
    (by decide +kernel) (by decide +kernel) (by decide +kernel) .refl).mpr
    ((if_neg (by decide +kernel)).mpr ⟨7, by decide +kernel, by decide +kernel, by decide +kernel⟩)

/-- Seven single frames, and the eighth is not found although it is free. -/
theorem smallPool_not_popsFree :
    initPhymm 0xc0105000 0x10000 24 1 oneRegion = some (.ok, smallPool) ∧
      ∃ h, Relation.ReflTransGen (FrameStep Supplied) ⟨smallPool, []⟩ h ∧
        h.phy.inubmGet 0x106000 = pgFree ∧ (h.phy.hwpalloc 8 1).map Prod.fst = some 0 ∧
        ¬PopsFree h.phy := by
  have hcall : (hwpallocAll 1 (List.replicate 7 1) ⟨smallPool, []⟩).map
      (fun h => (h.phy.inubmGet 0x106000, (h.phy.hwpalloc 8 1).map Prod.fst,
        h.phy.hwasSp - h.phy.hwasBp)) = some (pgFree, some 0, 0) := by
    decide +kernel
  obtain ⟨h, hk, hres⟩ := Option.map_eq_some_iff.mp hcall
  obtain ⟨hfree, hres⟩ := Prod.mk.inj hres
  obtain ⟨hnull, hsp⟩ := Prod.mk.inj hres
  have hl := initPhymm_layout initPhymm_oneRegion
  have hbp : 4 ≤ smallPool.hwasBp := by decide +kernel
  obtain ⟨hrun, hinv⟩ := (hl.singleInv (by decide) (by decide) (by decide) smallPool_fresh.2.1
    smallPool_fresh.2.2 (by decide +kernel)).run hbp (run_singles hk)
  refine ⟨initPhymm_oneRegion, h, hrun, hfree, hnull, fun hpops => ?_⟩
  have hfinds := (hinv.pool.popsFree_iff (by rw [hinv.same.bp]; exact hbp) hinv.sp).mp hpops
  obtain ⟨top, htop, -, hsp', -⟩ := hinv.below
  rw [PopFinds, if_pos (by have := hinv.same.bp; omega)] at hfinds
  have hmm : h.phy.hwaMmstart = 0x106000 := hinv.same.mmstart.trans (by decide +kernel)
  have hsize : h.phy.hwasSsize = 8 := hinv.same.ssize.trans (by decide +kernel)
  have hused := hfinds 0 (by omega)
  rw [frame, hmm] at hused
  exact absurd (hused.symm.trans hfree) (by decide)

end PhyMM

end PakOS
