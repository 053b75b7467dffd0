import Mathlib.Data.List.Pairwise
import Mathlib.Data.List.Perm.Basic
import Mathlib.Logic.Relation
import PakOS.PhyMM.Fresh

/-!
# Frames are handed out once

`FrameStep` is a call of `hwpalloc` or of `hwpfree` on a live allocation.  As long as every call of
`hwpalloc` finds what it looks for (`Supplied`), the live allocations are disjoint runs of frames of
the pool, and nothing outside the pool's bits is written (`frames_exclusive`).  Neither loop of
`hwpalloc` notices that it found nothing: with too few frames left it hands out frames behind the
pool.
-/

namespace PakOS

open Machine

namespace PhyMM

/-- The call `hwpalloc(n)` finds frames: the stack is empty by the test that `hwpalloc` makes, or a
slot up to the stack pointer holds a free frame, or `n` slots in a row hold free frames. -/
def Supplied (s : PhyMM) (n : ℕ) : Prop :=
  s.hwasSp = s.hwasBp ∨
    if n = 1 then ∃ i < s.hwasSsize, s.hwasBp + 4 * i ≤ s.hwasSp ∧ s.inubmGet (s.slot i) = pgFree
    else ∃ a, a + n ≤ s.hwasSsize ∧ ∀ i < n, s.inubmGet (s.slot (a + i)) = pgFree

/-- The stack pointer is at a slot, or one below the first. -/
def StackPointer (s : PhyMM) : Prop := ∃ top ≤ s.hwasSsize, s.hwasSp + 4 = s.hwasBp + 4 * top

variable {s s' : PhyMM}

/-- Reading the bitmap through a slot. -/
theorem Pool.inubmGet_slot (hp : Pool s) {i : ℕ} (hi : i < s.hwasSsize) :
    s.inubmGet (s.slot i) = pgFree ↔ s.used i = false := by
  rw [hp.slots i hi, hp.inubmGet_frame hi]
  cases s.used i <;> decide

/-- `hwpalloc(1)` with a free frame at or below the stack pointer takes the highest one. -/
theorem Pool.hwpalloc_one (hp : Pool s) {fuel top p : ℕ} (hbp : 4 ≤ s.hwasBp)
    (htop : top < s.hwasSsize) (hsp : s.hwasSp = s.hwasBp + 4 * top) (hne : s.hwasSp ≠ s.hwasBp)
    (hfree : ∃ i ≤ top, s.used i = false) (hk : s.hwpalloc fuel 1 = some (p, s')) :
    ∃ i ≤ top, p = s.frame i ∧ s.used i = false ∧ (∀ j, i < j → j ≤ top → s.used j = true) ∧
      SamePool s s' ∧ s'.hwasSp + 4 = s.hwasBp + 4 * i ∧
      ∀ j, s'.used j = if j = i then true else s.used j := by
  rw [hwpalloc, if_neg hne, if_pos rfl, hsp, Option.map_eq_some_iff] at hk
  obtain ⟨⟨addr, sp⟩, hpop, hk⟩ := hk
  simp only [Prod.mk.injEq] at hk
  obtain ⟨rfl, rfl⟩ := hk
  obtain ⟨i, hi, hifree, habove, rfl, hsp'⟩ := hp.popUnused_spec hbp htop hfree hpop
  -- moving the stack pointer changes nothing about the pool
  have hmove : SamePool s { s with hwasSp := sp } := ⟨rfl, rfl, rfl, rfl, rfl, fun _ _ _ _ => rfl⟩
  obtain ⟨hsame, hused⟩ := (hp.of_samePool hmove).inubmSet_frame (show i < s.hwasSsize by omega) pgUse
  exact ⟨i, hi, rfl, hifree, habove, hmove.trans hsame, hsp', hused⟩

/-- `hwpalloc(n)` for another `n` takes the first run of free frames. -/
theorem Pool.hwpalloc_run (hp : Pool s) {fuel n p : ℕ} (hne : s.hwasSp ≠ s.hwasBp) (hone : n ≠ 1)
    (hn : 1 ≤ n) (hrun : ∃ a, FreeRun s n a) (hk : s.hwpalloc fuel n = some (p, s')) :
    ∃ a, p = s.frame a ∧ a + n ≤ s.hwasSsize ∧ (∀ j, a ≤ j → j < a + n → s.used j = false) ∧
      SamePool s s' ∧ s'.hwasSp = s.hwasSp ∧
      ∀ j, s'.used j = if a ≤ j ∧ j < a + n then true else s.used j := by
  rw [hwpalloc, if_neg hne, if_neg hone] at hk
  obtain ⟨a, hfind, ⟨han, hfree⟩, -⟩ := findRun_spec (Nat.zero_add _) (Nat.zero_le n) le_rfl
    (fun j _ hj => absurd hj (Nat.not_lt_zero j)) (fun a _ => Nat.zero_le a) hrun
  have hle := hp.size_le
  have hsub : sub32 (a + n) n = a := by
    rw [sub32_of_le (by omega) (Nat.le_add_left n a), Nat.add_sub_cancel]
  simp only [hfind, hsub, hp.slots a (by omega), Option.some.injEq, Prod.mk.injEq] at hk
  obtain ⟨rfl, rfl⟩ := hk
  obtain ⟨hsame, hsp, hused⟩ := hp.setFrames_spec han pgUse
  refine ⟨a, rfl, han, fun j h₁ h₂ => ?_, hsame, hsp, hused⟩
  have hjfree := (hp.inubmGet_slot (show a + (j - a) < s.hwasSsize by omega)).mp
    (hfree (j - a) (by omega))
  rwa [Nat.add_sub_cancel' h₁] at hjfree

/-- A call of `hwpalloc` that is supplied returns `NULL` without an effect, or `n` frames of the
pool in a row that were free, and marks them. -/
theorem Pool.hwpalloc_spec (hp : Pool s) {fuel n p : ℕ} (hbp : 4 ≤ s.hwasBp) (hsp : StackPointer s)
    (hn : 1 ≤ n) (hsupp : Supplied s n) (hk : s.hwpalloc fuel n = some (p, s')) :
    (p = 0 ∧ s' = s) ∨ ∃ a, p = s.frame a ∧ a + n ≤ s.hwasSsize ∧
      (∀ j, a ≤ j → j < a + n → s.used j = false) ∧ SamePool s s' ∧ StackPointer s' ∧
      ∀ j, s'.used j = if a ≤ j ∧ j < a + n then true else s.used j := by
  obtain ⟨top, htop, hsp⟩ := hsp
  by_cases hempty : s.hwasSp = s.hwasBp
  · rw [hwpalloc, if_pos hempty] at hk
    simp only [Option.some.injEq, Prod.mk.injEq] at hk
    exact Or.inl ⟨hk.1.symm, hk.2.symm⟩
  have hsupp := hsupp.resolve_left hempty
  refine Or.inr ?_
  by_cases hone : n = 1
  · subst hone
    rw [if_pos rfl] at hsupp
    obtain ⟨i, hi, hile, hifree⟩ := hsupp
    obtain ⟨j, hj, hp', hjfree, -, hsame, hsp', hused⟩ := hp.hwpalloc_one hbp
      (show top - 1 < s.hwasSsize by omega) (by omega) hempty
      ⟨i, by omega, (hp.inubmGet_slot hi).mp hifree⟩ hk
    refine ⟨j, hp', by omega, fun j' h₁ h₂ => ?_, hsame, ⟨j, ?_, ?_⟩, fun j' => ?_⟩
    · obtain rfl : j' = j := by omega
      exact hjfree
    · rw [hsame.ssize]
      omega
    · rw [hsp', hsame.bp]
    · refine (hused j').trans ?_
      congr 1
      simp only [eq_iff_iff]
      omega
  · rw [if_neg hone] at hsupp
    obtain ⟨a, hp', han, hfree, hsame, hsp', hused⟩ := hp.hwpalloc_run hempty hone hn hsupp hk
    refine ⟨a, hp', han, hfree, hsame, ⟨top, ?_, ?_⟩, hused⟩
    · rw [hsame.ssize]
      exact htop
    · rw [hsp', hsame.bp]
      exact hsp

/-- A call of `hwpalloc` that is supplied returns. -/
theorem Pool.exists_hwpalloc (hp : Pool s) {n : ℕ} (hbp : 4 ≤ s.hwasBp) (hsp : StackPointer s)
    (hsupp : Supplied s n) : ∃ r, s.hwpalloc s.hwasSsize n = some r := by
  obtain ⟨top, htop, hsp⟩ := hsp
  unfold hwpalloc
  by_cases hempty : s.hwasSp = s.hwasBp
  · exact ⟨_, if_pos hempty⟩
  rw [if_neg hempty]
  have hsupp := hsupp.resolve_left hempty
  by_cases hone : n = 1
  · rw [if_pos hone] at hsupp ⊢
    obtain ⟨i, hi, hile, hifree⟩ := hsupp
    have hspeq : s.hwasSp = s.hwasBp + 4 * (top - 1) := by omega
    rw [hspeq]
    obtain ⟨r, hr⟩ : ∃ r, s.popUnused s.hwasSsize (s.hwasBp + 4 * (top - 1)) = some r :=
      hp.exists_popUnused hbp (by omega) (by omega)
        ⟨i, by omega, (hp.inubmGet_slot hi).mp hifree⟩
    exact ⟨_, congrArg _ hr⟩
  · exact ⟨_, if_neg hone⟩

/-- `hwpfree(p, 1)` refuses every frame: the stack pointer is never above the last slot. -/
theorem Pool.hwpfree_one (hp : Pool s) (hsp : StackPointer s) (p : ℕ) :
    ∃ st, st ≠ .ok ∧ s.hwpfree p 1 = (st, s) := by
  obtain ⟨top, htop, hsp⟩ := hsp
  have hle := hp.size_le
  have hstack := hp.stack_le
  have hlt := hp.bitmap_lt
  have hguard : s.hwasSp < add32 s.hwasBp (mul32 4 s.hwasSsize) := by
    rw [mul32_of_lt (by omega), add32_of_lt (by omega)]
    omega
  rw [hwpfree, if_pos rfl, if_pos hguard]
  split
  · exact ⟨_, by decide, rfl⟩
  split
  · exact ⟨_, by decide, rfl⟩
  · exact ⟨_, by decide, rfl⟩

/-- A call of `hwpfree` on `n` frames of the pool that are in use either changes nothing or marks
them free. -/
theorem Pool.hwpfree_spec (hp : Pool s) {a n : ℕ} {st : Status}
    (han : a + n ≤ s.hwasSsize) (hsp : StackPointer s)
    (hk : s.hwpfree (s.frame a) n = (st, s')) :
    (st ≠ .ok ∧ s' = s) ∨ (st = .ok ∧ SamePool s s' ∧ StackPointer s' ∧
      ∀ j, s'.used j = if a ≤ j ∧ j < a + n then false else s.used j) := by
  by_cases hone : n = 1
  · subst hone
    obtain ⟨st', hst', hcall⟩ := hp.hwpfree_one hsp (s.frame a)
    obtain ⟨rfl, rfl⟩ := Prod.mk.inj (hcall.symm.trans hk)
    exact Or.inl ⟨hst', rfl⟩
  obtain ⟨top, htop, hsp⟩ := hsp
  rw [hwpfree, if_neg hone] at hk
  split at hk
  · simp only [Prod.mk.injEq] at hk
    exact Or.inl ⟨hk.1 ▸ by decide, hk.2.symm⟩
  split at hk
  · simp only [Prod.mk.injEq] at hk
    exact Or.inl ⟨hk.1 ▸ by decide, hk.2.symm⟩
  simp only [Prod.mk.injEq] at hk
  obtain ⟨rfl, rfl⟩ := hk
  obtain ⟨hsame, hsp', hused⟩ := hp.setFrames_spec han pgFree
  refine Or.inr ⟨rfl, hsame, ⟨top, ?_, ?_⟩, hused⟩
  · rw [hsame.ssize]
    exact htop
  · rw [hsp', hsame.bp]
    exact hsp

/-! ### Histories -/

/-- A state of the allocator and the allocations that are live, with their sizes. -/
structure FrameHistory where
  /-- The allocator. -/
  phy : PhyMM
  /-- The live allocations: address and number of frames. -/
  live : List (ℕ × ℕ)

/-- One call, by a client that frees what it holds; `guard` restricts the calls of `hwpalloc`. -/
inductive FrameStep (guard : PhyMM → ℕ → Prop) (h : FrameHistory) : FrameHistory → Prop
  /-- `hwpalloc(n)`, `n` a 16-bit number; `NULL` hands out nothing. -/
  | alloc {fuel n p : ℕ} {phy : PhyMM} (hn : 1 ≤ n) (hn16 : n < 65536) (hg : guard h.phy n)
      (hk : h.phy.hwpalloc fuel n = some (p, phy)) :
      FrameStep guard h ⟨phy, if p = 0 then h.live else (p, n) :: h.live⟩
  /-- `hwpfree(p, n)` of a live allocation, which stays live when it is refused. -/
  | free {n p : ℕ} {st : Status} {phy : PhyMM} (hlive : (p, n) ∈ h.live)
      (hk : h.phy.hwpfree p n = (st, phy)) :
      FrameStep guard h ⟨phy, if st = .ok then h.live.erase (p, n) else h.live⟩

/-- The runs of frames do not overlap. -/
def DisjointRuns (a b : ℕ × ℕ) : Prop := a.1 + 4096 * a.2 ≤ b.1 ∨ b.1 + 4096 * b.2 ≤ a.1

/-- What the property asks of a history that began in the state `s₀`. -/
structure Exclusive (s₀ : PhyMM) (h : FrameHistory) : Prop where
  /-- Every live allocation is a run of frames of the pool. -/
  inside : ∀ a ∈ h.live, ∃ i, a.1 = s₀.frame i ∧ i + a.2 ≤ s₀.hwasSsize
  /-- The live allocations do not overlap. -/
  disjoint : h.live.Pairwise DisjointRuns
  /-- Nothing but the bits of the pool and the stack pointer has changed. -/
  same : SamePool s₀ h.phy
  /-- The stack pointer has not left the stack. -/
  sp : StackPointer h.phy

/-- The invariant of a run from the state `s₀`. -/
structure FrameInv (s₀ : PhyMM) (h : FrameHistory) : Prop where
  /-- The pool is intact. -/
  pool : Pool h.phy
  /-- Nothing but the bits of the pool and the stack pointer has changed. -/
  same : SamePool s₀ h.phy
  /-- The stack pointer has not left the stack. -/
  sp : StackPointer h.phy
  /-- Live allocations are runs of frames of the pool that are marked in use. -/
  live : ∀ a ∈ h.live, ∃ i, a.1 = s₀.frame i ∧ 1 ≤ a.2 ∧ i + a.2 ≤ s₀.hwasSsize ∧
    ∀ j, i ≤ j → j < i + a.2 → h.phy.used j = true
  /-- The live allocations do not overlap. -/
  disjoint : h.live.Pairwise DisjointRuns

theorem FrameInv.exclusive {s₀ : PhyMM} {h : FrameHistory} (hi : FrameInv s₀ h) :
    Exclusive s₀ h :=
  ⟨fun a ha => (hi.live a ha).imp fun _ h => ⟨h.1, h.2.2.1⟩, hi.disjoint, hi.same, hi.sp⟩

instance : Std.Symm DisjointRuns := ⟨fun _ _ => Or.symm⟩

/-- Different live allocations do not overlap. -/
theorem FrameInv.disjointRuns {s₀ : PhyMM} {h : FrameHistory} (hi : FrameInv s₀ h) {a b : ℕ × ℕ}
    (ha : a ∈ h.live) (hb : b ∈ h.live) (hab : a ≠ b) : DisjointRuns a b :=
  hi.disjoint.forall ha hb hab

/-- No live allocation is listed twice. -/
theorem FrameInv.nodup {s₀ : PhyMM} {h : FrameHistory} (hi : FrameInv s₀ h) : h.live.Nodup := by
  refine List.Pairwise.imp_of_mem (fun {a b} ha _ hab heq => ?_) hi.disjoint
  obtain ⟨i, -, hn, -⟩ := hi.live a ha
  subst heq
  unfold DisjointRuns at hab
  omega

/-- Frames that were free are handed out. -/
theorem FrameInv.handOut {s₀ : PhyMM} {h : FrameHistory} (hi : FrameInv s₀ h) {a n : ℕ} {phy : PhyMM}
    (hn : 1 ≤ n) (han : a + n ≤ s₀.hwasSsize)
    (hfree : ∀ j, a ≤ j → j < a + n → h.phy.used j = false) (hsame : SamePool h.phy phy)
    (hsp : StackPointer phy)
    (hused : ∀ j, phy.used j = if a ≤ j ∧ j < a + n then true else h.phy.used j) :
    FrameInv s₀ ⟨phy, (s₀.frame a, n) :: h.live⟩ := by
  refine ⟨hi.pool.of_samePool hsame, hi.same.trans hsame, hsp, fun b hb => ?_,
    List.pairwise_cons.mpr ⟨fun b hb => ?_, hi.disjoint⟩⟩
  · rcases List.mem_cons.mp hb with rfl | hb
    · refine ⟨a, rfl, hn, han, fun j h₁ h₂ => ?_⟩
      rw [hused, if_pos ⟨h₁, h₂⟩]
    · obtain ⟨i, hbi, hb2, hile, hbused⟩ := hi.live b hb
      refine ⟨i, hbi, hb2, hile, fun j h₁ h₂ => ?_⟩
      rw [hused]
      split
      · rfl
      · exact hbused j h₁ h₂
  · obtain ⟨i, hbi, hb2, -, hbused⟩ := hi.live b hb
    -- a frame in both runs would be free and in use
    by_contra hover
    have hboth := hfree (max a i)
    have hbused := hbused (max a i)
    unfold DisjointRuns frame at *
    rw [hbused (by omega) (by omega)] at hboth
    exact Bool.noConfusion (hboth (by omega) (by omega))

/-- Keeping fewer allocations keeps the invariant. -/
theorem FrameInv.sublist {s₀ : PhyMM} {h : FrameHistory} (hi : FrameInv s₀ h) {live : List (ℕ × ℕ)}
    (hsub : live.Sublist h.live) : FrameInv s₀ ⟨h.phy, live⟩ :=
  ⟨hi.pool, hi.same, hi.sp, fun a ha => hi.live a (hsub.subset ha), hi.disjoint.sublist hsub⟩

/-- The frames of a live allocation are given back. -/
theorem FrameInv.giveBack {s₀ : PhyMM} {h : FrameHistory} (hi : FrameInv s₀ h) {a n : ℕ} {phy : PhyMM}
    (hmem : (s₀.frame a, n) ∈ h.live) (hsame : SamePool h.phy phy) (hsp : StackPointer phy)
    (hused : ∀ j, phy.used j = if a ≤ j ∧ j < a + n then false else h.phy.used j) :
    FrameInv s₀ ⟨phy, h.live.erase (s₀.frame a, n)⟩ := by
  refine ⟨hi.pool.of_samePool hsame, hi.same.trans hsame, hsp, fun b hb => ?_,
    hi.disjoint.sublist List.erase_sublist⟩
  obtain ⟨hne, hb⟩ := hi.nodup.mem_erase_iff.mp hb
  obtain ⟨i, hbi, hb2, hile, hbused⟩ := hi.live b hb
  have hdisj := hi.disjointRuns hb hmem hne
  refine ⟨i, hbi, hb2, hile, fun j h₁ h₂ => ?_⟩
  unfold DisjointRuns frame at *
  simp only at hdisj
  rw [hused, if_neg (by omega)]
  exact hbused j h₁ h₂

/-- A step whose allocation is supplied keeps the invariant. -/
theorem FrameStep.inv {s₀ : PhyMM} {h h' : FrameHistory} (hbp : 4 ≤ s₀.hwasBp) (hi : FrameInv s₀ h)
    (hs : FrameStep Supplied h h') : FrameInv s₀ h' := by
  have hframe : ∀ i, h.phy.frame i = s₀.frame i := by
    intro i
    rw [frame, frame, hi.same.mmstart]
  cases hs with
  | @alloc fuel n p phy hn _ hg hk =>
    rcases hi.pool.hwpalloc_spec (hi.same.bp ▸ hbp) hi.sp hn hg hk with
      ⟨rfl, rfl⟩ | ⟨a, rfl, han, hfree, hsame, hsp, hused⟩
    · rw [if_pos rfl]
      exact hi
    · rw [hi.same.ssize] at han
      rw [hframe]
      have hout := hi.handOut hn han hfree hsame hsp hused
      split
      · exact hout.sublist (List.sublist_cons_self _ _)
      · exact hout
  | @free n p st phy hmem hk =>
    obtain ⟨a, rfl, -, han, -⟩ := hi.live (p, n) hmem
    rw [← hframe] at hk
    rw [← hi.same.ssize] at han
    rcases hi.pool.hwpfree_spec han hi.sp hk with ⟨hst, rfl⟩ | ⟨rfl, hsame, hsp, hused⟩
    · rw [if_neg hst]
      exact hi
    · rw [if_pos rfl]
      exact hi.giveBack hmem hsame hsp hused

/-- A run whose allocations are supplied keeps the invariant. -/
theorem FrameInv.run {s₀ : PhyMM} {h h' : FrameHistory} (hbp : 4 ≤ s₀.hwasBp) (hi : FrameInv s₀ h)
    (hrun : Relation.ReflTransGen (FrameStep Supplied) h h') : FrameInv s₀ h' := by
  induction hrun with
  | refl => exact hi
  | tail _ hstep ih => exact hstep.inv hbp ih

/-! ### The pool of `init_phymm` -/

/-- With a single frame the stack looks empty from the start: nothing is ever handed out. -/
theorem eq_of_run_of_sp_eq {guard : PhyMM → ℕ → Prop} {h : FrameHistory} (hsp : s.hwasSp = s.hwasBp)
    (hrun : Relation.ReflTransGen (FrameStep guard) ⟨s, []⟩ h) : h = ⟨s, []⟩ := by
  induction hrun with
  | refl => rfl
  | tail _ hstep ih =>
    subst ih
    cases hstep with
    | alloc _ _ _ hk =>
      rw [hwpalloc, if_pos hsp] at hk
      simp only [Option.some.injEq, Prod.mk.injEq] at hk
      obtain ⟨rfl, rfl⟩ := hk
      rw [if_pos rfl]
    | free hlive _ => exact absurd hlive List.not_mem_nil

variable {kernelEnd : ℕ}

/-- Once `init_phymm` has set up a pool whose stack is filled correctly, every history in which the
calls of `hwpalloc` find what they look for hands out every frame at most once, hands out frames of
the pool only, and touches nothing but the bits of the pool; and every such call returns.  The
hypotheses on `__kernel_end` are what the linker script promises. -/
theorem frames_exclusive {mmapAddr mmapLen fuel : ℕ} {m : Mem} {s₀ : PhyMM} {h : FrameHistory}
    (hend : 4096 ∣ kernelEnd) (hlow : 0xc0100000 ≤ kernelEnd) (hhigh : kernelEnd < 4294967296)
    (hinit : initPhymm kernelEnd mmapAddr mmapLen fuel m = some (.ok, s₀))
    (hslots : ∀ i < s₀.hwasSsize, s₀.slot i = s₀.frame i)
    (hrun : Relation.ReflTransGen (FrameStep Supplied) ⟨s₀, []⟩ h) :
    Exclusive s₀ h ∧ ∀ n, Supplied h.phy n → ∃ r, h.phy.hwpalloc s₀.hwasSsize n = some r := by
  have hl := initPhymm_layout hinit
  have hsp := hl.sp_add hend (by omega) hhigh
  have htop : StackPointer s₀ := ⟨s₀.hwasSsize, le_rfl, hsp⟩
  by_cases h1 : s₀.hwasSsize = 1
  · have hempty : s₀.hwasSp = s₀.hwasBp := by omega
    obtain rfl := eq_of_run_of_sp_eq hempty hrun
    exact ⟨⟨fun a ha => absurd ha List.not_mem_nil, .nil, .refl s₀, htop⟩,
      fun _ _ => ⟨_, if_pos hempty⟩⟩
  · have hbp : 4 ≤ s₀.hwasBp := by rw [hl.bp]; omega
    have hpool := hl.pool hend (by omega) hhigh hslots h1
    have hinv : FrameInv s₀ ⟨s₀, []⟩ :=
      ⟨hpool, .refl s₀, htop, fun a ha => absurd ha List.not_mem_nil, .nil⟩
    have hinv := hinv.run hbp hrun
    refine ⟨hinv.exclusive, fun n hn => ?_⟩
    rw [← hinv.same.ssize]
    exact hinv.pool.exists_hwpalloc (by rw [hinv.same.bp]; exact hbp) hinv.sp hn

/-! ### A pool of eight frames -/

/-- A memory map with one usable region, of 14 frames at 1M. -/
def oneRegion : Mem :=
  storeLE 4 (storeLE 8 (storeLE 8 (storeLE 4 (fun _ => 0) 0x10000 20) 0x10004 0x100000) 0x1000c
    0xe000) 0x10014 1

/-- What `init_phymm` makes of it behind a kernel of five frames. -/
def smallPool : PhyMM :=
  usePool 0xc0105000 0x100000 0xe000
    { mem := oneRegion, hwaMmstart := 0, hwaInuBitmap := 0, hwasBp := 0xc0105000, hwasSp := 0,
      hwasSsize := 0, phymmEnd := 0 }

theorem initPhymm_oneRegion :
    initPhymm 0xc0105000 0x10000 24 1 oneRegion = some (.ok, smallPool) := by
  have hbase : loadLE 8 oneRegion (0x10000 + 4) = 0x100000 := by decide +kernel
  have hlength : loadLE 8 oneRegion (0x10000 + 12) = 0xe000 := by decide +kernel
  have htype : loadLE 4 oneRegion (0x10000 + 20) = 1 := by decide +kernel
  rw [initPhymm, initLoop]
  simp only [hbase, hlength, htype]
  exact if_pos ⟨le_rfl, trivial⟩

/-- A client that calls `hwpalloc` for each size in turn. -/
def hwpallocAll (fuel : ℕ) : List ℕ → FrameHistory → Option FrameHistory
  | [], h => some h
  | n :: ns, h =>
    (h.phy.hwpalloc fuel n).bind fun r =>
      hwpallocAll fuel ns ⟨r.2, if r.1 = 0 then h.live else (r.1, n) :: h.live⟩

/-- Every such client makes steps, when its calls are what the guard asks for. -/
theorem run_hwpallocAll {guard : PhyMM → ℕ → Prop} {fuel : ℕ} {ns : List ℕ} {h h' : FrameHistory}
    (hns : ∀ n ∈ ns, 1 ≤ n ∧ n < 65536 ∧ ∀ s, guard s n) (hk : hwpallocAll fuel ns h = some h') :
    Relation.ReflTransGen (FrameStep guard) h h' := by
  induction ns generalizing h with
  | nil => exact Option.some.inj hk ▸ .refl
  | cons n ns ih =>
    obtain ⟨⟨p, phy⟩, hcall, hk⟩ := Option.bind_eq_some_iff.mp hk
    obtain ⟨hn, hn16, hguard⟩ := hns n List.mem_cons_self
    exact .head (.alloc hn hn16 (hguard _) hcall)
      (ih (fun n hn => hns n (List.mem_cons_of_mem _ hn)) hk)

/-- Five frames of the eight are handed out, exclusively. -/
theorem frames_exclusive_smallPool :
    ∃ h, Relation.ReflTransGen (FrameStep Supplied) ⟨smallPool, []⟩ h ∧
      h.live = [(0x106000, 5)] ∧ Exclusive smallPool h := by
  have hcall : (hwpallocAll 8 [5] ⟨smallPool, []⟩).map (·.live) = some [(0x106000, 5)] := by
    decide +kernel
  obtain ⟨h, hk, hlive⟩ := Option.map_eq_some_iff.mp hcall
  obtain ⟨⟨p, phy⟩, hcall, hk⟩ := Option.bind_eq_some_iff.mp hk
  have hsupp : Supplied smallPool 5 := by
    refine Or.inr ?_
    rw [if_neg (by decide)]
    exact ⟨0, by decide +kernel, by decide +kernel⟩
  have hrun : Relation.ReflTransGen (FrameStep Supplied) ⟨smallPool, []⟩ h :=
    Option.some.inj hk ▸ .single (.alloc (by decide) (by decide) hsupp hcall)
  exact ⟨h, hrun, hlive, (frames_exclusive (by decide) (by decide) (by decide) initPhymm_oneRegion
    (by decide +kernel) hrun).1⟩

/-- Five frames, then four: the second call is handed three frames of the pool and the one behind
it. -/
theorem smallPool_not_exclusive :
    initPhymm 0xc0105000 0x10000 24 1 oneRegion = some (.ok, smallPool) ∧
      (∀ i < smallPool.hwasSsize, smallPool.slot i = smallPool.frame i) ∧
      (∀ i < smallPool.hwasSsize, smallPool.used i = false) ∧
      ∃ h, Relation.ReflTransGen (FrameStep fun _ _ => True) ⟨smallPool, []⟩ h ∧
        h.live = [(0x10b000, 4), (0x106000, 5)] ∧ ¬Exclusive smallPool h := by
  have hcall : (hwpallocAll 8 [5, 4] ⟨smallPool, []⟩).map (·.live) =
      some [(0x10b000, 4), (0x106000, 5)] := by
    decide +kernel
  obtain ⟨h, hk, hlive⟩ := Option.map_eq_some_iff.mp hcall
  refine ⟨initPhymm_oneRegion, by decide +kernel, by decide +kernel, h,
    run_hwpallocAll (by simp) hk, hlive, fun hex => ?_⟩
  obtain ⟨i, hi, hle⟩ := hex.inside (0x10b000, 4) (by rw [hlive]; exact List.mem_cons_self)
  have hstart : smallPool.hwaMmstart = 0x106000 := by decide +kernel
  have hsize : smallPool.hwasSsize = 8 := by decide +kernel
  rw [frame, hstart] at hi
  omega

end PhyMM

end PakOS
