import PakOS.PhyMM.Exclusive

/-!
# The frame allocator as the paging code sees it

`FramePool` is the interface of the frame allocator: its two calls and the set of frames in use.
`FramePool.Lawful` is what the paging code relies on: a call of `hwpalloc` returns, and hands out
free frames in a row and marks exactly these, or returns `NULL` and changes nothing.  The kernel's
allocator keeps this law in every call that is supplied (`phyMM_lawfulCall`); `bitmapPool` keeps it
always, since it looks before it hands out.
-/

namespace PakOS

open Machine

/-- A frame allocator: `hwpalloc` and `hwpfree`, and the frames in use, by number.  The call that
does not return is `none`. -/
structure FramePool (P : Type*) where
  /-- `hwpalloc(n)` -/
  hwpalloc : ℕ → P → Option (ℕ × P)
  /-- `hwpfree(hwaddr, n)` -/
  hwpfree : ℕ → ℕ → P → Status × P
  /-- The frames marked in use. -/
  inUse : P → ℕ → Bool

namespace FramePool

variable {P : Type*}

/-- The `n` frames from `a` on are free before and marked after, and nothing else changes. -/
structure Takes (F : FramePool P) (n a : ℕ) (p p' : P) : Prop where
  /-- The first frame is not the one that `NULL` would be. -/
  pos : 0 < a
  /-- The frames have 32-bit addresses. -/
  le : a + n ≤ 1048576
  /-- The frames are free. -/
  free : ∀ j, a ≤ j → j < a + n → F.inUse p j = false
  /-- The frames, and no others, are marked. -/
  marked : ∀ j, F.inUse p' j = if a ≤ j ∧ j < a + n then true else F.inUse p j

/-- No frame is given back. -/
theorem Takes.inUse_mono {F : FramePool P} {n a : ℕ} {p p' : P} (h : F.Takes n a p p') {j : ℕ}
    (hj : F.inUse p j = true) : F.inUse p' j = true := by
  rw [h.marked]
  split
  · rfl
  · exact hj

/-- The outcome `(q, p')` of `hwpalloc(n)` in the state `p` is one of the two that are allowed. -/
def LawfulCall (F : FramePool P) (n : ℕ) (p : P) (q : ℕ) (p' : P) : Prop :=
  (q = 0 ∧ p' = p) ∨ ∃ a, q = 4096 * a ∧ F.Takes n a p p'

/-- Every call of `hwpalloc` returns, with an outcome that is allowed. -/
def Lawful (F : FramePool P) : Prop :=
  ∀ n < 65536, ∀ p, ∃ q p', F.hwpalloc n p = some (q, p') ∧ F.LawfulCall n p q p'

/-- What a call of a lawful allocator that does not return `NULL` does. -/
theorem Lawful.takes {F : FramePool P} (hF : F.Lawful) {n q : ℕ} {p p' : P} (hn : n < 65536)
    (hk : F.hwpalloc n p = some (q, p')) (hq : q ≠ 0) : ∃ a, q = 4096 * a ∧ F.Takes n a p p' := by
  obtain ⟨q₁, p₁, hk₁, hcall⟩ := hF n hn p
  obtain ⟨rfl, rfl⟩ : q = q₁ ∧ p' = p₁ := by simpa using hk.symm.trans hk₁
  exact hcall.resolve_left fun h => hq h.1

/-- The allocator can hand out `n` single frames, one after the other. -/
def Singles (F : FramePool P) : ℕ → P → Prop
  | 0, _ => True
  | n + 1, p => ∃ q p', F.hwpalloc 1 p = some (q, p') ∧ q ≠ 0 ∧ Singles F n p'

/-! ### The kernel's allocator -/

/-- The allocator of `phy-mm.c`; frames outside its pool count as in use. -/
def phyMM : FramePool PhyMM where
  hwpalloc n s := s.hwpalloc s.hwasSsize n
  hwpfree hwaddr n s := s.hwpfree hwaddr n
  inUse s f := !decide (s.hwaMmstart / 4096 ≤ f ∧ f < s.hwaMmstart / 4096 + s.hwasSsize ∧
    s.used (f - s.hwaMmstart / 4096) = false)

/-- On an intact pool a call of the kernel's `hwpalloc` that is supplied keeps the law. -/
theorem phyMM_lawfulCall {s : PhyMM} (hp : s.Pool) (hbp : 4 ≤ s.hwasBp) (hsp : s.StackPointer)
    (hstart : 0 < s.hwaMmstart) (halign : 4096 ∣ s.hwaMmstart) {n : ℕ} (hn : 1 ≤ n)
    (hsupp : s.Supplied n) :
    ∃ q s', phyMM.hwpalloc n s = some (q, s') ∧ phyMM.LawfulCall n s q s' := by
  obtain ⟨⟨q, s'⟩, hk⟩ := hp.exists_hwpalloc hbp hsp hsupp
  refine ⟨q, s', hk, ?_⟩
  obtain ⟨b, hb⟩ := halign
  have hdiv : s.hwaMmstart / 4096 = b := by omega
  rcases hp.hwpalloc_spec hbp hsp hn hsupp hk with ⟨rfl, rfl⟩ | ⟨a, rfl, han, hfree, hsame, -, hused⟩
  · exact Or.inl ⟨rfl, rfl⟩
  have hlast := hp.frame_lt (show a + n - 1 < s.hwasSsize by omega)
  rw [PhyMM.frame] at hlast
  refine Or.inr ⟨b + a, by rw [PhyMM.frame]; omega, by omega, by omega, fun j h₁ h₂ => ?_,
    fun j => ?_⟩
  · have hj := hfree (j - b) (by omega) (by omega)
    simp only [phyMM, hdiv, hj]
    simp only [Bool.not_eq_false', decide_eq_true_eq, and_true]
    omega
  · simp only [phyMM, hsame.mmstart, hsame.ssize, hused, hdiv]
    by_cases hj : b + a ≤ j ∧ j < b + a + n
    · rw [if_pos hj, if_pos (by omega)]
      simp
    · rw [if_neg hj]
      by_cases hjb : b ≤ j
      · rw [if_neg (by omega)]
      · simp [hjb]

/-! ### An allocator that looks before it hands out -/

/-- The slots that are tried for `n` frames, as in `hwpalloc`: a single frame from above, several
from below. -/
def slotOrder (size n : ℕ) : List ℕ :=
  if n = 1 then (List.range size).reverse else List.range size

/-- The allocator for `size` frames from `start` on that hands out the frames `hwpalloc` would as
long as there are some, and `NULL` from then on. -/
def bitmapPool (start size : ℕ) : FramePool (ℕ → Bool) where
  hwpalloc n p :=
    match (slotOrder size n).find? fun a => a + n ≤ size ∧ ∀ j < n, p (start + a + j) = false with
    | none => some (0, p)
    | some a =>
      some (4096 * (start + a), fun f => if start + a ≤ f ∧ f < start + a + n then true else p f)
  hwpfree hwaddr n p :=
    if hwaddr / 4096 < start ∨ start + size ≤ hwaddr / 4096 then (.invalidMem, p)
    else if p (hwaddr / 4096) = false then (.doubleFree, p)
    else if n = 1 then (.borkdMem, p)
    else (.ok, fun f => if hwaddr / 4096 ≤ f ∧ f < hwaddr / 4096 + n then false else p f)
  inUse p f := p f

theorem bitmapPool_lawful {start size : ℕ} (hstart : 0 < start) (hsize : start + size ≤ 1048576) :
    (bitmapPool start size).Lawful := by
  intro n hn p
  cases hfind : (slotOrder size n).find? fun a =>
      a + n ≤ size ∧ ∀ j < n, p (start + a + j) = false with
  | none => exact ⟨0, p, by simp only [bitmapPool, hfind], Or.inl ⟨rfl, rfl⟩⟩
  | some a =>
    have hfits : a + n ≤ size ∧ ∀ j < n, p (start + a + j) = false := by
      simpa using List.find?_some hfind
    refine ⟨4096 * (start + a), fun f => if start + a ≤ f ∧ f < start + a + n then true else p f,
      by simp only [bitmapPool, hfind], Or.inr ⟨start + a, rfl, by omega, by omega,
        fun j h₁ h₂ => ?_, fun _ => rfl⟩⟩
    have hj := hfits.2 (j - (start + a)) (by omega)
    rwa [Nat.add_sub_cancel' h₁] at hj

end FramePool

end PakOS
