import PakOS.Kmalloc.Run

/-!
# The allocator as a Linux library

With `LINUX_MALLOC` the allocator takes its memory from `sbrk`, and others may move the break
between its calls.  `Sbrk` is the break together with a record of who moved it.  Only the
build-dependent part of `__new_blockspace` differs from the kernel (`linuxSpace`), so that `kmalloc`
and `kfree` are those of `PakOS.Kmalloc.Alloc` and `PakOS.Kmalloc.Free`, with 32-bit addresses as
everywhere in this development; that is the size at which the source casts addresses to `uint32_t`.

`Sbrk.Books` is what the record says about the memory between the first break and the present one.
`LinuxHeap` is the invariant of the heap, in which every block lies in memory that the allocator
itself obtained.  `kmalloc` keeps it (`LinuxHeap.of_kmalloc`); what a call of `kfree` keeps depends
on what lies between the blocks it merges (`Sbrk.owns_releaseBlock`).
-/

namespace PakOS

open Machine Coalesce

/-- The program break, and who moved it. -/
structure Sbrk where
  /-- The break. -/
  brk : ℕ
  /-- The stretches that `__new_blockspace` obtained, by start and length. -/
  obtained : List (ℕ × ℕ)
  /-- Where the break stood when somebody else moved it. -/
  foreign : List ℕ

namespace Sbrk

/-- `__new_blockspace` obtains `n` bytes. -/
def extend (os : Sbrk) (n : ℕ) : Sbrk :=
  { os with brk := add32 os.brk n, obtained := (os.brk, n) :: os.obtained }

/-- Somebody else obtains `n` bytes. -/
def move (os : Sbrk) (n : ℕ) : Sbrk :=
  { os with brk := add32 os.brk n, foreign := os.brk :: os.foreign }

/-- `__new_blockspace` obtained the byte. -/
def Obtained (os : Sbrk) (x : ℕ) : Prop := ∃ r ∈ os.obtained, r.1 ≤ x ∧ x < r.1 + r.2

/-- The block consists of bytes that `__new_blockspace` obtained. -/
def Owns (os : Sbrk) (b : Block) : Prop := ∀ x, b.addr ≤ x → x < b.stop → os.Obtained x

/-- What the record says about the memory from the first break `lo` to the present one: what the
allocator did not obtain there begins where somebody else moved the break. -/
structure Books (os : Sbrk) (lo : ℕ) : Prop where
  /-- The first break lies behind the first page. -/
  page_le : 4096 ≤ lo
  /-- The break has moved upwards. -/
  le : lo ≤ os.brk
  /-- The break is an address. -/
  lt : os.brk < 4294967296
  /-- What was obtained lies below the break. -/
  obtained : ∀ x, os.Obtained x → x < os.brk
  /-- What others obtained lies below the break, and the allocator did not. -/
  foreign : ∀ f ∈ os.foreign, f < os.brk ∧ ¬os.Obtained f
  /-- In front of what was not obtained somebody else moved the break. -/
  gap : ∀ x, lo ≤ x → x < os.brk → ¬os.Obtained x →
    ∃ f ∈ os.foreign, f ≤ x ∧ ∀ y, f ≤ y → y ≤ x → ¬os.Obtained y

variable {os : Sbrk} {lo n : ℕ}

theorem obtained_extend {x : ℕ} :
    (os.extend n).Obtained x ↔ os.brk ≤ x ∧ x < os.brk + n ∨ os.Obtained x := by
  unfold Obtained extend
  simp only [List.mem_cons, exists_eq_or_imp]

/-- What is in the books after the allocator obtained bytes. -/
theorem Books.extend (h : os.Books lo) (hlt : os.brk + n < 4294967296) : (os.extend n).Books lo := by
  have hbrk : (os.extend n).brk = os.brk + n := add32_of_lt hlt
  have hle := h.le
  refine ⟨h.page_le, by omega, by omega, fun x hx => ?_, fun f hf => ?_, fun x hlo hx hnot => ?_⟩
  · rcases obtained_extend.mp hx with hx | hx
    · omega
    · have := h.obtained x hx
      omega
  · obtain ⟨hflt, hfnot⟩ := h.foreign f hf
    exact ⟨by omega, fun hf' => (obtained_extend.mp hf').elim (fun hnew => by omega) hfnot⟩
  · rw [obtained_extend] at hnot
    push Not at hnot
    obtain ⟨f, hf, hfx, hfrom⟩ := h.gap x hlo (by omega) hnot.2
    refine ⟨f, hf, hfx, fun y hfy hyx hy => ?_⟩
    exact (obtained_extend.mp hy).elim (fun hnew => by omega) (hfrom y hfy hyx)

/-- What is in the books after somebody else obtained bytes. -/
theorem Books.move (h : os.Books lo) (hn : 0 < n) (hlt : os.brk + n < 4294967296) :
    (os.move n).Books lo := by
  have hbrk : (os.move n).brk = os.brk + n := add32_of_lt hlt
  have hle := h.le
  refine ⟨h.page_le, by omega, by omega, fun x hx => ?_, fun f hf => ?_, fun x hlo hx hnot => ?_⟩
  · have := h.obtained x hx
    omega
  · rcases List.mem_cons.mp hf with rfl | hf
    · exact ⟨by omega, fun hx => Nat.lt_irrefl _ (h.obtained _ hx)⟩
    · obtain ⟨hflt, hfnot⟩ := h.foreign f hf
      exact ⟨by omega, hfnot⟩
  · by_cases hold : x < os.brk
    · obtain ⟨f, hf, hfx, hfrom⟩ := h.gap x hlo hold hnot
      exact ⟨f, List.mem_cons_of_mem _ hf, hfx, hfrom⟩
    · refine ⟨os.brk, List.mem_cons_self, by omega, fun y hy _ hob => ?_⟩
      have := h.obtained y hob
      omega

end Sbrk

/-- The Linux way to obtain space: `block = sbrk(0)`, and then `sbrk(nbytes)`.  When the second call
fails so does the assertion behind it, and the process ends. -/
def linuxSpace : Space Sbrk := fun nbytes k => (k.os.brk, { k with os := k.os.extend nbytes })

/-- The heap of the library, before its first block and later: every block lies in memory that the
allocator obtained. -/
structure LinuxHeap (lo : ℕ) (k : Kernel Sbrk) (bs : List Block) : Prop where
  /-- The break and who moved it. -/
  books : k.os.Books lo
  /-- There is no block yet, or the headers are the list. -/
  heap : bs = [] ∧ k.firstBlk = 0 ∧ k.minHeapSize = 0 ∨ HeapIn k.firstBlk k.mem lo k.os.brk bs
  /-- The blocks consist of bytes that were obtained. -/
  owned : ∀ b ∈ bs, k.os.Owns b

/-! ### `kmalloc` -/

/-- What a call of `kmalloc` that returns `p` makes of the heap: it takes a block that was not in
use. -/
structure LinuxTaken (lo : ℕ) (bs : List Block) (p : ℕ) (k' : Kernel Sbrk) (bs' : List Block)
    (b : Block) : Prop where
  /-- The heap. -/
  heap : LinuxHeap lo k' bs'
  /-- The call returns the payload of the block. -/
  addr : p = b.addr + 20
  /-- The block is in use. -/
  inUse : b.free = false
  /-- The other blocks in use are those before. -/
  mem : ∀ c : Block, c.free = false → (c ∈ bs' ↔ c = b ∨ c ∈ bs)
  /-- The block was not in use. -/
  fresh : ∀ c ∈ bs, c.free = false → c.addr ≠ b.addr

variable {lo length p fuel : ℕ} {k k' : Kernel Sbrk} {bs : List Block}

/-- Taking the first block that fits. -/
theorem LinuxHeap.take {pre post : List Block} {b : Block} (hbooks : k.os.Books lo)
    (hin : HeapIn k.firstBlk k.mem lo k.os.brk (pre ++ b :: post))
    (howned : ∀ c ∈ pre ++ b :: post, k.os.Owns c) (hpre : ∀ c ∈ pre, ¬Fits (align16 length) c)
    (hb : Fits (align16 length) b) (hk : kmalloc linuxSpace fuel length k = some (p, k')) :
    ∃ bs' b', LinuxTaken lo (pre ++ b :: post) p k' bs' b' := by
  obtain ⟨rfl, m, rfl, hin'⟩ := hin.eq_of_kmalloc_of_fits hpre hb hk
  refine ⟨_, _, ⟨hbooks, Or.inr hin', fun c hc x hlo hhi => ?_⟩, by split <;> rfl, by split <;> rfl,
    fun c hc => mem_takeBlock_inUse hb.1 hc, fun c hc hcfree => ?_⟩
  · simp only [List.mem_append] at hc
    rcases hc with (hc | hc) | hc
    · exact howned c (by simp [hc]) x hlo hhi
    · -- the two parts of a block that was split lie in the block
      have hplace := (placed_takeBlock (align16 length) b).mem hc
      exact howned b (by simp) x (by omega) (by omega)
    · exact howned c (by simp [hc]) x hlo hhi
  · have hne := hin.placed.addr_ne_of_free (b := b) (by simp) hb.1 hc hcfree
    split <;> exact hne

/-- Whatever `__new_blockspace` returns, the break has moved. -/
theorem newBlockspace_os (last size : ℕ) (k : Kernel Sbrk) :
    (newBlockspace linuxSpace last size k).2.os = k.os.extend (growBytes size) := by
  show (if k.os.brk = 0xffffffff ∨ k.os.brk = 0 then _ else _ : ℕ × Kernel Sbrk).2.os = _
  split <;> rfl

/-- `__new_blockspace` writes a header where the break was. -/
theorem newBlockspace_of_brk {last size : ℕ} (hpos : 0 < k.os.brk) (hlt : k.os.brk < 4294967295) :
    newBlockspace linuxSpace last size k = (k.os.brk, { k with
      os := k.os.extend (growBytes size)
      mem := appendHeader k.mem last k.os.brk (growBytes size) }) := by
  have hnonnull : ¬(k.os.brk = 0xffffffff ∨ k.os.brk = 0) := by omega
  exact if_neg hnonnull

/-- `kmalloc` gives nothing back to `sbrk`. -/
theorem length_obtained_le (hk : kmalloc linuxSpace fuel length k = some (p, k')) :
    k.os.obtained.length ≤ k'.os.obtained.length := by
  have hextend : ∀ os : Sbrk, ∀ n, os.obtained.length ≤ (os.extend n).obtained.length :=
    fun os n => Nat.le_succ _
  induction fuel generalizing length k with
  | zero => simp [kmalloc] at hk
  | succ fuel ih =>
    rw [kmalloc] at hk
    by_cases hfirst : k.firstBlk = 0
    · simp only [if_pos hfirst] at hk
      have hle := ih hk
      simp only [newBlockspace_os] at hle
      refine le_trans ?_ hle
      split <;> exact hextend _ _
    · simp only [if_neg hfirst] at hk
      cases hfind : findFreeBlock k.mem (align16 length) fuel k.firstBlk k.firstBlk with
      | none => simp [hfind] at hk
      | some r =>
        simp only [hfind, Option.some.injEq, Prod.mk.injEq] at hk
        obtain ⟨-, rfl⟩ := hk
        simp only
        split
        · rw [newBlockspace_os]
          exact hextend _ _
        · split <;> exact le_rfl

/-- A block that was just obtained. -/
theorem Sbrk.owns_extend {os : Sbrk} {n : ℕ} (hn : 20 ≤ n) (free : Bool) :
    (os.extend n).Owns ⟨os.brk, n - 20, free⟩ := by
  intro x hlo hhi
  simp only [Block.stop] at hlo hhi
  exact Sbrk.obtained_extend.mpr (Or.inl (by omega))

/-- Growing the heap when nothing fits. -/
theorem LinuxHeap.grow (hbooks : k.os.Books lo) (hin : HeapIn k.firstBlk k.mem lo k.os.brk bs)
    (howned : ∀ c ∈ bs, k.os.Owns c) (hbs : ∀ c ∈ bs, ¬Fits (align16 length) c)
    (hk : kmalloc linuxSpace fuel length k = some (p, k')) (hlen : SizeOk length)
    (hend : k'.os = k.os ∨ k.os.brk + growBytes (align16 length) < 4294967296) :
    ∃ bs' b, LinuxTaken lo bs p k' bs' b := by
  have hfuel : bs.length < fuel + bs.length + 1 := by omega
  have hpage := hbooks.page_le
  have hlo := hbooks.le
  have hmore := kmalloc_mono hk (show fuel ≤ fuel + bs.length + 1 + 1 by omega)
  rw [kmalloc_of_findFreeBlock hin.first_ne_zero (hin.findFreeBlock_of_not_fits hbs hfuel)] at hmore
  simp only [if_true, Option.some.injEq, Prod.mk.injEq] at hmore
  obtain ⟨rfl, rfl⟩ := hmore
  have hlt : k.os.brk + growBytes (align16 length) < 4294967296 := by
    refine hend.resolve_left fun heq => ?_
    rw [newBlockspace_os] at heq
    exact absurd (congrArg (fun os => os.obtained.length) heq) (Nat.succ_ne_self _)
  have hgt := (growBytes_bounds hlen.2).1
  have hbrk : (k.os.extend (growBytes (align16 length))).brk =
      k.os.brk + growBytes (align16 length) := add32_of_lt hlt
  have hpayload : payload k.os.brk = k.os.brk + 20 := add32_of_lt (by rw [sizeofMallocH]; omega)
  rw [newBlockspace_of_brk (by omega) (by omega)]
  refine ⟨_, ⟨k.os.brk, growBytes (align16 length) - 20, false⟩,
    ⟨hbooks.extend hlt, Or.inr (hin.grow le_rfl (by omega) hbrk.ge (hbrk ▸ hlt)), fun c hc => ?_⟩,
    hpayload, rfl, fun c _ => ?_, fun c hc _ heq => ?_⟩
  · rcases List.mem_append.mp hc with hc | hc
    · exact fun x hlo hhi => Sbrk.obtained_extend.mpr (Or.inr (howned c hc x hlo hhi))
    · rw [List.mem_singleton.mp hc]
      exact Sbrk.owns_extend (by omega) false
  · rw [List.mem_append, List.mem_singleton, or_comm]
  · have := (hin.placed.mem hc).2
    unfold Block.stop at this
    simp only at heq
    omega

/-- Rounding up twice is rounding up once. -/
theorem align16_align16 (length : ℕ) (hlen : SizeOk length) :
    align16 (align16 length) = align16 length := by
  have hlt := hlen.2
  rw [align16_eq (align16 length), add32_of_lt (by omega), align16_eq]
  omega

/-- The first call of `kmalloc` obtains a block and calls itself. -/
theorem kmalloc_linux_first {n : ℕ} (hfirst : k.firstBlk = 0) (hmin : k.minHeapSize = 0) :
    kmalloc linuxSpace (n + 1) length k =
      let k₁ : Kernel Sbrk := { k with minHeapSize := align16 length }
      let r := newBlockspace linuxSpace 0 (align16 length) k₁
      kmalloc linuxSpace n (align16 length) { r.2 with firstBlk := r.1 } := by
  have hraise : (if align16 length > k.minHeapSize then { k with minHeapSize := align16 length }
      else k) = { k with minHeapSize := align16 length } := by
    by_cases hlen : align16 length > k.minHeapSize
    · rw [if_pos hlen]
    · have hzero : k.minHeapSize = align16 length := by omega
      rw [if_neg hlen, ← hzero]
  rw [kmalloc]
  simp only [if_pos hfirst, hraise]

/-- The first allocation. -/
theorem LinuxHeap.begin (hbooks : k.os.Books lo) (hfirst : k.firstBlk = 0) (hmin : k.minHeapSize = 0)
    (hk : kmalloc linuxSpace fuel length k = some (p, k')) (hlen : SizeOk length)
    (hend : k'.os = k.os ∨ k.os.brk + growBytes (align16 length) < 4294967296) :
    ∃ bs' b, LinuxTaken lo [] p k' bs' b := by
  have hpage := hbooks.page_le
  have hlo := hbooks.le
  have hgt := (growBytes_bounds hlen.2).1
  cases fuel with
  | zero => simp [kmalloc] at hk
  | succ n =>
    rw [kmalloc_linux_first hfirst hmin] at hk
    simp only at hk
    have hlt : k.os.brk + growBytes (align16 length) < 4294967296 := by
      refine hend.resolve_left fun heq => ?_
      have hle := length_obtained_le hk
      simp only [newBlockspace_os, heq] at hle
      exact absurd hle (Nat.not_succ_le_self _)
    have hbrk : (k.os.extend (growBytes (align16 length))).brk =
        k.os.brk + growBytes (align16 length) := add32_of_lt hlt
    have hpos : 0 < k.os.brk := by omega
    rw [newBlockspace_of_brk (k := { k with minHeapSize := align16 length }) hpos
      (show k.os.brk < 4294967295 by omega)] at hk
    -- the first block serves the request
    have hin := heapIn_first (m := k.mem) hpage hlo (show 20 ≤ growBytes (align16 length) by omega)
      hbrk.ge (hbrk ▸ hlt)
    have hfit : Fits (align16 (align16 length))
        ⟨k.os.brk, growBytes (align16 length) - 20, true⟩ := by
      rw [align16_align16 length hlen]
      exact ⟨rfl, show align16 length ≤ growBytes (align16 length) - 20 by omega⟩
    have hown : ∀ c ∈ [] ++ [(⟨k.os.brk, growBytes (align16 length) - 20, true⟩ : Block)],
        (k.os.extend (growBytes (align16 length))).Owns c := by
      intro c hc
      rw [List.mem_singleton.mp hc]
      exact Sbrk.owns_extend (by omega) true
    have hnofit : ∀ c ∈ ([] : List Block), ¬Fits (align16 (align16 length)) c := by simp
    obtain ⟨bs', b, htaken⟩ := LinuxHeap.take (hbooks.extend hlt) hin hown hnofit hfit hk
    refine ⟨bs', b, htaken.heap, htaken.addr, htaken.inUse, fun c hc => ?_,
      fun c hc => absurd hc List.not_mem_nil⟩
    rw [htaken.mem c hc]
    refine or_congr_right ⟨fun hmem => ?_, fun hmem => absurd hmem List.not_mem_nil⟩
    rw [List.mem_singleton.mp hmem] at hc
    exact Bool.noConfusion hc

/-- **`kmalloc` in the Linux build.**  A call that returns takes a block that was not in use, and
every block still lies in memory that the allocator obtained. -/
theorem LinuxHeap.of_kmalloc (h : LinuxHeap lo k bs)
    (hk : kmalloc linuxSpace fuel length k = some (p, k')) (hlen : SizeOk length)
    (hend : k'.os = k.os ∨ k.os.brk + growBytes (align16 length) < 4294967296) :
    ∃ bs' b, LinuxTaken lo bs p k' bs' b := by
  rcases h.heap with ⟨rfl, hfirst, hmin⟩ | hin
  · exact LinuxHeap.begin h.books hfirst hmin hk hlen hend
  · rcases fits_cases (align16 length) bs with ⟨pre, b, post, rfl, hpre, hb⟩ | hnone
    · exact LinuxHeap.take h.books hin h.owned hpre hb hk
    · exact LinuxHeap.grow h.books hin h.owned hnone hk hlen hend

/-! ### `kfree` -/

/-- Nothing but memory that the allocator obtained lies between the two blocks. -/
def Sbrk.Joins (os : Sbrk) (b c : Block) : Prop := ∀ x, b.stop ≤ x → x < c.addr → os.Obtained x

/-- Coalescing keeps every block in memory that was obtained, when free neighbours have nothing else
between them. -/
theorem Sbrk.owns_coalesce {os : Sbrk} {hi : ℕ} (hp : Placed lo bs hi) (howned : ∀ b ∈ bs, os.Owns b)
    (hjoins : bs.IsChain fun b c => b.free = true → c.free = true → os.Joins b c) :
    ∀ b ∈ coalesce Block.free Block.merge bs, os.Owns b := by
  induction bs generalizing lo with
  | nil => simp
  | cons b bs ih =>
    obtain ⟨hhead, hjoins⟩ := List.isChain_cons.mp hjoins
    have hb := howned b List.mem_cons_self
    have hrest := ih hp.2 (fun c hc => howned c (List.mem_cons_of_mem b hc)) hjoins
    rw [coalesce_cons]
    cases bs with
    | nil => simpa [join] using hb
    | cons c cs =>
      obtain ⟨d, ds, hds, hda, hdfree⟩ := exists_coalesce_cons merging_blocks keyed_blocks c cs
      rw [hds] at hrest ⊢
      by_cases hbd : b.free && d.free
      · rw [join, if_pos hbd]
        rw [Bool.and_eq_true, hdfree] at hbd
        have htail : ∀ e ∈ ds, os.Owns e := fun e he => hrest e (List.mem_cons_of_mem d he)
        refine List.forall_mem_cons.mpr ⟨fun x hx hlt => ?_, htail⟩
        -- the merged block is the two blocks and what lies between them
        have hle := hp.2.1
        simp only [Block.merge, Block.stop] at hx hlt hle
        rcases Nat.lt_or_ge x b.stop with hxb | hbx
        · exact hb x hx hxb
        rcases Nat.lt_or_ge x c.addr with hxc | hcx
        · exact hhead c rfl hbd.1 hbd.2 x hbx hxc
        · exact hrest d List.mem_cons_self x (by omega) (by unfold Block.stop; omega)
      · rw [join, if_neg hbd]
        exact List.forall_mem_cons.mpr ⟨hb, hrest⟩

/-- Freeing a block keeps every block in memory that was obtained, when nothing else lies between it
and its free neighbours. -/
theorem Sbrk.owns_releaseBlock {os : Sbrk} {hi : ℕ} {pre post : List Block} {b : Block}
    (hp : Placed lo (pre ++ b :: post) hi) (hcoal : Coalesced (pre ++ b :: post))
    (howned : ∀ c ∈ pre ++ b :: post, os.Owns c)
    (hprev : ∀ c ∈ pre.getLast?, c.free = true → os.Joins c b)
    (hnext : ∀ c ∈ post.head?, c.free = true → os.Joins b c) :
    ∀ c ∈ releaseBlock b.addr (pre ++ b :: post), os.Owns c := by
  rw [releaseBlock_append_cons hp]
  obtain ⟨hpre, hpost, -⟩ := List.isChain_append.mp hcoal
  have hplaced : Placed lo (pre ++ b.released :: post) hi :=
    placed_append_cons.mpr ((placed_append_cons (b := b)).mp hp)
  refine Sbrk.owns_coalesce hplaced (fun c hc => ?_) (List.isChain_append.mpr ⟨?_,
    List.isChain_cons.mpr ⟨fun c hc _ hfree => hnext c hc hfree, ?_⟩, fun c hc d hd hfree _ => ?_⟩)
  · rcases List.mem_append.mp hc with hc | hc
    · exact howned c (List.mem_append_left _ hc)
    · rcases List.mem_cons.mp hc with rfl | hc
      · exact howned b (by simp)
      · exact howned c (by simp [hc])
  · exact hpre.imp fun _ _ hcd hc hd => absurd ⟨hc, hd⟩ hcd
  · exact hpost.tail.imp fun _ _ hcd hc hd => absurd ⟨hc, hd⟩ hcd
  · rw [List.head?_cons, Option.mem_some_iff] at hd
    subst hd
    exact hprev c hc hfree

end PakOS
