import PakOS.Kmalloc.Requests

/-!
# `krealloc` preserves data

`krealloc` of a live allocation returns one that begins with the old contents: the same one when it
is large enough, and otherwise a new one, with the old one given back (`krealloc_moves`).  The copy
loop reads the old payload while it writes the new one, and the two do not overlap because the old
block is still in use when the new one is handed out.  `krealloc_preserves` adds that no other
allocation is touched.
-/

namespace PakOS

open Machine Coalesce

variable {E : Type*} {base : HeapBase} {mmap : Mmap E}

/-- The size that the header of an allocation records. -/
def recordedSize (k : Kernel E) (p : ℕ) : ℕ := getField k.mem (headerOf p) .size

/-- A block in use on the list of the heap has the payload `p`. -/
def InUseAt (k : Kernel E) (p : ℕ) : Prop :=
  ∃ fuel hs, walk k.mem fuel k.firstBlk = some hs ∧
    ∃ h ∈ hs, h.free = mblkInUse ∧ p = h.addr + sizeofMallocH

/-- The recorded size and the contents of the allocation `p` are the same in both states. -/
def SameContents (k k' : Kernel E) (p : ℕ) : Prop :=
  recordedSize k' p = recordedSize k p ∧ ∀ i < recordedSize k p, k'.mem (p + i) = k.mem (p + i)

theorem SameContents.trans {k k' k'' : Kernel E} {p : ℕ} (h : SameContents k k' p)
    (h' : SameContents k' k'' p) : SameContents k k'' p :=
  ⟨h'.1.trans h.1, fun i hi => (h'.2 i (h.1.symm ▸ hi)).trans (h.2 i hi)⟩

/-- The blocks in use of a heap are those on its list that are not free. -/
theorem HeapInv.inUseAt_iff {k : Kernel E} {bs : List Block} (h : HeapInv k bs) {p : ℕ} :
    InUseAt k p ↔ ∃ b ∈ bs, b.free = false ∧ p = b.addr + 20 := by
  constructor
  · rintro ⟨fuel, hs, hwalk, g, hg, hfree, rfl⟩
    obtain rfl := eq_of_walk hwalk (h.walk_eq (Nat.lt_succ_self bs.length))
    obtain ⟨b, hb, haddr, hflag, -⟩ := exists_mem_of_mem_headersFrom hg
    refine ⟨b, hb, ?_, by rw [haddr]; rfl⟩
    rw [hfree, Block.flag] at hflag
    cases hbf : b.free with
    | false => rfl
    | true => simp [hbf, mblkFree, mblkInUse] at hflag
  · rintro ⟨b, hb, hfree, rfl⟩
    obtain ⟨g, hg, haddr, hflag, -⟩ := exists_mem_headersFrom 0 hb
    refine ⟨_, _, h.walk_eq (Nat.lt_succ_self bs.length), g, hg, ?_, by rw [haddr]; rfl⟩
    rw [hflag, Block.flag, hfree]
    rfl

/-- The live addresses of a history are those in use. -/
theorem HistoryInv.mem_live_iff {s : History E} {bs : List Block} (h : HistoryInv s bs) {p : ℕ} :
    p ∈ s.live ↔ InUseAt s.kernel p :=
  (h.live p).trans h.heap.inUseAt_iff.symm

/-- A block that is in use before and after a move, other than the new one, keeps its contents. -/
theorem Moves.sameContents {k k₁ k' : Kernel E} {bs bs₁ : List Block} {b b₁ c : Block} {size : ℕ}
    (h : Moves k bs b size k₁ bs₁ b₁ k') (hk : HeapInv k bs) (hlen : SizeOk size) (hc : c ∈ bs)
    (hcfree : c.free = false) (hcb : c.addr ≠ b.addr) : SameContents k k' (c.addr + 20) := by
  obtain ⟨hc₁, happart⟩ := h.step.apart hk h.inv₁ hlen hc hcfree
  have hc' := (mem_releaseBlock hcfree).mpr ⟨hc₁, hcb⟩
  refine ⟨(h.inv.size_eq hc').trans (hk.size_eq hc).symm, fun i hi => ?_⟩
  rw [recordedSize, hk.size_eq hc] at hi
  refine h.frame _ (h.inv₁.offHeaders_of_lt_size hc₁ hi) ?_
  unfold Block.stop at happart ⊢
  omega

/-- What a call `krealloc(p, size)` that returned `q` in the state `k` owes its caller. -/
structure Preserves (s : History E) (p size q : ℕ) (k : Kernel E) : Prop where
  /-- The address returned is live, and in use. -/
  live : q ∈ (s.moved p q k).live ∧ InUseAt k q
  /-- Its block is large enough. -/
  large : size ≤ recordedSize k q
  /-- It begins with the old contents. -/
  contents : ∀ i < min (recordedSize s.kernel p) (recordedSize k q),
    k.mem (q + i) = s.kernel.mem (p + i)
  /-- A block that is large enough stays where it is, and nothing changes. -/
  keep : size ≤ recordedSize s.kernel p → q = p ∧ k = s.kernel
  /-- A block that is too small is given back. -/
  move : recordedSize s.kernel p < size → p ∉ (s.moved p q k).live ∧ ¬InUseAt k p
  /-- The other live allocations stay, with their contents. -/
  others : ∀ r ∈ s.live, r ≠ p → r ∈ (s.moved p q k).live ∧ SameContents s.kernel k r

/-- `krealloc` of a block that is large enough does nothing, and owes nothing. -/
theorem HistoryInv.preserves_keep {s : History E} {bs bs' : List Block} {b : Block} {size : ℕ}
    (h : HistoryInv s bs) (hb : b ∈ bs) (hp : b.addr + 20 ∈ s.live) (hsize : size ≤ b.size)
    (hinv' : HistoryInv (s.moved (b.addr + 20) (b.addr + 20) s.kernel) bs') :
    Preserves s (b.addr + 20) size (b.addr + 20) s.kernel := by
  have hlive : ∀ r, r ∈ (s.moved (b.addr + 20) (b.addr + 20) s.kernel).live ↔
      InUseAt s.kernel r := by
    intro r
    rw [hinv'.mem_live_iff, History.moved_kernel]
  have hin := h.mem_live_iff.mp hp
  refine ⟨⟨(hlive _).mpr hin, hin⟩, ?_, fun _ _ => rfl, fun _ => ⟨rfl, rfl⟩, fun hlt => ?_,
    fun r hr _ => ⟨(hlive r).mpr (h.mem_live_iff.mp hr), rfl, fun _ _ => rfl⟩⟩
  · rwa [recordedSize, h.heap.size_eq hb]
  · rw [recordedSize, h.heap.size_eq hb] at hlt
    omega

/-- `krealloc` of a block that is too small owes what the move does. -/
theorem Moves.preserves {s : History E} {k k₁ : Kernel E} {bs bs' bs₁ : List Block} {b b₁ : Block}
    {size : ℕ} (hmoves : Moves s.kernel bs b size k₁ bs₁ b₁ k) (h : HistoryInv s bs)
    (hinv' : HistoryInv (s.moved (b.addr + 20) (b₁.addr + 20) k) bs') (hb : b ∈ bs)
    (hfree : b.free = false) (hlen : SizeOk size) (hsize : ¬size ≤ b.size) :
    Preserves s (b.addr + 20) size (b₁.addr + 20) k := by
  have hlive : ∀ r, r ∈ (s.moved (b.addr + 20) (b₁.addr + 20) k).live ↔ InUseAt k r := by
    intro r
    rw [hinv'.mem_live_iff, History.moved_kernel]
  obtain ⟨hb₁, hb₁free, hsize₁⟩ := hmoves.step.block hlen
  obtain ⟨hmem, hne⟩ := hmoves.step.inUse h.heap
  have hb₁' := (mem_releaseBlock hb₁free).mpr ⟨hb₁, (hne b hb hfree).symm⟩
  have hin : InUseAt k (b₁.addr + 20) := hmoves.inv.inUseAt_iff.mpr ⟨b₁, hb₁', hb₁free, rfl⟩
  have hout : ¬InUseAt k (b.addr + 20) := by
    intro hb'
    obtain ⟨c, hc, hcfree, heq⟩ := hmoves.inv.inUseAt_iff.mp hb'
    exact ((mem_releaseBlock hcfree).mp hc).2 (by omega)
  refine ⟨⟨(hlive _).mpr hin, hin⟩, ?_, fun i hi => ?_, fun hle => ?_,
    fun _ => ⟨fun hb' => hout ((hlive _).mp hb'), hout⟩, fun r hr hrp => ?_⟩
  · rwa [recordedSize, hmoves.inv.size_eq hb₁']
  · rw [recordedSize, h.heap.size_eq hb] at hi
    exact hmoves.copied i (hi.trans_le (Nat.min_le_left _ _))
  · rw [recordedSize, h.heap.size_eq hb] at hle
    exact absurd hle hsize
  · obtain ⟨c, hc, hcfree, rfl⟩ := h.exists_block hr
    have hcb : c.addr ≠ b.addr := fun heq => hrp (by rw [heq])
    refine ⟨(hlive _).mpr (hmoves.inv.inUseAt_iff.mpr ⟨c, ?_, hcfree, rfl⟩),
      hmoves.sameContents h.heap hlen hc hcfree hcb⟩
    exact (mem_releaseBlock hcfree).mpr ⟨(hmem c hcfree).mpr (Or.inr hc), hcb⟩

/-- **`krealloc` preserves data.**  On every reachable heap, for every live allocation and every
size that does not wrap around, where the end of the heap does not wrap around if it has to grow:
`krealloc` returns, and whenever it returns it preserves data. -/
theorem krealloc_preserves {s : History E} (hs : Reachable base mmap s) {p size : ℕ}
    (hp : p ∈ s.live) (hlen : SizeOk size)
    (hend : recordedSize s.kernel p < size → ∀ fuel q k₁,
      kmalloc (kernelSpace mmap) fuel size s.kernel = some (q, k₁) → EndOk s.kernel k₁) :
    (∃ fuel r, krealloc (kernelSpace mmap) fuel p size s.kernel = some r) ∧
    ∀ fuel q k, krealloc (kernelSpace mmap) fuel p size s.kernel = some (q, k) →
      Preserves s p size q k := by
  obtain ⟨bs, h⟩ := hs.inv
  obtain ⟨b, hb, hfree, rfl⟩ := h.exists_block hp
  rw [recordedSize, h.heap.size_eq hb] at hend
  refine ⟨?_, fun fuel q k hk => ?_⟩
  · by_cases hsize : size ≤ b.size
    · exact ⟨0, _, h.heap.krealloc_keep hb hsize 0⟩
    · obtain ⟨fuel, q, k, hk⟩ := h.heap.exists_krealloc hb hfree (Nat.lt_of_not_le hsize) hlen
        (hend (Nat.lt_of_not_le hsize))
      exact ⟨fuel, (q, k), hk⟩
  obtain ⟨bs', hinv', -⟩ := h.of_krealloc hp hk hlen fun hlt => by
    rw [h.heap.size_eq hb] at hlt
    exact hend hlt fuel
  by_cases hsize : size ≤ b.size
  · rw [h.heap.krealloc_keep hb hsize fuel] at hk
    simp only [Option.some.injEq, Prod.mk.injEq] at hk
    obtain ⟨rfl, rfl⟩ := hk
    exact h.preserves_keep hb hp hsize hinv'
  · have hlt := Nat.lt_of_not_le hsize
    obtain ⟨k₁, bs₁, b₁, -, rfl, hmoves⟩ :=
      krealloc_moves h.heap hb hfree hk hlen hlt (hend hlt fuel)
    exact hmoves.preserves h hinv' hb hfree hlen hsize

/-- An allocation with its first byte written, that has to move. -/
def writtenOnce : History Unit :=
  historyOf mapAll [.kmalloc 100, .kmalloc 20, .write 0xd0000014 0 7] (by decide +kernel)

theorem krealloc_preserves_writtenOnce :
    ∃ q k, krealloc (kernelSpace mapAll) 200 0xd0000014 300 writtenOnce.kernel = some (q, k) ∧
      Preserves writtenOnce 0xd0000014 300 q k := by
  have hreach : Reachable kernelHeap mapAll writtenOnce := reachable_historyOf _ _ _
  have hcall : ((krealloc (kernelSpace mapAll) 200 0xd0000014 300 writtenOnce.kernel).map
      Prod.fst).isSome := by decide +kernel
  rw [Option.isSome_map] at hcall
  obtain ⟨⟨q, k⟩, hk⟩ := Option.isSome_iff_exists.mp hcall
  have hgrow : ((kmalloc (kernelSpace mapAll) 8 300 writtenOnce.kernel).map fun r =>
      decide (EndOk writtenOnce.kernel r.2)) = some true := by decide +kernel
  obtain ⟨⟨q₁, k₁⟩, hk₁, hend⟩ := Option.map_eq_some_iff.mp hgrow
  refine ⟨q, k, hk, (krealloc_preserves hreach (by decide +kernel) (by decide)
    fun _ fuel q₂ k₂ hk₂ => ?_).2 200 q k hk⟩
  have heq := (kmalloc_mono hk₁ (Nat.le_add_right 8 fuel)).symm.trans
    (kmalloc_mono hk₂ (Nat.le_add_left fuel 8))
  simp only [Option.some.injEq, Prod.mk.injEq] at heq
  obtain ⟨-, rfl⟩ := heq
  exact of_decide_eq_true hend

end PakOS
