import PakOS.Kmalloc.Run
import PakOS.Kmalloc.Walk

/-!
# The block list of a reachable heap

`Integrity s hs` says what an observer who walks the list from `_first_blk` and meets the headers
`hs` may rely on: links that are inverse to each other, headers at increasing addresses, byte ranges
that do not overlap and stay in the heap, and one header in use for every live allocation.
`heap_integrity` proves it for every reachable history.
-/

namespace PakOS

open Machine Coalesce

variable {E : Type*} {base : HeapBase} {mmap : Mmap E}

/-- What holds of the headers `hs` that a walk of the heap of `s` meets. -/
structure Integrity (s : History E) (hs : List Header) : Prop where
  /-- `prev_block` is the inverse of `next_block`. -/
  linked : hs.IsChain fun h h' => h.nextBlock = h'.addr ∧ h'.prevBlock = h.addr
  /-- The list begins at `_first_blk`, behind nothing. -/
  first : ∀ h ∈ hs.head?, h.addr = s.kernel.firstBlk ∧ h.prevBlock = 0
  /-- The list ends with a header that links to nothing. -/
  last : ∀ h ∈ hs.getLast?, h.nextBlock = 0
  /-- The headers stand at strictly increasing addresses. -/
  increasing : (hs.map Header.addr).Pairwise (· < ·)
  /-- Every block ends before the headers behind it. -/
  apart : hs.Pairwise fun h h' => h.stop ≤ h'.addr
  /-- Every block lies in the heap. -/
  inside : ∀ h ∈ hs,
    s.kernel.heapStart ≤ h.addr ∧ h.stop ≤ s.kernel.heapStart + s.kernel.heapSize
  /-- Every live allocation has exactly one header on the list, and it is in use. -/
  live : ∀ p ∈ s.live, (hs.map Header.addr).count (headerOf p) = 1 ∧
    getField s.kernel.mem (headerOf p) .free = mblkInUse
  /-- The payloads of different live allocations are disjoint. -/
  payloads : ∀ p ∈ s.live, ∀ q ∈ s.live, p ≠ q →
    p + getField s.kernel.mem (headerOf p) .size ≤ q ∨
      q + getField s.kernel.mem (headerOf q) .size ≤ p

/-- The block list and the variables of the heap are the same in both states. -/
def SameList (k k' : Kernel E) : Prop :=
  k'.firstBlk = k.firstBlk ∧ k'.heapSize = k.heapSize ∧
    ∃ fuel hs, walk k.mem fuel k.firstBlk = some hs ∧ walk k'.mem fuel k'.firstBlk = some hs

/-- The walk of a heap with the invariant. -/
theorem HeapInv.walk_eq {k : Kernel E} {bs : List Block} (h : HeapInv k bs) {fuel : ℕ}
    (hfuel : bs.length < fuel) : walk k.mem fuel k.firstBlk = some (headersFrom 0 bs) := by
  rw [h.first]
  exact h.rep.walk_eq (fun b hb => (h.block_bounds hb).1.ne') hfuel

/-- Two walks of the same list see the same. -/
theorem eq_of_walk {m : Mem} {fuel fuel' a : ℕ} {hs hs' : List Header}
    (h : walk m fuel a = some hs) (h' : walk m fuel' a = some hs') : hs = hs' := by
  have hmore := walk_mono h (Nat.le_add_right fuel fuel')
  have hmore' := walk_mono h' (Nat.le_add_left fuel' fuel)
  exact Option.some.inj (hmore.symm.trans hmore')

/-- Changes outside the heap keep the list. -/
theorem HeapInv.sameList {k k' : Kernel E} {bs : List Block} (h : HeapInv k bs)
    (hk : SameHeap k k') : SameList k k' := by
  have h' := h.of_sameHeap hk
  exact ⟨hk.first, hk.size, _, _, h.walk_eq (Nat.lt_succ_self _), h'.walk_eq (Nat.lt_succ_self _)⟩

/-- The headers of a history with the invariant. -/
theorem HistoryInv.integrity {s : History E} {bs : List Block} (h : HistoryInv s bs) :
    Integrity s (headersFrom 0 bs) := by
  have hplaced := h.heap.placed
  refine ⟨linked_headersFrom 0 bs, fun x hx => ?_, fun x hx => nextBlock_last_headersFrom hx, ?_,
    apart_headersFrom hplaced, fun x hx => inside_headersFrom hplaced hx, fun p hp => ?_,
    fun p hp q hq hpq => ?_⟩
  · rw [h.heap.first]
    exact prevBlock_head_headersFrom hx
  · rw [map_addr_headersFrom]
    exact hplaced.pairwise
  · obtain ⟨b, hb, hfree, rfl⟩ := h.exists_block hp
    rw [map_addr_headersFrom, h.heap.headerOf_eq hb, (h.heap.rep.nodes b hb).free, Block.flag, hfree]
    exact ⟨List.count_eq_one_of_mem hplaced.nodup (mem_addrs_of_mem hb), rfl⟩
  · obtain ⟨b, hb, -, rfl⟩ := h.exists_block hp
    obtain ⟨c, hc, -, rfl⟩ := h.exists_block hq
    rw [h.heap.headerOf_eq hb, h.heap.headerOf_eq hc, (h.heap.rep.nodes b hb).size,
      (h.heap.rep.nodes c hc).size]
    have := hplaced.apart hb hc fun hbc => hpq (by rw [hbc])
    unfold Block.stop at this
    omega

/-- **Integrity of the heap.**  In every reachable history the walk from `_first_blk` ends, and what
it meets is a well-linked list of blocks that do not overlap and that serve the live allocations. -/
theorem heap_integrity {s : History E} (hs : Reachable base mmap s) :
    ∃ fuel hs, walk s.kernel.mem fuel s.kernel.firstBlk = some hs ∧ Integrity s hs := by
  obtain ⟨bs, h⟩ := hs.inv
  exact ⟨bs.length + 1, headersFrom 0 bs, h.heap.walk_eq (Nat.lt_succ_self _), h.integrity⟩

/-- The heap that `init_kmalloc` leaves behind. -/
def freshHeap : History Unit := historyOf mapAll [] (by decide +kernel)

/-- A heap with three live allocations. -/
def threeLive : History Unit :=
  historyOf mapAll [.kmalloc 100, .kmalloc 20, .kmalloc 300] (by decide +kernel)

theorem heap_integrity_threeLive :
    ∃ fuel hs, walk threeLive.kernel.mem fuel threeLive.kernel.firstBlk = some hs ∧
      Integrity threeLive hs :=
  heap_integrity (reachable_historyOf _ _ _)

end PakOS
