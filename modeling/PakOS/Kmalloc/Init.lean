import PakOS.Kmalloc.Ops

/-!
# The first allocation

Before the first call there is no block.  `kmalloc` then obtains one block of `_min_heap_size` bytes
or more and calls itself (`kmalloc_first`).  `init_kmalloc` makes that call and frees what it
returned: `initKmalloc_spec` describes the heap it leaves behind.  `HeapBase` collects what is asked
of the arguments of `init_kmalloc`; `kernelHeap` are the arguments the kernel passes.
-/

namespace PakOS

open Machine Coalesce

variable {E : Type*}

/-- Arguments of `init_kmalloc` that put the heap on a page above the text buffer, with room for the
first block. -/
structure HeapBase where
  /-- `kheap_start` -/
  start : ℕ
  /-- `kheap_size` -/
  minSize : ℕ
  /-- The heap starts on a page. -/
  aligned : 4096 ∣ start
  /-- The heap lies above the text buffer. -/
  above : vgaBase + 4000 ≤ start
  /-- The size of the first block does not wrap around. -/
  size_ok : max minSize (align16 11000) + 20 + 4096 < 4294967296
  /-- The end of the first block is an address. -/
  end_ok : start + growBytes (max minSize (align16 11000)) < 4294967296

/-- The heap of the kernel: `init_kmalloc(__kheap_start, 0)`. -/
def kernelHeap : HeapBase where
  start := kheapStart
  minSize := 0
  aligned := by decide
  above := by decide
  size_ok := by decide
  end_ok := by decide

/-! ### The first block -/

/-- The state after `kmalloc(length)` has obtained the first block. -/
def firstGrown (mmap : Mmap E) (k : Kernel E) (length : ℕ) : Kernel E :=
  let min := max k.minHeapSize length
  { k with
    os := (mmap k.heapStart (growBytes min) k.os).2
    minHeapSize := min
    heapSize := growBytes min
    mem := appendHeader k.mem 0 k.heapStart (growBytes min)
    firstBlk := k.heapStart }

theorem growBytes_lt (size : ℕ) : growBytes size < 4294967296 :=
  Nat.and_lt_two_pow (n := 32) _ (by decide)

/-- Without a first block, `kmalloc` obtains one and starts again. -/
theorem kmalloc_first {mmap : Mmap E} {k : Kernel E} {fuel length : ℕ} (hfirst : k.firstBlk = 0)
    (hsize : k.heapSize = 0) (hpos : 0 < k.heapStart) (hlt : k.heapStart < 4294967295) :
    kmalloc (kernelSpace mmap) (fuel + 1) length k =
      kmalloc (kernelSpace mmap) fuel (align16 length) (firstGrown mmap k (align16 length)) := by
  have hstart : add32 k.heapStart 0 = k.heapStart := add32_of_lt (by omega)
  have hgrow : ∀ size, add32 0 (growBytes size) = growBytes size := by
    intro size
    rw [add32_of_lt (by rw [Nat.zero_add]; exact growBytes_lt size), Nat.zero_add]
  have hnonnull : ¬(k.heapStart = 0xffffffff ∨ k.heapStart = 0) := by omega
  rw [kmalloc]
  simp only [if_pos hfirst, newBlockspace, kernelSpace, firstGrown]
  by_cases hlen : align16 length > k.minHeapSize
  · simp only [if_pos hlen, hsize, hstart, hgrow, if_neg hnonnull, max_eq_right hlen.le]
  · simp only [if_neg hlen, hsize, hstart, hgrow, if_neg hnonnull,
      max_eq_left (Nat.le_of_not_lt hlen)]

/-- A heap with its first block. -/
theorem heapIn_first {m : Mem} {lo block nbytes hi : ℕ} (hpage : 4096 ≤ lo) (hlo : lo ≤ block)
    (hn : 20 ≤ nbytes) (hle : block + nbytes ≤ hi) (hlt : hi < 4294967296) :
    HeapIn block (appendHeader m 0 block nbytes) lo hi [⟨block, nbytes - 20, true⟩] := by
  have hnil : Represents m [] :=
    ⟨fun b hb => absurd hb List.not_mem_nil, List.isChain_cons_cons.mpr
      ⟨⟨fun h => absurd rfl h, fun h => absurd rfl h⟩, List.isChain_singleton _⟩⟩
  have hempty : Placed block [] block := le_rfl
  have hrep := represents_append hnil hempty le_rfl (by omega) (by omega) hn (by omega)
  rw [lastAddr_nil, List.nil_append] at hrep
  refine ⟨rfl, List.cons_ne_nil _ _, hrep, ?_, hpage, hlt, List.isChain_singleton _⟩
  simp only [Placed, Block.stop]
  omega

/-- The kernel heap with its first block. -/
theorem heapInv_firstGrown {mmap : Mmap E} {k : Kernel E} {length : ℕ} (hpos : 0 < k.heapStart)
    (haligned : 4096 ∣ k.heapStart) (hsize : max k.minHeapSize length + 20 + 4096 < 4294967296)
    (hend : k.heapStart + growBytes (max k.minHeapSize length) < 4294967296) :
    HeapInv (firstGrown mmap k length)
      [⟨k.heapStart, growBytes (max k.minHeapSize length) - 20, true⟩] := by
  obtain ⟨hgrow, -⟩ := growBytes_bounds hsize
  have hin : HeapIn k.heapStart (firstGrown mmap k length).mem k.heapStart
      (k.heapStart + growBytes (max k.minHeapSize length))
      [⟨k.heapStart, growBytes (max k.minHeapSize length) - 20, true⟩] :=
    heapIn_first (Nat.le_of_dvd hpos haligned) le_rfl (by omega) le_rfl hend
  exact ⟨hin.first, hin.ne_nil, hin.rep, hin.placed, hpos, haligned, dvd_growBytes _, hin.hi_lt,
    hin.coalesced⟩

/-! ### `init_kmalloc` -/

/-- The size of the first block. -/
def HeapBase.grow (base : HeapBase) : ℕ := growBytes (max base.minSize (align16 11000))

/-- The first block always has room to be split by the first allocation. -/
theorem HeapBase.le_grow (base : HeapBase) : 12288 ≤ base.grow := by
  have hgrow := (growBytes_bounds base.size_ok).1
  obtain ⟨n, hn⟩ := dvd_growBytes (max base.minSize (align16 11000))
  have hmax := le_max_right base.minSize (align16 11000)
  have h11008 : align16 11000 = 11008 := by decide
  unfold HeapBase.grow
  omega

/-- Freeing the first of two blocks, the second of which is free. -/
theorem releaseBlock_pair (a n c l : ℕ) (hac : a ≠ c) :
    releaseBlock a [⟨a, n, false⟩, ⟨c, l, true⟩] = [⟨a, n + l, true⟩] := by
  simp [releaseBlock, release, markAt, hac.symm, Block.released, join, Block.merge]

/-- The state in which `init_kmalloc` makes its first allocation. -/
def HeapBase.begin (base : HeapBase) (k : Kernel E) : Kernel E :=
  { k with heapStart := base.start, minHeapSize := base.minSize, heapSize := 0 }

/-- The heap with its first block, before `init_kmalloc`'s allocation is served from it. -/
theorem HeapBase.inv_first (base : HeapBase) (mmap : Mmap E) (k : Kernel E) :
    HeapInv (firstGrown mmap (base.begin k) (align16 11000))
      [⟨base.start, base.grow - 20, true⟩] := by
  have habove := base.above
  unfold vgaBase at habove
  have hpos : 0 < (base.begin k).heapStart := by
    show 0 < base.start
    omega
  exact heapInv_firstGrown hpos base.aligned base.size_ok base.end_ok

/-- The heap begins at an address that is neither `NULL` nor the last one. -/
theorem HeapBase.start_bounds (base : HeapBase) : 0 < base.start ∧ base.start < 4294967295 := by
  have habove := base.above
  have hend := base.end_ok
  have hle := base.le_grow
  unfold vgaBase at habove
  unfold HeapBase.grow at hle
  exact ⟨by omega, by omega⟩

/-- The first allocation of `init_kmalloc` obtains the first block. -/
theorem initKmalloc_eq (base : HeapBase) (mmap : Mmap E) {k : Kernel E} (hfirst : k.firstBlk = 0)
    (fuel : ℕ) :
    initKmalloc (kernelSpace mmap) (fuel + 1) base.start base.minSize k =
      match kmalloc (kernelSpace mmap) fuel (align16 11000)
        (firstGrown mmap (base.begin k) (align16 11000)) with
      | none => none
      | some (a, k) =>
        (kfree (kernelSpace mmap) (fuel + 1) a k).map fun r => (Status.ok, r.2) := by
  have hpos : 0 < (base.begin k).heapStart := base.start_bounds.1
  have hlt : (base.begin k).heapStart < 4294967295 := base.start_bounds.2
  have hempty : (base.begin k).firstBlk = 0 := hfirst
  rw [← kmalloc_first hempty rfl hpos hlt]
  rfl

/-- The first allocation of `init_kmalloc` is served from the first block, and splits it. -/
theorem HeapBase.takeBlock_first (base : HeapBase) :
    Fits (align16 (align16 11000)) ⟨base.start, base.grow - 20, true⟩ ∧
      takeBlock (align16 (align16 11000)) ⟨base.start, base.grow - 20, true⟩ =
        [⟨base.start, 11008, false⟩, ⟨base.start + 20 + 11008, base.grow - 11048, true⟩] := by
  have hle := base.le_grow
  have h11008 : align16 (align16 11000) = 11008 := by decide
  have hrest : base.grow - 20 - 20 - 11008 = base.grow - 11048 := by omega
  rw [h11008, takeBlock, if_pos (show base.grow - 20 > 256 + 11008 + 20 by omega), hrest]
  exact ⟨⟨rfl, show 11008 ≤ base.grow - 20 by omega⟩, rfl⟩

/-- The heap that `init_kmalloc` leaves behind: one free block.  The first allocation split it, and
freeing that allocation merged the two parts again, 20 bytes short. -/
theorem initKmalloc_spec {base : HeapBase} {mmap : Mmap E} {k k' : Kernel E} {fuel : ℕ} {st : Status}
    (hfirst : k.firstBlk = 0)
    (hk : initKmalloc (kernelSpace mmap) fuel base.start base.minSize k = some (st, k')) :
    st = .ok ∧ k'.heapStart = base.start ∧ k'.heapSize = base.grow ∧
      k'.os = (mmap base.start base.grow k.os).2 ∧
      HeapInv k' [⟨base.start, base.grow - 40, true⟩] := by
  have hle := base.le_grow
  have hinv : HeapInv _ ([] ++ ⟨base.start, base.grow - 20, true⟩ :: []) :=
    base.inv_first mmap k
  obtain ⟨hfit, htake⟩ := base.takeBlock_first
  cases fuel with
  | zero => simp [initKmalloc, kmalloc] at hk
  | succ fuel =>
    rw [initKmalloc_eq base mmap hfirst] at hk
    cases hkm : kmalloc (kernelSpace mmap) fuel (align16 11000)
      (firstGrown mmap (base.begin k) (align16 11000)) with
    | none => simp [hkm] at hk
    | some r =>
      obtain ⟨a, k₂⟩ := r
      simp only [hkm, Option.map_eq_some_iff] at hk
      obtain ⟨⟨st₃, k₃⟩, hkfree, hkr⟩ := hk
      simp only [Prod.mk.injEq] at hkr
      obtain ⟨rfl, rfl⟩ := hkr
      obtain ⟨rfl, ⟨m, rfl⟩, hinv₂⟩ := eq_of_kmalloc_of_fits hinv (by simp) hfit hkm
      rw [htake] at hinv₂
      -- freeing the first part merges the two again
      obtain ⟨-, rfl, hinv₃⟩ :=
        kfree_step (b := ⟨base.start, 11008, false⟩) hinv₂ (by simp) hkfree
      have hsum : 11008 + (base.grow - 11048) = base.grow - 40 := by omega
      have hpair : releaseBlock base.start [⟨base.start, 11008, false⟩,
          ⟨base.start + 20 + 11008, base.grow - 11048, true⟩] =
            [⟨base.start, base.grow - 40, true⟩] := by
        rw [releaseBlock_pair _ _ _ _ (by omega), hsum]
      exact ⟨rfl, rfl, rfl, rfl, by rwa [← hpair]⟩

/-- `init_kmalloc` returns. -/
theorem exists_initKmalloc (base : HeapBase) (mmap : Mmap E) {k : Kernel E}
    (hfirst : k.firstBlk = 0) :
    ∃ k', initKmalloc (kernelSpace mmap) 3 base.start base.minSize k = some (.ok, k') := by
  have hinv : HeapInv _ ([] ++ ⟨base.start, base.grow - 20, true⟩ :: []) :=
    base.inv_first mmap k
  obtain ⟨hfit, htake⟩ := base.takeBlock_first
  obtain ⟨m, hm, hinv₂, -⟩ :=
    kmalloc_of_fits (kernelSpace mmap) hinv (by simp) hfit (Nat.lt_succ_self 0)
  rw [htake] at hinv₂
  obtain ⟨k', hfree⟩ : ∃ k', kfree (kernelSpace mmap) 3 (base.start + 20) _ = some (.ok, k') :=
    ⟨_, (kfree_of_mem (b := ⟨base.start, 11008, false⟩) (kernelSpace mmap) hinv₂ (by simp) 2).1⟩
  refine ⟨k', ?_⟩
  rw [initKmalloc_eq base mmap hfirst, hm]
  simp only [hfree, Option.map_some]

end PakOS
