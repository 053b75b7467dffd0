import PakOS.Kmalloc.Window

/-!
# Invariants of the provider of memory

The heap grows only at its end, by whole pages, and asks its provider for exactly these.  So a
property `I` of the heap's size and the provider's state holds throughout a run if it holds at first
and every request keeps it (`ProviderInv.run`); the calls that do not grow the heap need not be
looked at again.
-/

namespace PakOS

open Machine

variable {E : Type*} {mmap : Mmap E} {I : ℕ → E → Prop} {guard : Kernel E → ℕ → Prop}

/-- The invariant of a run in which the provider keeps `I`. -/
structure ProviderInv (I : ℕ → E → Prop) (s : History E) (bs : List Block) : Prop
    extends HistoryInv s bs where
  /-- The heap starts at `__kheap_start`. -/
  start : s.kernel.heapStart = kheapStart
  /-- The heap is not larger than its window. -/
  size_le : s.kernel.heapSize ≤ kheapMaxSize + 1
  /-- The property of the provider. -/
  provider : I s.kernel.heapSize s.kernel.os

/-- Requests that the guard lets through stay in the window, and the provider keeps `I` when the
heap has to grow for one. -/
structure KeepsProvider (mmap : Mmap E) (I : ℕ → E → Prop) (guard : Kernel E → ℕ → Prop) : Prop where
  /-- The guard keeps the window. -/
  window : ∀ k length, guard k length → ¬Overruns k length
  /-- The request behind the end of the heap. -/
  grow : ∀ k length, guard k length → ¬Serves k length → 4096 ∣ k.heapSize →
    k.heapSize + growth length ≤ kheapMaxSize + 1 → I k.heapSize k.os →
    I (k.heapSize + growth length) (mmap (kheapStart + k.heapSize) (growth length) k.os).2

/-! ### One call of `kmalloc` -/

/-- A call of `kmalloc` that the guard lets through. -/
theorem HeapInv.kmalloc_provider {k k' : Kernel E} {bs : List Block} {fuel length p : ℕ}
    (h : HeapInv k bs) (hkeep : KeepsProvider mmap I guard) (hg : guard k length)
    (hstart : k.heapStart = kheapStart) (hsize : k.heapSize ≤ kheapMaxSize + 1)
    (hI : I k.heapSize k.os) (hk : kmalloc (kernelSpace mmap) fuel length k = some (p, k')) :
    EndOk k k' ∧ k'.heapStart = kheapStart ∧ k'.heapSize ≤ kheapMaxSize + 1 ∧
      I k'.heapSize k'.os := by
  have hw := hkeep.window k length hg
  obtain ⟨-, halign, hgrow⟩ := h.sizes_of_not_overruns hsize hw
  have hmax : kheapStart + (kheapMaxSize + 1) < 4294967296 := by decide
  rcases fits_cases (align16 length) bs with ⟨pre, b, post, rfl, hpre, hb⟩ | hnone
  · obtain ⟨-, ⟨m, rfl⟩, -⟩ := eq_of_kmalloc_of_fits h hpre hb hk
    exact ⟨⟨le_rfl, h.end_lt⟩, hstart, hsize, hI⟩
  · obtain ⟨-, rfl⟩ := eq_of_kmalloc_of_not_fits h hnone hk
    have hserves : ¬Serves k length := by
      rw [h.serves_iff]
      rintro ⟨b, hb, hfree, hle⟩
      exact hnone b hb ⟨hfree, halign ▸ hle⟩
    have hfits : k.heapSize + growth length ≤ kheapMaxSize + 1 :=
      Nat.le_of_not_lt fun hlt => hw ⟨hserves, hlt⟩
    have hsize' : (PakOS.grown mmap k (lastAddr bs) (align16 length)).heapSize =
        k.heapSize + growth length := by
      rw [← hgrow, ← halign] at hfits ⊢
      exact add32_of_lt (by omega)
    have hos : (PakOS.grown mmap k (lastAddr bs) (align16 length)).os =
        (mmap (kheapStart + k.heapSize) (growth length) k.os).2 := by
      rw [← hgrow, ← hstart, ← halign]
      rfl
    refine ⟨⟨?_, ?_⟩, hstart, ?_, ?_⟩
    · rw [hsize']
      exact Nat.le_add_right _ _
    · rw [hsize']
      change k.heapStart + (k.heapSize + growth length) < 4294967296
      omega
    · rw [hsize']
      exact hfits
    · rw [hsize', hos]
      exact hkeep.grow k length hg hserves h.size_aligned hfits hI

/-! ### Calls -/

section Calls

variable {s s' : History E} {bs : List Block} {k : Kernel E}

/-- A step of the allocator that keeps the window and the property keeps the invariant. -/
theorem ProviderInv.of_step (h : ProviderInv I s bs) (hstep : Step mmap s s')
    (hstart : s'.kernel.heapStart = kheapStart) (hsize : s'.kernel.heapSize ≤ kheapMaxSize + 1)
    (hI : I s'.kernel.heapSize s'.kernel.os) : ∃ bs', ProviderInv I s' bs' := by
  obtain ⟨bs', hinv, -⟩ := hstep.refines h.toHistoryInv
  exact ⟨bs', hinv, hstart, hsize, hI⟩

/-- A step that leaves everything but memory as it was behind a call of `kmalloc`. -/
theorem ProviderInv.of_kmalloc (h : ProviderInv I s bs) (hkeep : KeepsProvider mmap I guard)
    {fuel length p : ℕ} {m : Mem} (hg : guard s.kernel length)
    (hk : kmalloc (kernelSpace mmap) fuel length s.kernel = some (p, k))
    (hstep : EndOk s.kernel k → Step mmap s s') (hs' : s'.kernel = { k with mem := m }) :
    ∃ bs', ProviderInv I s' bs' := by
  obtain ⟨hend, hstart, hsize, hI⟩ :=
    h.heap.kmalloc_provider hkeep hg h.start h.size_le h.provider hk
  refine h.of_step (hstep hend) ?_ ?_ ?_ <;> rw [hs']
  · exact hstart
  · exact hsize
  · exact hI

/-- A step that changes memory only. -/
theorem ProviderInv.of_mem (h : ProviderInv I s bs) {m : Mem} (hstep : Step mmap s s')
    (hs' : s'.kernel = { s.kernel with mem := m }) : ∃ bs', ProviderInv I s' bs' := by
  refine h.of_step hstep ?_ ?_ ?_ <;> rw [hs']
  · exact h.start
  · exact h.size_le
  · exact h.provider

/-- A request that the guard lets through has a size that does not wrap around. -/
theorem ProviderInv.sizeOk (h : ProviderInv I s bs) (hkeep : KeepsProvider mmap I guard)
    {length : ℕ} (hg : guard s.kernel length) : SizeOk length :=
  (h.heap.sizes_of_not_overruns h.size_le (hkeep.window _ _ hg)).1

/-- Neither has a size that a block of the heap holds. -/
theorem ProviderInv.sizeOk_of_le (h : ProviderInv I s bs) {b : Block} (hb : b ∈ bs) {size : ℕ}
    (hle : size ≤ b.size) : SizeOk size := by
  have hmem := h.heap.placed.mem hb
  have hmax := h.size_le
  unfold Block.stop at hmem
  unfold kheapMaxSize at hmax
  have halign := le_align16 (show size + 15 < 4294967296 by omega)
  exact ⟨by omega, by omega⟩

/-- `krealloc` of a live address. -/
theorem ProviderInv.of_krealloc (h : ProviderInv I s bs) (hkeep : KeepsProvider mmap I guard)
    {fuel ptr size q : ℕ} (hptr : ptr ∈ s.live)
    (hg : getField s.kernel.mem (headerOf ptr) .size < size → guard s.kernel size)
    (hk : krealloc (kernelSpace mmap) fuel ptr size s.kernel = some (q, k)) :
    ∃ bs', ProviderInv I (s.moved ptr q k) bs' := by
  obtain ⟨b, hb, hfree, rfl⟩ := h.exists_block hptr
  have hbsize := h.heap.size_eq hb
  rw [hbsize] at hg
  have hend : b.size < size → ∀ p k₁,
      kmalloc (kernelSpace mmap) fuel size s.kernel = some (p, k₁) → EndOk s.kernel k₁ :=
    fun hlt p k₁ hk₁ =>
      (h.heap.kmalloc_provider hkeep (hg hlt) h.start h.size_le h.provider hk₁).1
  have hlen : SizeOk size := by
    rcases Nat.lt_or_ge b.size size with hlt | hle
    · exact h.sizeOk hkeep (hg hlt)
    · exact h.sizeOk_of_le hb hle
  have hstep : Step mmap s (s.moved (b.addr + 20) q k) := by
    refine .krealloc (Or.inr hptr) hk hlen fun hlt => ?_
    rw [hbsize] at hlt
    exact hend (hlt.resolve_left (by omega))
  -- either nothing was allocated, or the block moved behind a call of `kmalloc`
  obtain ⟨-, -, -, rfl | ⟨hlt, p, k₁, m, hkm, rfl⟩⟩ := krealloc_step h.heap hb hfree hk hlen hend
  · exact h.of_mem (m := s.kernel.mem) hstep (History.moved_kernel s _ q s.kernel)
  · exact h.of_kmalloc hkeep (hg hlt) hkm (fun _ => hstep) (History.moved_kernel s _ q _)

/-- A call that the guard lets through keeps the invariant. -/
theorem HeapCall.providerInv (h : ProviderInv I s bs) (hkeep : KeepsProvider mmap I guard)
    (hs : HeapCall mmap guard s s') : ∃ bs', ProviderInv I s' bs' := by
  cases hs with
  | @kmalloc fuel length p k hk hg =>
    exact h.of_kmalloc hkeep hg hk (m := k.mem) (.kmalloc hk (h.sizeOk hkeep hg))
      (History.handOut_kernel s p k)
  | @kcalloc fuel nmemb size p k hk hg =>
    have hlen := h.sizeOk hkeep hg
    have hmul : nmemb * size < 4294967296 := (Nat.le_add_right _ 15).trans_lt hlen.1
    obtain ⟨k₁, hkm, rfl⟩ := kcalloc_eq_some_iff.mp hk
    rw [mul32_of_lt hmul] at hkm
    exact h.of_kmalloc hkeep hg hkm (fun hend => .kcalloc hk hmul hlen hend)
      (History.handOut_kernel s p _)
  | @krealloc fuel ptr size q k hptr hk hg =>
    rcases hptr with rfl | hptr
    · have hkm : PakOS.kmalloc (kernelSpace mmap) fuel size s.kernel = some (q, k) := hk
      have hg' := hg (Or.inl rfl)
      refine h.of_kmalloc hkeep hg' hkm (m := k.mem) (fun hend => ?_) (History.moved_kernel s 0 q k)
      exact .krealloc (Or.inl rfl) hk (h.sizeOk hkeep hg') fun _ p k₁ hk₁ =>
        (h.heap.kmalloc_provider hkeep hg' h.start h.size_le h.provider hk₁).1
    · exact h.of_krealloc hkeep hptr (fun hlt => hg (Or.inr hlt)) hk
  | @kfree fuel ptr st k hptr hk =>
    have hmem : ∃ m, k = { s.kernel with mem := m } := by
      rcases hptr with rfl | hptr
      · exact ⟨s.kernel.mem, (kfree_null hk).2⟩
      · obtain ⟨b, hb, -, rfl⟩ := h.exists_block hptr
        exact ⟨_, (kfree_step h.heap hb hk).2.1⟩
    obtain ⟨m, rfl⟩ := hmem
    exact h.of_mem (.kfree hptr hk) (History.giveBack_kernel s ptr _)

end Calls

/-- A run of calls that the guard lets through keeps the invariant. -/
theorem ProviderInv.run {s s' : History E} {bs : List Block} (h : ProviderInv I s bs)
    (hkeep : KeepsProvider mmap I guard)
    (hrun : Relation.ReflTransGen (HeapCall mmap guard) s s') : ∃ bs', ProviderInv I s' bs' := by
  induction hrun with
  | refl => exact ⟨bs, h⟩
  | tail _ hstep ih =>
    obtain ⟨bs', h'⟩ := ih
    exact hstep.providerInv h' hkeep

/-- The heap that the kernel begins with, when the request for it established the property. -/
theorem providerInv_init {k₀ k : Kernel E} {fuel : ℕ} {st : Status} (hfirst : k₀.firstBlk = 0)
    (hinit : initKmalloc (kernelSpace mmap) fuel kheapStart 0 k₀ = some (st, k))
    (hI : I 12288 (mmap kheapStart 12288 k₀.os).2) :
    ProviderInv I (kernelHeap.history k) [⟨kheapStart, kernelHeap.grow - 40, true⟩] := by
  have hinit' : initKmalloc (kernelSpace mmap) fuel kernelHeap.start kernelHeap.minSize k₀ =
      some (st, k) := hinit
  obtain ⟨-, hstart, hsize, hos, hinv⟩ := initKmalloc_spec hfirst hinit'
  have hgrow : kernelHeap.grow = 12288 := by decide
  rw [hgrow] at hsize hos
  refine ⟨⟨hinv, List.nodup_nil, fun p => by simp [HeapBase.history]⟩, hstart, ?_, ?_⟩
  · change k.heapSize ≤ kheapMaxSize + 1
    rw [hsize]
    decide
  · change I k.heapSize k.os
    rw [hsize, hos]
    exact hI

end PakOS
