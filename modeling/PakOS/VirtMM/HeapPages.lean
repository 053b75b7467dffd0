import PakOS.Kmalloc.Provider
import PakOS.VirtMM.BootTables
import PakOS.VirtMM.PagedMemory

/-!
# The pages of the heap

The allocator on the page tables of the boot code: `__new_blockspace` calls the `mmap` of
`virt-mm.c`, which drops what it cannot do.  As long as the frame allocator has what the heap asks
for, every page of the heap has a frame of its own that is in use and no page table, and everything
below the heap stays where the boot code put it (`heap_paged`).
-/

namespace PakOS

open Machine VirtMM

variable {P : Type*} {F : FramePool P}

/-- `mmap` as the heap calls it; without a state when an earlier call has not returned. -/
def pagedMmap (F : FramePool P) : Mmap (Option (VirtMM P)) := fun addr length os =>
  match os.bind (VirtMM.mmap F addr length) with
  | some (st, v) => (st, some v)
  | none => (.ok, none)

/-- The first page of the heap. -/
def heapPage : ℕ := kheapStart / 4096

/-- The pages of a heap of `size` bytes are owned, and the pages below are translated as `lower`
says. -/
def HeapPaged (F : FramePool P) (lower : ℕ → Option ℕ) (size : ℕ) (os : Option (VirtMM P)) : Prop :=
  0 < size ∧ ∃ v, os = some v ∧ Owns F v (pageRange heapPage (size / 4096)) ∧
    ∀ p < heapPage, v.translate p = lower p

/-- A request that keeps the heap in its window, and for which the frame allocator has the frames if
the heap has to grow. -/
def Affordable (F : FramePool P) (k : Kernel (Option (VirtMM P))) (length : ℕ) : Prop :=
  ¬Overruns k length ∧ (¬Serves k length → ∀ v, k.os = some v →
    Supplied F (heapPage + k.heapSize / 4096) (pageCount (growth length)) v)

/-! ### Ranges of pages -/

theorem pageRange_zero (page : ℕ) : pageRange page 0 = ∅ :=
  Set.eq_empty_of_forall_notMem fun _ h => absurd h.2 (by have := h.1; omega)

/-- A range and what comes behind it. -/
theorem pageRange_union (page n k : ℕ) :
    pageRange page n ∪ pageRange (page + n) k = pageRange page (n + k) := by
  ext p
  change (page ≤ p ∧ p < page + n ∨ page + n ≤ p ∧ p < page + n + k) ↔
    page ≤ p ∧ p < page + (n + k)
  omega

theorem pageRange_disjoint (page n k : ℕ) :
    Disjoint (pageRange page n) (pageRange (page + n) k) :=
  Set.disjoint_left.mpr fun p h h' => by
    have := h.2
    have := h'.1
    omega

/-- Mapping pages from the heap on spares the pages below. -/
theorem spares_below {v : VirtMM P} {q page : ℕ} (hq : q < heapPage) (hpage : heapPage ≤ page)
    (hlt : page < 1047552) : Spares v page q := by
  have hheap : heapPage = 832 * 1024 := by decide
  exact ⟨by omega, by unfold windowPage; omega, Or.inr ⟨by omega, by unfold windowPage; omega⟩⟩

/-! ### Growing the heap -/

/-- A call of `mmap` for the pages behind the heap. -/
theorem heapPaged_mmap (hF : F.Lawful) {lower : ℕ → Option ℕ} {n k : ℕ} {v : VirtMM P}
    (hown : Owns F v (pageRange heapPage n)) (hlower : ∀ p < heapPage, v.translate p = lower p)
    (hpos : 0 < k) (hk : k < 65536) (hfits : n + k ≤ 65536) (hsup : Supplied F (heapPage + n) k v) :
    HeapPaged F lower (4096 * n + 4096 * k)
      (pagedMmap F (kheapStart + 4096 * n) (4096 * k) (some v)).2 := by
  have hheap : heapPage = 832 * 1024 := by decide
  have hcount : pageCount (4096 * k) = k := by unfold pageCount; omega
  have haddr : kheapStart + 4096 * n = 4096 * (heapPage + n) := by
    unfold kheapStart
    omega
  have hsup' : Supplied F (heapPage + n) (pageCount (4096 * k)) v := by rwa [hcount]
  obtain ⟨v', a, hmmap, hmaps, hown', -⟩ := hown.mmap_spec hF (by omega) (by rwa [hcount])
    (by rw [hcount]; omega) hsup' (pageRange_disjoint heapPage n _)
  rw [hcount] at hmaps
  rw [hcount, pageRange_union] at hown'
  have hsize : (4096 * n + 4096 * k) / 4096 = n + k := by omega
  refine ⟨by omega, v', ?_, by rwa [hsize], fun p hp => ?_⟩
  · rw [haddr, pagedMmap, Option.bind_some, hmmap]
  · rw [hmaps.kept p (by omega) fun i hi => spares_below hp (by omega) (by omega), hlower p hp]

/-- The requests that are affordable keep the heap paged. -/
theorem keepsProvider_heapPaged (hF : F.Lawful) (lower : ℕ → Option ℕ) :
    KeepsProvider (pagedMmap F) (HeapPaged F lower) (Affordable F) := by
  refine ⟨fun k length hg => hg.1, fun k length hg hserves hdvd hfits hI => ?_⟩
  obtain ⟨hpos, v, hos, hown, hlower⟩ := hI
  obtain ⟨n, hn⟩ := hdvd
  obtain ⟨j, hj⟩ : ∃ j, growth length = 4096 * j := ⟨_, Nat.mul_comm _ 4096⟩
  have hjpos : 0 < growth length := by unfold growth; omega
  have hdiv : 4096 * n / 4096 = n := Nat.mul_div_cancel_left n (by decide)
  have hcount : pageCount (4096 * j) = j := by unfold pageCount; omega
  have hsup := hg.2 hserves v hos
  rw [hn, hj, hdiv, hcount] at hsup
  unfold kheapMaxSize at hfits
  rw [hn, hdiv] at hown
  rw [hn, hj, hos]
  exact heapPaged_mmap hF hown hlower (by omega) (by omega) (by omega) hsup

/-! ### The heap of the kernel -/

/-- Nothing is owned when `kernel_init` is called. -/
theorem owns_booted {img : BootImage} {pool : P} {m : PhysMem} (hm : img.Blank m)
    (huse : ∀ f ∈ [img.pdeFrame, img.pte768Frame], F.inUse pool f = true) :
    Owns F (img.booted pool m) (pageRange heapPage 0) := by
  rw [pageRange_zero]
  exact ⟨BootImage.sound_booted hm huse, fun _ h => absurd h id, fun _ h => absurd h id,
    fun _ h => absurd h id⟩

/-- The bytes of a block that was handed out lie in the pages of the heap. -/
theorem ProviderInv.mem_heapPages {E : Type*} {I : ℕ → E → Prop} {s : History E} {bs : List Block}
    (h : ProviderInv I s bs) {ptr i : ℕ} (hptr : ptr ∈ s.live)
    (hi : i < getField s.kernel.mem (headerOf ptr) .size) :
    (ptr + i) / 4096 ∈ pageRange heapPage (s.kernel.heapSize / 4096) := by
  obtain ⟨b, hb, -, rfl⟩ := h.exists_block hptr
  rw [h.heap.size_eq hb] at hi
  have hmem := h.heap.placed.mem hb
  obtain ⟨n, hn⟩ := h.heap.size_aligned
  have hheap : kheapStart = 4096 * heapPage := by decide
  rw [h.start, hheap, hn] at hmem
  unfold Block.stop at hmem
  rw [hn, Nat.mul_div_cancel_left n (by decide)]
  exact ⟨by omega, by omega⟩

/-- **The heap is paged.**  After the boot code and `init_kmalloc`, and after every run of calls of
`kmalloc`, `kcalloc`, `krealloc` and `kfree` that keeps the heap in its window and asks for no more
than the frame allocator has: every page of the heap has a frame of its own, in use and no page
table; every byte of every allocation lies in these pages; and the pages below the heap are
translated as the boot code left them. -/
theorem heap_paged (hF : F.Lawful) {img : BootImage} {pool : P} {m : PhysMem} {v₀ : VirtMM P}
    {k₀ k : Kernel (Option (VirtMM P))} {fuel : ℕ} {st : Status}
    {s : History (Option (VirtMM P))} (hm : img.Blank m)
    (huse : ∀ f ∈ [img.pdeFrame, img.pte768Frame], F.inUse pool f = true)
    (hboot : Yields (img.start pool m) v₀) (hos : k₀.os = some v₀) (hfirst : k₀.firstBlk = 0)
    (hsup : Supplied F heapPage 3 v₀)
    (hinit : initKmalloc (kernelSpace (pagedMmap F)) fuel kheapStart 0 k₀ = some (st, k))
    (hrun : Relation.ReflTransGen (HeapCall (pagedMmap F) (Affordable F)) (kernelHeap.history k) s) :
    ∃ v, s.kernel.os = some v ∧ Owns F v (pageRange heapPage (s.kernel.heapSize / 4096)) ∧
      (∀ ptr ∈ s.live, ∀ i < getField s.kernel.mem (headerOf ptr) .size,
        (ptr + i) / 4096 ∈ pageRange heapPage (s.kernel.heapSize / 4096)) ∧
      ∀ p < heapPage, v.translate p = img.pageMap p := by
  obtain ⟨N, hN⟩ := hboot.exists_run
  obtain rfl : v₀ = img.booted pool m := (BootImage.start_yields hm).unique N v₀ hN
  have hheap : heapPage = 832 * 1024 := by decide
  have hlower : ∀ p < heapPage, (img.booted pool m).translate p = img.pageMap p :=
    fun p hp => BootImage.pageWalk_bootMem hm (by omega)
  have hfirstPages := heapPaged_mmap hF (owns_booted hm huse) hlower (k := 3) (by decide)
    (by decide) (by decide) hsup
  have hI : HeapPaged F img.pageMap 12288 (pagedMmap F kheapStart 12288 k₀.os).2 := by
    rw [hos]
    exact hfirstPages
  obtain ⟨bs, h⟩ := (providerInv_init hfirst hinit hI).run
    (keepsProvider_heapPaged hF img.pageMap) hrun
  obtain ⟨-, v, hv, hown, hbelow⟩ := h.provider
  exact ⟨v, hv, hown, fun ptr hptr i hi => h.mem_heapPages hptr hi, hbelow⟩

/-- An image with its tables in the frames `0x108`, `0x109` and `0x10c`. -/
def smallImage : BootImage := ⟨0x10c, 0x108, 0x109, by decide, by decide⟩

/-- Eight free frames from four megabytes on. -/
def framesAbove : FramePool (ℕ → Bool) := FramePool.bitmapPool 0x400 8

/-- The paging of a machine whose memory was clear. -/
def smallPaging : VirtMM (ℕ → Bool) := smallImage.booted (fun f => decide (f < 0x400)) fun _ _ => 0

/-- A kernel that runs on it and has not allocated yet. -/
def smallKernel : Kernel (Option (VirtMM (ℕ → Bool))) where
  mem := fun _ => 0
  firstBlk := 0
  heapStart := 0
  heapSize := 0
  minHeapSize := 0
  vgaCursorR := 0
  vgaCursorC := 0
  serial := []
  os := some smallPaging

/-- A first allocation of 100 bytes, from three of the eight frames and one for a page table. -/
theorem heap_paged_first : ∃ (s : History (Option (VirtMM (ℕ → Bool)))) (v : VirtMM (ℕ → Bool)),
    s.live = [0xd0000014] ∧ s.kernel.os = some v ∧ Owns framesAbove v (pageRange heapPage (s.kernel.heapSize / 4096)) := by
  have hblank : smallImage.Blank fun _ _ => 0 := fun _ _ _ _ => rfl
  have hlawful : framesAbove.Lawful := FramePool.bitmapPool_lawful (by decide) (by decide)
  have hmissing : smallPaging.missingTables heapPage 3 = 1 := by decide +kernel
  have hsup : Supplied framesAbove heapPage 3 smallPaging := by
    refine ⟨4096 * 0x400, _, rfl, by decide, ?_⟩
    rw [hmissing]
    exact ⟨4096 * 0x407, _, rfl, by decide, trivial⟩
  have hcall : ((initKmalloc (kernelSpace (pagedMmap framesAbove)) 3 kheapStart 0
      smallKernel).bind fun r => (kmalloc (kernelSpace (pagedMmap framesAbove)) 3 100 r.2).map
        fun q => (r.1, walk r.2.mem 3 r.2.firstBlk, q.1)) =
          some (.ok, some [⟨0xd0000000, 1, 0, 0, 12248⟩], 0xd0000014) := by
    decide +kernel
  obtain ⟨⟨st, k⟩, hinit, hcall⟩ := Option.bind_eq_some_iff.mp hcall
  obtain ⟨⟨p, k'⟩, hk, hres⟩ := Option.map_eq_some_iff.mp hcall
  simp only [Prod.mk.injEq] at hres
  obtain ⟨rfl, hwalk, rfl⟩ := hres
  have hserves : Serves k 100 := ⟨3, _, hwalk, _, List.mem_cons_self, rfl, by decide⟩
  have hrun : Relation.ReflTransGen (HeapCall (pagedMmap framesAbove) (Affordable framesAbove))
      (kernelHeap.history k) ((kernelHeap.history k).handOut 0xd0000014 k') :=
    .single (.kmalloc hk ⟨fun h => h.1 hserves, fun h => absurd hserves h⟩)
  obtain ⟨v, hv, hown, -, -⟩ := heap_paged hlawful hblank (by decide)
    (BootImage.start_yields hblank) rfl rfl hsup hinit hrun
  exact ⟨_, v, rfl, hv, hown⟩

end PakOS
