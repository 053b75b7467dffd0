import PakOS.Kmalloc.Integrity

/-!
# The window of the kernel heap

The heap of the kernel is meant to stay below `__kheap_start + __kheap_max_size`, where the driver
space begins; nothing in the allocator looks at that bound.  `recorded mmap` keeps a list of what
`__new_blockspace` asks of `mmap`.  As long as no call overruns the window, every request lies
inside (`HeapCall.windowInv`, `WindowInv.run`); and a call that overruns it never fails with `NULL`,
so that in every such state the calls that keep the window are exactly those that do not overrun it
(`heap_window`).
-/

namespace PakOS

open Machine

variable {E : Type*} {mmap : Mmap E}

/-- `__kheap_max_size` -/
def kheapMaxSize : ℕ := 0x0fffffff

/-- The provider of memory, with a list of the requests made to it. -/
def recorded (mmap : Mmap E) : Mmap (E × List (ℕ × ℕ)) := fun addr length os =>
  let r := mmap addr length os.1
  (r.1, (r.2, (addr, length) :: os.2))

/-- All requests so far lie in the heap space, from its first to its last byte. -/
def InWindow (k : Kernel (E × List (ℕ × ℕ))) : Prop :=
  ∀ r ∈ k.os.2, kheapStart ≤ r.1 ∧ r.1 + r.2 ≤ kheapStart + kheapMaxSize + 1

/-- The payload that a request of `length` bytes is rounded up to. -/
def need (length : ℕ) : ℕ := (length + 15) / 16 * 16

/-- The bytes that the heap has to grow by to serve a request of `length` bytes. -/
def growth (length : ℕ) : ℕ := (need length + 20 + 4096) / 4096 * 4096

/-- A free block on the list serves a request of `length` bytes. -/
def Serves (k : Kernel E) (length : ℕ) : Prop :=
  ∃ fuel hs, walk k.mem fuel k.firstBlk = some hs ∧ ∃ h ∈ hs, h.free = mblkFree ∧ need length ≤ h.size

/-- A request of `length` bytes has to grow the heap, and out of its window. -/
def Overruns (k : Kernel E) (length : ℕ) : Prop :=
  ¬Serves k length ∧ kheapMaxSize + 1 < k.heapSize + growth length

/-- `kmalloc(length)` keeps the heap in its window: it asks for pages inside only, and it fails with
`NULL` if it would have to leave it. -/
def KeepsWindow (mmap : Mmap E) (k : Kernel (E × List (ℕ × ℕ))) (length : ℕ) : Prop :=
  ∀ fuel p k', kmalloc (kernelSpace (recorded mmap)) fuel length k = some (p, k') →
    InWindow k' ∧ (Overruns k length → p = 0)

/-- A call of a client that frees and reallocates only what it was handed; `guard` restricts the
sizes for which a block is allocated. -/
inductive HeapCall (mmap : Mmap E) (guard : Kernel E → ℕ → Prop) (s : History E) : History E → Prop
  /-- `kmalloc(length)` -/
  | kmalloc {fuel length p : ℕ} {k : Kernel E}
      (hk : PakOS.kmalloc (kernelSpace mmap) fuel length s.kernel = some (p, k))
      (hg : guard s.kernel length) : HeapCall mmap guard s (s.handOut p k)
  /-- `kcalloc(nmemb, size)` -/
  | kcalloc {fuel nmemb size p : ℕ} {k : Kernel E}
      (hk : PakOS.kcalloc (kernelSpace mmap) fuel nmemb size s.kernel = some (p, k))
      (hg : guard s.kernel (nmemb * size)) : HeapCall mmap guard s (s.handOut p k)
  /-- `krealloc(ptr, size)` -/
  | krealloc {fuel ptr size q : ℕ} {k : Kernel E} (hptr : ptr = 0 ∨ ptr ∈ s.live)
      (hk : PakOS.krealloc (kernelSpace mmap) fuel ptr size s.kernel = some (q, k))
      (hg : ptr = 0 ∨ getField s.kernel.mem (headerOf ptr) .size < size → guard s.kernel size) :
      HeapCall mmap guard s (s.moved ptr q k)
  /-- `kfree(ptr)` -/
  | kfree {fuel ptr : ℕ} {st : Status} {k : Kernel E} (hptr : ptr = 0 ∨ ptr ∈ s.live)
      (hk : PakOS.kfree (kernelSpace mmap) fuel ptr s.kernel = some (st, k)) :
      HeapCall mmap guard s (s.giveBack ptr k)

/-- The invariant of a run that stays in the window. -/
structure WindowInv (s : History (E × List (ℕ × ℕ))) (bs : List Block) : Prop
    extends HistoryInv s bs where
  /-- The heap starts at `__kheap_start`. -/
  start : s.kernel.heapStart = kheapStart
  /-- The heap is not larger than its window. -/
  size_le : s.kernel.heapSize ≤ kheapMaxSize + 1
  /-- Nothing else was asked for. -/
  inside : InWindow s.kernel

/-! ### One request -/

/-- The block list decides whether a request is served. -/
theorem HeapInv.serves_iff {k : Kernel E} {bs : List Block} (h : HeapInv k bs) {length : ℕ} :
    Serves k length ↔ ∃ b ∈ bs, b.free = true ∧ need length ≤ b.size := by
  constructor
  · rintro ⟨fuel, hs, hwalk, x, hx, hfree, hsize⟩
    obtain rfl := eq_of_walk hwalk (h.walk_eq (Nat.lt_succ_self _))
    obtain ⟨b, hb, -, hbfree, hbsize⟩ := exists_mem_of_mem_headersFrom hx
    refine ⟨b, hb, ?_, hbsize ▸ hsize⟩
    rw [hbfree, Block.flag] at hfree
    by_contra hused
    rw [if_neg hused] at hfree
    exact absurd hfree (by decide)
  · rintro ⟨b, hb, hfree, hsize⟩
    obtain ⟨x, hx, -, hxfree, hxsize⟩ := exists_mem_headersFrom 0 hb
    refine ⟨_, _, h.walk_eq (Nat.lt_succ_self _), x, hx, ?_, hxsize ▸ hsize⟩
    rw [hxfree, Block.flag, if_pos hfree]

/-- A request that does not overrun the window has sizes that do not wrap around. -/
theorem HeapInv.sizes_of_not_overruns {k : Kernel E} {bs : List Block} (h : HeapInv k bs)
    (hsize : k.heapSize ≤ kheapMaxSize + 1) {length : ℕ} (hw : ¬Overruns k length) :
    SizeOk length ∧ align16 length = need length ∧ growBytes (need length) = growth length := by
  have hneed : need length < 300000000 := by
    unfold Overruns at hw
    rw [not_and_or, not_not] at hw
    rcases hw with hserves | hfits
    · obtain ⟨b, hb, -, hle⟩ := h.serves_iff.mp hserves
      have hmem := h.placed.mem hb
      unfold Block.stop at hmem
      unfold kheapMaxSize at hsize
      omega
    · unfold growth kheapMaxSize at hfits
      omega
  have hlen : length < 300000000 := by
    unfold need at hneed
    omega
  have halign : align16 length = need length := by
    rw [align16_eq, add32_of_lt (by omega), need]
  refine ⟨⟨by omega, by omega⟩, halign, ?_⟩
  rw [growBytes_eq, add32_of_lt (show need length + 20 < 4294967296 by omega),
    add32_of_lt (by omega), growth]

/-- A call of `kmalloc` that does not overrun the window. -/
theorem HeapInv.kmalloc_window {k k' : Kernel (E × List (ℕ × ℕ))} {bs : List Block}
    {fuel length p : ℕ} (h : HeapInv k bs) (hstart : k.heapStart = kheapStart)
    (hsize : k.heapSize ≤ kheapMaxSize + 1) (hin : InWindow k) (hw : ¬Overruns k length)
    (hk : kmalloc (kernelSpace (recorded mmap)) fuel length k = some (p, k')) :
    EndOk k k' ∧ k'.heapStart = kheapStart ∧ k'.heapSize ≤ kheapMaxSize + 1 ∧ InWindow k' := by
  obtain ⟨-, halign, hgrow⟩ := h.sizes_of_not_overruns hsize hw
  have hmax : kheapStart + (kheapMaxSize + 1) < 4294967296 := by decide
  rcases fits_cases (align16 length) bs with ⟨pre, b, post, rfl, hpre, hb⟩ | hnone
  · obtain ⟨-, ⟨m, rfl⟩, -⟩ := eq_of_kmalloc_of_fits h hpre hb hk
    exact ⟨⟨le_rfl, h.end_lt⟩, hstart, hsize, hin⟩
  · obtain ⟨-, rfl⟩ := eq_of_kmalloc_of_not_fits h hnone hk
    have hserves : ¬Serves k length := by
      rw [h.serves_iff]
      rintro ⟨b, hb, hfree, hle⟩
      exact hnone b hb ⟨hfree, halign ▸ hle⟩
    have hfits : k.heapSize + growth length ≤ kheapMaxSize + 1 :=
      Nat.le_of_not_lt fun hlt => hw ⟨hserves, hlt⟩
    have hsize' : (PakOS.grown (recorded mmap) k (lastAddr bs) (align16 length)).heapSize =
        k.heapSize + growth length := by
      rw [← hgrow, ← halign] at hfits ⊢
      exact add32_of_lt (by omega)
    refine ⟨⟨?_, ?_⟩, hstart, ?_, fun r hr => ?_⟩
    · rw [hsize']
      exact Nat.le_add_right _ _
    · rw [hsize']
      change k.heapStart + (k.heapSize + growth length) < 4294967296
      omega
    · rw [hsize']
      exact hfits
    · rcases List.mem_cons.mp hr with rfl | hr
      · -- the request is for the bytes behind the old end of the heap
        change kheapStart ≤ k.heapStart + k.heapSize ∧
          k.heapStart + k.heapSize + growBytes (align16 length) ≤ kheapStart + kheapMaxSize + 1
        rw [halign, hgrow]
        omega
      · exact hin r hr

/-- A call of `kmalloc` that overruns the window does not fail. -/
theorem HeapInv.keepsWindow_iff {k : Kernel (E × List (ℕ × ℕ))} {bs : List Block} (h : HeapInv k bs)
    (hstart : k.heapStart = kheapStart) (hsize : k.heapSize ≤ kheapMaxSize + 1) (hin : InWindow k)
    (length : ℕ) : KeepsWindow mmap k length ↔ ¬Overruns k length := by
  constructor
  · intro hkeep hover
    obtain ⟨fuel, p, k', hk⟩ := exists_kmalloc (recorded mmap) h length
    exact kmalloc_ne_null h hk ((hkeep fuel p k' hk).2 hover)
  · intro hw fuel p k' hk
    exact ⟨(h.kmalloc_window hstart hsize hin hw hk).2.2.2, fun hover => absurd hover hw⟩

/-! ### Runs -/

/-- Changing memory only keeps the window. -/
theorem InWindow.of_mem {k : Kernel (E × List (ℕ × ℕ))} (h : InWindow k) (m : Mem) :
    InWindow { k with mem := m } := h

section Calls

variable {s s' : History (E × List (ℕ × ℕ))} {bs : List Block}
variable {k : Kernel (E × List (ℕ × ℕ))}

/-- A step of the allocator that keeps the window keeps the invariant. -/
theorem WindowInv.of_step (h : WindowInv s bs) (hstep : Step (recorded mmap) s s')
    (hstart : s'.kernel.heapStart = kheapStart) (hsize : s'.kernel.heapSize ≤ kheapMaxSize + 1)
    (hin : InWindow s'.kernel) : ∃ bs', WindowInv s' bs' := by
  obtain ⟨bs', hinv, -⟩ := hstep.refines h.toHistoryInv
  exact ⟨bs', hinv, hstart, hsize, hin⟩

/-- A call of `kmalloc` that does not overrun the window keeps the heap in it. -/
theorem WindowInv.kernel_of_kmalloc (h : WindowInv s bs) {fuel length p : ℕ}
    (hw : ¬Overruns s.kernel length)
    (hk : kmalloc (kernelSpace (recorded mmap)) fuel length s.kernel = some (p, k)) :
    EndOk s.kernel k ∧ k.heapStart = kheapStart ∧ k.heapSize ≤ kheapMaxSize + 1 ∧ InWindow k :=
  h.heap.kmalloc_window h.start h.size_le h.inside hw hk

/-- A request that does not overrun the window has a size that does not wrap around. -/
theorem WindowInv.sizeOk (h : WindowInv s bs) {length : ℕ} (hw : ¬Overruns s.kernel length) :
    SizeOk length :=
  (h.heap.sizes_of_not_overruns h.size_le hw).1

/-- A size that a block of the heap holds does not wrap around either. -/
theorem WindowInv.sizeOk_of_le (h : WindowInv s bs) {b : Block} (hb : b ∈ bs) {size : ℕ}
    (hle : size ≤ b.size) : SizeOk size := by
  have hmem := h.heap.placed.mem hb
  have hmax := h.size_le
  unfold Block.stop at hmem
  unfold kheapMaxSize at hmax
  have halign := le_align16 (show size + 15 < 4294967296 by omega)
  exact ⟨by omega, by omega⟩

/-- `kmalloc` in the window. -/
theorem WindowInv.of_kmalloc (h : WindowInv s bs) {fuel length p : ℕ}
    (hw : ¬Overruns s.kernel length)
    (hk : kmalloc (kernelSpace (recorded mmap)) fuel length s.kernel = some (p, k)) :
    ∃ bs', WindowInv (s.handOut p k) bs' := by
  obtain ⟨hend, hstart, hsize, hin⟩ := h.kernel_of_kmalloc hw hk
  refine h.of_step (.kmalloc hk (h.sizeOk hw) hend) ?_ ?_ ?_ <;> rwa [History.handOut_kernel]

/-- `kcalloc` in the window. -/
theorem WindowInv.of_kcalloc (h : WindowInv s bs) {fuel nmemb size p : ℕ}
    (hw : ¬Overruns s.kernel (nmemb * size))
    (hk : kcalloc (kernelSpace (recorded mmap)) fuel nmemb size s.kernel = some (p, k)) :
    ∃ bs', WindowInv (s.handOut p k) bs' := by
  have hlen := h.sizeOk hw
  have hmul : nmemb * size < 4294967296 := (Nat.le_add_right _ 15).trans_lt hlen.1
  obtain ⟨k₁, hkm, rfl⟩ := kcalloc_eq_some_iff.mp hk
  rw [mul32_of_lt hmul] at hkm
  obtain ⟨hend, hstart, hsize, hin⟩ := h.kernel_of_kmalloc hw hkm
  refine h.of_step (.kcalloc hk hmul hlen hend) ?_ ?_ ?_ <;> rw [History.handOut_kernel]
  · exact hstart
  · exact hsize
  · exact hin.of_mem _

/-- `krealloc(NULL, ·)` in the window. -/
theorem WindowInv.of_krealloc_null (h : WindowInv s bs) {fuel size q : ℕ}
    (hw : ¬Overruns s.kernel size)
    (hk : krealloc (kernelSpace (recorded mmap)) fuel 0 size s.kernel = some (q, k)) :
    ∃ bs', WindowInv (s.moved 0 q k) bs' := by
  have hkm : kmalloc (kernelSpace (recorded mmap)) fuel size s.kernel = some (q, k) := hk
  obtain ⟨-, hstart, hsize, hin⟩ := h.kernel_of_kmalloc hw hkm
  refine h.of_step (.krealloc (Or.inl rfl) hk (h.sizeOk hw) fun _ p k₁ hk₁ => ?_) ?_ ?_ ?_
  · exact (h.kernel_of_kmalloc hw hk₁).1
  all_goals rwa [History.moved_kernel]

/-- `krealloc` of a live address in the window. -/
theorem WindowInv.of_krealloc (h : WindowInv s bs) {fuel ptr size q : ℕ} (hptr : ptr ∈ s.live)
    (hw : getField s.kernel.mem (headerOf ptr) .size < size → ¬Overruns s.kernel size)
    (hk : krealloc (kernelSpace (recorded mmap)) fuel ptr size s.kernel = some (q, k)) :
    ∃ bs', WindowInv (s.moved ptr q k) bs' := by
  obtain ⟨b, hb, hfree, rfl⟩ := h.exists_block hptr
  have hbsize : getField s.kernel.mem (headerOf (b.addr + 20)) .size = b.size := by
    rw [h.heap.headerOf_eq hb, (h.heap.rep.nodes b hb).size]
  rw [hbsize] at hw
  have hend : b.size < size → ∀ p k₁,
      kmalloc (kernelSpace (recorded mmap)) fuel size s.kernel = some (p, k₁) →
        EndOk s.kernel k₁ := fun hlt p k₁ hk₁ => (h.kernel_of_kmalloc (hw hlt) hk₁).1
  have hlen : SizeOk size := by
    rcases Nat.lt_or_ge b.size size with hlt | hle
    · exact h.sizeOk (hw hlt)
    · exact h.sizeOk_of_le hb hle
  have hstep : Step (recorded mmap) s (s.moved (b.addr + 20) q k) := by
    refine .krealloc (Or.inr hptr) hk hlen fun hlt => ?_
    rw [hbsize] at hlt
    exact hend (hlt.resolve_left (by omega))
  -- either nothing was allocated, or a `kmalloc` that does not overrun the window
  obtain ⟨-, -, -, rfl | ⟨hlt, p, k₁, m, hkm, rfl⟩⟩ := krealloc_step h.heap hb hfree hk hlen hend
  · refine h.of_step hstep ?_ ?_ ?_ <;> rw [History.moved_kernel]
    · exact h.start
    · exact h.size_le
    · exact h.inside
  · obtain ⟨-, hstart, hsize, hin⟩ := h.kernel_of_kmalloc (hw hlt) hkm
    refine h.of_step hstep ?_ ?_ ?_ <;> rw [History.moved_kernel]
    · exact hstart
    · exact hsize
    · exact hin.of_mem m

/-- `kfree` asks for nothing. -/
theorem WindowInv.of_kfree (h : WindowInv s bs) {fuel ptr : ℕ} {st : Status}
    (hptr : ptr = 0 ∨ ptr ∈ s.live)
    (hk : kfree (kernelSpace (recorded mmap)) fuel ptr s.kernel = some (st, k)) :
    ∃ bs', WindowInv (s.giveBack ptr k) bs' := by
  have hmem : ∃ m, k = { s.kernel with mem := m } := by
    rcases hptr with rfl | hptr
    · exact ⟨s.kernel.mem, (kfree_null hk).2⟩
    · obtain ⟨b, hb, -, rfl⟩ := h.exists_block hptr
      exact ⟨_, (kfree_step h.heap hb hk).2.1⟩
  obtain ⟨m, rfl⟩ := hmem
  refine h.of_step (.kfree hptr hk) ?_ ?_ ?_ <;> rw [History.giveBack_kernel]
  · exact h.start
  · exact h.size_le
  · exact h.inside.of_mem m

/-- A call that does not overrun the window is a step of the allocator, and keeps the invariant. -/
theorem HeapCall.windowInv (h : WindowInv s bs)
    (hs : HeapCall (recorded mmap) (fun k length => ¬Overruns k length) s s') :
    ∃ bs', WindowInv s' bs' := by
  cases hs with
  | kmalloc hk hg => exact h.of_kmalloc hg hk
  | kcalloc hk hg => exact h.of_kcalloc hg hk
  | krealloc hptr hk hg =>
    rcases hptr with rfl | hptr
    · exact h.of_krealloc_null (hg (Or.inl rfl)) hk
    · exact h.of_krealloc hptr (fun hlt => hg (Or.inr hlt)) hk
  | kfree hptr hk => exact h.of_kfree hptr hk

end Calls

/-- A run of calls that do not overrun the window keeps the invariant. -/
theorem WindowInv.run {s s' : History (E × List (ℕ × ℕ))} {bs : List Block} (h : WindowInv s bs)
    (hrun : Relation.ReflTransGen
      (HeapCall (recorded mmap) fun k length => ¬Overruns k length) s s') :
    ∃ bs', WindowInv s' bs' := by
  induction hrun with
  | refl => exact ⟨bs, h⟩
  | tail _ hstep ih =>
    obtain ⟨bs', h'⟩ := ih
    exact hstep.windowInv h'

/-- The heap that the kernel begins with. -/
theorem windowInv_init {k₀ k : Kernel (E × List (ℕ × ℕ))} {fuel : ℕ} {st : Status}
    (hfirst : k₀.firstBlk = 0) (hlog : k₀.os.2 = [])
    (hinit : initKmalloc (kernelSpace (recorded mmap)) fuel kheapStart 0 k₀ = some (st, k)) :
    WindowInv (kernelHeap.history k) [⟨kheapStart, kernelHeap.grow - 40, true⟩] := by
  have hinit' : initKmalloc (kernelSpace (recorded mmap)) fuel kernelHeap.start kernelHeap.minSize
      k₀ = some (st, k) := hinit
  obtain ⟨-, hstart, hsize, hos, hinv⟩ := initKmalloc_spec hfirst hinit'
  have hgrow : kernelHeap.grow = 12288 := by decide
  refine ⟨⟨hinv, List.nodup_nil, fun p => by simp [HeapBase.history]⟩, hstart, ?_, fun r hr => ?_⟩
  · change k.heapSize ≤ kheapMaxSize + 1
    rw [hsize, hgrow]
    decide
  · change r ∈ k.os.2 at hr
    rw [hos] at hr
    change r ∈ (kheapStart, kernelHeap.grow) :: k₀.os.2 at hr
    rw [hlog, List.mem_singleton] at hr
    subst hr
    rw [hgrow]
    decide

/-- After every run of calls none of which overruns the window, all pages that were asked for lie in
the heap space; and in the state reached the calls of `kmalloc` that keep the window, failing with
`NULL` where they would leave it, are exactly those that do not overrun it. -/
theorem heap_window {k₀ k : Kernel (E × List (ℕ × ℕ))} {fuel : ℕ} {st : Status}
    {s : History (E × List (ℕ × ℕ))} (hfirst : k₀.firstBlk = 0) (hlog : k₀.os.2 = [])
    (hinit : initKmalloc (kernelSpace (recorded mmap)) fuel kheapStart 0 k₀ = some (st, k))
    (hrun : Relation.ReflTransGen
      (HeapCall (recorded mmap) fun k length => ¬Overruns k length) (kernelHeap.history k) s) :
    InWindow s.kernel ∧
      ∀ length, KeepsWindow mmap s.kernel length ↔ ¬Overruns s.kernel length := by
  obtain ⟨bs, h⟩ := (windowInv_init hfirst hlog hinit).run hrun
  exact ⟨h.inside, h.heap.keepsWindow_iff h.start h.size_le h.inside⟩

/-- A kernel that has not allocated yet, nor asked for pages. -/
def bootRecorded : Kernel (Unit × List (ℕ × ℕ)) where
  mem := fun _ => 0
  firstBlk := 0
  heapStart := 0
  heapSize := 0
  minHeapSize := 0
  vgaCursorR := 0
  vgaCursorC := 0
  serial := []
  os := ((), [])

/-- A first allocation of 100 bytes. -/
theorem heap_window_first :
    ∃ k s, initKmalloc (kernelSpace (recorded mapAll)) 3 kheapStart 0 bootRecorded = some (.ok, k) ∧
      Relation.ReflTransGen (HeapCall (recorded mapAll) fun k length => ¬Overruns k length)
        (kernelHeap.history k) s ∧
      s.live = [0xd0000014] ∧ InWindow s.kernel := by
  have hcall : ((initKmalloc (kernelSpace (recorded mapAll)) 3 kheapStart 0 bootRecorded).bind
      fun r => (kmalloc (kernelSpace (recorded mapAll)) 3 100 r.2).map
        fun q => (r.1, walk r.2.mem 3 r.2.firstBlk, q.1)) =
          some (.ok, some [⟨0xd0000000, 1, 0, 0, 12248⟩], 0xd0000014) := by
    decide +kernel
  obtain ⟨⟨st, k⟩, hinit, hcall⟩ := Option.bind_eq_some_iff.mp hcall
  obtain ⟨⟨p, k'⟩, hk, hres⟩ := Option.map_eq_some_iff.mp hcall
  simp only [Prod.mk.injEq] at hres
  obtain ⟨rfl, hwalk, rfl⟩ := hres
  have hw : ¬Overruns k 100 := fun h =>
    h.1 ⟨3, _, hwalk, _, List.mem_cons_self, rfl, by decide⟩
  have hrun : Relation.ReflTransGen (HeapCall (recorded mapAll) fun k length => ¬Overruns k length)
      (kernelHeap.history k) ((kernelHeap.history k).handOut 0xd0000014 k') :=
    .single (.kmalloc hk hw)
  exact ⟨k, _, hinit, hrun, rfl, (heap_window rfl rfl hinit hrun).1⟩

/-- A first allocation of 256M gets an address, and pages in the driver space. -/
theorem heap_leaves_window :
    ∃ k k', initKmalloc (kernelSpace (recorded mapAll)) 3 kheapStart 0 bootRecorded = some (.ok, k) ∧
      kmalloc (kernelSpace (recorded mapAll)) 3 0x10000000 k = some (0xd0003014, k') ∧
      (0xd0003000, 0x10001000) ∈ k'.os.2 ∧ ¬InWindow k' := by
  have hcall : ((initKmalloc (kernelSpace (recorded mapAll)) 3 kheapStart 0 bootRecorded).bind
      fun r => (kmalloc (kernelSpace (recorded mapAll)) 3 0x10000000 r.2).map
        fun q => (r.1, q.1, q.2.os.2)) =
          some (.ok, 0xd0003014, [(0xd0003000, 0x10001000), (0xd0000000, 0x3000)]) := by
    decide +kernel
  obtain ⟨⟨st, k⟩, hinit, hcall⟩ := Option.bind_eq_some_iff.mp hcall
  obtain ⟨⟨p, k'⟩, hk, hres⟩ := Option.map_eq_some_iff.mp hcall
  simp only [Prod.mk.injEq] at hres
  obtain ⟨rfl, rfl, hlog⟩ := hres
  have hmem : (0xd0003000, 0x10001000) ∈ k'.os.2 := by
    rw [hlog]
    exact List.mem_cons_self
  refine ⟨k, k', hinit, hk, hmem, fun hin => ?_⟩
  exact absurd (hin _ hmem).2 (by decide)

end PakOS
