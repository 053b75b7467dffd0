import PakOS.Kmalloc.Integrity

/-!
# Payload alignment

`kmalloc` rounds sizes up to 16 bytes, but the headers between the payloads take 20.  So every split
moves the next header by 4 modulo 16, and merging moves none: where a payload lies depends on how
often its space was split off since `__new_blockspace` obtained it.  `Traced` are the histories
together with that number for each header, and `Traced.aligned` is the invariant.  A payload is a
multiple of 16 only when the block that serves the request lies three splits deep, modulo four
(`kmalloc_aligned_iff`).
-/

namespace PakOS

open Machine Coalesce

variable {E : Type*} {base : HeapBase} {mmap : Mmap E}

/-! ### How often a block was split off -/

/-- `__find_free_block` comes to `found` for a request of `length` bytes, `0` if no block fits. -/
def Finds (k : Kernel E) (length found : ℕ) : Prop :=
  ∃ fuel last, findFreeBlock k.mem (align16 length) fuel k.firstBlk k.firstBlk = some (found, last)

/-- The depths of the headers after a request of `length` bytes for which `found` was found.
New space has depth `0`, and a header that is split off lies one deeper than the block it is
split from. -/
def deepen (k : Kernel E) (length found : ℕ) (d : ℕ → ℕ) : ℕ → ℕ :=
  if found = 0 then Function.update d (add32 k.heapStart k.heapSize) 0
  else if getField k.mem found .size > add32 (add32 256 (align16 length)) sizeofMallocH then
    Function.update d (add32 (payload found) (align16 length)) (d found + 1)
  else d

/-- The histories after `init_kmalloc`, step by step, with the depth `d a` of each header `a`. -/
inductive Traced (base : HeapBase) (mmap : Mmap E) : History E → (ℕ → ℕ) → Prop
  /-- `init_kmalloc` leaves one block, that nothing was split off. -/
  | init {fuel : ℕ} {st : Status} {k₀ k : Kernel E} (hfirst : k₀.firstBlk = 0)
      (hinit : initKmalloc (kernelSpace mmap) fuel base.start base.minSize k₀ = some (st, k)) :
      Traced base mmap (base.history k) fun _ => 0
  /-- `kmalloc(length)` -/
  | kmalloc {fuel length found p : ℕ} {s : History E} {d : ℕ → ℕ} {k : Kernel E}
      (h : Traced base mmap s d)
      (hk : PakOS.kmalloc (kernelSpace mmap) fuel length s.kernel = some (p, k))
      (hlen : SizeOk length) (hend : EndOk s.kernel k) (hfound : Finds s.kernel length found) :
      Traced base mmap (s.handOut p k) (deepen s.kernel length found d)
  /-- `kcalloc(nmemb, size)` -/
  | kcalloc {fuel nmemb size found p : ℕ} {s : History E} {d : ℕ → ℕ} {k : Kernel E}
      (h : Traced base mmap s d)
      (hk : PakOS.kcalloc (kernelSpace mmap) fuel nmemb size s.kernel = some (p, k))
      (hmul : nmemb * size < 4294967296) (hlen : SizeOk (nmemb * size)) (hend : EndOk s.kernel k)
      (hfound : Finds s.kernel (nmemb * size) found) :
      Traced base mmap (s.handOut p k) (deepen s.kernel (nmemb * size) found d)
  /-- `krealloc(ptr, size)`, which allocates if there is no block or it is too small. -/
  | krealloc {fuel ptr size found q : ℕ} {s : History E} {d : ℕ → ℕ} {k : Kernel E}
      (h : Traced base mmap s d) (hptr : ptr = 0 ∨ ptr ∈ s.live)
      (hk : PakOS.krealloc (kernelSpace mmap) fuel ptr size s.kernel = some (q, k))
      (hlen : SizeOk size)
      (hend : ptr = 0 ∨ getField s.kernel.mem (headerOf ptr) .size < size → ∀ p k₁,
        PakOS.kmalloc (kernelSpace mmap) fuel size s.kernel = some (p, k₁) → EndOk s.kernel k₁)
      (hfound : Finds s.kernel size found) :
      Traced base mmap (s.moved ptr q k)
        (if ptr = 0 ∨ getField s.kernel.mem (headerOf ptr) .size < size then
          deepen s.kernel size found d else d)
  /-- `kfree(ptr)` -/
  | kfree {fuel ptr : ℕ} {st : Status} {s : History E} {d : ℕ → ℕ} {k : Kernel E}
      (h : Traced base mmap s d) (hptr : ptr = 0 ∨ ptr ∈ s.live)
      (hk : PakOS.kfree (kernelSpace mmap) fuel ptr s.kernel = some (st, k)) :
      Traced base mmap (s.giveBack ptr k) d
  /-- A client writes a byte of its allocation. -/
  | write {ptr i : ℕ} {v : UInt8} {s : History E} {d : ℕ → ℕ} (h : Traced base mmap s d)
      (hptr : ptr ∈ s.live) (hi : i < getField s.kernel.mem (headerOf ptr) .size) :
      Traced base mmap
        { s with kernel := { s.kernel with mem := Function.update s.kernel.mem (ptr + i) v } } d
  /-- The rest of the kernel runs, without touching the heap. -/
  | other {s : History E} {d : ℕ → ℕ} {k : Kernel E} (h : Traced base mmap s d)
      (hk : SameHeap s.kernel k) : Traced base mmap { s with kernel := k } d

variable {s : History E} {d : ℕ → ℕ} {k k' : Kernel E} {bs bs' : List Block} {b : Block}
  {length found : ℕ}

/-- A traced history is reachable. -/
theorem Traced.reachable (h : Traced base mmap s d) : Reachable base mmap s := by
  induction h with
  | init hfirst hinit => exact ⟨_, _, _, _, hfirst, hinit, .refl⟩
  | kmalloc _ hk hlen hend _ ih => exact ih.tail (.kmalloc hk hlen hend)
  | kcalloc _ hk hmul hlen hend _ ih => exact ih.tail (.kcalloc hk hmul hlen hend)
  | krealloc _ hptr hk hlen hend _ ih => exact ih.tail (.krealloc hptr hk hlen hend)
  | kfree _ hptr hk ih => exact ih.tail (.kfree hptr hk)
  | write _ hptr hi ih => exact ih.tail (.write hptr hi)
  | other _ hk ih => exact ih.tail (.other hk)

/-! ### The search -/

/-- The search has one result. -/
theorem Finds.unique {found' : ℕ} (h : Finds k length found) (h' : Finds k length found') :
    found = found' := by
  obtain ⟨fuel, last, hfind⟩ := h
  obtain ⟨fuel', last', hfind'⟩ := h'
  have hmore := findFreeBlock_mono hfind (Nat.le_add_right fuel fuel')
  have hmore' := findFreeBlock_mono hfind' (Nat.le_add_left fuel' fuel)
  rw [hmore] at hmore'
  exact congrArg Prod.fst (Option.some.inj hmore')

/-- The search comes to the first block that fits. -/
theorem HeapInv.finds_of_fits {pre post : List Block} (h : HeapInv k (pre ++ b :: post))
    (hpre : ∀ c ∈ pre, ¬Fits (align16 length) c) (hb : Fits (align16 length) b) :
    Finds k length b.addr := by
  have hrep₀ : Represents k.mem ([] ++ (pre ++ b :: post)) := h.rep
  obtain ⟨last, hfind⟩ := findFreeBlock_of_fits hrep₀ h.placed h.pos hpre hb
    (Nat.lt_succ_self pre.length) k.firstBlk
  rw [← h.first] at hfind
  exact ⟨_, last, hfind⟩

/-- The search comes to nothing when no block fits. -/
theorem HeapInv.finds_zero (h : HeapInv k bs) (hbs : ∀ c ∈ bs, ¬Fits (align16 length) c) :
    Finds k length 0 :=
  ⟨_, _, h.heapIn.findFreeBlock_of_not_fits hbs (Nat.lt_succ_self bs.length)⟩

/-- The search ends on every heap. -/
theorem HeapInv.exists_finds (h : HeapInv k bs) (length : ℕ) : ∃ found, Finds k length found := by
  rcases fits_cases (align16 length) bs with ⟨pre, b, post, rfl, hpre, hb⟩ | hnone
  · exact ⟨b.addr, h.finds_of_fits hpre hb⟩
  · exact ⟨0, h.finds_zero hnone⟩

/-! ### The list of a heap -/

/-- The block that a header stands for. -/
def Header.block (h : Header) : Block := ⟨h.addr, h.size, h.free = mblkFree⟩

theorem map_block_headersFrom (prev : ℕ) (bs : List Block) :
    (headersFrom prev bs).map Header.block = bs := by
  induction bs generalizing prev with
  | nil => rfl
  | cons b bs ih =>
    obtain ⟨a, n, free⟩ := b
    rw [headersFrom, List.map_cons, ih]
    cases free <;> rfl

/-- A heap is one list only. -/
theorem HeapInv.unique (h : HeapInv k bs) (h' : HeapInv k bs') : bs = bs' := by
  have heq := eq_of_walk (h.walk_eq (Nat.lt_succ_self _)) (h'.walk_eq (Nat.lt_succ_self _))
  rw [← map_block_headersFrom 0 bs, heq, map_block_headersFrom]

/-- Freeing a block makes no new headers. -/
theorem mem_addrs_of_releaseBlock {a x : ℕ} (h : x ∈ addrs (releaseBlock a bs)) : x ∈ addrs bs := by
  have hkeys : (markAt Block.addr Block.released a bs).map Block.addr = addrs bs := by
    rw [markAt, List.map_map]
    refine List.map_congr_left fun c _ => ?_
    rw [Function.comp_apply]
    split <;> rfl
  exact hkeys ▸ key_mem_of_mem_coalesce keyed_blocks h

/-! ### The invariant -/

/-- Modulo 16 the headers lie at four times their depth. -/
def Aligned (d : ℕ → ℕ) (bs : List Block) : Prop := ∀ a ∈ addrs bs, a % 16 = 4 * d a % 16

/-- Freeing a block moves no header. -/
theorem Aligned.releaseBlock (h : Aligned d bs) (a : ℕ) : Aligned d (releaseBlock a bs) :=
  fun x hx => h x (mem_addrs_of_releaseBlock hx)

/-- The headers after a block was taken: those before, and perhaps one that was split off. -/
theorem mem_addrs_takeBlock {pre post : List Block} {L a : ℕ}
    (ha : a ∈ addrs (pre ++ takeBlock L b ++ post)) :
    a ∈ addrs (pre ++ b :: post) ∨ b.size > 256 + L + 20 ∧ a = b.addr + 20 + L := by
  unfold takeBlock at ha
  split at ha
  · next hsize =>
    simp only [addrs_append, addrs_cons, addrs_nil, List.mem_append, List.mem_cons,
      List.not_mem_nil, or_false] at ha ⊢
    tauto
  · simp only [addrs_append, addrs_cons, addrs_nil, List.mem_append, List.mem_cons,
      List.not_mem_nil, or_false] at ha ⊢
    tauto

/-- A new header, at four times its depth, may take the place of an old one. -/
theorem Aligned.update {a n : ℕ} (hd : Aligned d bs) (ha : a % 16 = 4 * n % 16)
    (hbs : ∀ x ∈ addrs bs', x ∈ addrs bs ∨ x = a) : Aligned (Function.update d a n) bs' := by
  intro x hx
  by_cases hxa : x = a
  · rw [hxa, Function.update_self, ha]
  · rw [Function.update_of_ne hxa]
    exact hd x ((hbs x hx).resolve_right hxa)

/-- The depths after a block was found. -/
theorem HeapInv.deepen_of_fits (h : HeapInv k bs) (hb : b ∈ bs) (hfit : Fits (align16 length) b) :
    deepen k length b.addr d = if b.size > 256 + align16 length + 20 then
      Function.update d (b.addr + 20 + align16 length) (d b.addr + 1) else d := by
  have hpage := h.heapIn.page_le
  have hend := h.end_lt
  have hplace := h.placed.mem hb
  have hle := hfit.2
  unfold Block.stop at hplace
  have hpayload : payload b.addr = b.addr + 20 := add32_of_lt (by rw [sizeofMallocH]; omega)
  have hsqueeze : add32 (b.addr + 20) (align16 length) = b.addr + 20 + align16 length :=
    add32_of_lt (by omega)
  have hthreshold : add32 (add32 256 (align16 length)) sizeofMallocH =
      256 + align16 length + 20 := by
    rw [add32_of_lt (a := 256) (by omega), sizeofMallocH, add32_of_lt (by omega)]
  unfold deepen
  rw [if_neg (by omega), (h.rep.nodes b hb).size, hthreshold, hpayload, hsqueeze]

/-- The depths after no block was found. -/
theorem HeapInv.deepen_zero (h : HeapInv k bs) :
    deepen k length 0 d = Function.update d (k.heapStart + k.heapSize) 0 := by
  have hnew : add32 k.heapStart k.heapSize = k.heapStart + k.heapSize := add32_of_lt h.end_lt
  rw [deepen, if_pos rfl, hnew]

/-- Serving a request keeps the headers where their depths say. -/
theorem KmallocStep.aligned (hstep : KmallocStep k bs length k' bs' b) (h : HeapInv k bs)
    (hd : Aligned d bs) (hfound : Finds k length found) :
    Aligned (deepen k length found d) bs' := by
  cases hstep with
  | @reuse pre post c m hbs hpre hc hk =>
    subst hbs
    have hmem : c ∈ pre ++ c :: post := by simp
    have hca := hd c.addr (mem_addrs_of_mem hmem)
    have hL : align16 length % 16 = 0 := by
      rw [align16_eq]
      omega
    obtain rfl := hfound.unique (h.finds_of_fits hpre hc)
    rw [h.deepen_of_fits hmem hc]
    by_cases hsize : c.size > 256 + align16 length + 20
    · -- the header that is split off lies 20 bytes and a multiple of 16 behind its block
      rw [if_pos hsize]
      exact hd.update (by omega) fun x hx => (mem_addrs_takeBlock hx).imp_right And.right
    · rw [if_neg hsize]
      exact fun x hx => hd x ((mem_addrs_takeBlock hx).resolve_right fun hx => hsize hx.1)
  | grow hbs hstart hsize =>
    have hpage := h.end_aligned
    obtain rfl := hfound.unique (h.finds_zero hbs)
    rw [h.deepen_zero]
    refine hd.update (by omega) fun x hx => ?_
    simpa using hx

/-- Moving a block keeps the headers where their depths say. -/
theorem KreallocStep.aligned {q : ℕ} (hstep : KreallocStep k bs b length k' bs' q)
    (h : HeapInv k bs) (hd : Aligned d bs) (hfound : Finds k length found) :
    Aligned (if b.size < length then deepen k length found d else d) bs' := by
  cases hstep with
  | keep hle _ =>
    rw [if_neg (Nat.not_lt.mpr hle)]
    exact hd
  | move hlt hstep _ _ _ _ =>
    rw [if_pos hlt]
    exact (hstep.aligned h hd hfound).releaseBlock _

/-- The list of a history is the one that its last call left. -/
theorem Reachable.exists_aligned (hs : Reachable base mmap s) (hbs : HeapInv s.kernel bs)
    (hd : Aligned d bs) : ∃ bs, HistoryInv s bs ∧ Aligned d bs := by
  obtain ⟨bs', hbs'⟩ := hs.inv
  exact ⟨bs', hbs', hbs'.heap.unique hbs ▸ hd⟩

/-- Every traced heap has its headers where their depths say. -/
theorem Traced.aligned (h : Traced base mmap s d) : ∃ bs, HistoryInv s bs ∧ Aligned d bs := by
  induction h with
  | init hfirst hinit =>
    obtain ⟨-, -, -, -, hinv⟩ := initKmalloc_spec hfirst hinit
    refine (Traced.init hfirst hinit).reachable.exists_aligned hinv fun a ha => ?_
    obtain rfl : a = base.start := by simpa using ha
    have haligned := base.aligned
    omega
  | @kmalloc fuel length found p s d k h hk hlen hend hfound ih =>
    obtain ⟨bs, hbs, hd⟩ := ih
    obtain ⟨bs', b, hstep, hinv, -⟩ := kmalloc_step hbs.heap hk hlen hend
    rw [← History.handOut_kernel s p k] at hinv
    exact (h.kmalloc hk hlen hend hfound).reachable.exists_aligned hinv
      (hstep.aligned hbs.heap hd hfound)
  | @kcalloc fuel nmemb size found p s d k h hk hmul hlen hend hfound ih =>
    obtain ⟨bs, hbs, hd⟩ := ih
    obtain ⟨k₁, bs', b, hstep, hinv, -, -⟩ := kcalloc_step hbs.heap hk hmul hlen hend
    rw [← History.handOut_kernel s p k] at hinv
    exact (h.kcalloc hk hmul hlen hend hfound).reachable.exists_aligned hinv
      (hstep.aligned hbs.heap hd hfound)
  | @krealloc fuel ptr size found q s d k h hptr hk hlen hend hfound ih =>
    obtain ⟨bs, hbs, hd⟩ := ih
    have hreach := (h.krealloc hptr hk hlen hend hfound).reachable
    rcases hptr with rfl | hptr
    · obtain ⟨bs', b, hstep, hinv, -⟩ := kmalloc_step hbs.heap hk hlen (hend (Or.inl rfl) _ _ hk)
      rw [if_pos (Or.inl rfl)]
      rw [← History.moved_kernel s 0 q k] at hinv
      exact hreach.exists_aligned hinv (hstep.aligned hbs.heap hd hfound)
    · obtain ⟨b, hb, hfree, rfl⟩ := hbs.exists_block hptr
      have hsize := hbs.heap.size_eq hb
      rw [hsize] at hend ⊢
      obtain ⟨bs', hstep, hinv, -⟩ := krealloc_step hbs.heap hb hfree hk hlen fun hlt =>
        hend (Or.inr hlt)
      rw [← History.moved_kernel s (b.addr + 20) q k] at hinv
      refine hreach.exists_aligned hinv ?_
      simp only [Nat.add_eq_zero_iff, OfNat.ofNat_ne_zero, and_false, false_or]
      exact hstep.aligned hbs.heap hd hfound
  | @kfree fuel ptr st s d k h hptr hk ih =>
    obtain ⟨bs, hbs, hd⟩ := ih
    have hreach := (h.kfree hptr hk).reachable
    rcases hptr with rfl | hptr
    · obtain ⟨-, rfl⟩ := kfree_null hk
      exact ⟨bs, hbs, hd⟩
    · obtain ⟨b, hb, -, rfl⟩ := hbs.exists_block hptr
      obtain ⟨-, -, hinv⟩ := kfree_step hbs.heap hb hk
      rw [← History.giveBack_kernel s (b.addr + 20) k] at hinv
      exact hreach.exists_aligned hinv (hd.releaseBlock _)
  | @write ptr i v s d h hptr hi ih =>
    obtain ⟨bs, hbs, hd⟩ := ih
    obtain ⟨b, hb, -, rfl⟩ := hbs.exists_block hptr
    rw [hbs.heap.size_eq hb] at hi
    refine ⟨bs, hbs.kernel (hbs.heap.write_payload hb fun x hx => ?_), hd⟩
    unfold Block.stop at hx
    exact Function.update_of_ne (by omega) _ _
  | other _ hk ih =>
    obtain ⟨bs, hbs, hd⟩ := ih
    exact ⟨bs, hbs.kernel (hbs.heap.of_sameHeap hk), hd⟩

/-- Every reachable history can be traced. -/
theorem Reachable.exists_traced (hs : Reachable base mmap s) : ∃ d, Traced base mmap s d := by
  obtain ⟨k₀, k, fuel, st, hfirst, hinit, hrun⟩ := hs
  induction hrun with
  | refl => exact ⟨_, .init hfirst hinit⟩
  | tail _ hstep ih =>
    obtain ⟨d, hd⟩ := ih
    obtain ⟨bs, hbs, -⟩ := hd.aligned
    have hfinds : ∀ length, ∃ found, Finds _ length found := fun n => hbs.heap.exists_finds n
    cases hstep with
    | @kmalloc _ length _ _ hk hlen hend =>
      obtain ⟨found, hfound⟩ := hfinds length
      exact ⟨_, hd.kmalloc hk hlen hend hfound⟩
    | @kcalloc _ nmemb size _ _ hk hmul hlen hend =>
      obtain ⟨found, hfound⟩ := hfinds (nmemb * size)
      exact ⟨_, hd.kcalloc hk hmul hlen hend hfound⟩
    | @krealloc _ _ size _ _ hptr hk hlen hend =>
      obtain ⟨found, hfound⟩ := hfinds size
      exact ⟨_, hd.krealloc hptr hk hlen hend hfound⟩
    | kfree hptr hk => exact ⟨d, hd.kfree hptr hk⟩
    | write hptr hi => exact ⟨d, hd.write hptr hi⟩
    | other hk => exact ⟨d, hd.other hk⟩

/-- **Payload alignment.**  On every reachable heap, however it came about, and for every length,
what `kmalloc` returns is a multiple of 16 exactly when a block serves the request whose header was
split off three times, modulo four, since `__new_blockspace` obtained its space. -/
theorem kmalloc_aligned_iff (hs : Reachable base mmap s) :
    (∃ d, Traced base mmap s d) ∧ ∀ d, Traced base mmap s d → ∀ fuel length p k,
      kmalloc (kernelSpace mmap) fuel length s.kernel = some (p, k) →
        (16 ∣ p ↔ ∃ found, found ≠ 0 ∧ Finds s.kernel length found ∧ d found % 4 = 3) := by
  refine ⟨hs.exists_traced, fun d hd fuel length p k hk => ?_⟩
  obtain ⟨bs, hbs, haligned⟩ := hd.aligned
  rcases fits_cases (align16 length) bs with ⟨pre, b, post, rfl, hpre, hb⟩ | hnone
  · obtain ⟨rfl, -, -⟩ := eq_of_kmalloc_of_fits hbs.heap hpre hb hk
    have hmem : b ∈ pre ++ b :: post := by simp
    have hfind := hbs.heap.finds_of_fits hpre hb
    have hmod := haligned b.addr (mem_addrs_of_mem hmem)
    constructor
    · intro hdvd
      exact ⟨b.addr, (hbs.heap.block_bounds hmem).1.ne', hfind, by omega⟩
    · rintro ⟨found, -, hfound, hdepth⟩
      obtain rfl := hfound.unique hfind
      omega
  · -- new space begins on a page, and its payload 20 bytes behind
    obtain ⟨rfl, -⟩ := eq_of_kmalloc_of_not_fits hbs.heap hnone hk
    have hpage := hbs.heap.end_aligned
    constructor
    · intro hdvd
      omega
    · rintro ⟨found, hne, hfound, -⟩
      exact absurd (hfound.unique (hbs.heap.finds_zero hnone)) hne

/-- The fourth allocation on the heap of the kernel lies three splits deep. -/
theorem kmalloc_aligned_threeLive :
    16 ∣ 0xd0000210 ∧ ∃ d, Traced kernelHeap mapAll threeLive d ∧
      ∃ found, found ≠ 0 ∧ Finds threeLive.kernel 50 found ∧ d found % 4 = 3 := by
  have hreach : Reachable kernelHeap mapAll threeLive := reachable_historyOf _ _ _
  have hcall : (kmalloc (kernelSpace mapAll) 8 50 threeLive.kernel).map Prod.fst =
      some 0xd0000210 := by decide +kernel
  obtain ⟨⟨p, k⟩, hk, rfl⟩ := Option.map_eq_some_iff.mp hcall
  obtain ⟨⟨d, hd⟩, hiff⟩ := kmalloc_aligned_iff hreach
  exact ⟨by decide, d, hd, (hiff d hd 8 50 _ k hk).mp (by decide)⟩

/-- The first allocation on the heap of the kernel is not a multiple of 16. -/
theorem freshHeap_not_aligned : Reachable kernelHeap mapAll freshHeap ∧
    ∃ k, kmalloc (kernelSpace mapAll) 8 16 freshHeap.kernel = some (0xd0000014, k) ∧
      ¬16 ∣ 0xd0000014 := by
  have hcall : (kmalloc (kernelSpace mapAll) 8 16 freshHeap.kernel).map Prod.fst =
      some 0xd0000014 := by decide +kernel
  obtain ⟨⟨p, k⟩, hk, rfl⟩ := Option.map_eq_some_iff.mp hcall
  exact ⟨reachable_historyOf _ _ _, k, hk, by decide⟩

end PakOS
