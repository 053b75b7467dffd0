import PakOS.Kmalloc.Integrity
import PakOS.Machine.Trace

/-!
# The heap as its clients use it

A function of the kernel that takes a block, uses it and gives it back relies on two things: that
the allocator serves it, and that what it does not own stays as it is.

`Ready L limit k bs` is the first: the heap can serve any request up to `L` bytes without growing
beyond `limit`, because some free block is large enough or because there is room for a page.  A
block that is taken and given back leaves the heap ready for the next one (`Allocated.ready`,
`ready_kfree`).  `Settled limit k bs x` is the second: byte `x` lies outside the region that the
heap may ever take, or in the payload of a block in use, so that neither `kmalloc` nor the `kfree`
of another block writes it.
-/

namespace PakOS

open Machine Coalesce

variable {E : Type*} {mmap : Mmap E} {k k' : Kernel E} {bs bs' : List Block} {b : Block}
  {length limit L x : ℕ}

/-- The heap serves any request up to `L` bytes without growing beyond `limit`. -/
def Ready (L limit : ℕ) (k : Kernel E) (bs : List Block) : Prop :=
  k.heapStart + k.heapSize + 4096 ≤ limit ∨
    k.heapStart + k.heapSize ≤ limit ∧ ∃ b ∈ bs, Fits L b

/-- The byte lies outside the heap and the region up to `limit` that it may grow into, or in the
payload of a block in use. -/
def Settled (limit : ℕ) (k : Kernel E) (bs : List Block) (x : ℕ) : Prop :=
  x < k.heapStart ∨ limit < x ∨
    ∃ b ∈ bs, b.free = false ∧ b.addr + 20 ≤ x ∧ x < b.addr + 20 + b.size

/-- The heap after a request for `length` bytes was served with the block `b`. -/
structure Allocated (limit : ℕ) (k : Kernel E) (bs : List Block) (length : ℕ) (k' : Kernel E)
    (bs' : List Block) (b : Block) : Prop where
  /-- What `kmalloc` does. -/
  step : KmallocStep k bs length k' bs' b
  /-- The heap behind it. -/
  heap : HeapInv k' bs'
  /-- The heap did not grow beyond the limit. -/
  le : k'.heapStart + k'.heapSize ≤ limit
  /-- The heap starts where it did. -/
  start : k'.heapStart = k.heapStart
  /-- Only headers are written. -/
  frame : ∀ x, OffHeaders bs' x → k'.mem x = k.mem x

theorem Ready.le (h : Ready L limit k bs) : k.heapStart + k.heapSize ≤ limit := by
  rcases h with h | h
  · omega
  · exact h.1

/-- A heap that is ready for large requests is ready for small ones. -/
theorem Ready.mono {L' : ℕ} (h : Ready L limit k bs) (hL : L' ≤ L) : Ready L' limit k bs := by
  refine h.imp_right fun ⟨hle, c, hc, hfit⟩ => ⟨hle, c, hc, hfit.1, hL.trans hfit.2⟩

/-! ### Taking a block -/

/-- A request that is rounded up to less than a page grows the heap by one page. -/
theorem growBytes_eq_page {size : ℕ} (h : size + 20 < 4096) : growBytes size = 4096 := by
  rw [growBytes_eq, add32_of_lt (a := size) (by omega), add32_of_lt (by omega)]
  omega

/-- A small request does not wrap around. -/
theorem sizeOk_of_small (h : length + 35 < 4096) : SizeOk length ∧ align16 length + 20 < 4096 := by
  have hle := @le_align16 length (by omega)
  exact ⟨⟨by omega, by omega⟩, by omega⟩

/-- One call decides whether the end of the heap wraps around, whatever its fuel. -/
theorem endOk_of_kmalloc {space : Space E} {fuel : ℕ} {r : ℕ × Kernel E}
    (hr : PakOS.kmalloc space fuel length k = some r) (hend : EndOk k r.2) :
    ∀ fuel' p k', PakOS.kmalloc space fuel' length k = some (p, k') → EndOk k k' := by
  intro fuel' p k' hk
  have heq := (kmalloc_mono hk (Nat.le_add_right fuel' fuel)).symm.trans
    (kmalloc_mono hr (Nat.le_add_left fuel fuel'))
  have hk' : k' = r.2 := congrArg Prod.snd (Option.some.inj heq)
  rwa [hk']

/-- A heap whose end does not wrap around in a small request is ready for it. -/
theorem HeapInv.ready_of_endOk (h : HeapInv k bs) (hlen : length + 35 < 4096)
    (hend : ∀ fuel p k', PakOS.kmalloc (kernelSpace mmap) fuel length k = some (p, k') →
      EndOk k k') : Ready (align16 length) 4294967295 k bs := by
  have hend₀ := h.end_lt
  rcases fits_cases (align16 length) bs with ⟨pre, d, post, rfl, -, hd⟩ | hnone
  · exact Or.inr ⟨by omega, d, by simp, hd⟩
  · obtain ⟨fuel, p, k', hk⟩ := exists_kmalloc mmap h length
    have hok := hend fuel p k' hk
    obtain ⟨-, rfl⟩ := eq_of_kmalloc_of_not_fits h hnone hk
    unfold EndOk PakOS.grown at hok
    simp only [growBytes_eq_page (sizeOk_of_small hlen).2] at hok
    unfold add32 at hok
    refine Or.inl ?_
    omega

/-- A heap that is ready serves a small request. -/
theorem Ready.yields_kmalloc (mmap : Mmap E) (hready : Ready L limit k bs) (h : HeapInv k bs)
    (hlimit : limit < 4294967296) (hlen : length + 35 < 4096) (hL : align16 length ≤ L) :
    ∃ k' bs' b, Yields (fun n => PakOS.kmalloc (kernelSpace mmap) n length k) (b.addr + 20, k') ∧
      Allocated limit k bs length k' bs' b := by
  obtain ⟨hok, hsmall⟩ := sizeOk_of_small hlen
  obtain ⟨fuel, p, k', hk⟩ := exists_kmalloc mmap h length
  have hyields : Yields (fun n => PakOS.kmalloc (kernelSpace mmap) n length k) (p, k') :=
    Yields.of_mono (fun _ _ _ hn hle => kmalloc_mono hn hle) hk
  -- the heap grows by a page at most, and only if nothing fits
  have hgrow : k'.heapStart = k.heapStart ∧ k.heapSize ≤ k'.heapSize ∧
      k'.heapStart + k'.heapSize ≤ limit := by
    rcases fits_cases (align16 length) bs with ⟨pre, d, post, rfl, hpre, hd⟩ | hnone
    · obtain ⟨-, ⟨m, rfl⟩, -⟩ := eq_of_kmalloc_of_fits h hpre hd hk
      exact ⟨rfl, le_rfl, hready.le⟩
    · obtain ⟨-, rfl⟩ := eq_of_kmalloc_of_not_fits h hnone hk
      have hroom : k.heapStart + k.heapSize + 4096 ≤ limit := by
        rcases hready with hroom | ⟨-, c, hc, hfit⟩
        · exact hroom
        · exact absurd ⟨hfit.1, hL.trans hfit.2⟩ (hnone c hc)
      have hsize : (grown mmap k (lastAddr bs) (align16 length)).heapSize = k.heapSize + 4096 := by
        simp only [grown, growBytes_eq_page hsmall]
        exact add32_of_lt (by omega)
      rw [hsize]
      rw [Nat.add_assoc] at hroom
      exact ⟨rfl, Nat.le_add_right _ _, hroom⟩
  obtain ⟨bs', b, hstep, hinv, rfl, hframe⟩ := kmalloc_frame h hk hok ⟨hgrow.2.1, by omega⟩
  exact ⟨k', bs', b, hyields, hstep, hinv, hgrow.2.2, hgrow.1, hframe⟩

/-- The block that a call returns whose heap stays below 4G. -/
theorem exists_allocated {fuel p : ℕ} (h : HeapInv k bs)
    (hk : PakOS.kmalloc (kernelSpace mmap) fuel length k = some (p, k')) (hlen : SizeOk length)
    (hend : EndOk k k') : ∃ bs' b, p = b.addr + 20 ∧ Allocated 4294967295 k bs length k' bs' b := by
  obtain ⟨bs', b, hstep, hinv, rfl, hframe⟩ := kmalloc_frame h hk hlen hend
  have hle : k'.heapStart + k'.heapSize ≤ 4294967295 := Nat.le_of_lt_succ hend.2
  have hstart : k'.heapStart = k.heapStart := by
    cases hstep with
    | reuse _ _ _ hmem =>
      subst hmem
      rfl
    | grow _ hstart _ => exact hstart
  exact ⟨bs', b, rfl, hstep, hinv, hle, hstart, hframe⟩

namespace Allocated

/-- The block is on the list, in use, and large enough. -/
theorem block (h : Allocated limit k bs length k' bs' b) (hlen : SizeOk length) :
    b ∈ bs' ∧ b.free = false ∧ length ≤ b.size := h.step.block hlen

/-- A limit may be raised. -/
theorem mono (h : Allocated limit k bs length k' bs' b) {limit' : ℕ} (hle : limit ≤ limit') :
    Allocated limit' k bs length k' bs' b := ⟨h.step, h.heap, h.le.trans hle, h.start, h.frame⟩

/-- The end of the heap stays an address. -/
theorem endOk (h : Allocated limit k bs length k' bs' b) (hlimit : limit < 4294967296) :
    EndOk k k' := by
  refine ⟨?_, h.le.trans_lt hlimit⟩
  have hstep := h.step
  cases hstep with
  | reuse _ _ _ hk =>
    subst hk
    exact le_rfl
  | grow _ _ hsize => omega

/-- The blocks in use stay, and the new one is none of them. -/
theorem mem_of_mem (h : Allocated limit k bs length k' bs' b) (hk : HeapInv k bs) {c : Block}
    (hc : c ∈ bs) (hfree : c.free = false) : c ∈ bs' ∧ c.addr ≠ b.addr :=
  ⟨((h.step.inUse hk).1 c hfree).mpr (Or.inr hc), (h.step.inUse hk).2 c hc hfree⟩

/-- The new block lies on one side of a block in use. -/
theorem apart (h : Allocated limit k bs length k' bs' b) (hk : HeapInv k bs) (hlen : SizeOk length)
    {c : Block} (hc : c ∈ bs) (hfree : c.free = false) :
    c ∈ bs' ∧ (c.stop ≤ b.addr ∨ b.stop ≤ c.addr) := h.step.apart hk h.heap hlen hc hfree

/-- Bytes that are settled stay settled, keep their values, and do not lie in the new payload. -/
theorem settled (h : Allocated limit k bs length k' bs' b) (hk : HeapInv k bs)
    (hlen : SizeOk length) (hx : Settled limit k bs x) :
    k'.mem x = k.mem x ∧ Settled limit k' bs' x ∧ (x < b.addr + 20 ∨ b.stop ≤ x) := by
  obtain ⟨hb, -, -⟩ := h.block hlen
  have hplace := h.heap.placed.mem hb
  have hle := h.le
  have hstart := h.start
  rcases hx with hlow | hhigh | ⟨c, hc, hcfree, hlo, hhi⟩
  · refine ⟨h.frame x (h.heap.offHeaders_of_lt (by omega)), Or.inl (by omega), Or.inl ?_⟩
    omega
  · refine ⟨h.frame x fun d hd => Or.inr ?_, Or.inr (Or.inl hhigh), Or.inr (by omega)⟩
    have hd' := (h.heap.placed.mem hd).2
    unfold Block.stop at hd'
    omega
  · obtain ⟨hc', happart⟩ := h.apart hk hlen hc hcfree
    refine ⟨h.frame x (h.heap.offHeaders_payload hc' hlo hhi),
      Or.inr (Or.inr ⟨c, hc', hcfree, hlo, hhi⟩), ?_⟩
    unfold Block.stop at happart ⊢
    omega

/-- What is left when a block is taken from a heap that is ready: a page, or a free block that is
large enough, or the block itself is. -/
theorem ready (h : Allocated limit k bs length k' bs' b) (hready : Ready L limit k bs)
    (hsmall : align16 length + 20 < 4096) (hL : L ≤ 256) :
    Ready L limit k' bs' ∨ L ≤ b.size := by
  have hle := h.le
  have hstep := h.step
  cases hstep with
  | @reuse pre post d m hbs hpre hd hk =>
    subst hbs hk
    rcases hready with hroom | ⟨_, c, hc, hfit⟩
    · exact Or.inl (Or.inl hroom)
    · unfold takeBlock
      split
      · -- the part that is split off is larger than any such request
        refine Or.inl (Or.inr ⟨hle, ⟨d.addr + 20 + align16 length, d.size - 20 - align16 length, true⟩,
          by simp, rfl, ?_⟩)
        simp only
        omega
      · by_cases hcd : c = d
        · subst hcd
          exact Or.inr hfit.2
        · refine Or.inl (Or.inr ⟨hle, c, ?_, hfit⟩)
          simp only [List.mem_append, List.mem_cons, hcd, false_or] at hc ⊢
          exact hc.imp_left Or.inl
  | grow _ _ _ =>
    refine Or.inr ?_
    rw [growBytes_eq_page hsmall]
    simp only
    omega

end Allocated

/-- What a function owes its caller that returns a block which it took from a heap that was ready
for `L` bytes. -/
structure Handed (L limit : ℕ) (k : Kernel E) (bs : List Block) (k' : Kernel E) (bs' : List Block)
    (b : Block) : Prop where
  /-- The heap. -/
  heap : HeapInv k' bs'
  /-- The heap did not grow beyond the limit. -/
  le : k'.heapStart + k'.heapSize ≤ limit
  /-- The block is on the list. -/
  mem : b ∈ bs'
  /-- It is in use. -/
  inUse : b.free = false
  /-- The blocks that were in use still are, and it is none of them. -/
  blocks : ∀ c ∈ bs, c.free = false → c ∈ bs' ∧ c.addr ≠ b.addr
  /-- Bytes that were settled have kept their values and still are, and none belongs to it. -/
  settled : ∀ x, Settled limit k bs x →
    k'.mem x = k.mem x ∧ Settled limit k' bs' x ∧ (x < b.addr + 20 ∨ b.stop ≤ x)
  /-- The heap is ready again once the block is given back. -/
  ready : Ready L limit k' bs' ∨ L ≤ b.size

/-- The block that `kmalloc` returns. -/
theorem Allocated.handed (h : Allocated limit k bs length k' bs' b) (hk : HeapInv k bs)
    (hlen : length + 35 < 4096) (hready : Ready L limit k bs) (hL : L ≤ 256) :
    Handed L limit k bs k' bs' b := by
  obtain ⟨hok, hsmall⟩ := sizeOk_of_small hlen
  obtain ⟨hb, hfree, -⟩ := h.block hok
  exact ⟨h.heap, h.le, hb, hfree, fun c hc hcfree => h.mem_of_mem hk hc hcfree,
    fun x hx => h.settled hk hok hx, h.ready hready hsmall hL⟩

/-- `kcalloc` is `kmalloc` and a loop that clears. -/
theorem kcalloc_eq_map (space : Space E) (fuel nmemb size : ℕ) (k : Kernel E) :
    kcalloc space fuel nmemb size k = (kmalloc space fuel (mul32 nmemb size) k).map fun r =>
      (r.1, { r.2 with mem := fillBytes r.2.mem r.1 0 (mul32 nmemb size) }) := by
  unfold kcalloc
  cases hk : kmalloc space fuel (mul32 nmemb size) k with
  | none => simp only [hk, Option.map_none]
  | some r => simp only [hk, Option.map_some]

/-! ### What the caller owns -/

/-- A byte of the caller's memory: it lies below the heap, or in a live allocation. -/
def History.Owns (s : History E) (x : ℕ) : Prop :=
  x < s.kernel.heapStart ∨
    ∃ p ∈ s.live, p ≤ x ∧ x < p + getField s.kernel.mem (headerOf p) .size

/-- What the caller owns is settled. -/
theorem HistoryInv.settled {s : History E} (h : HistoryInv s bs) (hx : s.Owns x) :
    Settled limit s.kernel bs x := by
  rcases hx with hlow | ⟨p, hp, hlo, hhi⟩
  · exact Or.inl hlow
  · obtain ⟨b, hb, hfree, rfl⟩ := h.exists_block hp
    rw [h.heap.headerOf_eq hb, (h.heap.rep.nodes b hb).size] at hhi
    exact Or.inr (Or.inr ⟨b, hb, hfree, hlo, hhi⟩)

/-! ### Giving it back -/

/-- A block that is given back leaves a free block as large as any that was free, and as itself. -/
theorem exists_fits_releaseBlock {c : Block} (hc : c ∈ bs) (hfree : c.free = true ∨ c.addr = b.addr)
    (hsize : L ≤ c.size) : ∃ d ∈ releaseBlock b.addr bs, Fits L d := by
  have hmark : ∀ d : Block, d.released.free = true := fun _ => rfl
  obtain ⟨d, hd, hdfree, hle⟩ := exists_mem_release_open merging_blocks hmark Block.size
    (fun _ => rfl) (fun _ _ => Nat.le_add_right _ _) (fun _ _ => Nat.le_add_left _ _) hc hfree
  exact ⟨d, hd, hdfree, hsize.trans hle⟩

/-- The heap after the block `b` was given back. -/
structure Freed (k : Kernel E) (bs : List Block) (b : Block) (k' : Kernel E) : Prop where
  /-- The heap. -/
  heap : HeapInv k' (releaseBlock b.addr bs)
  /-- The heap starts where it did. -/
  start : k'.heapStart = k.heapStart
  /-- The heap ends where it did. -/
  size : k'.heapSize = k.heapSize
  /-- Only headers are written. -/
  frame : ∀ x, OffHeaders bs x → k'.mem x = k.mem x

/-- Giving back a block of the heap. -/
theorem HeapInv.yields_kfree (space : Space E) (h : HeapInv k bs) (hb : b ∈ bs) :
    ∃ k', Yields (fun n => PakOS.kfree space n (b.addr + 20) k) (.ok, k') ∧
      Freed k bs b k' := by
  refine ⟨_, (Yields.const _).succ rfl fun n => (kfree_of_mem space h hb n).1,
    (kfree_of_mem space h hb 0).2, rfl, rfl, fun x hx => ?_⟩
  exact h.kfreeBlock_of_offHeaders hb hx

namespace Freed

/-- Bytes that are settled, but for those of the payload given back, stay settled and keep their
values. -/
theorem settled (h : Freed k bs b k') (hk : HeapInv k bs)
    (hle : k.heapStart + k.heapSize ≤ limit) (hb : b ∈ bs) (hx : Settled limit k bs x)
    (hout : x < b.addr + 20 ∨ b.stop ≤ x) :
    k'.mem x = k.mem x ∧ Settled limit k' (releaseBlock b.addr bs) x := by
  have hstart := h.start
  rcases hx with hlow | hhigh | ⟨c, hc, hcfree, hlo, hhi⟩
  · exact ⟨h.frame x (hk.offHeaders_of_lt hlow), Or.inl (by omega)⟩
  · refine ⟨h.frame x fun d hd => Or.inr ?_, Or.inr (Or.inl hhigh)⟩
    have hd' := (hk.placed.mem hd).2
    unfold Block.stop at hd'
    omega
  · have hne : c.addr ≠ b.addr := by
      intro heq
      rw [hk.placed.eq_of_addr_eq hc hb heq] at hlo hhi
      unfold Block.stop at hout
      omega
    exact ⟨h.frame x (hk.offHeaders_payload hc hlo hhi),
      Or.inr (Or.inr ⟨c, (mem_releaseBlock hcfree).mpr ⟨hc, hne⟩, hcfree, hlo, hhi⟩)⟩

/-- The heap is ready again when it was ready before, or the block is large enough. -/
theorem ready (h : Freed k bs b k') (hle : k.heapStart + k.heapSize ≤ limit) (hb : b ∈ bs)
    (hready : Ready L limit k bs ∨ L ≤ b.size) : Ready L limit k' (releaseBlock b.addr bs) := by
  have hend : k'.heapStart + k'.heapSize = k.heapStart + k.heapSize := by rw [h.start, h.size]
  rcases hready with (hroom | ⟨-, c, hc, hfit⟩) | hsize
  · exact Or.inl (hend ▸ hroom)
  · exact Or.inr ⟨hend ▸ hle, exists_fits_releaseBlock hc (Or.inl hfit.1) hfit.2⟩
  · exact Or.inr ⟨hend ▸ hle, exists_fits_releaseBlock hb (Or.inr rfl) hsize⟩

end Freed

/-- A client's turn: it was handed a block, wrote to memory, which is now `m`, and gave the block
back. -/
structure Returned (L limit : ℕ) (k : Kernel E) (bs : List Block) (m : Mem) (k' : Kernel E)
    (bs' : List Block) : Prop where
  /-- The heap. -/
  heap : HeapInv k' bs'
  /-- It is ready again. -/
  ready : Ready L limit k' bs'
  /-- The blocks that were in use still are. -/
  blocks : ∀ c ∈ bs, c.free = false → c ∈ bs'
  /-- Bytes that were settled still are, and have the values that the client left. -/
  settled : ∀ x, Settled limit k bs x → k'.mem x = m x ∧ Settled limit k' bs' x

/-- Two turns, the first of which leaves memory as it was. -/
theorem Returned.trans {k'' : Kernel E} {bs'' : List Block} (h : Returned L limit k bs k.mem k' bs')
    (h' : Returned L limit k' bs' k'.mem k'' bs'') : Returned L limit k bs k.mem k'' bs'' := by
  refine ⟨h'.heap, h'.ready, fun c hc hfree => h'.blocks c (h.blocks c hc hfree) hfree,
    fun x hx => ?_⟩
  obtain ⟨hmem, hx'⟩ := h.settled x hx
  obtain ⟨hmem', hx''⟩ := h'.settled x hx'
  exact ⟨hmem'.trans hmem, hx''⟩

/-- A client that keeps the heap intact may give the block back that it was handed. -/
theorem Handed.returned (h : Handed L limit k bs k' bs' b) (space : Space E) {m : Mem}
    (hheap : HeapInv { k' with mem := m } bs') :
    ∃ k'', Yields (fun n => PakOS.kfree space n (b.addr + 20) { k' with mem := m }) (.ok, k'') ∧
      Returned L limit k bs m k'' (releaseBlock b.addr bs') := by
  obtain ⟨k'', hyields, hfreed⟩ := hheap.yields_kfree space h.mem
  have hready : Ready L limit { k' with mem := m } bs' ∨ L ≤ b.size := h.ready
  refine ⟨k'', hyields, hfreed.heap, hfreed.ready h.le h.mem hready, fun d hd hdfree => ?_,
    fun x hx => ?_⟩
  · exact (mem_releaseBlock hdfree).mpr (h.blocks d hd hdfree)
  · obtain ⟨-, hx', hout⟩ := h.settled x hx
    have hx'' : Settled limit { k' with mem := m } bs' x := hx'
    exact hfreed.settled hheap h.le h.mem hx'' hout

end PakOS
