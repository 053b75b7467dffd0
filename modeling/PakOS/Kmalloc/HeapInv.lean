import PakOS.Kmalloc.AllocSpec

/-!
# The heap invariant

`HeapInv k bs` says that the heap of the kernel state `k` is the block list `bs`: the headers
represent it from `_first_blk` on, the blocks lie inside the heap, and no two neighbours are free.
`kmalloc_of_fits` and `kmalloc_of_not_fits` are the specification of `kmalloc` on such a heap.
`KmallocStep` collects the two outcomes; the rest of the development cites it and never unfolds
`kmalloc`, but for the first call, on a heap without blocks.
-/

namespace PakOS

open Machine Coalesce

variable {E : Type*}

/-- From the header at `first` on, the memory holds the blocks `bs`, in the range `[lo, hi)`: what
of a heap does not depend on where its memory comes from. -/
structure HeapIn (first : ℕ) (m : Mem) (lo hi : ℕ) (bs : List Block) : Prop where
  /-- The first block. -/
  first : first = headAddr bs
  /-- There is a first block. -/
  ne_nil : bs ≠ []
  /-- The headers represent the list. -/
  rep : Represents m bs
  /-- The blocks lie in the range. -/
  placed : Placed lo bs hi
  /-- The range lies behind the first page. -/
  page_le : 4096 ≤ lo
  /-- The end of the range is an address. -/
  hi_lt : hi < 4294967296
  /-- No two neighbours are free. -/
  coalesced : Coalesced bs

/-- The heap of `k` is the list of blocks `bs`. -/
structure HeapInv (k : Kernel E) (bs : List Block) : Prop where
  /-- `_first_blk` is the first block. -/
  first : k.firstBlk = headAddr bs
  /-- There is a first block. -/
  ne_nil : bs ≠ []
  /-- The headers represent the list. -/
  rep : Represents k.mem bs
  /-- The blocks lie in the heap. -/
  placed : Placed k.heapStart bs (k.heapStart + k.heapSize)
  /-- The heap does not start at `NULL`. -/
  pos : 0 < k.heapStart
  /-- The heap starts on a page. -/
  aligned : 4096 ∣ k.heapStart
  /-- The heap consists of whole pages. -/
  size_aligned : 4096 ∣ k.heapSize
  /-- The end of the heap is an address. -/
  end_lt : k.heapStart + k.heapSize < 4294967296
  /-- No two neighbours are free. -/
  coalesced : Coalesced bs

/-! ### A new block at the end -/

/-- The header that `__new_blockspace` writes, behind the last block of a list that may be empty. -/
theorem represents_append {m : Mem} {L : List Block} {block nbytes lo hi : ℕ}
    (h : Represents m L) (hp : Placed lo L hi) (hi_le : hi ≤ block) (hb : 0 < block)
    (hb32 : block < 4294967296) (hn : 20 ≤ nbytes) (hn32 : nbytes < 4294967296) :
    Represents (appendHeader m (lastAddr L) block nbytes) (L ++ [⟨block, nbytes - 20, true⟩]) := by
  have hx := hp.lastAddr
  have hsize : sub32 nbytes sizeofMallocH = nbytes - 20 := sub32_of_le hn32 hn
  have hfinal : appendHeader m (lastAddr L) block nbytes =
      setField (setField (setField (setField (setField
        (if lastAddr L ≠ 0 then setField m (lastAddr L) .nextBlock block else m)
          block .prevBlock (lastAddr L)) block .size (nbytes - 20)) block .nextBlock 0)
            block .free mblkFree) block .magic 0xdeadbeef := by
    unfold appendHeader
    rw [hsize]
    by_cases hl : lastAddr L = 0 <;> simp [hl]
  have happart : ∀ a f, a + 20 ≤ block → getField (appendHeader m (lastAddr L) block nbytes) a f =
      getField (if lastAddr L ≠ 0 then setField m (lastAddr L) .nextBlock block else m) a f := by
    intro a f ha
    rw [hfinal, getField_setField_apart (Or.inl ha), getField_setField_apart (Or.inl ha),
      getField_setField_apart (Or.inl ha), getField_setField_apart (Or.inl ha),
      getField_setField_apart (Or.inl ha)]
  have hnil : Represents m (L ++ [] ++ []) := by simpa using h
  suffices hs : Represents (appendHeader m (lastAddr L) block nbytes)
      (L ++ [⟨block, nbytes - 20, true⟩] ++ []) by simpa using hs
  refine hnil.splice hp.nodup List.nodup_nil (fun c hc f hf => ?_)
    (fun c hc => absurd hc List.not_mem_nil) ?_ ?_
  · have hcb := (hp.mem hc).2
    unfold Block.stop at hcb
    rw [happart _ _ (by omega), hp.getField_setIf (hx.imp_right fun hx => hx.2.2) hc hf]
  · refine List.isChain_cons_cons.mpr ⟨⟨fun hx0 => ?_, fun _ => ?_⟩, List.isChain_cons_cons.mpr
      ⟨⟨fun _ => ?_, fun h0 => absurd rfl h0⟩, List.isChain_singleton _⟩⟩
    · rw [happart _ _ (by omega), if_pos hx0, getField_setField_same hb32]
    · rw [hfinal, getField_setField_ne (by decide), getField_setField_ne (by decide),
        getField_setField_ne (by decide), getField_setField_ne (by decide),
        getField_setField_same (by omega)]
    · rw [hfinal, getField_setField_ne (by decide), getField_setField_ne (by decide),
        getField_setField_same (by decide)]
      rfl
  · intro c hc
    rw [List.mem_singleton] at hc
    subst hc
    refine ⟨?_, ?_, Or.inl ?_⟩
    · rw [hfinal, getField_setField_ne (by decide), getField_setField_ne (by decide),
        getField_setField_ne (by decide), getField_setField_same (by omega)]
    · rw [hfinal, getField_setField_ne (by decide), getField_setField_same (by decide)]
      rfl
    · rw [hfinal, getField_setField_same (by decide)]

/-! ### Taking a block -/

/-- The block taken from a block that fits. -/
theorem exists_mem_takeBlock {length : ℕ} {b : Block} (hb : Fits length b) :
    ∃ n, length ≤ n ∧ n ≤ b.size ∧ ⟨b.addr, n, false⟩ ∈ takeBlock length b := by
  unfold takeBlock
  split
  · exact ⟨length, le_rfl, hb.2, by simp⟩
  · exact ⟨b.size, hb.2, le_rfl, by simp⟩

/-- What becomes of a block that is taken stays in its range. -/
theorem placed_takeBlock (length : ℕ) (b : Block) : Placed b.addr (takeBlock length b) b.stop := by
  unfold takeBlock
  split <;> simp only [Placed, Block.stop] <;> omega

/-- Taking a block keeps the blocks in their range. -/
theorem Placed.takeBlock {lo hi length : ℕ} {pre post : List Block} {b : Block}
    (h : Placed lo (pre ++ b :: post) hi) :
    Placed lo (pre ++ takeBlock length b ++ post) hi := by
  obtain ⟨hpre, hpost⟩ := placed_append_cons.mp h
  exact (hpre.append (placed_takeBlock length b)).append hpost

/-- The neighbours of a free block of a coalesced list are in use. -/
theorem Separated.neighbours {pre post : List Block} {b : Block}
    (h : Coalesced (pre ++ b :: post)) (hb : b.free = true) :
    Coalesced pre ∧ Coalesced post ∧ (∀ x ∈ pre.getLast?, x.free = false) ∧
      ∀ y ∈ post.head?, y.free = false := by
  obtain ⟨hpre, hpost, hseam⟩ := List.isChain_append.mp h
  obtain ⟨hhead, hpost⟩ := List.isChain_cons.mp hpost
  refine ⟨hpre, hpost, fun x hx => ?_, fun y hy => ?_⟩
  · simpa [hb] using hseam x hx b (by simp)
  · simpa [hb] using hhead y hy

/-- Taking a free block keeps the list coalesced. -/
theorem coalesced_takeBlock {pre post : List Block} {b : Block} {length : ℕ}
    (h : Coalesced (pre ++ b :: post)) (hb : b.free = true) :
    Coalesced (pre ++ takeBlock length b ++ post) := by
  obtain ⟨hpre, hpost, hlast, hhead⟩ := Separated.neighbours h hb
  unfold takeBlock
  split
  · have hrest := coalesced_append_cons (c := ⟨b.addr + 20 + length, b.size - 20 - length, true⟩)
      (show Coalesced [⟨b.addr, length, false⟩] from List.isChain_singleton _) hpost (by simp) hhead
    rw [List.append_assoc]
    exact List.isChain_append.mpr ⟨hpre, hrest, fun x hx y _ => by simp [hlast x hx]⟩
  · simpa using coalesced_append_cons (c := ⟨b.addr, b.size, false⟩) hpre hpost hlast hhead

/-! ### `kmalloc` on a heap with blocks -/

/-- `kmalloc` when the search succeeds. -/
theorem kmalloc_of_findFreeBlock {space : Space E} {k : Kernel E} {fuel length found last : ℕ}
    (hfirst : k.firstBlk ≠ 0)
    (hfind : findFreeBlock k.mem (align16 length) fuel k.firstBlk k.firstBlk = some (found, last)) :
    kmalloc space (fuel + 1) length k =
      let r :=
        if found = 0 then newBlockspace space last (align16 length) k
        else if getField k.mem found .size > add32 (add32 256 (align16 length)) sizeofMallocH then
          (found, { k with mem := squeezeBlock k.mem found (align16 length) })
        else (found, k)
      some (payload r.1, { r.2 with mem := setField r.2.mem r.1 .free mblkInUse }) := by
  rw [kmalloc]
  simp only [if_neg hfirst, hfind]

section HeapIn

variable {first lo hi : ℕ} {m : Mem} {bs bs' : List Block}

theorem HeapIn.first_ne_zero (h : HeapIn first m lo hi bs) : first ≠ 0 := by
  rw [h.first]
  have hpage := h.page_le
  have hp := h.placed
  cases bs with
  | nil => exact absurd rfl h.ne_nil
  | cons b bs =>
    have := hp.1
    rw [headAddr_cons]
    omega

/-- Another memory that represents another list in the same range. -/
theorem HeapIn.update {m' : Mem} (h : HeapIn first m lo hi bs) (hhead : headAddr bs' = headAddr bs)
    (hne : bs' ≠ []) (hrep : Represents m' bs') (hp : Placed lo bs' hi) (hc : Coalesced bs') :
    HeapIn first m' lo hi bs' :=
  ⟨h.first.trans hhead.symm, hne, hrep, hp, h.page_le, h.hi_lt, hc⟩

/-- A search that finds nothing ends with the last block. -/
theorem HeapIn.findFreeBlock_of_not_fits {fuel length : ℕ} (h : HeapIn first m lo hi bs)
    (hbs : ∀ c ∈ bs, ¬Fits length c) (hfuel : bs.length < fuel) :
    findFreeBlock m length fuel first first = some (0, lastAddr bs) := by
  have hpage := h.page_le
  have hrep₀ : Represents m ([] ++ bs) := h.rep
  have hfind := PakOS.findFreeBlock_of_not_fits hrep₀ h.placed (show 0 < lo by omega) hbs hfuel first
  rwa [← h.first, if_neg h.ne_nil] at hfind

/-- `kmalloc` takes the first block that fits, and writes to headers only. -/
theorem HeapIn.kmalloc_of_fits (space : Space E) {k : Kernel E} {pre post : List Block} {b : Block}
    {fuel length : ℕ} (h : HeapIn k.firstBlk k.mem lo hi (pre ++ b :: post))
    (hpre : ∀ c ∈ pre, ¬Fits (align16 length) c) (hb : Fits (align16 length) b)
    (hfuel : pre.length < fuel) :
    ∃ m, kmalloc space (fuel + 1) length k = some (b.addr + 20, { k with mem := m }) ∧
      HeapIn k.firstBlk m lo hi (pre ++ takeBlock (align16 length) b ++ post) ∧
      ∀ x, OffHeaders (pre ++ takeBlock (align16 length) b ++ post) x → m x = k.mem x := by
  have hrep := h.rep
  have hp := h.placed
  obtain ⟨hpp, hpost⟩ := placed_append_cons.mp hp
  have hpage := h.page_le
  have hend := h.hi_lt
  have hloaddr := hpp.le
  have hb0 : b.addr ≠ 0 := by omega
  have hpos : 0 < lo := by omega
  have hstop := hpost.le
  unfold Block.stop at hstop
  have hrep₀ : Represents k.mem ([] ++ (pre ++ b :: post)) := hrep
  obtain ⟨last, hfind⟩ := findFreeBlock_of_fits hrep₀ hp hpos hpre hb hfuel k.firstBlk
  rw [← h.first] at hfind
  have hthreshold : add32 (add32 256 (align16 length)) sizeofMallocH =
      256 + align16 length + 20 := by
    have := hb.2
    rw [add32_of_lt (a := 256) (by omega), sizeofMallocH, add32_of_lt (by omega)]
  have hpayload : payload b.addr = b.addr + 20 := add32_of_lt (by rw [sizeofMallocH]; omega)
  have hhead : ∀ rest : List Block, ∀ c : Block, c.addr = b.addr →
      headAddr (pre ++ (c :: rest) ++ post) = headAddr (pre ++ b :: post) := by
    intro rest c hc
    cases pre <;> simp [hc]
  rw [kmalloc_of_findFreeBlock h.first_ne_zero hfind]
  simp only [if_neg hb0, (hrep.nodes b (by simp)).size, hthreshold]
  by_cases hsplit : b.size > 256 + align16 length + 20
  · rw [if_pos hsplit, hpayload]
    refine ⟨_, rfl, h.update ?_ (by simp [takeBlock, hsplit]) ?_ hp.takeBlock
      (coalesced_takeBlock h.coalesced hb.1), fun x hx => ?_⟩
    · rw [takeBlock, if_pos hsplit]
      exact hhead _ _ rfl
    · rw [takeBlock, if_pos hsplit]
      exact represents_squeeze hrep hp hpos hend (by omega)
    · rw [takeBlock, if_pos hsplit] at hx
      have hxb := hx ⟨b.addr, align16 length, false⟩ (by simp)
      exact (setField_of_notMem hxb).trans
        (squeezeBlock_of_offHeaders hrep hp hpos hend (by omega) hx)
  · rw [if_neg hsplit, hpayload]
    refine ⟨_, rfl, h.update ?_ (by simp [takeBlock, hsplit]) ?_ hp.takeBlock
      (coalesced_takeBlock h.coalesced hb.1), fun x hx => ?_⟩
    · rw [takeBlock, if_neg hsplit]
      exact hhead _ _ rfl
    · rw [takeBlock, if_neg hsplit]
      exact represents_take hrep hp
    · rw [takeBlock, if_neg hsplit] at hx
      exact setField_of_notMem (hx ⟨b.addr, b.size, false⟩ (by simp))

/-- A new block in use behind the last one. -/
theorem HeapIn.grow {block nbytes hi' : ℕ} (h : HeapIn first m lo hi bs) (hblock : hi ≤ block)
    (hn : 20 ≤ nbytes) (hle : block + nbytes ≤ hi') (hlt : hi' < 4294967296) :
    HeapIn first (setField (appendHeader m (lastAddr bs) block nbytes) block .free mblkInUse) lo hi'
      (bs ++ [⟨block, nbytes - 20, false⟩]) := by
  have hpage := h.page_le
  have hlo := h.placed.le
  have hrep := represents_append h.rep h.placed hblock (by omega) (by omega) hn (by omega)
  have hplaced : Placed lo (bs ++ ⟨block, nbytes - 20, true⟩ :: []) hi' := by
    refine placed_append_cons.mpr ⟨h.placed.mono le_rfl hblock, ?_⟩
    simp only [Placed, Block.stop]
    omega
  obtain ⟨hpre, hpost⟩ := placed_append_cons.mp hplaced
  refine ⟨?_, by simp, by simpa using represents_take hrep hplaced,
    placed_append_cons.mpr ⟨hpre, hpost⟩, hpage, hlt, ?_⟩
  · have hne := h.ne_nil
    have hfirst := h.first
    cases bs with
    | nil => exact absurd rfl hne
    | cons b bs => exact hfirst
  · exact List.isChain_append.mpr ⟨h.coalesced, List.isChain_singleton _, by simp⟩

/-- The header of a new block, and the link of the last one, are all that is written for it. -/
theorem HeapIn.appendHeader_of_offHeaders {block nbytes n x : ℕ} (h : HeapIn first m lo hi bs)
    (hx : OffHeaders (bs ++ [⟨block, n, false⟩]) x) :
    setField (appendHeader m (lastAddr bs) block nbytes) block .free mblkInUse x = m x := by
  have hnew := hx ⟨block, n, false⟩ (by simp)
  have hlast : lastAddr bs ≠ 0 → x < lastAddr bs ∨ lastAddr bs + 20 ≤ x := by
    intro h0
    obtain ⟨c, hc, hcl⟩ := List.mem_map.mp (h.placed.lastAddr.resolve_left h0).2.2
    rw [← hcl]
    exact hx c (by simp [hc])
  unfold appendHeader
  simp only
  rw [setField_of_notMem hnew, setField_of_notMem hnew, setField_of_notMem hnew,
    setField_of_notMem hnew, setField_of_notMem hnew]
  split
  · next h0 => rw [setField_of_notMem hnew, setField_of_notMem (hlast h0)]
  · exact setField_of_notMem hnew

end HeapIn

/-- A kernel heap is a list of blocks in its range. -/
theorem HeapInv.heapIn {k : Kernel E} {bs : List Block} (h : HeapInv k bs) :
    HeapIn k.firstBlk k.mem k.heapStart (k.heapStart + k.heapSize) bs :=
  ⟨h.first, h.ne_nil, h.rep, h.placed, Nat.le_of_dvd h.pos h.aligned, h.end_lt, h.coalesced⟩

/-- The heap ends with a page. -/
theorem HeapInv.end_aligned {k : Kernel E} {bs : List Block} (h : HeapInv k bs) :
    4096 ∣ k.heapStart + k.heapSize :=
  (Nat.dvd_add_right h.aligned).mpr h.size_aligned

theorem HeapInv.first_ne_zero {k : Kernel E} {bs : List Block} (h : HeapInv k bs) :
    k.firstBlk ≠ 0 := h.heapIn.first_ne_zero

/-- A heap with a changed memory that holds another list in the same range. -/
theorem HeapInv.of_heapIn {k : Kernel E} {bs bs' : List Block} {m : Mem} (h : HeapInv k bs)
    (h' : HeapIn k.firstBlk m k.heapStart (k.heapStart + k.heapSize) bs') :
    HeapInv { k with mem := m } bs' :=
  ⟨h'.first, h'.ne_nil, h'.rep, h'.placed, h.pos, h.aligned, h.size_aligned, h.end_lt, h'.coalesced⟩

/-- A heap with a changed memory that represents another list in the same range. -/
theorem HeapInv.update {k : Kernel E} {bs bs' : List Block} {m : Mem} (h : HeapInv k bs)
    (hhead : headAddr bs' = headAddr bs) (hne : bs' ≠ []) (hrep : Represents m bs')
    (hp : Placed k.heapStart bs' (k.heapStart + k.heapSize)) (hc : Coalesced bs') :
    HeapInv { k with mem := m } bs' :=
  h.of_heapIn (h.heapIn.update hhead hne hrep hp hc)

/-- `kmalloc` takes the first block that fits, and writes to headers only. -/
theorem kmalloc_of_fits (space : Space E) {k : Kernel E} {pre post : List Block} {b : Block}
    {fuel length : ℕ} (h : HeapInv k (pre ++ b :: post))
    (hpre : ∀ c ∈ pre, ¬Fits (align16 length) c) (hb : Fits (align16 length) b)
    (hfuel : pre.length < fuel) :
    ∃ m, kmalloc space (fuel + 1) length k = some (b.addr + 20, { k with mem := m }) ∧
      HeapInv { k with mem := m } (pre ++ takeBlock (align16 length) b ++ post) ∧
      ∀ x, OffHeaders (pre ++ takeBlock (align16 length) b ++ post) x → m x = k.mem x := by
  obtain ⟨m, hm, hin, hframe⟩ := h.heapIn.kmalloc_of_fits space hpre hb hfuel
  exact ⟨m, hm, h.of_heapIn hin, hframe⟩

/-- The state after `kmalloc` has grown the heap by a block of `growBytes length` bytes. -/
def grown (mmap : Mmap E) (k : Kernel E) (last length : ℕ) : Kernel E :=
  let start := k.heapStart + k.heapSize
  let nbytes := growBytes length
  { k with
    os := (mmap start nbytes k.os).2
    heapSize := add32 k.heapSize nbytes
    mem := setField (appendHeader k.mem last start nbytes) start .free mblkInUse }

/-- When nothing fits, `kmalloc` grows the heap, whatever `mmap` says and however large the
request is. -/
theorem kmalloc_of_not_fits (mmap : Mmap E) {k : Kernel E} {bs : List Block} {fuel length : ℕ}
    (h : HeapInv k bs) (hbs : ∀ c ∈ bs, ¬Fits (align16 length) c) (hfuel : bs.length < fuel) :
    kmalloc (kernelSpace mmap) (fuel + 1) length k =
      some (k.heapStart + k.heapSize + 20, grown mmap k (lastAddr bs) (align16 length)) := by
  have hpos := h.pos
  have hend := h.end_lt
  have hdvd := h.end_aligned
  have hstart : add32 k.heapStart k.heapSize = k.heapStart + k.heapSize := add32_of_lt hend
  have hpayload : payload (k.heapStart + k.heapSize) = k.heapStart + k.heapSize + 20 :=
    add32_of_lt (by rw [sizeofMallocH]; omega)
  have hnonnull : ¬(k.heapStart + k.heapSize = 0xffffffff ∨ k.heapStart + k.heapSize = 0) := by
    omega
  rw [kmalloc_of_findFreeBlock h.first_ne_zero (h.heapIn.findFreeBlock_of_not_fits hbs hfuel)]
  simp only [if_true, newBlockspace, kernelSpace, hstart, if_neg hnonnull, hpayload]
  rfl

/-- The size arithmetic of a request does not wrap around: neither the rounding to 16 bytes nor
what `__new_blockspace` adds to the rounded size. -/
def SizeOk (length : ℕ) : Prop :=
  length + 15 < 4294967296 ∧ align16 length + 20 + 4096 < 4294967296

instance (length : ℕ) : Decidable (SizeOk length) := by
  unfold SizeOk
  infer_instance

/-- The heap's end address did not wrap around on the way from `k` to `k'`. -/
def EndOk (k k' : Kernel E) : Prop :=
  k.heapSize ≤ k'.heapSize ∧ k'.heapStart + k'.heapSize < 4294967296

/-- Growing the heap by a block that is in use. -/
theorem HeapInv.grown {mmap : Mmap E} {k : Kernel E} {bs : List Block} {length : ℕ}
    (h : HeapInv k bs) (hlen : length + 20 + 4096 < 4294967296)
    (hend : EndOk k (grown mmap k (lastAddr bs) length)) :
    HeapInv (grown mmap k (lastAddr bs) length)
      (bs ++ [⟨k.heapStart + k.heapSize, growBytes length - 20, false⟩]) ∧
      (PakOS.grown mmap k (lastAddr bs) length).heapSize = k.heapSize + growBytes length := by
  obtain ⟨hgt, hle⟩ := growBytes_bounds hlen
  have hpos := h.pos
  have hend₀ := h.end_lt
  have hsize : (PakOS.grown mmap k (lastAddr bs) length).heapSize =
      k.heapSize + growBytes length := by
    have h₁ := hend.1
    simp only [PakOS.grown, add32] at h₁ ⊢
    omega
  have hend₁ : k.heapStart + (k.heapSize + growBytes length) < 4294967296 := by
    rw [← hsize]
    exact hend.2
  have hin : HeapIn k.firstBlk (PakOS.grown mmap k (lastAddr bs) length).mem k.heapStart
      (k.heapStart + (k.heapSize + growBytes length))
      (bs ++ [⟨k.heapStart + k.heapSize, growBytes length - 20, false⟩]) :=
    h.heapIn.grow le_rfl (by omega) (by omega) hend₁
  rw [← hsize] at hin
  refine ⟨⟨hin.first, hin.ne_nil, hin.rep, hin.placed, hpos, h.aligned, ?_, hin.hi_lt,
    hin.coalesced⟩, hsize⟩
  rw [hsize]
  exact (Nat.dvd_add_right h.size_aligned).mpr (dvd_growBytes length)

/-- Growing the heap writes the header of the new block and a link of the last one. -/
theorem grown_of_offHeaders {mmap : Mmap E} {k : Kernel E} {bs : List Block} (h : HeapInv k bs)
    {length x : ℕ}
    (hx : OffHeaders (bs ++ [⟨k.heapStart + k.heapSize, growBytes length - 20, false⟩]) x) :
    (grown mmap k (lastAddr bs) length).mem x = k.mem x :=
  h.heapIn.appendHeader_of_offHeaders hx

/-! ### Fuel -/

/-- More fuel does not change what the search finds. -/
theorem findFreeBlock_mono {m : Mem} {length fuel fuel' current last : ℕ} {r : ℕ × ℕ}
    (h : findFreeBlock m length fuel current last = some r) (hle : fuel ≤ fuel') :
    findFreeBlock m length fuel' current last = some r := by
  induction fuel generalizing fuel' current last with
  | zero => simp [findFreeBlock] at h
  | succ fuel ih =>
    obtain ⟨fuel', rfl⟩ := Nat.exists_eq_add_of_le hle
    rw [Nat.add_right_comm] at *
    rw [findFreeBlock] at h ⊢
    split at h
    · rename_i hc
      rw [if_pos hc]
      exact ih h (by omega)
    · rename_i hc
      rw [if_neg hc]
      exact h

/-- More fuel does not change what `kmalloc` returns. -/
theorem kmalloc_mono {space : Space E} {fuel fuel' length : ℕ} {k : Kernel E} {r : ℕ × Kernel E}
    (h : kmalloc space fuel length k = some r) (hle : fuel ≤ fuel') :
    kmalloc space fuel' length k = some r := by
  induction fuel generalizing fuel' length k with
  | zero => simp [kmalloc] at h
  | succ fuel ih =>
    obtain ⟨d, rfl⟩ := Nat.exists_eq_add_of_le hle
    rw [Nat.add_right_comm] at *
    rw [kmalloc] at h ⊢
    by_cases hfirst : k.firstBlk = 0
    · simp only [if_pos hfirst] at h ⊢
      exact ih h (by omega)
    · simp only [if_neg hfirst] at h ⊢
      cases hfind : findFreeBlock k.mem (align16 length) fuel k.firstBlk k.firstBlk with
      | none => simp [hfind] at h
      | some fl =>
        rw [findFreeBlock_mono hfind (by omega)]
        rwa [hfind] at h

/-! ### The outcome of `kmalloc` -/

/-- What a call of `kmalloc` makes of a heap with blocks: the new state `k'` with its list `bs'`,
and the block `b` that was handed out. -/
inductive KmallocStep (k : Kernel E) (bs : List Block) (length : ℕ) (k' : Kernel E) :
    List Block → Block → Prop
  /-- The first block that fits is taken. -/
  | reuse {pre post : List Block} {b : Block} {m : Mem} (hbs : bs = pre ++ b :: post)
      (hpre : ∀ c ∈ pre, ¬Fits (align16 length) c) (hb : Fits (align16 length) b)
      (hk : k' = { k with mem := m }) :
      KmallocStep k bs length k' (pre ++ takeBlock (align16 length) b ++ post)
        (if b.size > 256 + align16 length + 20 then ⟨b.addr, align16 length, false⟩
          else ⟨b.addr, b.size, false⟩)
  /-- Nothing fits, and a block is appended at the old end of the heap. -/
  | grow (hbs : ∀ c ∈ bs, ¬Fits (align16 length) c) (hstart : k'.heapStart = k.heapStart)
      (hsize : k'.heapSize = k.heapSize + growBytes (align16 length)) :
      KmallocStep k bs length k'
        (bs ++ [⟨k.heapStart + k.heapSize, growBytes (align16 length) - 20, false⟩])
        ⟨k.heapStart + k.heapSize, growBytes (align16 length) - 20, false⟩

/-- Either some block of the list fits, and there is a first one, or none does. -/
theorem fits_cases (length : ℕ) (bs : List Block) :
    (∃ pre b post, bs = pre ++ b :: post ∧ (∀ c ∈ pre, ¬Fits length c) ∧ Fits length b) ∨
      ∀ c ∈ bs, ¬Fits length c := by
  induction bs with
  | nil => exact Or.inr fun c hc => absurd hc List.not_mem_nil
  | cons c bs ih =>
    by_cases hc : Fits length c
    · exact Or.inl ⟨[], c, bs, rfl, fun d hd => absurd hd List.not_mem_nil, hc⟩
    · rcases ih with ⟨pre, b, post, rfl, hpre, hb⟩ | hnone
      · refine Or.inl ⟨c :: pre, b, post, rfl, fun d hd => ?_, hb⟩
        rcases List.mem_cons.mp hd with rfl | hd
        · exact hc
        · exact hpre d hd
      · refine Or.inr fun d hd => ?_
        rcases List.mem_cons.mp hd with rfl | hd
        · exact hc
        · exact hnone d hd

/-- A call of `kmalloc` that returns took the first block that fits. -/
theorem HeapIn.eq_of_kmalloc_of_fits {space : Space E} {k k' : Kernel E} {pre post : List Block}
    {b : Block} {fuel length p lo hi : ℕ} (h : HeapIn k.firstBlk k.mem lo hi (pre ++ b :: post))
    (hpre : ∀ c ∈ pre, ¬Fits (align16 length) c) (hb : Fits (align16 length) b)
    (hk : kmalloc space fuel length k = some (p, k')) :
    p = b.addr + 20 ∧ ∃ m, k' = { k with mem := m } ∧
      HeapIn k.firstBlk m lo hi (pre ++ takeBlock (align16 length) b ++ post) := by
  have hfuel : pre.length < fuel + pre.length + 1 := by omega
  obtain ⟨m, hm, hin, -⟩ := h.kmalloc_of_fits space hpre hb hfuel
  have heq := hm.symm.trans (kmalloc_mono hk (by omega))
  simp only [Option.some.injEq, Prod.mk.injEq] at heq
  obtain ⟨rfl, rfl⟩ := heq
  exact ⟨rfl, m, rfl, hin⟩

/-- A call of `kmalloc` that returns took the first block that fits. -/
theorem eq_of_kmalloc_of_fits {space : Space E} {k k' : Kernel E} {pre post : List Block} {b : Block}
    {fuel length p : ℕ} (h : HeapInv k (pre ++ b :: post))
    (hpre : ∀ c ∈ pre, ¬Fits (align16 length) c) (hb : Fits (align16 length) b)
    (hk : kmalloc space fuel length k = some (p, k')) :
    p = b.addr + 20 ∧ (∃ m, k' = { k with mem := m }) ∧
      HeapInv k' (pre ++ takeBlock (align16 length) b ++ post) := by
  obtain ⟨rfl, m, rfl, hin⟩ := h.heapIn.eq_of_kmalloc_of_fits hpre hb hk
  exact ⟨rfl, ⟨m, rfl⟩, h.of_heapIn hin⟩

/-- A call of `kmalloc` that returns grew the heap when nothing fits. -/
theorem eq_of_kmalloc_of_not_fits {mmap : Mmap E} {k k' : Kernel E} {bs : List Block}
    {fuel length p : ℕ} (h : HeapInv k bs) (hbs : ∀ c ∈ bs, ¬Fits (align16 length) c)
    (hk : kmalloc (kernelSpace mmap) fuel length k = some (p, k')) :
    p = k.heapStart + k.heapSize + 20 ∧ k' = grown mmap k (lastAddr bs) (align16 length) := by
  have hfuel : bs.length < fuel + bs.length + 1 := by omega
  have heq := (kmalloc_of_not_fits mmap h hbs hfuel).symm.trans (kmalloc_mono hk (by omega))
  simp only [Option.some.injEq, Prod.mk.injEq] at heq
  exact ⟨heq.1.symm, heq.2.symm⟩

/-- Every call of `kmalloc` that returns on a heap with blocks is a `KmallocStep`, keeps the
invariant, returns the payload of the block it hands out, and writes headers only. -/
theorem kmalloc_frame {mmap : Mmap E} {k k' : Kernel E} {bs : List Block} {fuel length p : ℕ}
    (h : HeapInv k bs) (hk : kmalloc (kernelSpace mmap) fuel length k = some (p, k'))
    (hlen : SizeOk length) (hend : EndOk k k') :
    ∃ bs' b, KmallocStep k bs length k' bs' b ∧ HeapInv k' bs' ∧ p = b.addr + 20 ∧
      ∀ x, OffHeaders bs' x → k'.mem x = k.mem x := by
  rcases fits_cases (align16 length) bs with ⟨pre, b, post, rfl, hpre, hb⟩ | hnone
  · have hfuel : pre.length < fuel + pre.length + 1 := by omega
    obtain ⟨m, hm, hinv, hframe⟩ := kmalloc_of_fits (kernelSpace mmap) h hpre hb hfuel
    have heq := hm.symm.trans (kmalloc_mono hk (by omega))
    simp only [Option.some.injEq, Prod.mk.injEq] at heq
    obtain ⟨rfl, rfl⟩ := heq
    exact ⟨_, _, .reuse rfl hpre hb rfl, hinv, by split <;> rfl, hframe⟩
  · obtain ⟨rfl, rfl⟩ := eq_of_kmalloc_of_not_fits h hnone hk
    obtain ⟨hinv, hsize⟩ := h.grown hlen.2 hend
    exact ⟨_, _, .grow hnone rfl hsize, hinv, rfl, fun x => grown_of_offHeaders h⟩

/-- Every call of `kmalloc` that returns on a heap with blocks is a `KmallocStep`, keeps the
invariant, and returns the payload of the block it hands out. -/
theorem kmalloc_step {mmap : Mmap E} {k k' : Kernel E} {bs : List Block} {fuel length p : ℕ}
    (h : HeapInv k bs) (hk : kmalloc (kernelSpace mmap) fuel length k = some (p, k'))
    (hlen : SizeOk length) (hend : EndOk k k') :
    ∃ bs' b, KmallocStep k bs length k' bs' b ∧ HeapInv k' bs' ∧ p = b.addr + 20 := by
  obtain ⟨bs', b, hstep, hinv, hp, -⟩ := kmalloc_frame h hk hlen hend
  exact ⟨bs', b, hstep, hinv, hp⟩

/-- What `kmalloc` returns on a heap with blocks is an address with a header in front. -/
theorem kmalloc_bounds {mmap : Mmap E} {k k' : Kernel E} {bs : List Block} {fuel length p : ℕ}
    (h : HeapInv k bs) (hk : kmalloc (kernelSpace mmap) fuel length k = some (p, k')) :
    20 ≤ p ∧ p < 4294967296 := by
  have hend := h.end_lt
  rcases fits_cases (align16 length) bs with ⟨pre, b, post, rfl, hpre, hb⟩ | hnone
  · obtain ⟨rfl, -, -⟩ := eq_of_kmalloc_of_fits h hpre hb hk
    have hmem := h.placed.mem (List.mem_append_right pre (List.mem_cons_self (a := b) (l := post)))
    unfold Block.stop at hmem
    omega
  · obtain ⟨rfl, -⟩ := eq_of_kmalloc_of_not_fits h hnone hk
    have hdvd := h.end_aligned
    omega

/-- `kmalloc` never returns `NULL` on a heap with blocks. -/
theorem kmalloc_ne_null {mmap : Mmap E} {k k' : Kernel E} {bs : List Block} {fuel length p : ℕ}
    (h : HeapInv k bs) (hk : kmalloc (kernelSpace mmap) fuel length k = some (p, k')) : p ≠ 0 := by
  have := kmalloc_bounds h hk
  omega

/-- `kmalloc` returns on every heap with blocks. -/
theorem exists_kmalloc (mmap : Mmap E) {k : Kernel E} {bs : List Block} (h : HeapInv k bs)
    (length : ℕ) : ∃ fuel p k', kmalloc (kernelSpace mmap) fuel length k = some (p, k') := by
  rcases fits_cases (align16 length) bs with ⟨pre, b, post, rfl, hpre, hb⟩ | hnone
  · obtain ⟨m, hm, -⟩ := kmalloc_of_fits (kernelSpace mmap) h hpre hb
      (Nat.lt_succ_self pre.length)
    exact ⟨_, _, _, hm⟩
  · exact ⟨_, _, _, kmalloc_of_not_fits mmap h hnone (Nat.lt_succ_self bs.length)⟩

end PakOS
