import PakOS.Kmalloc.HeapInv

/-!
# The other calls on a heap

`kfree` of a block in use, `kcalloc` and `krealloc` on a heap with invariant `HeapInv`.  Their byte
loops stay inside one payload, and a write inside a payload keeps the invariant
(`HeapInv.write_payload`); the rest is `KmallocStep` and `releaseBlock`.
-/

namespace PakOS

open Machine Coalesce

variable {E : Type*}

/-! ### Blocks of a heap -/

section HeapIn

variable {first lo hi : ℕ} {m : Mem} {bs : List Block} {b : Block}

/-- Where a block of the list lies. -/
theorem HeapIn.block_bounds (h : HeapIn first m lo hi bs) (hb : b ∈ bs) :
    0 < b.addr ∧ b.addr + 20 + b.size < 4294967296 := by
  have hmem := h.placed.mem hb
  have hpage := h.page_le
  have hend := h.hi_lt
  unfold Block.stop at hmem
  omega

/-- The header in front of the payload of a block of the list. -/
theorem HeapIn.headerOf_eq (h : HeapIn first m lo hi bs) (hb : b ∈ bs) :
    headerOf (b.addr + 20) = b.addr := by
  have hbounds := h.block_bounds hb
  unfold headerOf sizeofMallocH
  rw [sub32_of_le (by omega) (by omega)]
  omega

/-- Writes that spare the headers keep the list. -/
theorem HeapIn.write_offHeaders {m' : Mem} (h : HeapIn first m lo hi bs)
    (hm : ∀ x, ¬OffHeaders bs x → m' x = m x) : HeapIn first m' lo hi bs := by
  refine h.update rfl h.ne_nil (h.rep.congr fun c hc f => ?_) h.placed h.coalesced
  refine getField_congr fun x hx hlt => hm x fun hoff => ?_
  have hxc := hoff c hc
  omega

/-- The bytes of a payload belong to no header. -/
theorem HeapIn.offHeaders_payload (h : HeapIn first m lo hi bs) (hb : b ∈ bs) {x : ℕ}
    (hx : b.addr + 20 ≤ x) (hlt : x < b.stop) : OffHeaders bs x := by
  intro c hc
  by_cases hbc : b.addr = c.addr
  · omega
  · have := h.placed.apart hb hc hbc
    unfold Block.stop at this hlt
    omega

end HeapIn

/-- Where a block of the heap lies. -/
theorem HeapInv.block_bounds {k : Kernel E} {bs : List Block} (h : HeapInv k bs) {b : Block}
    (hb : b ∈ bs) : 0 < b.addr ∧ b.addr + 20 + b.size < 4294967296 := h.heapIn.block_bounds hb

/-- The header in front of the payload of a block of the heap. -/
theorem HeapInv.headerOf_eq {k : Kernel E} {bs : List Block} (h : HeapInv k bs) {b : Block}
    (hb : b ∈ bs) : headerOf (b.addr + 20) = b.addr := h.heapIn.headerOf_eq hb

/-- Writes that spare the headers keep the heap. -/
theorem HeapInv.write_offHeaders {k : Kernel E} {bs : List Block} (h : HeapInv k bs) {m : Mem}
    (hm : ∀ x, ¬OffHeaders bs x → m x = k.mem x) : HeapInv { k with mem := m } bs :=
  h.of_heapIn (h.heapIn.write_offHeaders hm)

/-- The bytes of a payload belong to no header. -/
theorem HeapInv.offHeaders_payload {k : Kernel E} {bs : List Block} (h : HeapInv k bs) {b : Block}
    (hb : b ∈ bs) {x : ℕ} (hx : b.addr + 20 ≤ x) (hlt : x < b.stop) : OffHeaders bs x :=
  h.heapIn.offHeaders_payload hb hx hlt

/-- The recorded size of a block of the heap. -/
theorem HeapInv.size_eq {k : Kernel E} {bs : List Block} (h : HeapInv k bs) {b : Block}
    (hb : b ∈ bs) :
    getField k.mem (headerOf (b.addr + 20)) .size = b.size := by
  rw [h.headerOf_eq hb, (h.rep.nodes b hb).size]

/-- A byte of a payload lies in no header. -/
theorem HeapInv.offHeaders_of_lt_size {k : Kernel E} {bs : List Block} (h : HeapInv k bs)
    {b : Block} (hb : b ∈ bs) {i : ℕ} (hi : i < b.size) : OffHeaders bs (b.addr + 20 + i) :=
  h.offHeaders_payload hb (by omega) (by unfold Block.stop; omega)

/-- The bytes in front of the heap belong to no header. -/
theorem HeapInv.offHeaders_of_lt {k : Kernel E} {bs : List Block} (h : HeapInv k bs) {x : ℕ}
    (hx : x < k.heapStart) : OffHeaders bs x :=
  fun _ hc => Or.inl (hx.trans_le (h.placed.mem hc).1)

/-- Writes inside the payload of a block keep the heap. -/
theorem HeapInv.write_payload {k : Kernel E} {bs : List Block} (h : HeapInv k bs) {b : Block}
    (hb : b ∈ bs) {m : Mem} (hm : ∀ x, x < b.addr + 20 ∨ b.stop ≤ x → m x = k.mem x) :
    HeapInv { k with mem := m } bs := by
  refine h.write_offHeaders fun x hx => hm x ?_
  by_contra hpay
  exact hx (h.offHeaders_payload hb (by omega) (by omega))

/-! ### `kfree` -/

theorem headAddr_releaseBlock (a : ℕ) (bs : List Block) :
    headAddr (releaseBlock a bs) = headAddr bs := by
  cases bs with
  | nil => rfl
  | cons b bs =>
    have := head_key_release (p := Block.free) keyed_blocks a b bs
    rw [headAddr, headAddr, List.headD_eq_head?_getD]
    unfold addrs releaseBlock
    rw [this]
    rfl

theorem releaseBlock_ne_nil {a : ℕ} {bs : List Block} (h : bs ≠ []) : releaseBlock a bs ≠ [] := by
  cases bs with
  | nil => exact absurd rfl h
  | cons b bs =>
    intro hnil
    have := head_key_release (p := Block.free) keyed_blocks a b bs
    unfold releaseBlock at hnil
    rw [hnil] at this
    simp at this

/-- The blocks in use after freeing a block are those before, without it. -/
theorem mem_releaseBlock {a : ℕ} {bs : List Block} {c : Block} (hc : c.free = false) :
    c ∈ releaseBlock a bs ↔ c ∈ bs ∧ c.addr ≠ a :=
  mem_release_closed merging_blocks (fun _ => rfl) hc bs

/-- `kfree` of a block of the list. -/
theorem HeapIn.kfree_of_mem (space : Space E) {k : Kernel E} {lo hi : ℕ} {bs : List Block}
    (h : HeapIn k.firstBlk k.mem lo hi bs) {b : Block} (hb : b ∈ bs) (fuel : ℕ) :
    kfree space (fuel + 1) (b.addr + 20) k =
        some (.ok, { k with mem := kfreeBlock k.mem b.addr }) ∧
      HeapIn k.firstBlk (kfreeBlock k.mem b.addr) lo hi (releaseBlock b.addr bs) := by
  have hvalid := (h.rep.nodes b hb).valid
  have hpage := h.page_le
  have hend := h.hi_lt
  have hpos : 0 < lo := by omega
  refine ⟨?_, h.update (headAddr_releaseBlock _ _) (releaseBlock_ne_nil h.ne_nil) ?_
    h.placed.releaseBlock (coalesced_releaseBlock _ _)⟩
  · rw [kfree, if_neg (by omega), h.headerOf_eq hb, if_neg (not_not.mpr hvalid)]
  · obtain ⟨pre, post, rfl⟩ := List.append_of_mem hb
    exact kfreeBlock_represents h.rep h.placed hpos hend.le h.coalesced

/-- `kfree` of a block of the list writes to headers only. -/
theorem HeapIn.kfreeBlock_of_offHeaders {first lo hi : ℕ} {m : Mem} {bs : List Block}
    (h : HeapIn first m lo hi bs) {b : Block} (hb : b ∈ bs) {x : ℕ} (hx : OffHeaders bs x) :
    kfreeBlock m b.addr x = m x := by
  have hpage := h.page_le
  have hend := h.hi_lt
  have hpos : 0 < lo := by omega
  obtain ⟨pre, post, rfl⟩ := List.append_of_mem hb
  exact PakOS.kfreeBlock_of_offHeaders h.rep h.placed hpos hend.le h.coalesced hx

/-- `kfree` of a block of the heap. -/
theorem kfree_of_mem (space : Space E) {k : Kernel E} {bs : List Block} (h : HeapInv k bs)
    {b : Block} (hb : b ∈ bs) (fuel : ℕ) :
    kfree space (fuel + 1) (b.addr + 20) k =
        some (.ok, { k with mem := kfreeBlock k.mem b.addr }) ∧
      HeapInv { k with mem := kfreeBlock k.mem b.addr } (releaseBlock b.addr bs) := by
  obtain ⟨heq, hin⟩ := h.heapIn.kfree_of_mem space hb fuel
  exact ⟨heq, h.of_heapIn hin⟩

/-- `kfree` of a block of the heap writes to headers only. -/
theorem HeapInv.kfreeBlock_of_offHeaders {k : Kernel E} {bs : List Block} (h : HeapInv k bs)
    {b : Block} (hb : b ∈ bs) {x : ℕ} (hx : OffHeaders bs x) :
    kfreeBlock k.mem b.addr x = k.mem x := h.heapIn.kfreeBlock_of_offHeaders hb hx

/-- `kfree` of a block of the heap, with the fuel it was given. -/
theorem kfree_step {space : Space E} {k k' : Kernel E} {bs : List Block} {b : Block} {fuel : ℕ}
    {st : Status} (h : HeapInv k bs) (hb : b ∈ bs)
    (hk : kfree space fuel (b.addr + 20) k = some (st, k')) :
    st = .ok ∧ k' = { k with mem := kfreeBlock k.mem b.addr } ∧
      HeapInv k' (releaseBlock b.addr bs) := by
  cases fuel with
  | zero => simp [kfree] at hk
  | succ fuel =>
    obtain ⟨heq, hinv⟩ := kfree_of_mem space h hb fuel
    rw [heq] at hk
    simp only [Option.some.injEq, Prod.mk.injEq] at hk
    obtain ⟨rfl, rfl⟩ := hk
    exact ⟨rfl, rfl, hinv⟩

/-- `kfree(NULL)` does nothing. -/
theorem kfree_null {space : Space E} {k k' : Kernel E} {fuel : ℕ} {st : Status}
    (hk : kfree space fuel 0 k = some (st, k')) : st = .ok ∧ k' = k := by
  cases fuel with
  | zero => simp [kfree] at hk
  | succ fuel =>
    simp only [kfree, if_true, Option.some.injEq, Prod.mk.injEq] at hk
    exact ⟨hk.1.symm, hk.2.symm⟩

/-! ### The block handed out -/

/-- The block that `kmalloc` hands out is as large as the request that was rounded up. -/
theorem KmallocStep.align16_le {k k' : Kernel E} {bs bs' : List Block} {b : Block} {length : ℕ}
    (h : KmallocStep k bs length k' bs' b) (hlen : SizeOk length) : align16 length ≤ b.size := by
  cases h with
  | reuse _ _ hb _ =>
    have hfit := hb.2
    split
    · exact le_rfl
    · exact hfit
  | grow _ _ _ =>
    have hgrow := growBytes_bounds hlen.2
    simp only
    omega

/-- The block that `kmalloc` hands out is in the new list, in use, and large enough. -/
theorem KmallocStep.block {k k' : Kernel E} {bs bs' : List Block} {b : Block} {length : ℕ}
    (h : KmallocStep k bs length k' bs' b) (hlen : SizeOk length) :
    b ∈ bs' ∧ b.free = false ∧ length ≤ b.size := by
  have hle := (le_align16 hlen.1).1.trans (h.align16_le hlen)
  cases h with
  | reuse _ _ hb _ =>
    refine ⟨?_, by split <;> rfl, hle⟩
    unfold takeBlock
    split <;> simp
  | grow _ _ _ => exact ⟨by simp, rfl, hle⟩

/-- No block in use stands where a free one does. -/
theorem Placed.addr_ne_of_free {lo hi : ℕ} {bs : List Block} {b c : Block} (h : Placed lo bs hi)
    (hb : b ∈ bs) (hbfree : b.free = true) (hc : c ∈ bs) (hcfree : c.free = false) :
    c.addr ≠ b.addr := by
  intro heq
  rw [h.eq_of_addr_eq hc hb heq, hbfree] at hcfree
  exact Bool.noConfusion hcfree

/-- The blocks in use after a free block was taken are those before and the one taken. -/
theorem mem_takeBlock_inUse {pre post : List Block} {b c : Block} {length : ℕ} (hb : b.free = true)
    (hc : c.free = false) :
    c ∈ pre ++ takeBlock length b ++ post ↔
      c = (if b.size > 256 + length + 20 then ⟨b.addr, length, false⟩ else ⟨b.addr, b.size, false⟩) ∨
        c ∈ pre ++ b :: post := by
  have hcb : c ≠ b := by
    intro heq
    rw [heq, hb] at hc
    exact Bool.noConfusion hc
  have hcs : c ≠ ⟨b.addr + 20 + length, b.size - 20 - length, true⟩ :=
    fun heq => by simp [heq] at hc
  unfold takeBlock
  split
  · simp only [List.mem_append, List.mem_cons, hcb, hcs, List.not_mem_nil, false_or, or_false]
    exact or_assoc.trans (or_left_comm)
  · simp only [List.mem_append, List.mem_cons, hcb, List.not_mem_nil, false_or, or_false]
    exact or_assoc.trans (or_left_comm)

/-- The blocks in use after `kmalloc` are those before and the one it hands out. -/
theorem KmallocStep.inUse {k k' : Kernel E} {bs bs' : List Block} {b : Block} {length : ℕ}
    (h : KmallocStep k bs length k' bs' b) (hinv : HeapInv k bs) :
    (∀ c : Block, c.free = false → (c ∈ bs' ↔ c = b ∨ c ∈ bs)) ∧
      ∀ c ∈ bs, c.free = false → c.addr ≠ b.addr := by
  cases h with
  | @reuse pre post d m hbs hpre hd hk =>
    subst hbs
    refine ⟨fun c hc => mem_takeBlock_inUse hd.1 hc, fun c hc hfree => ?_⟩
    have hne := hinv.placed.addr_ne_of_free (b := d) (by simp) hd.1 hc hfree
    split <;> exact hne
  | grow _ _ _ =>
    refine ⟨fun c _ => ?_, fun c hc _ heq => ?_⟩
    · rw [List.mem_append, List.mem_singleton, or_comm]
    · have := (hinv.placed.mem hc).2
      unfold Block.stop at this
      simp only at heq
      omega

/-- A block in use stays on the list, and the new block lies on one side of it. -/
theorem KmallocStep.apart {k k' : Kernel E} {bs bs' : List Block} {b c : Block} {length : ℕ}
    (h : KmallocStep k bs length k' bs' b) (hk : HeapInv k bs) (hk' : HeapInv k' bs')
    (hlen : SizeOk length) (hc : c ∈ bs) (hfree : c.free = false) :
    c ∈ bs' ∧ (c.stop ≤ b.addr ∨ b.stop ≤ c.addr) := by
  obtain ⟨hmem, hne⟩ := h.inUse hk
  obtain ⟨hb, -, -⟩ := h.block hlen
  have hc' : c ∈ bs' := (hmem c hfree).mpr (Or.inr hc)
  exact ⟨hc', hk'.placed.apart hc' hb (hne c hc hfree)⟩

/-! ### `kcalloc` -/

/-- What `kcalloc` returns, in terms of `kmalloc`. -/
theorem kcalloc_eq_some_iff {space : Space E} {fuel nmemb size p : ℕ} {k k' : Kernel E} :
    kcalloc space fuel nmemb size k = some (p, k') ↔
      ∃ k₁, kmalloc space fuel (mul32 nmemb size) k = some (p, k₁) ∧
        k' = { k₁ with mem := fillBytes k₁.mem p 0 (mul32 nmemb size) } := by
  unfold kcalloc
  cases hkm : kmalloc space fuel (mul32 nmemb size) k with
  | none => simp [hkm]
  | some r =>
    obtain ⟨data, k₁⟩ := r
    simp only [hkm, Option.some.injEq, Prod.mk.injEq]
    constructor
    · rintro ⟨rfl, rfl⟩
      exact ⟨k₁, ⟨rfl, rfl⟩, rfl⟩
    · rintro ⟨k₂, ⟨rfl, rfl⟩, rfl⟩
      exact ⟨rfl, rfl⟩

/-- `kcalloc` is a `kmalloc` whose payload is cleared. -/
theorem kcalloc_step {mmap : Mmap E} {k k' : Kernel E} {bs : List Block} {fuel nmemb size p : ℕ}
    (h : HeapInv k bs) (hk : kcalloc (kernelSpace mmap) fuel nmemb size k = some (p, k'))
    (hmul : nmemb * size < 4294967296) (hlen : SizeOk (nmemb * size)) (hend : EndOk k k') :
    ∃ k₁ bs' b, KmallocStep k bs (nmemb * size) k₁ bs' b ∧ HeapInv k' bs' ∧ p = b.addr + 20 ∧
      k' = { k₁ with mem := fillBytes k₁.mem p 0 (nmemb * size) } := by
  obtain ⟨k₁, hkm, rfl⟩ := kcalloc_eq_some_iff.mp hk
  rw [mul32_of_lt hmul] at hkm ⊢
  obtain ⟨bs', b, hstep, hinv, rfl⟩ := kmalloc_step h hkm hlen hend
  obtain ⟨hb, -, hsize⟩ := hstep.block hlen
  have hbounds := hinv.block_bounds hb
  refine ⟨k₁, bs', b, hstep, hinv.write_payload hb fun x hx => ?_, rfl, rfl⟩
  unfold Block.stop at hx
  exact fillBytes_of_notMem (by omega) (by omega)

/-! ### `krealloc` -/

/-- The copy loop of `krealloc` writes only the rest of its destination, when the header of the old
block is not in it. -/
theorem reallocCopy_of_notMem {block newData oldData n fuel i : ℕ} {m m' : Mem}
    (h : reallocCopy block newData oldData fuel i m = some m')
    (hn : getField m block .size = n) (hd : newData + n ≤ 4294967296)
    (hblock : block + 20 ≤ newData ∨ newData + n ≤ block) :
    ∀ x, x < newData + i ∨ newData + n ≤ x → m' x = m x := by
  induction fuel generalizing i m with
  | zero => simp [reallocCopy] at h
  | succ fuel ih =>
    rw [reallocCopy, hn] at h
    split at h
    · rename_i hi
      rw [add32_of_lt (by omega)] at h
      have hsame : ∀ x, x < newData + i ∨ newData + n ≤ x →
          Function.update m (newData + i) (m (add32 oldData i)) x = m x := by
        intro x hx
        exact Function.update_of_ne (by omega) _ _
      have hn' : getField (Function.update m (newData + i) (m (add32 oldData i))) block .size = n := by
        rw [getField_congr fun x _ _ => hsame x (by omega), hn]
      intro x hx
      rw [ih h hn' x (by omega), hsame x hx]
    · simp only [Option.some.injEq] at h
      subst h
      exact fun _ _ => rfl

/-- The copy loop of `krealloc` ends, when the header of the old block is not in its destination. -/
theorem exists_reallocCopy {block newData oldData n i : ℕ} {m : Mem} (fuel : ℕ)
    (hn : getField m block .size = n) (hd : newData + n ≤ 4294967296)
    (hblock : block + 20 ≤ newData ∨ newData + n ≤ block) (hfuel : n < fuel + i) :
    ∃ m', reallocCopy block newData oldData (fuel + 1) i m = some m' := by
  induction fuel generalizing i m with
  | zero =>
    refine ⟨m, ?_⟩
    rw [reallocCopy, hn, if_neg (by omega)]
  | succ fuel ih =>
    rw [reallocCopy, hn]
    split
    · rw [add32_of_lt (by omega)]
      refine ih ?_ (by omega)
      rw [getField_congr fun x _ _ => Function.update_of_ne (by omega) _ _, hn]
    · exact ⟨m, rfl⟩

/-- The copy loop of `krealloc` copies the old payload, when the new one does not overlap the old
block. -/
theorem reallocCopy_of_mem {block newData n fuel i : ℕ} {m m' : Mem}
    (h : reallocCopy block newData (block + 20) fuel i m = some m')
    (hn : getField m block .size = n) (hd : newData + n ≤ 4294967296)
    (hs : block + 20 + n ≤ 4294967296) (hblock : block + 20 + n ≤ newData ∨ newData + n ≤ block) :
    ∀ j, i ≤ j → j < n → m' (newData + j) = m (block + 20 + j) := by
  induction fuel generalizing i m with
  | zero => simp [reallocCopy] at h
  | succ fuel ih =>
    rw [reallocCopy, hn] at h
    split at h
    · rename_i hi
      rw [add32_of_lt (by omega), add32_of_lt (by omega)] at h
      -- neither the header nor the payload of the old block is written
      have hold : ∀ x, block ≤ x → x < block + 20 + n →
          Function.update m (newData + i) (m (block + 20 + i)) x = m x := by
        intro x hx hlt
        exact Function.update_of_ne (by omega) _ _
      have hn' : getField (Function.update m (newData + i) (m (block + 20 + i))) block .size = n := by
        rw [getField_congr fun x hx hlt => hold x hx (by omega), hn]
      intro j hij hj
      by_cases hji : j = i
      · subst hji
        -- the rest of the loop writes behind byte `j`
        have hrest : m' (newData + j) =
            Function.update m (newData + j) (m (block + 20 + j)) (newData + j) :=
          reallocCopy_of_notMem h hn' hd (by omega) _ (Or.inl (Nat.lt_succ_self _))
        rw [hrest, Function.update_self]
      · rw [ih h hn' j (by omega) hj, hold _ (by omega) (by omega)]
    · exact fun j hij hj => by omega

/-- What a call of `krealloc` on a block in use comes to. -/
inductive KreallocStep (k : Kernel E) (bs : List Block) (b : Block) (size : ℕ) (k' : Kernel E) :
    List Block → ℕ → Prop
  /-- The block is large enough. -/
  | keep (hsize : size ≤ b.size) (hk : k' = k) : KreallocStep k bs b size k' bs (b.addr + 20)
  /-- A new block is allocated and the old one freed. -/
  | move {k₁ : Kernel E} {bs₁ : List Block} {b₁ : Block} (hsize : b.size < size)
      (hstep : KmallocStep k bs size k₁ bs₁ b₁) (hinv : HeapInv k₁ bs₁) (hb : b ∈ bs₁)
      (hstart : k'.heapStart = k₁.heapStart) (hheap : k'.heapSize = k₁.heapSize) :
      KreallocStep k bs b size k' (releaseBlock b.addr bs₁) (b₁.addr + 20)

/-- A call of `krealloc` moves the block `b` into the block `b₁`, which its `kmalloc` handed out in
the state `k₁`. -/
structure Moves (k : Kernel E) (bs : List Block) (b : Block) (size : ℕ) (k₁ : Kernel E)
    (bs₁ : List Block) (b₁ : Block) (k' : Kernel E) : Prop where
  /-- What `kmalloc` does. -/
  step : KmallocStep k bs size k₁ bs₁ b₁
  /-- The heap behind it. -/
  inv₁ : HeapInv k₁ bs₁
  /-- The old block is still there. -/
  mem : b ∈ bs₁
  /-- The old block is released in the end. -/
  inv : HeapInv k' (releaseBlock b.addr bs₁)
  /-- Behind the `kmalloc` only memory changes. -/
  kernel : ∃ m, k' = { k₁ with mem := m }
  /-- The old payload was copied. -/
  copied : ∀ i < b.size, k'.mem (b₁.addr + 20 + i) = k.mem (b.addr + 20 + i)
  /-- Only headers and the new payload are written. -/
  frame : ∀ x, OffHeaders bs₁ x → x < b₁.addr + 20 ∨ b₁.stop ≤ x → k'.mem x = k.mem x

/-- What `krealloc` does with a block in use that is too small. -/
theorem krealloc_moves {mmap : Mmap E} {k k' : Kernel E} {bs : List Block} {b : Block}
    {fuel size q : ℕ} (h : HeapInv k bs) (hb : b ∈ bs) (hfree : b.free = false)
    (hk : krealloc (kernelSpace mmap) fuel (b.addr + 20) size k = some (q, k'))
    (hlen : SizeOk size) (hsize : b.size < size)
    (hend : ∀ p k₁, kmalloc (kernelSpace mmap) fuel size k = some (p, k₁) → EndOk k k₁) :
    ∃ k₁ bs₁ b₁, kmalloc (kernelSpace mmap) fuel size k = some (q, k₁) ∧ q = b₁.addr + 20 ∧
      Moves k bs b size k₁ bs₁ b₁ k' := by
  have hNode := h.rep.nodes b hb
  unfold krealloc at hk
  rw [if_neg (by omega), h.headerOf_eq hb] at hk
  simp only [if_neg (not_not.mpr hNode.valid), hNode.size] at hk
  rw [if_neg (Nat.not_le.mpr hsize)] at hk
  cases hkm : kmalloc (kernelSpace mmap) fuel size k with
  | none => simp [hkm] at hk
  | some r =>
    obtain ⟨newData, k₁⟩ := r
    simp only [hkm] at hk
    obtain ⟨bs₁, b₁, hstep, hinv₁, rfl, hframe₁⟩ := kmalloc_frame h hkm hlen (hend _ _ hkm)
    obtain ⟨hb₁, -, hsize₁⟩ := hstep.block hlen
    obtain ⟨hb', happart⟩ := hstep.apart h hinv₁ hlen hb hfree
    have hbounds := hinv₁.block_bounds hb₁
    have hbounds' := hinv₁.block_bounds hb'
    have hbsize := (hinv₁.rep.nodes b hb').size
    unfold Block.stop at happart
    rw [if_neg (by omega)] at hk
    cases hcopy : reallocCopy b.addr (b₁.addr + 20) (b.addr + 20) fuel 0 k₁.mem with
    | none => simp [hcopy] at hk
    | some m =>
      simp only [hcopy, Option.map_eq_some_iff] at hk
      obtain ⟨⟨st, k₂⟩, hkfree, hkr⟩ := hk
      simp only [Prod.mk.injEq] at hkr
      obtain ⟨rfl, rfl⟩ := hkr
      -- the copy stays inside the new payload
      have hm := reallocCopy_of_notMem hcopy hbsize (by omega) (by omega)
      have hm' := reallocCopy_of_mem hcopy hbsize (by omega) (by omega) (by omega)
      have hinv₂ := hinv₁.write_payload (m := m) hb₁ fun x hx => hm x (by
        unfold Block.stop at hx
        omega)
      obtain ⟨-, rfl, hinv'⟩ := kfree_step hinv₂ hb' hkfree
      refine ⟨k₁, bs₁, b₁, rfl, rfl, hstep, hinv₁, hb', hinv', ⟨_, rfl⟩, fun i hi => ?_,
        fun x hx hout => ?_⟩
      · have hfree₁ := hinv₂.kfreeBlock_of_offHeaders hb'
          (hinv₂.offHeaders_of_lt_size hb₁ (show i < b₁.size by omega))
        refine (hfree₁.trans (hm' i (Nat.zero_le i) hi)).trans (hframe₁ _ ?_)
        exact hinv₁.offHeaders_of_lt_size hb' hi
      · refine (hinv₂.kfreeBlock_of_offHeaders hb' hx).trans ((hm x ?_).trans (hframe₁ x hx))
        unfold Block.stop at hout
        omega

/-- Every call of `krealloc` on a block in use that returns is a `KreallocStep` and keeps the
invariant; behind the `kmalloc` of a block that is too small only memory changes. -/
theorem krealloc_step {mmap : Mmap E} {k k' : Kernel E} {bs : List Block} {b : Block}
    {fuel size q : ℕ} (h : HeapInv k bs) (hb : b ∈ bs) (hfree : b.free = false)
    (hk : krealloc (kernelSpace mmap) fuel (b.addr + 20) size k = some (q, k'))
    (hlen : SizeOk size)
    (hend : b.size < size → ∀ p k₁, kmalloc (kernelSpace mmap) fuel size k = some (p, k₁) →
      EndOk k k₁) :
    ∃ bs', KreallocStep k bs b size k' bs' q ∧ HeapInv k' bs' ∧
      (k' = k ∨ b.size < size ∧ ∃ p k₁ m,
        kmalloc (kernelSpace mmap) fuel size k = some (p, k₁) ∧ k' = { k₁ with mem := m }) := by
  have hNode := h.rep.nodes b hb
  by_cases hsize : b.size ≥ size
  · unfold krealloc at hk
    rw [if_neg (by omega), h.headerOf_eq hb] at hk
    simp only [if_neg (not_not.mpr hNode.valid), hNode.size] at hk
    rw [if_pos hsize] at hk
    simp only [Option.some.injEq, Prod.mk.injEq] at hk
    obtain ⟨rfl, rfl⟩ := hk
    exact ⟨bs, .keep hsize rfl, h, Or.inl rfl⟩
  · have hlt := Nat.lt_of_not_le hsize
    obtain ⟨k₁, bs₁, b₁, hkm, rfl, hmoves⟩ := krealloc_moves h hb hfree hk hlen hlt (hend hlt)
    obtain ⟨m, rfl⟩ := hmoves.kernel
    exact ⟨_, .move hlt hmoves.step hmoves.inv₁ hmoves.mem rfl rfl, hmoves.inv,
      Or.inr ⟨hlt, _, k₁, m, hkm, rfl⟩⟩

end PakOS
