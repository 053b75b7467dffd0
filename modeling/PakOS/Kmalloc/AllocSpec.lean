import PakOS.Kmalloc.FreeSpec

/-!
# What `kmalloc` does to the block list

`kmalloc` takes the first block that fits (`Fits`), splitting it when the rest is worth a block of
its own (`takeBlock`), and appends a block behind the last one when nothing fits.  The search is
`findFreeBlock_of_fits` and `findFreeBlock_of_not_fits`; the memory updates on a block that was
found are `represents_take` and `represents_squeeze`, and each is one use of the splice rule.
-/

namespace PakOS

open Machine Coalesce

/-- A block that serves a request of `length` bytes: free, and large enough. -/
def Fits (length : ℕ) (b : Block) : Prop := b.free = true ∧ length ≤ b.size

instance (length : ℕ) (b : Block) : Decidable (Fits length b) := by
  unfold Fits
  infer_instance

/-- What becomes of the block that serves a request: it is in use, and the part behind the requested
bytes is split off when more than 256 bytes of payload remain. -/
def takeBlock (length : ℕ) (b : Block) : List Block :=
  if b.size > 256 + length + 20 then
    [⟨b.addr, length, false⟩, ⟨b.addr + 20 + length, b.size - 20 - length, true⟩]
  else [⟨b.addr, b.size, false⟩]

/-! ### Rounding -/

/-- The rounding of `kmalloc`, wrap-around included. -/
theorem align16_eq (length : ℕ) : align16 length = add32 length 15 / 16 * 16 :=
  and_highMask (k := 4) (add32_lt _ _) (by decide)

/-- A request at most 31 below the word size is rounded up. -/
theorem le_align16 {length : ℕ} (h : length + 15 < 4294967296) :
    length ≤ align16 length ∧ align16 length ≤ length + 15 := by
  rw [align16_eq, add32_of_lt h]
  omega

/-- The size `__new_blockspace` asks for, wrap-around included. -/
theorem growBytes_eq (size : ℕ) :
    growBytes size = add32 (add32 size 20) 4096 / 4096 * 4096 :=
  and_highMask (k := 12) (add32_lt _ _) (by decide)

theorem dvd_growBytes (size : ℕ) : 4096 ∣ growBytes size := by
  rw [growBytes_eq]
  exact Dvd.intro_left _ rfl

/-- Without wrap-around `__new_blockspace` asks for whole pages with room for the header and the
payload. -/
theorem growBytes_bounds {size : ℕ} (h : size + 20 + 4096 < 4294967296) :
    size + 20 < growBytes size ∧ growBytes size ≤ size + 20 + 4096 := by
  rw [growBytes_eq, add32_of_lt (a := size) (by omega), add32_of_lt (by omega)]
  omega

/-! ### The search -/

/-- The search passes over a block that does not fit. -/
theorem findFreeBlock_step {m : Mem} {pre rest : List Block} {c : Block} {length : ℕ}
    (h : Represents m (pre ++ c :: rest)) (hc0 : c.addr ≠ 0) (hc : ¬Fits length c)
    (fuel last : ℕ) :
    findFreeBlock m length (fuel + 1) c.addr last =
      findFreeBlock m length fuel (headAddr rest) c.addr := by
  have hcNode := h.nodes c (by simp)
  have hnofit : ¬(getField m c.addr .free = mblkFree ∧ getField m c.addr .size ≥ length) := by
    rw [hcNode.free, hcNode.size, Block.flag]
    unfold Fits at hc
    cases hfree : c.free <;> simp_all [mblkFree, mblkInUse]
  rw [findFreeBlock, if_pos ⟨hc0, hnofit⟩, (h.link_mid hc0).2]

/-- The first block of a list that does not begin at `NULL` neither begins nor ends there. -/
theorem Placed.head_pos {c : Block} {bs : List Block} {lo hi : ℕ} (hp : Placed lo (c :: bs) hi)
    (hlo : 0 < lo) : 0 < c.addr ∧ 0 < c.stop := by
  have haddr : 0 < c.addr := hlo.trans_le hp.1
  unfold Block.stop
  omega

/-- The search finds the first block that fits. -/
theorem findFreeBlock_of_fits {m : Mem} {pre xs ys : List Block} {b : Block} {length fuel lo hi : ℕ}
    (h : Represents m (pre ++ (xs ++ b :: ys))) (hp : Placed lo (xs ++ b :: ys) hi) (hlo : 0 < lo)
    (hxs : ∀ c ∈ xs, ¬Fits length c) (hb : Fits length b) (hfuel : xs.length < fuel) (last : ℕ) :
    ∃ last', findFreeBlock m length fuel (headAddr (xs ++ b :: ys)) last = some (b.addr, last') := by
  induction xs generalizing pre fuel lo last with
  | nil =>
    obtain ⟨fuel, rfl⟩ := Nat.exists_eq_add_of_lt hfuel
    have hbNode := h.nodes b (by simp)
    refine ⟨last, ?_⟩
    rw [List.nil_append, headAddr_cons, findFreeBlock, hbNode.free, hbNode.size, Block.flag,
      if_pos hb.1, if_neg]
    simp [hb.2]
  | cons c xs ih =>
    obtain ⟨fuel, rfl⟩ : ∃ n, fuel = n + 1 := ⟨fuel - 1, by omega⟩
    obtain ⟨hc0, hstop⟩ := hp.head_pos hlo
    have hrest : Represents m ((pre ++ [c]) ++ (xs ++ b :: ys)) := by simpa using h
    rw [List.cons_append, headAddr_cons,
      findFreeBlock_step h hc0.ne' (hxs c List.mem_cons_self)]
    exact ih hrest hp.2 hstop (fun d hd => hxs d (List.mem_cons_of_mem _ hd))
      (by simp at hfuel; omega) c.addr

/-- When nothing fits, the search ends at `NULL` with the last block in `last`. -/
theorem findFreeBlock_of_not_fits {m : Mem} {pre bs : List Block} {length fuel lo hi : ℕ}
    (h : Represents m (pre ++ bs)) (hp : Placed lo bs hi) (hlo : 0 < lo)
    (hbs : ∀ c ∈ bs, ¬Fits length c) (hfuel : bs.length < fuel) (last : ℕ) :
    findFreeBlock m length fuel (headAddr bs) last =
      some (0, if bs = [] then last else lastAddr bs) := by
  induction bs generalizing pre fuel lo last with
  | nil =>
    obtain ⟨fuel, rfl⟩ := Nat.exists_eq_add_of_lt hfuel
    simp [findFreeBlock]
  | cons c bs ih =>
    obtain ⟨fuel, rfl⟩ : ∃ n, fuel = n + 1 := ⟨fuel - 1, by omega⟩
    obtain ⟨hc0, hstop⟩ := hp.head_pos hlo
    have hrest : Represents m ((pre ++ [c]) ++ bs) := by simpa using h
    rw [headAddr_cons, findFreeBlock_step h hc0.ne' (hbs c List.mem_cons_self),
      ih hrest hp.2 hstop (fun d hd => hbs d (List.mem_cons_of_mem _ hd)) (by simp at hfuel; omega)]
    cases bs <;> simp [lastAddr]

/-! ### The three updates of the list -/

/-- A block may be replaced by a stretch of blocks that begins at its address: the link from the
block in front stays. -/
theorem Represents.replace {m m' : Mem} {pre rest post : List Block} {b b' : Block} {lo hi : ℕ}
    (h : Represents m (pre ++ b :: post)) (hp : Placed lo (pre ++ b :: post) hi)
    (haddr : b'.addr = b.addr)
    (hL : ∀ c ∈ pre, ∀ f, getField m' c.addr f = getField m c.addr f)
    (hR : ∀ c ∈ post, ∀ f, (f = .prevBlock → c.addr ≠ headAddr post) →
      getField m' c.addr f = getField m c.addr f)
    (hprev : getField m' b.addr .prevBlock = getField m b.addr .prevBlock)
    (hlinks : (b'.addr :: addrs rest ++ [headAddr post]).IsChain (Link m'))
    (hnodes : ∀ c ∈ b' :: rest, Node m' c) : Represents m' (pre ++ (b' :: rest) ++ post) := by
  obtain ⟨hpre, hpost⟩ := placed_append_cons.mp hp
  have hmid : Represents m (pre ++ [b] ++ post) := by simpa using h
  refine hmid.splice hpre.nodup hpost.nodup (fun c hc f _ => hL c hc f) hR ?_ hnodes
  refine List.isChain_cons_cons.mpr ⟨⟨fun hx => ?_, fun hb => ?_⟩, hlinks⟩
  · obtain ⟨c, hc, hcx⟩ := List.mem_map.mp ((hpre.lastAddr.resolve_left hx).2.2)
    have hlink := h.links_mid.1.next hx
    rw [← hcx] at hlink ⊢
    rw [hL c hc, hlink, haddr]
  · rw [haddr] at hb ⊢
    rw [hprev, h.links_mid.1.prev hb]

/-- Marking a found block as in use. -/
theorem represents_take {m : Mem} {pre post : List Block} {b : Block} {lo hi : ℕ}
    (h : Represents m (pre ++ b :: post)) (hp : Placed lo (pre ++ b :: post) hi) :
    Represents (setField m b.addr .free mblkInUse)
      (pre ++ [⟨b.addr, b.size, false⟩] ++ post) := by
  obtain ⟨hpre, hpost⟩ := placed_append_cons.mp hp
  have hbNode := h.nodes b (by simp)
  have hother : ∀ c : Block, c.addr + 20 ≤ b.addr ∨ b.addr + 20 ≤ c.addr → ∀ f,
      getField (setField m b.addr .free mblkInUse) c.addr f = getField m c.addr f :=
    fun c hc f => getField_setField_apart hc
  have hpreApart : ∀ c ∈ pre, c.addr + 20 ≤ b.addr := by
    intro c hc
    have := (hpre.mem hc).2
    unfold Block.stop at this
    omega
  have hpostApart : ∀ c ∈ post, b.addr + 20 ≤ c.addr := by
    intro c hc
    have := (hpost.mem hc).1
    unfold Block.stop at this
    omega
  have hsame : ∀ f, f ≠ .free →
      getField (setField m b.addr .free mblkInUse) b.addr f = getField m b.addr f :=
    fun f hf => getField_setField_ne hf
  refine h.replace hp rfl (fun c hc f => hother c (Or.inl (hpreApart c hc)) f)
    (fun c hc f _ => hother c (Or.inr (hpostApart c hc)) f) (hsame _ (by decide)) ?_ ?_
  · refine List.isChain_cons_cons.mpr ⟨⟨fun hb => ?_, fun hy => ?_⟩, List.isChain_singleton _⟩
    · rw [hsame _ (by decide), h.links_mid.2.next hb]
    · obtain ⟨c, hc, hcy⟩ := List.mem_map.mp ((hpost.headAddr.resolve_left hy).2.2)
      have hlink := h.links_mid.2.prev hy
      rw [← hcy] at hlink ⊢
      rw [hother c (Or.inr (hpostApart c hc)), hlink]
  · intro c hc
    rw [List.mem_singleton] at hc
    subst hc
    refine ⟨by rw [hsame _ (by decide), hbNode.size], getField_setField_same (by decide), ?_⟩
    unfold MblkValid
    rw [hsame _ (by decide)]
    exact hbNode.valid

section Squeeze

variable {m : Mem} {pre post : List Block} {b : Block} {length lo hi : ℕ}

/-- The header that a split writes for the rest of the block. -/
def restHeader (m : Mem) (s size next prev : ℕ) : Mem :=
  setField (setField (setField (setField (setField m s .size size) s .free mblkFree) s .magic
    0xb00bbabe) s .nextBlock next) s .prevBlock prev

/-- The new header does not touch others. -/
theorem getField_restHeader_apart {m : Mem} {s size next prev a : ℕ} {f : MallocH}
    (ha : a + 20 ≤ s ∨ s + 20 ≤ a) :
    getField (restHeader m s size next prev) a f = getField m a f := by
  rw [restHeader, getField_setField_apart ha, getField_setField_apart ha, getField_setField_apart ha,
    getField_setField_apart ha, getField_setField_apart ha]

/-- The new header touches its own bytes only. -/
theorem restHeader_of_notMem {m : Mem} {s size next prev x : ℕ} (hx : x < s ∨ s + 20 ≤ x) :
    restHeader m s size next prev x = m x := by
  rw [restHeader, setField_of_notMem hx, setField_of_notMem hx, setField_of_notMem hx,
    setField_of_notMem hx, setField_of_notMem hx]

/-- The links of the new header. -/
theorem getField_restHeader_links {m : Mem} {s size next prev : ℕ} (hnext : next < 4294967296)
    (hprev : prev < 4294967296) :
    getField (restHeader m s size next prev) s .nextBlock = next ∧
      getField (restHeader m s size next prev) s .prevBlock = prev := by
  unfold restHeader
  refine ⟨?_, getField_setField_same hprev⟩
  rw [getField_setField_ne (by decide), getField_setField_same hnext]

/-- The new header is that of a free block. -/
theorem getField_restHeader_block {m : Mem} {s size next prev : ℕ} (hsize : size < 4294967296) :
    getField (restHeader m s size next prev) s .size = size ∧
      getField (restHeader m s size next prev) s .free = mblkFree ∧
      MblkValid (restHeader m s size next prev) s := by
  unfold MblkValid restHeader
  refine ⟨?_, ?_, Or.inr ?_⟩
  · rw [getField_setField_ne (by decide), getField_setField_ne (by decide),
      getField_setField_ne (by decide), getField_setField_ne (by decide),
      getField_setField_same hsize]
  · rw [getField_setField_ne (by decide), getField_setField_ne (by decide),
      getField_setField_ne (by decide), getField_setField_same (by decide)]
  · rw [getField_setField_ne (by decide), getField_setField_ne (by decide),
      getField_setField_same (by decide)]

/-- The stores of a split, with the fields the code reads on the way. -/
theorem squeezeBlock_eq (h : Represents m (pre ++ b :: post))
    (hp : Placed lo (pre ++ b :: post) hi) (hlo : 0 < lo) (hhi : hi < 4294967296)
    (hsize : length + 276 < b.size) :
    squeezeBlock m b.addr length =
      let s := b.addr + 20 + length
      let m₁ := restHeader m s (b.size - 20 - length) (headAddr post) b.addr
      let m₂ := if headAddr post ≠ 0 then setField m₁ (headAddr post) .prevBlock s else m₁
      setField (setField m₂ b.addr .nextBlock s) b.addr .size length := by
  obtain ⟨hpre, hpost⟩ := placed_append_cons.mp hp
  have hb0 : b.addr ≠ 0 := (hlo.trans_le hpre.le).ne'
  have hstop := hpost.le
  unfold Block.stop at hstop
  have hs : add32 (payload b.addr) length = b.addr + 20 + length := by
    have hpay : payload b.addr = b.addr + 20 := add32_of_lt (by rw [sizeofMallocH]; omega)
    rw [hpay, add32_of_lt (by omega)]
  have hrest : sub32 (sub32 (getField m b.addr .size) sizeofMallocH) length =
      b.size - 20 - length := by
    have hsub : sub32 b.size sizeofMallocH = b.size - 20 :=
      sub32_of_le (by omega) (by rw [sizeofMallocH]; omega)
    rw [(h.nodes b (by simp)).size, hsub, sub32_of_le (by omega) (by omega)]
  have hskip : ∀ (m' : Mem) (f : MallocH) (v : ℕ),
      getField (setField m' (b.addr + 20 + length) f v) b.addr .nextBlock =
        getField m' b.addr .nextBlock :=
    fun m' f v => getField_setField_apart (Or.inl (by omega))
  unfold squeezeBlock restHeader
  simp only [hs, hrest, hskip, (h.link_mid hb0).2]

/-- A split writes to headers of the new list only. -/
theorem squeezeBlock_of_offHeaders (h : Represents m (pre ++ b :: post))
    (hp : Placed lo (pre ++ b :: post) hi) (hlo : 0 < lo) (hhi : hi < 4294967296)
    (hsize : length + 276 < b.size) {x : ℕ}
    (hx : OffHeaders (pre ++ [⟨b.addr, length, false⟩,
      ⟨b.addr + 20 + length, b.size - 20 - length, true⟩] ++ post) x) :
    squeezeBlock m b.addr length x = m x := by
  have hxb := hx ⟨b.addr, length, false⟩ (by simp)
  have hxs := hx ⟨b.addr + 20 + length, b.size - 20 - length, true⟩ (by simp)
  have hxy : headAddr post = 0 ∨ x < headAddr post ∨ headAddr post + 20 ≤ x := by
    refine (placed_append_cons.mp hp).2.headAddr.imp_right fun hy => ?_
    obtain ⟨c, hc, hcy⟩ := List.mem_map.mp hy.2.2
    rw [← hcy]
    exact hx c (by simp [hc])
  rw [squeezeBlock_eq h hp hlo hhi hsize]
  dsimp only
  rw [setField_of_notMem hxb, setField_of_notMem hxb, setIf_of_notMem hxy,
    restHeader_of_notMem hxs]

/-- The headers that a split and the store to the found block leave alone: those in front, and those
behind but for the link of the first one back to the new block. -/
theorem getField_squeezed (h : Represents m (pre ++ b :: post))
    (hp : Placed lo (pre ++ b :: post) hi) (hlo : 0 < lo) (hhi : hi < 4294967296)
    (hsize : length + 276 < b.size) {c : Block} {f : MallocH}
    (hc : c ∈ pre ∨ c ∈ post ∧ (f = .prevBlock → c.addr ≠ headAddr post)) :
    getField (setField (squeezeBlock m b.addr length) b.addr .free mblkInUse) c.addr f =
      getField m c.addr f := by
  obtain ⟨hpre, hpost⟩ := placed_append_cons.mp hp
  have hy := hpost.headAddr
  rw [squeezeBlock_eq h hp hlo hhi hsize]
  dsimp only
  rcases hc with hc | ⟨hc, hf⟩
  · have hcb := (hpre.mem hc).2
    unfold Block.stop at hcb hy
    rw [getField_setField_apart (Or.inl (by omega)), getField_setField_apart (Or.inl (by omega)),
      getField_setField_apart (Or.inl (by omega)), getField_setIf (by omega),
      getField_restHeader_apart (Or.inl (by omega))]
  · have hcb := (hpost.mem hc).1
    unfold Block.stop at hcb
    rw [getField_setField_apart (Or.inr (by omega)), getField_setField_apart (Or.inr (by omega)),
      getField_setField_apart (Or.inr (by omega)),
      hpost.getField_setIf (hy.imp_right fun hy => hy.2.2) hc hf,
      getField_restHeader_apart (Or.inr (by omega))]

/-- The header of the new block is written inside the old payload, and is not touched again. -/
theorem getField_squeezed_rest (h : Represents m (pre ++ b :: post))
    (hp : Placed lo (pre ++ b :: post) hi) (hlo : 0 < lo) (hhi : hi < 4294967296)
    (hsize : length + 276 < b.size) (f : MallocH) :
    getField (setField (squeezeBlock m b.addr length) b.addr .free mblkInUse)
        (b.addr + 20 + length) f =
      getField (restHeader m (b.addr + 20 + length) (b.size - 20 - length) (headAddr post) b.addr)
        (b.addr + 20 + length) f := by
  have hy := (placed_append_cons.mp hp).2.headAddr
  unfold Block.stop at hy
  rw [squeezeBlock_eq h hp hlo hhi hsize]
  dsimp only
  rw [getField_setField_apart (Or.inr (by omega)), getField_setField_apart (Or.inr (by omega)),
    getField_setField_apart (Or.inr (by omega)), getField_setIf (by omega)]

/-- The found block keeps its magic word and its link back. -/
theorem getField_squeezed_block (h : Represents m (pre ++ b :: post))
    (hp : Placed lo (pre ++ b :: post) hi) (hlo : 0 < lo) (hhi : hi < 4294967296)
    (hsize : length + 276 < b.size) {f : MallocH} (hfree : f ≠ .free) (hfsize : f ≠ .size)
    (hnext : f ≠ .nextBlock) :
    getField (setField (squeezeBlock m b.addr length) b.addr .free mblkInUse) b.addr f =
      getField m b.addr f := by
  have hy := (placed_append_cons.mp hp).2.headAddr
  unfold Block.stop at hy
  rw [squeezeBlock_eq h hp hlo hhi hsize]
  dsimp only
  rw [getField_setField_ne hfree, getField_setField_ne hfsize, getField_setField_ne hnext,
    getField_setIf (by omega), getField_restHeader_apart (Or.inl (by omega))]

/-- Splitting a found block. -/
theorem represents_squeeze (h : Represents m (pre ++ b :: post))
    (hp : Placed lo (pre ++ b :: post) hi) (hlo : 0 < lo) (hhi : hi < 4294967296)
    (hsize : length + 276 < b.size) :
    Represents (setField (squeezeBlock m b.addr length) b.addr .free mblkInUse)
      (pre ++ [⟨b.addr, length, false⟩,
        ⟨b.addr + 20 + length, b.size - 20 - length, true⟩] ++ post) := by
  obtain ⟨hpre, hpost⟩ := placed_append_cons.mp hp
  have hstop := hpost.le
  have hy := hpost.headAddr
  unfold Block.stop at hstop hy
  have hrest := getField_squeezed_rest h hp hlo hhi hsize
  obtain ⟨hnext, hprev⟩ := @getField_restHeader_links m (b.addr + 20 + length)
    (b.size - 20 - length) (headAddr post) b.addr (by omega) (by omega)
  obtain ⟨hrestSize, hrestFree, hrestValid⟩ := @getField_restHeader_block m (b.addr + 20 + length)
    (b.size - 20 - length) (headAddr post) b.addr (by omega)
  refine h.replace hp rfl (fun c hc f => getField_squeezed h hp hlo hhi hsize (Or.inl hc))
    (fun c hc f hf => getField_squeezed h hp hlo hhi hsize (Or.inr ⟨hc, hf⟩))
    (getField_squeezed_block h hp hlo hhi hsize (by decide) (by decide) (by decide)) ?_ ?_
  · refine List.isChain_cons_cons.mpr ⟨⟨fun _ => ?_, fun _ => ?_⟩, List.isChain_cons_cons.mpr
      ⟨⟨fun _ => ?_, fun hy0 => ?_⟩, List.isChain_singleton _⟩⟩
    · rw [squeezeBlock_eq h hp hlo hhi hsize]
      dsimp only
      rw [getField_setField_ne (by decide), getField_setField_ne (by decide),
        getField_setField_same (by omega)]
    · rw [hrest, hprev]
    · rw [hrest, hnext]
    · rw [squeezeBlock_eq h hp hlo hhi hsize]
      dsimp only
      rw [getField_setField_apart (Or.inr (by omega)), getField_setField_apart (Or.inr (by omega)),
        getField_setField_apart (Or.inr (by omega)), if_pos hy0, getField_setField_same (by omega)]
  · intro c hc
    rcases List.mem_cons.mp hc with rfl | hc
    · refine ⟨?_, getField_setField_same (by decide), ?_⟩
      · rw [squeezeBlock_eq h hp hlo hhi hsize]
        dsimp only
        rw [getField_setField_ne (by decide), getField_setField_same (by omega)]
      · unfold MblkValid
        rw [getField_squeezed_block h hp hlo hhi hsize (by decide) (by decide) (by decide)]
        exact (h.nodes b (by simp)).valid
    · rw [List.mem_singleton] at hc
      subst hc
      refine ⟨(hrest _).trans hrestSize, (hrest _).trans hrestFree, ?_⟩
      unfold MblkValid at hrestValid ⊢
      rwa [hrest]

end Squeeze

end PakOS
