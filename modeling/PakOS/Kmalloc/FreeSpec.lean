import PakOS.Kmalloc.BlockList

/-!
# What `kfree` does to the block list

On the block list, `kfree` of an in-use block opens the block and coalesces: `releaseBlock`, an
instance of `Coalesce.release`.  `kfreeBlock_represents` is the refinement: on a list without two
free neighbours the three memory updates of `kfree` leave the headers of exactly that list,
whichever of the neighbours are free.  The merged size is the sum of the two payload sizes; the
header between them is not counted (`Block.merge`).
-/

namespace PakOS

open Machine Coalesce

/-- Merge a block with the block behind it, as `kfree` does: the payload sizes are added, the 20
bytes of the second header are not. -/
def Block.merge (b c : Block) : Block := { b with size := b.size + c.size }

/-- The block, free. -/
def Block.released (b : Block) : Block := { b with free := true }

/-- Free the block at address `a` and merge it with its free neighbours. -/
def releaseBlock (a : ℕ) (bs : List Block) : List Block :=
  release Block.free Block.merge Block.addr Block.released a bs

/-- No two neighbours of the list are free. -/
abbrev Coalesced (bs : List Block) : Prop := Separated Block.free bs

theorem merging_blocks : Merging Block.free Block.merge where
  merge_open _ _ hx _ := hx
  assoc _ _ _ _ _ _ := by simp [Block.merge, Nat.add_assoc]

theorem keyed_blocks : Keyed Block.merge Block.addr Block.released where
  key_mark _ := rfl
  key_merge _ _ := rfl

/-! ### Placement and separation of the result -/

/-- Merging neighbours keeps the blocks in their range. -/
theorem Placed.coalesce {lo hi : ℕ} {bs : List Block} (h : Placed lo bs hi) :
    Placed lo (coalesce Block.free Block.merge bs) hi := by
  induction bs generalizing lo with
  | nil => exact h
  | cons b bs ih =>
    have hrest := ih h.2
    rw [coalesce_cons]
    cases hbs : Coalesce.coalesce Block.free Block.merge bs with
    | nil => exact ⟨h.1, h.2.le⟩
    | cons c cs =>
      rw [hbs] at hrest
      by_cases hbc : b.free && c.free
      · rw [join, if_pos hbc]
        have hle : (b.merge c).stop ≤ c.stop := by
          have := hrest.1
          simp only [Block.stop, Block.merge] at this ⊢
          omega
        exact ⟨h.1, hrest.2.mono hle le_rfl⟩
      · rw [join, if_neg hbc]
        exact ⟨h.1, hrest⟩

/-- Freeing a block keeps the blocks in their range. -/
theorem Placed.releaseBlock {lo hi a : ℕ} {bs : List Block} (h : Placed lo bs hi) :
    Placed lo (releaseBlock a bs) hi := by
  refine Placed.coalesce ?_
  induction bs generalizing lo with
  | nil => exact h
  | cons b bs ih =>
    have hstep : (if b.addr = a then b.released else b).addr = b.addr ∧
        (if b.addr = a then b.released else b).stop = b.stop := by split <;> exact ⟨rfl, rfl⟩
    refine ⟨hstep.1 ▸ h.1, ?_⟩
    rw [hstep.2]
    exact ih h.2

theorem coalesced_releaseBlock (a : ℕ) (bs : List Block) : Coalesced (releaseBlock a bs) :=
  separated_coalesce _

/-- A block between blocks that are not free may have any flag. -/
theorem coalesced_append_cons {L R : List Block} {c : Block} (hL : Coalesced L) (hR : Coalesced R)
    (hlast : ∀ x ∈ L.getLast?, x.free = false) (hhead : ∀ y ∈ R.head?, y.free = false) :
    Coalesced (L ++ c :: R) := by
  refine List.isChain_append.mpr ⟨hL, List.isChain_cons.mpr ⟨fun y hy => ?_, hR⟩, ?_⟩
  · simp [hhead y hy]
  · intro x hx y _
    simp [hlast x hx]

/-- Freeing a block of a placed list opens just that block. -/
theorem releaseBlock_append_cons {lo hi : ℕ} {pre post : List Block} {b : Block}
    (hp : Placed lo (pre ++ b :: post) hi) :
    releaseBlock b.addr (pre ++ b :: post) =
      coalesce Block.free Block.merge (pre ++ b.released :: post) := by
  have hnd := hp.nodup
  rw [addrs_append, addrs_cons, List.nodup_append, List.nodup_cons] at hnd
  have hpre : b.addr ∉ addrs pre := fun h => hnd.2.2 _ h _ List.mem_cons_self rfl
  rw [releaseBlock, release, markAt_append_cons rfl hpre hnd.2.1.1]

/-! ### The updates of `kfree` -/

/-- A store behind a `NULL` test is not seen by fields it does not write. -/
theorem getField_setIf {m : Mem} {a b v : ℕ} {f g : MallocH}
    (h : a = 0 ∨ b + 20 ≤ a ∨ a + 20 ≤ b ∨ (a = b ∧ g ≠ f)) :
    getField (if a ≠ 0 then setField m a f v else m) b g = getField m b g := by
  split
  · rename_i ha
    rcases h with h | h | h | ⟨rfl, h⟩
    · exact absurd h ha
    · exact getField_setField_apart (Or.inl h)
    · exact getField_setField_apart (Or.inr h)
    · exact getField_setField_ne h
  · rfl

/-- A store to a neighbour, if there is one, leaves the bytes outside its header alone. -/
theorem setIf_of_notMem {m : Mem} {a v x : ℕ} {f : MallocH} (h : a = 0 ∨ x < a ∨ a + 20 ≤ x) :
    (if a ≠ 0 then setField m a f v else m) x = m x := by
  by_cases ha : a = 0
  · rw [if_neg (not_not.mpr ha)]
  · rw [if_pos ha, setField_of_notMem (h.resolve_left ha)]

/-- A store to a header of a placed list, behind a `NULL` test, is not seen by fields it does not
write. -/
theorem Placed.getField_setIf {m : Mem} {lo hi a v : ℕ} {L : List Block} {c : Block} {f g : MallocH}
    (h : Placed lo L hi) (ha : a = 0 ∨ a ∈ addrs L) (hc : c ∈ L) (hf : g = f → c.addr ≠ a) :
    getField (if a ≠ 0 then setField m a f v else m) c.addr g = getField m c.addr g := by
  refine PakOS.getField_setIf ?_
  by_cases hca : c.addr = a
  · exact Or.inr (Or.inr (Or.inr ⟨hca.symm, fun hg => hf hg hca⟩))
  · rcases ha with ha | ha
    · exact Or.inl ha
    · obtain ⟨d, hd, hda⟩ := List.mem_map.mp ha
      have hapart := h.apart hc hd (hda ▸ hca)
      unfold Block.stop at hapart
      omega

/-- The address of the last block of a placed list, if there is one. -/
theorem Placed.lastAddr {lo hi : ℕ} {L : List Block} (h : Placed lo L hi) :
    lastAddr L = 0 ∨ (lo ≤ lastAddr L ∧ lastAddr L + 20 ≤ hi ∧ lastAddr L ∈ addrs L) := by
  induction L using List.reverseRecOn with
  | nil => exact Or.inl rfl
  | append_singleton L b _ =>
    have hb := h.mem (List.mem_append_right L (List.mem_singleton_self b))
    unfold Block.stop at hb
    rw [lastAddr_concat]
    exact Or.inr ⟨hb.1, by omega, by simp⟩

/-- The address of the first block of a placed list, if there is one. -/
theorem Placed.headAddr {lo hi : ℕ} {R : List Block} (h : Placed lo R hi) :
    headAddr R = 0 ∨ (lo ≤ headAddr R ∧ headAddr R + 20 ≤ hi ∧ headAddr R ∈ addrs R) := by
  cases R with
  | nil => exact Or.inl rfl
  | cons b R =>
    have hb := h.mem (List.mem_cons_self (a := b) (l := R))
    unfold Block.stop at hb
    rw [headAddr_cons]
    exact Or.inr ⟨hb.1, by omega, by simp⟩

/-- The end of `kfree`: a header that has taken over a stretch of the list, and already holds its
size and links, is linked in as a free block. -/
theorem relinkFree_represents {m m₁ : Mem} {L mid R : List Block} {c size lo hi : ℕ}
    (h : Represents m (L ++ mid ++ R)) (hL : Placed lo L c) (hR : Placed (c + 20) R hi)
    (hlo : 0 < lo) (hhi : hi ≤ 4294967296)
    (hsameL : ∀ b ∈ L, ∀ f, getField m₁ b.addr f = getField m b.addr f)
    (hsameR : ∀ b ∈ R, ∀ f, getField m₁ b.addr f = getField m b.addr f)
    (hnext : getField m₁ c .nextBlock = headAddr R) (hprev : getField m₁ c .prevBlock = lastAddr L)
    (hsize : getField m₁ c .size = size) (hvalid : MblkValid m₁ c) :
    Represents (relinkFree m₁ c) (L ++ [⟨c, size, true⟩] ++ R) := by
  have hc : 0 < c := hlo.trans_le hL.le
  have hc32 : c < 4294967296 := by have := hR.le; omega
  have hx := hL.lastAddr
  have hy := hR.headAddr
  -- the two stores to the neighbours do not touch the header of `c`
  have hm₂ : ∀ f, getField (if headAddr R ≠ 0 then setField m₁ (headAddr R) .prevBlock c else m₁) c f =
      getField m₁ c f := fun f => getField_setIf (by omega)
  have hfinal : relinkFree m₁ c = setField
      (if lastAddr L ≠ 0 then
        setField (if headAddr R ≠ 0 then setField m₁ (headAddr R) .prevBlock c else m₁)
          (lastAddr L) .nextBlock c
      else if headAddr R ≠ 0 then setField m₁ (headAddr R) .prevBlock c else m₁)
      c .free mblkFree := by
    unfold relinkFree
    simp only [hnext, hm₂, hprev]
  have hcField : ∀ f, f ≠ .free → getField (relinkFree m₁ c) c f = getField m₁ c f := by
    intro f hf
    rw [hfinal, getField_setField_ne hf, getField_setIf (by omega), hm₂]
  refine h.splice hL.nodup hR.nodup (fun b hb f hf => ?_) (fun b hb f hf => ?_) ?_ ?_
  · have hbc := hL.mem hb
    unfold Block.stop at hbc
    rw [hfinal, getField_setField_apart (Or.inl (by omega)),
      hL.getField_setIf (hx.imp_right fun hx => hx.2.2) hb hf, getField_setIf (by omega), hsameL b hb]
  · have hbc := hR.mem hb
    unfold Block.stop at hbc
    rw [hfinal, getField_setField_apart (Or.inr (by omega)), getField_setIf (by omega),
      hR.getField_setIf (hy.imp_right fun hy => hy.2.2) hb hf, hsameR b hb]
  · refine List.isChain_cons_cons.mpr ⟨⟨fun hx0 => ?_, fun _ => ?_⟩, List.isChain_cons_cons.mpr
      ⟨⟨fun _ => ?_, fun hy0 => ?_⟩, List.isChain_singleton _⟩⟩
    · rw [hfinal, getField_setField_apart (Or.inl (by omega)), if_pos hx0,
        getField_setField_same hc32]
    · rw [hcField _ (by decide), hprev]
    · rw [hcField _ (by decide), hnext]
    · rw [hfinal, getField_setField_apart (Or.inr (by omega)), getField_setIf (by omega),
        if_pos hy0, getField_setField_same hc32]
  · intro b hb
    rw [List.mem_singleton] at hb
    subst hb
    refine ⟨by rw [hcField _ (by decide), hsize], ?_, ?_⟩
    · rw [hfinal, getField_setField_same (by decide)]
      rfl
    · unfold MblkValid
      rw [hcField _ (by decide)]
      exact hvalid

section MergeSteps

variable {m : Mem} {pre post : List Block} {b : Block} {lo hi : ℕ}

/-- Without a free block behind it, the first merge does nothing. -/
theorem mergeNext_of_closed (h : Represents m (pre ++ b :: post))
    (hp : Placed lo (pre ++ b :: post) hi) (hlo : 0 < lo)
    (hhead : ∀ n ∈ post.head?, n.free = false) : mergeNext m b.addr = m := by
  have hb : b.addr ≠ 0 := by
    have := (placed_append_cons.mp hp).1.le
    omega
  unfold mergeNext
  rw [(h.link_mid hb).2]
  cases post with
  | nil => simp
  | cons n R =>
    have hn := (h.nodes n (by simp)).free
    simp [hn, Block.flag, hhead n (by simp), mblkFree, mblkInUse]

/-- The first merge absorbs a free block behind the block. -/
theorem mergeNext_of_free {n : Block} (h : Represents m (pre ++ b :: n :: post))
    (hp : Placed lo (pre ++ b :: n :: post) hi) (hlo : 0 < lo) (hhi : hi ≤ 4294967296)
    (hn : n.free = true) :
    mergeNext m b.addr =
      setField (setField m b.addr .nextBlock (headAddr post)) b.addr .size (b.size + n.size) := by
  obtain ⟨hpre, hnp⟩ := placed_append_cons.mp hp
  have hb : b.addr ≠ 0 := by
    have := hpre.le
    omega
  have hbn := hnp.1
  have hstop := hnp.2.le
  unfold Block.stop at hbn hstop
  have hn0 : n.addr ≠ 0 := by omega
  have hnNode := h.nodes n (by simp)
  have hnFree : getField m n.addr .free = mblkFree := by
    rw [hnNode.free, Block.flag, if_pos hn]
  have hnNext : getField m n.addr .nextBlock = headAddr post := by
    have h' : Represents m ((pre ++ [b]) ++ n :: post) := by simpa using h
    exact (h'.link_mid hn0).2
  have hsum : add32 (getField m b.addr .size) (getField m n.addr .size) = b.size + n.size := by
    rw [(h.nodes b (by simp)).size, hnNode.size, add32_of_lt (by omega)]
  unfold mergeNext
  simp only [(h.link_mid hb).2, headAddr_cons]
  rw [if_pos ⟨hn0, hnFree⟩, hnNext, hsum]

end MergeSteps

/-- Without a free block in front, the second merge does nothing. -/
theorem mergePrev_of_closed {m m₁ : Mem} {pre rest : List Block} {a : ℕ}
    (h : Represents m (pre ++ rest))
    (hsame : ∀ c ∈ pre, ∀ f, getField m₁ c.addr f = getField m c.addr f)
    (hlast : ∀ x ∈ pre.getLast?, x.free = false) : mergePrev m₁ (lastAddr pre) a = (m₁, a) := by
  unfold mergePrev
  induction pre using List.reverseRecOn with
  | nil => simp
  | append_singleton L x _ =>
    have hx : getField m₁ x.addr .free = mblkInUse := by
      rw [hsame x (by simp), (h.nodes x (by simp)).free, Block.flag, hlast x (by simp)]
      rfl
    simp [hx, mblkFree, mblkInUse]

/-- The second merge lets a free block in front absorb the block. -/
theorem mergePrev_of_free {m m₁ : Mem} {L rest : List Block} {x : Block} {a size next : ℕ}
    (h : Represents m (L ++ [x] ++ rest)) (hx0 : x.addr ≠ 0) (hx : x.free = true)
    (hsame : ∀ f, getField m₁ x.addr f = getField m x.addr f)
    (hsize : getField m₁ a .size = size) (hnext : getField m₁ a .nextBlock = next)
    (hsum : size + x.size < 4294967296) :
    mergePrev m₁ (lastAddr (L ++ [x])) a =
      (setField (setField m₁ x.addr .nextBlock next) x.addr .size (size + x.size), x.addr) := by
  have hxNode := h.nodes x (by simp)
  have hxFree : getField m₁ x.addr .free = mblkFree := by
    rw [hsame, hxNode.free, Block.flag, if_pos hx]
  unfold mergePrev
  simp only [lastAddr_concat]
  rw [if_pos ⟨hx0, hxFree⟩, hsize, hnext, hsame, hxNode.size, add32_of_lt hsum]

/-! ### The whole of `kfree` on a valid block -/

/-- What the first merge of `kfree` leaves behind: the block at `b.addr` stands for a stretch
`b :: mid` of the list with `total` payload bytes, and the list behind it is `R`, which does not
begin with a free block. -/
structure NextMerged (m m₁ : Mem) (pre : List Block) (b : Block) (mid R : List Block)
    (total hi : ℕ) : Prop where
  /-- The header links to the rest of the list. -/
  next : getField m₁ b.addr .nextBlock = headAddr R
  /-- The header links back to the list in front. -/
  prev : getField m₁ b.addr .prevBlock = lastAddr pre
  /-- The header holds the size of the stretch. -/
  size : getField m₁ b.addr .size = total
  /-- The magic word is untouched. -/
  valid : MblkValid m₁ b.addr
  /-- Other headers are untouched. -/
  same : ∀ c : Block, c.addr + 20 ≤ b.addr ∨ b.addr + 20 ≤ c.addr →
    ∀ f, getField m₁ c.addr f = getField m c.addr f
  /-- The rest of the list lies behind the stretch. -/
  placed : Placed (b.addr + 20 + total) R hi
  /-- The rest of the list does not begin with a free block. -/
  head : ∀ n ∈ R.head?, n.free = false
  /-- The rest of the list is coalesced. -/
  coalesced : Coalesced R
  /-- Coalescing after opening the block gives what coalescing the stretch gives. -/
  coalesce_eq : coalesce Block.free Block.merge (pre ++ b.released :: (mid ++ R)) =
    coalesce Block.free Block.merge (pre ++ ⟨b.addr, total, true⟩ :: R)

/-- The first merge of `kfree`, whether or not the block behind is free. -/
theorem exists_nextMerged {m : Mem} {pre post : List Block} {b : Block} {lo hi : ℕ}
    (h : Represents m (pre ++ b :: post)) (hp : Placed lo (pre ++ b :: post) hi) (hlo : 0 < lo)
    (hhi : hi ≤ 4294967296) (hsep : Coalesced (pre ++ b :: post)) :
    ∃ mid R size, post = mid ++ R ∧ NextMerged m (mergeNext m b.addr) pre b mid R size hi := by
  obtain ⟨hpre, hpost⟩ := placed_append_cons.mp hp
  have hb0 : b.addr ≠ 0 := by
    have := hpre.le
    omega
  have hbNode := h.nodes b (by simp)
  obtain ⟨hprev, hnext⟩ := h.link_mid hb0
  have hseppost : Coalesced post := (List.isChain_append.mp hsep).2.1.tail
  by_cases hhead : ∀ n ∈ post.head?, n.free = false
  · refine ⟨[], post, b.size, rfl, ?_⟩
    rw [mergeNext_of_closed h hp hlo hhead]
    exact ⟨hnext, hprev, hbNode.size, hbNode.valid, fun _ _ _ => rfl, hpost, hhead, hseppost, rfl⟩
  · push Not at hhead
    obtain ⟨n, hnmem, hn⟩ := hhead
    obtain ⟨R, rfl⟩ : ∃ R, post = n :: R := by
      cases post with
      | nil => simp at hnmem
      | cons c R => exact ⟨R, by simp_all⟩
    have hn : n.free = true := by simpa using hn
    have hbn := hpost.1
    have hstop := hpost.2.le
    have hheadR := hpost.2.headAddr
    unfold Block.stop at hbn hstop
    refine ⟨[n], R, b.size + n.size, rfl, ?_⟩
    rw [mergeNext_of_free h hp hlo hhi hn]
    refine ⟨?_, ?_, ?_, ?_, fun c hc f => ?_, ?_, ?_, ?_, ?_⟩
    · rw [getField_setField_ne (by decide), getField_setField_same (by omega)]
    · rw [getField_setField_ne (by decide), getField_setField_ne (by decide), hprev]
    · rw [getField_setField_same (by omega)]
    · unfold MblkValid
      rw [getField_setField_ne (by decide), getField_setField_ne (by decide)]
      exact hbNode.valid
    · rw [getField_setField_apart hc, getField_setField_apart hc]
    · exact hpost.2.mono (by unfold Block.stop; omega) le_rfl
    · intro y hy
      have := (List.isChain_cons.mp hseppost).1 y hy
      simpa [hn] using this
    · exact hseppost.tail
    · exact (coalesce_append_merge merging_blocks (x := b.released) rfl hn pre R).symm

/-- What the two merges of `kfree` leave behind: the header at `c` has taken over the stretch `mid`
of the list `L ++ mid ++ R`, and what remains to be done is to link it in. -/
structure Merged (m m₂ : Mem) (L mid R : List Block) (c size lo hi : ℕ) : Prop where
  /-- The list in front lies in front of the header. -/
  placedL : Placed lo L c
  /-- The list behind lies behind it. -/
  placedR : Placed (c + 20) R hi
  /-- The headers in front are untouched. -/
  sameL : ∀ b ∈ L, ∀ f, getField m₂ b.addr f = getField m b.addr f
  /-- The headers behind are untouched. -/
  sameR : ∀ b ∈ R, ∀ f, getField m₂ b.addr f = getField m b.addr f
  /-- The header links to the list behind. -/
  next : getField m₂ c .nextBlock = headAddr R
  /-- The header links to the list in front. -/
  prev : getField m₂ c .prevBlock = lastAddr L
  /-- The header holds the size of the stretch. -/
  size : getField m₂ c .size = size
  /-- The header is valid. -/
  valid : MblkValid m₂ c
  /-- The header is one of the stretch. -/
  mem : c ∈ addrs mid
  /-- Nothing but headers of the list was written. -/
  frame : ∀ x, OffHeaders (L ++ mid ++ R) x → m₂ x = m x

/-- The first merge writes to the block's header only. -/
theorem mergeNext_of_notMem {m : Mem} {a x : ℕ} (hx : x < a ∨ a + 20 ≤ x) :
    mergeNext m a x = m x := by
  unfold mergeNext
  dsimp only
  split
  · rw [setField_of_notMem hx, setField_of_notMem hx]
  · rfl

section Merged

variable {m : Mem} {pre L mid R : List Block} {b x : Block} {size lo hi : ℕ}

/-- The first merge leaves the headers in front alone. -/
theorem NextMerged.same_front (hnm : NextMerged m (mergeNext m b.addr) pre b mid R size hi)
    (hpre : Placed lo pre b.addr) :
    ∀ c ∈ pre, ∀ f, getField (mergeNext m b.addr) c.addr f = getField m c.addr f := by
  intro c hc
  have hstop := (hpre.mem hc).2
  unfold Block.stop at hstop
  exact hnm.same c (Or.inl (by omega))

/-- The first merge leaves the headers behind alone. -/
theorem NextMerged.same_behind (hnm : NextMerged m (mergeNext m b.addr) pre b mid R size hi) :
    ∀ c ∈ R, ∀ f, getField (mergeNext m b.addr) c.addr f = getField m c.addr f := by
  intro c hc
  have hstart := (hnm.placed.mem hc).1
  exact hnm.same c (Or.inr (by omega))

/-- Nothing to merge with in front: the block itself is the free block. -/
theorem NextMerged.merged (hnm : NextMerged m (mergeNext m b.addr) pre b mid R size hi)
    (hpre : Placed lo pre b.addr) :
    Merged m (mergeNext m b.addr) pre (b :: mid) R b.addr size lo hi where
  placedL := hpre
  placedR := hnm.placed.mono (by omega) le_rfl
  sameL := hnm.same_front hpre
  sameR := hnm.same_behind
  next := hnm.next
  prev := hnm.prev
  size := hnm.size
  valid := hnm.valid
  mem := List.mem_cons_self
  frame := fun _ hy => mergeNext_of_notMem (hy b (by simp))

/-- The free block in front absorbs the stretch. -/
theorem NextMerged.merged_of_free
    (hnm : NextMerged m (mergeNext m b.addr) (L ++ [x]) b mid R size hi)
    (h : Represents m (L ++ x :: b :: (mid ++ R))) (hpre : Placed lo (L ++ [x]) b.addr)
    (hlo : 0 < lo) (hhi : hi ≤ 4294967296) :
    Merged m (setField (setField (mergeNext m b.addr) x.addr .nextBlock (headAddr R)) x.addr .size
      (size + x.size)) L (x :: b :: mid) R x.addr (size + x.size) lo hi := by
  have hL := (placed_append_cons.mp hpre).1
  have hloL := hL.le
  have hsizes := hnm.placed.le
  have hheadR := hnm.placed.headAddr
  have hxb' := (hpre.mem (List.mem_append_right L (List.mem_singleton_self x))).2
  unfold Block.stop at hxb'
  have hsameX := hnm.same x (Or.inl (by omega))
  have hfields : ∀ c : Block, c.addr + 20 ≤ x.addr ∨ x.addr + 20 ≤ c.addr → ∀ f,
      getField (setField (setField (mergeNext m b.addr) x.addr .nextBlock (headAddr R)) x.addr
        .size (size + x.size)) c.addr f = getField (mergeNext m b.addr) c.addr f := by
    intro c hc f
    rw [getField_setField_apart hc, getField_setField_apart hc]
  refine ⟨hL, hnm.placed.mono (by omega) le_rfl, ?_, ?_, ?_, ?_, ?_, ?_, List.mem_cons_self, ?_⟩
  · intro c hc f
    have hstop := (hL.mem hc).2
    unfold Block.stop at hstop
    rw [hfields c (Or.inl (by omega)),
      hnm.same_front hpre c (List.mem_append_left [x] hc)]
  · intro c hc f
    have hstart := (hnm.placed.mem hc).1
    rw [hfields c (Or.inr (by omega)), hnm.same_behind c hc]
  · rw [getField_setField_ne (by decide), getField_setField_same (by omega)]
  · rw [getField_setField_ne (by decide), getField_setField_ne (by decide), hsameX,
      (h.link_mid (show x.addr ≠ 0 by omega)).1]
  · rw [getField_setField_same (by omega)]
  · unfold MblkValid
    rw [getField_setField_ne (by decide), getField_setField_ne (by decide), hsameX]
    exact (h.nodes x (by simp)).valid
  · intro y hy
    have hyx := hy x (by simp)
    rw [setField_of_notMem hyx, setField_of_notMem hyx, mergeNext_of_notMem (hy b (by simp))]

/-- Coalescing lets a free block in front absorb the stretch. -/
theorem NextMerged.coalesce_of_free {m₁ : Mem}
    (hnm : NextMerged m m₁ (L ++ [x]) b mid R size hi) (hsep : Coalesced (L ++ [x]))
    (hx : x.free = true) :
    coalesce Block.free Block.merge ((L ++ [x]) ++ ⟨b.addr, size, true⟩ :: R) =
      L ++ ⟨x.addr, size + x.size, true⟩ :: R := by
  obtain ⟨hsepL, -, hjoin⟩ := List.isChain_append.mp hsep
  have hlast : ∀ y ∈ L.getLast?, y.free = false := by
    intro y hy
    have hxy := hjoin y hy x (by simp)
    simpa [hx] using hxy
  have hmerged : x.merge ⟨b.addr, size, true⟩ = ⟨x.addr, size + x.size, true⟩ := by
    simp [Block.merge, hx, Nat.add_comm]
  have hstep := coalesce_append_merge merging_blocks hx
    (show (⟨b.addr, size, true⟩ : Block).free = true from rfl) L R
  rw [hmerged] at hstep
  rw [List.append_assoc, List.singleton_append, ← hstep,
    coalesce_of_separated (coalesced_append_cons hsepL hnm.coalesced hlast hnm.head)]

/-- The two merges of `kfree`, whichever neighbours are free. -/
theorem exists_merged {post : List Block} (h : Represents m (pre ++ b :: post))
    (hp : Placed lo (pre ++ b :: post) hi) (hlo : 0 < lo) (hhi : hi ≤ 4294967296)
    (hsep : Coalesced (pre ++ b :: post)) :
    ∃ m₂ L mid R c size, kfreeBlock m b.addr = relinkFree m₂ c ∧
      pre ++ b :: post = L ++ mid ++ R ∧
      releaseBlock b.addr (pre ++ b :: post) = L ++ [⟨c, size, true⟩] ++ R ∧
      Merged m m₂ L mid R c size lo hi := by
  obtain ⟨mid, R, size, rfl, hnm⟩ := exists_nextMerged h hp hlo hhi hsep
  have hpre := (placed_append_cons.mp hp).1
  have hloB := hpre.le
  have hsepPre : Coalesced pre := (List.isChain_append.mp hsep).1
  rw [releaseBlock_append_cons hp, hnm.coalesce_eq]
  unfold kfreeBlock
  simp only [(h.link_mid (show b.addr ≠ 0 by omega)).1]
  by_cases hlast : ∀ x ∈ pre.getLast?, x.free = false
  · rw [mergePrev_of_closed h (hnm.same_front hpre) hlast,
      coalesce_of_separated (coalesced_append_cons hsepPre hnm.coalesced hlast hnm.head)]
    exact ⟨_, pre, b :: mid, R, b.addr, size, rfl, by simp, by simp, hnm.merged hpre⟩
  · push Not at hlast
    obtain ⟨x, hxmem, hx⟩ := hlast
    obtain ⟨L, rfl⟩ : ∃ L, pre = L ++ [x] := List.getLast?_eq_some_iff.mp hxmem
    have hx : x.free = true := by simpa using hx
    have hxb := hpre.mem (List.mem_append_right L (List.mem_singleton_self x))
    have hsizes := hnm.placed.le
    unfold Block.stop at hxb
    have hsameX := hnm.same x (Or.inl (by omega))
    have hrep : Represents m (L ++ [x] ++ (b :: (mid ++ R))) := h
    have hrep' : Represents m (L ++ x :: b :: (mid ++ R)) := by simpa using h
    rw [mergePrev_of_free hrep (by omega) hx hsameX hnm.size hnm.next (by omega),
      hnm.coalesce_of_free hsepPre hx]
    exact ⟨_, L, x :: b :: mid, R, x.addr, size + x.size, rfl, by simp, by simp,
      hnm.merged_of_free hrep' hpre hlo hhi⟩

end Merged

section KfreeBlock

variable {m : Mem} {pre post : List Block} {b : Block} {lo hi : ℕ}

/-- `kfree` of a block whose header is valid opens the block in the block list and coalesces. -/
theorem kfreeBlock_represents (h : Represents m (pre ++ b :: post))
    (hp : Placed lo (pre ++ b :: post) hi) (hlo : 0 < lo) (hhi : hi ≤ 4294967296)
    (hsep : Coalesced (pre ++ b :: post)) :
    Represents (kfreeBlock m b.addr) (releaseBlock b.addr (pre ++ b :: post)) := by
  obtain ⟨m₂, L, mid, R, c, size, hfree, hlist, hrelease, hm⟩ := exists_merged h hp hlo hhi hsep
  rw [hfree, hrelease]
  exact relinkFree_represents (hlist ▸ h) hm.placedL hm.placedR hlo hhi hm.sameL hm.sameR hm.next
    hm.prev hm.size hm.valid

/-- `kfree` writes to headers of the list only. -/
theorem kfreeBlock_of_offHeaders (h : Represents m (pre ++ b :: post))
    (hp : Placed lo (pre ++ b :: post) hi) (hlo : 0 < lo) (hhi : hi ≤ 4294967296)
    (hsep : Coalesced (pre ++ b :: post)) {x : ℕ} (hx : OffHeaders (pre ++ b :: post) x) :
    kfreeBlock m b.addr x = m x := by
  obtain ⟨m₂, L, mid, R, c, size, hfree, hlist, -, hm⟩ := exists_merged h hp hlo hhi hsep
  rw [hlist] at hx
  have hoff : ∀ a ∈ addrs (L ++ mid ++ R), x < a ∨ a + 20 ≤ x := by
    intro a ha
    obtain ⟨d, hd, rfl⟩ := List.mem_map.mp ha
    exact hx d hd
  have hxc := hoff c (by simp [hm.mem])
  have hnext : headAddr R = 0 ∨ x < headAddr R ∨ headAddr R + 20 ≤ x :=
    hm.placedR.headAddr.imp_right fun hR => hoff _ (by simp [hR.2.2])
  have hprev : lastAddr L = 0 ∨ x < lastAddr L ∨ lastAddr L + 20 ≤ x :=
    hm.placedL.lastAddr.imp_right fun hL => hoff _ (by simp [hL.2.2])
  have happart : headAddr R = 0 ∨ c + 20 ≤ headAddr R :=
    hm.placedR.headAddr.imp_right fun hR => hR.1
  have hback : getField (if headAddr R ≠ 0 then setField m₂ (headAddr R) .prevBlock c else m₂) c
      .prevBlock = lastAddr L := by
    rw [getField_setIf (by omega), hm.prev]
  rw [hfree, relinkFree]
  simp only [hm.next, hback]
  rw [setField_of_notMem hxc, setIf_of_notMem hprev, setIf_of_notMem hnext, hm.frame x hx]

end KfreeBlock

end PakOS
