import PakOS.Kmalloc.BlockList

/-!
# Walking the block list

`walk` is what an observer of the heap sees: the headers met from `_first_blk` on along
`next_block`, with all their fields.  Statements about the heap are statements about this walk; the
block lists of `PakOS.Kmalloc.BlockList` are how they are proved.  `headersFrom` is the walk a block
list predicts, and `Represents.walk_eq` says that it is the walk that happens, so the list is finite
and ends in `NULL`.
-/

namespace PakOS

open Machine

/-- A header as it stands in memory, and where it stands. -/
structure Header where
  /-- The address of the header. -/
  addr : ℕ
  /-- `free` -/
  free : ℕ
  /-- `next_block` -/
  nextBlock : ℕ
  /-- `prev_block` -/
  prevBlock : ℕ
  /-- `size` -/
  size : ℕ
  deriving DecidableEq, Repr

/-- The end of the byte range `[header, header + sizeof(_malloc_h) + size)`. -/
def Header.stop (h : Header) : ℕ := h.addr + sizeofMallocH + h.size

/-- The header at an address. -/
def readHeader (m : Mem) (a : ℕ) : Header :=
  ⟨a, getField m a .free, getField m a .nextBlock, getField m a .prevBlock, getField m a .size⟩

/-- The headers met along `next_block` until `NULL`; `none` when the fuel does not suffice. -/
def walk (m : Mem) : ℕ → ℕ → Option (List Header)
  | 0, _ => none
  | fuel + 1, a =>
    if a = 0 then some []
    else (walk m fuel (getField m a .nextBlock)).map (readHeader m a :: ·)

/-- The headers of a block list that is linked back to `prev`. -/
def headersFrom (prev : ℕ) : List Block → List Header
  | [] => []
  | b :: bs => ⟨b.addr, b.flag, headAddr bs, prev, b.size⟩ :: headersFrom b.addr bs

/-! ### The walk of a block list -/

/-- A walk from the middle of the list. -/
theorem Represents.walk_append {m : Mem} {pre bs : List Block} {fuel : ℕ}
    (h : Represents m (pre ++ bs)) (hpos : ∀ b ∈ bs, b.addr ≠ 0) (hfuel : bs.length < fuel) :
    walk m fuel (headAddr bs) = some (headersFrom (lastAddr pre) bs) := by
  induction bs generalizing pre fuel with
  | nil =>
    obtain ⟨fuel, rfl⟩ := Nat.exists_eq_add_of_lt hfuel
    rfl
  | cons b bs ih =>
    obtain ⟨fuel, rfl⟩ := Nat.exists_eq_add_of_lt hfuel
    have hb := hpos b List.mem_cons_self
    obtain ⟨hprev, hnext⟩ := h.link_mid hb
    have hnode := h.nodes b (by simp)
    have h' : Represents m ((pre ++ [b]) ++ bs) := by simpa using h
    have hrest : walk m ((b :: bs).length + fuel) (headAddr bs) = _ :=
      ih h' (fun c hc => hpos c (List.mem_cons_of_mem b hc)) (by rw [List.length_cons]; omega)
    rw [lastAddr_concat] at hrest
    rw [headAddr_cons, walk, if_neg hb, hnext, hrest]
    simp only [Option.map_some, readHeader, headersFrom, hnode.free, hnode.size, hprev, hnext]

/-- The walk of a list in memory is the walk its blocks predict. -/
theorem Represents.walk_eq {m : Mem} {bs : List Block} {fuel : ℕ} (h : Represents m bs)
    (hpos : ∀ b ∈ bs, b.addr ≠ 0) (hfuel : bs.length < fuel) :
    walk m fuel (headAddr bs) = some (headersFrom 0 bs) := by
  have h' : Represents m ([] ++ bs) := h
  exact h'.walk_append hpos hfuel

/-- More fuel does not change what a walk sees. -/
theorem walk_mono {m : Mem} {fuel fuel' a : ℕ} {hs : List Header} (h : walk m fuel a = some hs)
    (hle : fuel ≤ fuel') : walk m fuel' a = some hs := by
  induction fuel generalizing fuel' a hs with
  | zero => simp [walk] at h
  | succ fuel ih =>
    obtain ⟨d, rfl⟩ := Nat.exists_eq_add_of_le hle
    rw [Nat.add_right_comm, walk] at *
    by_cases ha : a = 0
    · simpa [ha] using h
    · rw [if_neg ha, Option.map_eq_some_iff] at h ⊢
      obtain ⟨tl, htl, rfl⟩ := h
      exact ⟨tl, ih htl (by omega), rfl⟩

/-! ### What the headers of a block list look like -/

@[simp] theorem map_addr_headersFrom (prev : ℕ) (bs : List Block) :
    (headersFrom prev bs).map Header.addr = addrs bs := by
  induction bs generalizing prev with
  | nil => rfl
  | cons b bs ih => simp [headersFrom, ih]

/-- The headers of a block list are those of its blocks. -/
theorem exists_mem_of_mem_headersFrom {prev : ℕ} {bs : List Block} {h : Header}
    (hh : h ∈ headersFrom prev bs) :
    ∃ b ∈ bs, h.addr = b.addr ∧ h.free = b.flag ∧ h.size = b.size := by
  induction bs generalizing prev with
  | nil => exact absurd hh List.not_mem_nil
  | cons b bs ih =>
    rcases List.mem_cons.mp hh with rfl | hh
    · exact ⟨b, List.mem_cons_self, rfl, rfl, rfl⟩
    · obtain ⟨c, hc, hch⟩ := ih hh
      exact ⟨c, List.mem_cons_of_mem b hc, hch⟩

/-- Every block of the list has a header on the walk. -/
theorem exists_mem_headersFrom (prev : ℕ) {bs : List Block} {b : Block} (hb : b ∈ bs) :
    ∃ h ∈ headersFrom prev bs, h.addr = b.addr ∧ h.free = b.flag ∧ h.size = b.size := by
  induction bs generalizing prev with
  | nil => exact absurd hb List.not_mem_nil
  | cons c bs ih =>
    rcases List.mem_cons.mp hb with rfl | hb
    · exact ⟨_, List.mem_cons_self, rfl, rfl, rfl⟩
    · obtain ⟨h, hh, hhb⟩ := ih c.addr hb
      exact ⟨h, List.mem_cons_of_mem _ hh, hhb⟩

/-- `prev_block` is the inverse of `next_block` between neighbours. -/
theorem linked_headersFrom (prev : ℕ) (bs : List Block) :
    (headersFrom prev bs).IsChain fun h h' => h.nextBlock = h'.addr ∧ h'.prevBlock = h.addr := by
  induction bs generalizing prev with
  | nil => exact List.isChain_nil
  | cons b bs ih =>
    cases bs with
    | nil => exact List.isChain_singleton _
    | cons c bs => exact List.isChain_cons_cons.mpr ⟨⟨rfl, rfl⟩, ih b.addr⟩

/-- The first header of a list is linked back to where the list comes from. -/
theorem prevBlock_head_headersFrom {prev : ℕ} {bs : List Block} {h : Header}
    (hh : h ∈ (headersFrom prev bs).head?) : h.addr = headAddr bs ∧ h.prevBlock = prev := by
  cases bs with
  | nil => simp [headersFrom] at hh
  | cons b bs =>
    rw [headersFrom, List.head?_cons, Option.mem_some_iff] at hh
    subst hh
    exact ⟨rfl, rfl⟩

/-- The last header of a list has no next block. -/
theorem nextBlock_last_headersFrom {prev : ℕ} {bs : List Block} {h : Header}
    (hh : h ∈ (headersFrom prev bs).getLast?) : h.nextBlock = 0 := by
  induction bs generalizing prev with
  | nil => simp [headersFrom] at hh
  | cons b bs ih =>
    cases bs with
    | nil =>
      rw [headersFrom, headersFrom, List.getLast?_singleton, Option.mem_some_iff] at hh
      subst hh
      rfl
    | cons c bs =>
      rw [headersFrom, headersFrom, List.getLast?_cons_cons] at hh
      exact ih hh

/-- The byte ranges of the headers of a placed list follow one another. -/
theorem apart_headersFrom {lo hi prev : ℕ} {bs : List Block} (hp : Placed lo bs hi) :
    (headersFrom prev bs).Pairwise fun h h' => h.stop ≤ h'.addr := by
  induction bs generalizing lo prev with
  | nil => exact List.Pairwise.nil
  | cons b bs ih =>
    refine List.pairwise_cons.mpr ⟨fun h' hh' => ?_, ih hp.2⟩
    obtain ⟨c, hc, hca, -, -⟩ := exists_mem_of_mem_headersFrom hh'
    rw [hca]
    exact (hp.2.mem hc).1

/-- The byte ranges of the headers of a placed list lie in the range of the list. -/
theorem inside_headersFrom {lo hi prev : ℕ} {bs : List Block} (hp : Placed lo bs hi) {h : Header}
    (hh : h ∈ headersFrom prev bs) : lo ≤ h.addr ∧ h.stop ≤ hi := by
  obtain ⟨b, hb, ha, -, hs⟩ := exists_mem_of_mem_headersFrom hh
  have hmem := hp.mem hb
  unfold Header.stop sizeofMallocH
  unfold Block.stop at hmem
  rw [ha, hs]
  exact hmem

end PakOS
