import PakOS.Kmalloc.Window

/-!
# First fit

What an observer of the block list sees when `kmalloc` is called: `Served L k hs k' hs' p` says how
the headers `hs` met before the call and the headers `hs'` met after it are related, when the call
asks for `L` bytes and returns `p`.  The lowest block that is free and large enough is taken, and
split if the rest is worth it; only if there is none does the heap grow by a block at its end.
`kmalloc_served` proves it for every reachable heap.
-/

namespace PakOS

open Machine Coalesce

variable {E : Type*} {base : HeapBase} {mmap : Mmap E}

/-- What stands in a header, links apart: address, size and free flag. -/
def Header.entry (h : Header) : ℕ × ℕ × ℕ := (h.addr, h.size, h.free)

/-- A header that serves a request of `L` bytes. -/
def Header.Fits (L : ℕ) (h : Header) : Prop := h.free = mblkFree ∧ L ≤ h.size

/-- What a call that asks for `L` bytes and returns `p` makes of the headers `hs` of the heap of
`k`: the headers `hs'` of the heap of `k'`. -/
inductive Served (L : ℕ) (k : Kernel E) (hs : List Header) (k' : Kernel E) (hs' : List Header)
    (p : ℕ) : Prop
  /-- The lowest block that fits is taken. -/
  | reuse (pre post : List Header) (h : Header) (hsplit : hs = pre ++ h :: post) (hfit : h.Fits L)
      (hlow : ∀ g ∈ hs, g.Fits L → h.addr ≤ g.addr)
      (hsize : k'.heapSize = k.heapSize) (hp : p = h.addr + sizeofMallocH)
      (hafter : hs'.map Header.entry = pre.map Header.entry ++
        (if h.size > 256 + L + sizeofMallocH then
          [(h.addr, L, mblkInUse),
            (h.addr + sizeofMallocH + L, h.size - L - sizeofMallocH, mblkFree)]
        else [(h.addr, h.size, mblkInUse)]) ++ post.map Header.entry) :
      Served L k hs k' hs' p
  /-- Nothing fits, and the heap grows by a block behind the last one. -/
  | grow (size pages : ℕ) (hnone : ∀ g ∈ hs, ¬g.Fits L) (hle : L ≤ size) (hpos : 0 < pages)
      (hsize : k'.heapSize = k.heapSize + 4096 * pages)
      (hp : p = k.heapStart + k.heapSize + sizeofMallocH)
      (hafter : hs'.map Header.entry =
        hs.map Header.entry ++ [(k.heapStart + k.heapSize, size, mblkInUse)]) :
      Served L k hs k' hs' p

/-! ### Blocks and headers -/

/-- What the header of a block holds, links apart. -/
def Block.entry (b : Block) : ℕ × ℕ × ℕ := (b.addr, b.size, b.flag)

theorem map_entry_headersFrom (prev : ℕ) (bs : List Block) :
    (headersFrom prev bs).map Header.entry = bs.map Block.entry := by
  induction bs generalizing prev with
  | nil => rfl
  | cons b bs ih =>
    rw [headersFrom, List.map_cons, List.map_cons, ih]
    rfl

/-- A header fits exactly if its block does. -/
theorem fits_of_entry_eq {L : ℕ} {h : Header} {b : Block} (heq : h.entry = b.entry) :
    h.Fits L ↔ Fits L b := by
  simp only [Header.entry, Block.entry, Prod.mk.injEq] at heq
  obtain ⟨-, hsize, hflag⟩ := heq
  unfold Header.Fits Fits
  rw [hsize, hflag]
  refine and_congr_left fun _ => ?_
  unfold Block.flag
  cases b.free <;> decide

theorem addr_eq_of_entry_eq {h : Header} {b : Block} (heq : h.entry = b.entry) : h.addr = b.addr :=
  congrArg Prod.fst heq

theorem size_eq_of_entry_eq {h : Header} {b : Block} (heq : h.entry = b.entry) : h.size = b.size :=
  congrArg (fun e => e.2.1) heq

/-- The header of a block that fits, and what stands around it. -/
theorem exists_split {hs : List Header} {pre post : List Block} {b : Block}
    (h : hs.map Header.entry = (pre ++ b :: post).map Block.entry) :
    ∃ hpre g hpost, hs = hpre ++ g :: hpost ∧ g.entry = b.entry ∧
      hpre.map Header.entry = pre.map Block.entry ∧
      hpost.map Header.entry = post.map Block.entry := by
  rw [List.map_append, List.map_cons] at h
  obtain ⟨hpre, rest, rfl, hpre', hrest⟩ := List.map_eq_append_iff.mp h
  obtain ⟨g, hpost, rfl, hg, hpost'⟩ := List.map_eq_cons_iff.mp hrest
  exact ⟨hpre, g, hpost, rfl, hg, hpre', hpost'⟩

/-- Headers that hold what the blocks of a list hold belong to these blocks. -/
theorem exists_block_of_entry {hs : List Header} {bs : List Block}
    (h : hs.map Header.entry = bs.map Block.entry) {g : Header} (hg : g ∈ hs) :
    ∃ b ∈ bs, g.entry = b.entry := by
  have hmem : g.entry ∈ bs.map Block.entry := h ▸ List.mem_map_of_mem hg
  obtain ⟨b, hb, heq⟩ := List.mem_map.mp hmem
  exact ⟨b, hb, heq.symm⟩

/-- Each of these blocks has its header among them. -/
theorem exists_header_of_entry {hs : List Header} {bs : List Block}
    (h : hs.map Header.entry = bs.map Block.entry) {b : Block} (hb : b ∈ bs) :
    ∃ g ∈ hs, g.entry = b.entry := by
  have hmem : b.entry ∈ hs.map Header.entry := h ▸ List.mem_map_of_mem hb
  exact List.mem_map.mp hmem

/-- The first block that fits is the lowest. -/
theorem Placed.le_of_fits {lo hi L : ℕ} {pre post : List Block} {b c : Block}
    (h : Placed lo (pre ++ b :: post) hi) (hpre : ∀ d ∈ pre, ¬Fits L d) (hc : c ∈ pre ++ b :: post)
    (hfit : Fits L c) : b.addr ≤ c.addr := by
  rcases List.mem_append.mp hc with hc | hc
  · exact absurd hfit (hpre c hc)
  · rcases List.mem_cons.mp hc with rfl | hc
    · exact le_rfl
    · have hlow := ((placed_append_cons.mp h).2.mem hc).1
      unfold Block.stop at hlow
      omega

/-! ### The effect of a call -/

/-- The headers of a block that was taken. -/
theorem map_entry_takeBlock (L : ℕ) (b : Block) :
    (takeBlock L b).map Block.entry =
      if b.size > 256 + L + sizeofMallocH then
        [(b.addr, L, mblkInUse), (b.addr + sizeofMallocH + L, b.size - L - sizeofMallocH, mblkFree)]
      else [(b.addr, b.size, mblkInUse)] := by
  unfold takeBlock sizeofMallocH
  split
  · rw [Nat.sub_right_comm]
    rfl
  · rfl

/-- What a `KmallocStep` looks like on the walks before and after it. -/
theorem KmallocStep.served {k k' : Kernel E} {bs bs' : List Block} {b : Block} {length : ℕ}
    {hs hs' : List Header} (hstep : KmallocStep k bs length k' bs' b) (h : HeapInv k bs)
    (hlen : SizeOk length) (hhs : hs.map Header.entry = bs.map Block.entry)
    (hhs' : hs'.map Header.entry = bs'.map Block.entry) :
    Served (align16 length) k hs k' hs' (b.addr + 20) := by
  cases hstep with
  | @reuse pre post d m hbs hpre hd hk =>
    subst hbs hk
    obtain ⟨hpre', g, hpost', rfl, hg, hmpre, hmpost⟩ := exists_split hhs
    have haddr : g.addr = d.addr := addr_eq_of_entry_eq hg
    have hsize : g.size = d.size := size_eq_of_entry_eq hg
    refine .reuse hpre' hpost' g rfl ((fits_of_entry_eq hg).mpr hd) (fun c hc hfit => ?_) rfl ?_ ?_
    · obtain ⟨e, he, heq⟩ := exists_block_of_entry hhs hc
      have hce : c.addr = e.addr := addr_eq_of_entry_eq heq
      rw [haddr, hce]
      exact h.placed.le_of_fits hpre he ((fits_of_entry_eq heq).mp hfit)
    · rw [haddr]
      split <;> rfl
    · rw [hhs', List.map_append, List.map_append, map_entry_takeBlock, hmpre, hmpost, haddr, hsize]
  | grow hbs hstart hsize =>
    obtain ⟨hlt, -⟩ := growBytes_bounds hlen.2
    obtain ⟨pages, hpages⟩ := dvd_growBytes (align16 length)
    refine .grow (growBytes (align16 length) - 20) pages (fun g hg hfit => ?_) (by omega)
      (by omega) (by rw [hsize, hpages]) rfl ?_
    · obtain ⟨e, he, heq⟩ := exists_block_of_entry hhs hg
      exact hbs e he ((fits_of_entry_eq heq).mp hfit)
    · rw [hhs', List.map_append, hhs]
      rfl

/-- The request is rounded up to 16. -/
theorem align16_eq_need {length : ℕ} (hlen : SizeOk length) : align16 length = need length := by
  rw [align16_eq, add32_of_lt hlen.1, need]

/-- **The exact effect of `kmalloc`.**  On every reachable heap a call whose size does not wrap
around returns, and whenever it returns, and the end of the heap did not wrap around, the walks of
the heap before and after it are related by `Served`, with the length rounded up to 16. -/
theorem kmalloc_served {s : History E} (hs : Reachable base mmap s) {length : ℕ}
    (hlen : SizeOk length) :
    (∃ fuel r, kmalloc (kernelSpace mmap) fuel length s.kernel = some r) ∧
    ∀ fuel p k, kmalloc (kernelSpace mmap) fuel length s.kernel = some (p, k) → EndOk s.kernel k →
      ∃ n hdrs hdrs', walk s.kernel.mem n s.kernel.firstBlk = some hdrs ∧
        walk k.mem n k.firstBlk = some hdrs' ∧ Served (need length) s.kernel hdrs k hdrs' p := by
  obtain ⟨bs, h⟩ := hs.inv
  constructor
  · obtain ⟨fuel, p, k, hk⟩ := exists_kmalloc mmap h.heap length
    exact ⟨fuel, (p, k), hk⟩
  · intro fuel p k hk hend
    obtain ⟨bs', b, hstep, hinv, rfl⟩ := kmalloc_step h.heap hk hlen hend
    refine ⟨bs.length + bs'.length + 1, headersFrom 0 bs, headersFrom 0 bs',
      h.heap.walk_eq (by omega), hinv.walk_eq (by omega), ?_⟩
    rw [← align16_eq_need hlen]
    exact hstep.served h.heap hlen (map_entry_headersFrom 0 bs) (map_entry_headersFrom 0 bs')

theorem kmalloc_served_threeLive :
    ∃ n hdrs hdrs' k, walk threeLive.kernel.mem n threeLive.kernel.firstBlk = some hdrs ∧
      kmalloc (kernelSpace mapAll) 8 50 threeLive.kernel = some (0xd0000210, k) ∧
      walk k.mem n k.firstBlk = some hdrs' ∧
      Served 64 threeLive.kernel hdrs k hdrs' 0xd0000210 := by
  have hreach : Reachable kernelHeap mapAll threeLive := reachable_historyOf _ _ _
  have hcall : ((kmalloc (kernelSpace mapAll) 8 50 threeLive.kernel).map fun r =>
      (r.1, decide (EndOk threeLive.kernel r.2))) = some (0xd0000210, true) := by decide +kernel
  obtain ⟨⟨p, k⟩, hk, hval⟩ := Option.map_eq_some_iff.mp hcall
  simp only [Prod.mk.injEq, decide_eq_true_eq] at hval
  obtain ⟨rfl, hend⟩ := hval
  obtain ⟨n, hdrs, hdrs', hwalk, hwalk', hserved⟩ :=
    (kmalloc_served hreach (show SizeOk 50 by decide)).2 8 _ k hk hend
  have hneed : need 50 = 64 := by decide
  rw [hneed] at hserved
  exact ⟨n, hdrs, hdrs', k, hwalk, hk, hwalk', hserved⟩

end PakOS
