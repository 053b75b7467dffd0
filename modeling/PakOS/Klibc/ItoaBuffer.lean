import PakOS.Klibc.Itoa
import PakOS.Kmalloc.FirstFit
import PakOS.Kmalloc.Realloc

/-!
# The buffer of `itoa`

`itoa` asks for 32 bytes and clears the byte behind them.  `StaysInside s k₁ k' p n log` says that a
run that was given the allocation `p` in the state `k₁`, and left the state `k'` and the stores
`log`, kept to the first `n` bytes of its allocation, so that the headers and the other allocations
are what they were.

Within the bytes that it asked for `itoa` stays for zero only.  Within the block that it was given
it also stays when that block is larger than 32 bytes, which the block list before the call decides:
`Tight` is the case in which it is not, and there a header begins behind the request
(`itoa_staysInside_iff`).
-/

namespace PakOS

open Machine Coalesce Numeral

variable {E : Type*} {base : HeapBase} {mmap : Mmap E}

instance (L : ℕ) (h : Header) : Decidable (h.Fits L) := inferInstanceAs (Decidable (_ ∧ _))

/-- The first block on the list that can serve 32 bytes leaves nothing behind them: either it is as
large, or so much larger that it is split. -/
def Tight (k : Kernel E) : Prop :=
  ∃ fuel hs h, walk k.mem fuel k.firstBlk = some hs ∧ hs.find? (fun g => g.Fits 32) = some h ∧
    (h.size = 32 ∨ 256 + 32 + sizeofMallocH < h.size)

/-- The run that left `k'` kept to the first `n` bytes of the allocation `p` that it was given in
the state `k₁`. -/
structure StaysInside (s : History E) (k₁ k' : Kernel E) (p n : ℕ) (log : List ℕ) : Prop where
  /-- The stores are to these bytes. -/
  stores : ∀ a ∈ log, p ≤ a ∧ a < p + n
  /-- The headers are what the allocator left. -/
  headers : ∃ fuel hs, walk k₁.mem fuel k₁.firstBlk = some hs ∧
    walk k'.mem fuel k'.firstBlk = some hs
  /-- The other live allocations are what they were. -/
  live : ∀ q ∈ s.live, SameContents k₁ k' q

/-! ### The heap behind `itoa` -/

section Heap

variable {k₁ k' : Kernel E} {bs : List Block} {b : Block} {radix value limit x : ℕ} {log : List ℕ}

/-- The block that serves `itoa` is as large as its request. -/
theorem itoaSize_le_iff : itoaSize value ≤ b.size ↔ (value = 0 ∧ 2 ≤ b.size) ∨
    (value ≠ 0 ∧ 32 ≤ b.size) := by
  unfold itoaSize
  split <;> omega

/-- A block of 32 bytes, for a value other than zero: what begins behind it is in use from then
on. -/
theorem Converted.heap_closeAt (h : Converted k₁ b radix value log k') (hk : HeapInv k₁ bs)
    (hb : b ∈ bs) (hv : value ≠ 0) (hsize : b.size = 32) : HeapInv k' (closeAt b.stop bs) := by
  obtain ⟨⟨m, rfl⟩, -, hframe, -, -⟩ := h
  have hsize' := itoaSize_le_iff.mpr (Or.inr ⟨hv, hsize.ge⟩)
  have hb' : b ∈ closeAt b.stop bs := mem_closeAt_of_ne hb (by unfold Block.stop; omega)
  refine (hk.closeAt hb).write_payload hb' (m := m) fun x hx => ?_
  unfold Block.stop at hx
  -- the byte behind the block is the lowest one of a flag, if any
  have hbehind : m x = if x = b.stop then 0 else k₁.mem x := by
    unfold Block.stop
    refine (hframe x (by omega)).trans (if_congr ?_ rfl rfl)
    omega
  exact hbehind.trans (Function.update_apply _ _ _ _).symm

/-- The heap behind `itoa` is a heap with the same blocks in use, and perhaps one more; it is the
same heap when the block is larger than 32 bytes. -/
theorem Converted.exists_heap (h : Converted k₁ b radix value log k') (hk : HeapInv k₁ bs)
    (hb : b ∈ bs) (hsize : itoaSize value ≤ b.size) :
    ∃ bs', HeapInv k' bs' ∧ (∀ c ∈ bs, c.free = false → c ∈ bs') ∧
      (value = 0 ∨ 32 < b.size → bs' = bs) := by
  have hsize' := itoaSize_le_iff.mp hsize
  by_cases hin : value = 0 ∨ 32 < b.size
  · obtain ⟨⟨m, rfl⟩, -, hframe, -, -⟩ := h
    refine ⟨bs, hk.write_payload hb fun x hx => ?_, fun c hc _ => hc, fun _ => rfl⟩
    unfold Block.stop at hx
    refine (hframe x (by omega)).trans (if_neg ?_)
    omega
  · exact ⟨closeAt b.stop bs, h.heap_closeAt hk hb (by omega) (by omega),
      fun c hc hfree => mem_closeAt_of_inUse hc hfree, fun h => absurd h hin⟩

/-- The byte behind a block is in no payload of a block in use. -/
theorem HeapInv.not_settled_stop (hk : HeapInv k₁ bs) (hb : b ∈ bs)
    (hle : k₁.heapStart + k₁.heapSize ≤ limit) : ¬Settled limit k₁ bs b.stop := by
  have hplace := hk.placed.mem hb
  rintro (hlow | hhigh | ⟨c, hc, -, hlo, hhi⟩)
  · unfold Block.stop at hlow
    omega
  · omega
  · have happart := hk.stop_apart hb hc
    unfold Block.stop at happart hlo hhi
    omega

/-- Bytes that are settled, but for those of the block that `itoa` was given, keep their values. -/
theorem Converted.mem_eq (h : Converted k₁ b radix value log k') (hk : HeapInv k₁ bs) (hb : b ∈ bs)
    (hsize : itoaSize value ≤ b.size) (hle : k₁.heapStart + k₁.heapSize ≤ limit)
    (hx : Settled limit k₁ bs x) (hout : x < b.addr + 20 ∨ b.stop ≤ x) : k'.mem x = k₁.mem x := by
  have hstop : x ≠ b.stop := fun heq => hk.not_settled_stop hb hle (heq ▸ hx)
  unfold Block.stop at hout hstop
  refine (h.frame x (by omega)).trans (if_neg ?_)
  have hsize' := itoaSize_le_iff.mp hsize
  omega

/-- The block that `itoa` returns, for its caller. -/
theorem Converted.handed {k : Kernel E} {bs₁ : List Block} (h : Converted k₁ b radix value log k')
    (hall : Allocated limit k bs (itoaSize value) k₁ bs₁ b) (hk : HeapInv k bs)
    (hready : Ready 32 limit k bs) : ∃ bs', Handed 32 limit k bs k' bs' b := by
  have hsmall := (itoaSize_small value).1
  obtain ⟨hb, hfree, hsize⟩ := hall.block (sizeOk_of_small hsmall).1
  have hfirst := hall.handed hk hsmall hready (by decide)
  obtain ⟨bs', hheap, hblocks, hsame⟩ := h.exists_heap hall.heap hb hsize
  obtain ⟨m, rfl⟩ := h.kernel
  refine ⟨bs', hheap, hall.le, hblocks b hb hfree, hfree, fun c hc hcfree => ?_, fun x hx => ?_, ?_⟩
  · obtain ⟨hc₁, hne⟩ := hfirst.blocks c hc hcfree
    exact ⟨hblocks c hc₁ hcfree, hne⟩
  · obtain ⟨hmem, hx₁, hout⟩ := hfirst.settled x hx
    refine ⟨(h.mem_eq hall.heap hb hsize hall.le hx₁ hout).trans hmem, ?_, hout⟩
    exact hx₁.imp_right fun hx₁ => hx₁.imp_right fun ⟨c, hc, hcfree, hpay⟩ =>
      ⟨c, hblocks c hc hcfree, hcfree, hpay⟩
  · by_cases hv : value = 0
    · rw [hsame (Or.inl hv)]
      exact hfirst.ready
    · -- the block itself serves the next request
      rw [itoaSize, if_neg hv] at hsize
      exact Or.inr hsize

/-- What `itoa` is to a caller whose heap is ready for 32 bytes. -/
theorem exists_itoa_handed (mmap : Mmap E) {k : Kernel E} (hk : HeapInv k bs)
    (hready : Ready 32 limit k bs) (hlimit : limit < 4294967296) (hradix : radix = 10 ∨ radix = 16)
    (hvalue : value < 18446744073709551616) :
    ∃ k' bs' b, Yields (fun n => (itoa (kernelSpace mmap) n value radix k).result)
        (b.addr + 20, k') ∧ Handed 32 limit k bs k' bs' b ∧
      CString k'.mem (b.addr + 20) (itoaText radix value) ∧
      b.addr + 20 + (itoaText radix value).length < b.stop := by
  have hten : 10 ≤ radix := by omega
  have h36 : radix ≤ 36 := by omega
  obtain ⟨k₁, bs₁, b, log, k', -, hall, hcomp, hconv⟩ :=
    itoa_completes mmap hk (hready.mono (itoaSize_small value).2) hlimit hten h36 hvalue
  obtain ⟨bs', hhanded⟩ := hconv.handed hall hk hready
  obtain ⟨hb, -, hsize⟩ := hall.block (sizeOk_of_small (itoaSize_small value).1).1
  have hlen := length_itoaText_lt hten hvalue
  refine ⟨k', bs', b, hcomp.yields, hhanded, hconv.cstring hall.heap hb hsize hten h36 hvalue, ?_⟩
  unfold Block.stop
  omega

end Heap

/-! ### When `itoa` keeps to its buffer -/

/-- The list is tight exactly if the block that serves 32 bytes is as large as that. -/
theorem KmallocStep.tight_iff {k k' : Kernel E} {bs bs' : List Block} {b : Block}
    (h : KmallocStep k bs 32 k' bs' b) (hk : HeapInv k bs) : Tight k ↔ b.size = 32 := by
  have h32 : align16 32 = 32 := by decide
  have hwalk := hk.walk_eq (Nat.lt_succ_self bs.length)
  have hentries := map_entry_headersFrom 0 bs
  cases h with
  | @reuse pre post d m hbs hpre hd _ =>
    subst hbs
    rw [h32] at hpre hd ⊢
    -- the header of the block that is taken is the first that fits
    obtain ⟨hpre', g, hpost', hsplit, hg, hmpre, -⟩ := exists_split hentries
    have hsize : g.size = d.size := size_eq_of_entry_eq hg
    have hfind : (headersFrom 0 (pre ++ d :: post)).find? (fun g => g.Fits 32) = some g := by
      refine List.find?_eq_some_iff_append.mpr ⟨?_, hpre', hpost', hsplit, fun a ha => ?_⟩
      · exact decide_eq_true ((fits_of_entry_eq hg).mpr hd)
      · obtain ⟨c, hc, hac⟩ := exists_block_of_entry hmpre ha
        have hno : ¬a.Fits 32 := fun hfit => hpre c hc ((fits_of_entry_eq hac).mp hfit)
        simpa using hno
    have htight : Tight k ↔ d.size = 32 ∨ 256 + 32 + sizeofMallocH < d.size := by
      constructor
      · rintro ⟨fuel, hs, g', hwalk', hfind', hcase⟩
        obtain rfl := eq_of_walk hwalk' hwalk
        obtain rfl := Option.some.inj (hfind'.symm.trans hfind)
        rwa [← hsize]
      · intro hcase
        exact ⟨_, _, g, hwalk, hfind, hsize.symm ▸ hcase⟩
    rw [htight, show sizeofMallocH = 20 from rfl]
    split
    · next hlarge => exact ⟨fun _ => rfl, fun _ => Or.inr hlarge⟩
    · next hlarge => exact ⟨fun hcase => hcase.resolve_right hlarge, Or.inl⟩
  | grow hbs _ _ =>
    rw [h32] at hbs ⊢
    constructor
    · rintro ⟨fuel, hs, g, hwalk', hfind', -⟩
      obtain rfl := eq_of_walk hwalk' hwalk
      obtain ⟨c, hc, hgc⟩ := exists_block_of_entry hentries (List.mem_of_find?_eq_some hfind')
      have hfit : g.Fits 32 := of_decide_eq_true (List.find?_some hfind' :)
      exact absurd ((fits_of_entry_eq hgc).mp hfit) (hbs c hc)
    · intro hsize
      have hpage : growBytes 32 - 20 = 4076 := by decide
      exact absurd (hpage.symm.trans hsize) (by decide)

section Run

variable {s : History E} {k₁ k' : Kernel E} {bs bs₁ : List Block} {b : Block}
  {radix value limit n : ℕ} {log : List ℕ}

/-- `itoa` on a reachable heap whose end does not wrap around. -/
theorem HistoryInv.itoa_completes (h : HistoryInv s bs) (hradix : radix = 10 ∨ radix = 16)
    (hvalue : value < 18446744073709551616)
    (hend : ∀ fuel p k₁, kmalloc (kernelSpace mmap) fuel (itoaSize value) s.kernel = some (p, k₁) →
      EndOk s.kernel k₁) :
    ∃ k₁ bs₁ b log k',
      Yields (fun n => kmalloc (kernelSpace mmap) n (itoaSize value) s.kernel) (b.addr + 20, k₁) ∧
      Allocated 4294967295 s.kernel bs (itoaSize value) k₁ bs₁ b ∧
      Completes (fun n => itoa (kernelSpace mmap) n value radix s.kernel) log (b.addr + 20, k') ∧
      Converted k₁ b radix value log k' :=
  PakOS.itoa_completes mmap h.heap (h.heap.ready_of_endOk (itoaSize_small value).1 hend) (by decide)
    (show 10 ≤ radix by omega) (show radix ≤ 36 by omega) hvalue

/-- When the byte behind the request is not behind the block, the headers and the live allocations
are kept. -/
theorem Converted.staysInside (hconv : Converted k₁ b radix value log k') (h : HistoryInv s bs)
    (hall : Allocated limit s.kernel bs (itoaSize value) k₁ bs₁ b) (hin : value = 0 ∨ 32 < b.size)
    (hlog : ∀ a ∈ log, b.addr + 20 ≤ a ∧ a < b.addr + 20 + n) :
    StaysInside s k₁ k' (b.addr + 20) n log := by
  have hok := (sizeOk_of_small (itoaSize_small value).1).1
  obtain ⟨hb, -, hsize⟩ := hall.block hok
  obtain ⟨bs', hheap, -, heq⟩ := hconv.exists_heap hall.heap hb hsize
  rw [heq hin] at hheap
  refine ⟨hlog, ⟨_, _, hall.heap.walk_eq (Nat.lt_succ_self _),
    hheap.walk_eq (Nat.lt_succ_self _)⟩, fun q hq => ?_⟩
  obtain ⟨c, hc, hcfree, rfl⟩ := h.exists_block hq
  obtain ⟨hc₁, happart⟩ := hall.apart h.heap hok hc hcfree
  refine ⟨(hheap.size_eq hc₁).trans (hall.heap.size_eq hc₁).symm, fun i hi => ?_⟩
  rw [recordedSize, hall.heap.size_eq hc₁] at hi
  unfold Block.stop at happart
  refine hconv.mem_eq hall.heap hb hsize hall.le (Or.inr (Or.inr ⟨c, hc₁, hcfree, ?_, ?_⟩)) ?_
  · omega
  · omega
  · unfold Block.stop
    omega

end Run

/-- **The buffer of `itoa`.**  On every reachable heap whose end does not wrap around, for every
64-bit value and base 10 or 16, `itoa` keeps to the 32 bytes, or 2 bytes for zero, that it asks for
exactly if the value is zero; it keeps to the block that it is given exactly if the value is zero or
the block list before the call is not tight. -/
theorem itoa_staysInside_iff {s : History E} (hs : Reachable base mmap s) {radix value : ℕ}
    (hradix : radix = 10 ∨ radix = 16) (hvalue : value < 18446744073709551616)
    (hend : ∀ fuel p k₁, kmalloc (kernelSpace mmap) fuel (itoaSize value) s.kernel = some (p, k₁) →
      EndOk s.kernel k₁) :
    ∃ p k₁ log k',
      Yields (fun n => kmalloc (kernelSpace mmap) n (itoaSize value) s.kernel) (p, k₁) ∧
      Completes (fun n => itoa (kernelSpace mmap) n value radix s.kernel) log (p, k') ∧
      (StaysInside s k₁ k' p (itoaSize value) log ↔ value = 0) ∧
      (StaysInside s k₁ k' p (recordedSize k₁ p) log ↔ value = 0 ∨ ¬Tight s.kernel) := by
  obtain ⟨bs, h⟩ := hs.inv
  obtain ⟨k₁, bs₁, b, log, k', hyields, hall, hcomp, hconv⟩ := h.itoa_completes hradix hvalue hend
  obtain ⟨hb, -, hsize⟩ := hall.block (sizeOk_of_small (itoaSize_small value).1).1
  have hsize' := itoaSize_le_iff.mp hsize
  have hrecorded : recordedSize k₁ (b.addr + 20) = b.size := hall.heap.size_eq hb
  refine ⟨b.addr + 20, k₁, log, k', hyields, hcomp, ⟨fun hin => ?_, fun h0 => ?_⟩, ?_⟩
  · by_contra hv
    have hlast := (hin.stores _ (hconv.behind hv)).2
    rw [itoaSize, if_neg hv] at hlast
    exact lt_irrefl _ hlast
  · refine hconv.staysInside h hall (Or.inl h0) fun a ha => ?_
    have hstore := hconv.stores a ha
    exact ⟨hstore.1, hstore.2.resolve_right fun hne => hne.1 h0⟩
  rw [hrecorded]
  have htight : value ≠ 0 → (Tight s.kernel ↔ b.size = 32) := by
    intro hv
    have hstep := hall.step
    rw [itoaSize, if_neg hv] at hstep
    exact hstep.tight_iff h.heap
  constructor
  · intro hin
    by_cases hv : value = 0
    · exact Or.inl hv
    · refine Or.inr fun ht => ?_
      have hlast := (hin.stores _ (hconv.behind hv)).2
      rw [(htight hv).mp ht] at hlast
      exact lt_irrefl _ hlast
  · intro hcase
    have hin : value = 0 ∨ 32 < b.size := by
      by_cases hv : value = 0
      · exact Or.inl hv
      · have hne : b.size ≠ 32 := fun heq => hcase.resolve_left hv ((htight hv).mpr heq)
        omega
    refine hconv.staysInside h hall hin fun a ha => ?_
    have hstore := hconv.stores a ha
    omega

theorem itoa_staysInside_threeLive :
    ∃ p k₁ log k',
      Completes (fun n => itoa (kernelSpace mapAll) n 48879 16 threeLive.kernel) log (p, k') ∧
      ¬StaysInside threeLive k₁ k' p 32 log := by
  have hreach : Reachable kernelHeap mapAll threeLive := reachable_historyOf _ _ _
  have hcall : ((kmalloc (kernelSpace mapAll) 8 (itoaSize 48879) threeLive.kernel).map fun r =>
      decide (EndOk threeLive.kernel r.2)) = some true := by decide +kernel
  obtain ⟨r, hr, hend⟩ := Option.map_eq_some_iff.mp hcall
  obtain ⟨p, k₁, log, k', -, hcomp, hiff, -⟩ := itoa_staysInside_iff hreach (Or.inr rfl)
    (show 48879 < 18446744073709551616 by decide) (endOk_of_kmalloc hr (of_decide_eq_true hend))
  exact ⟨p, k₁, log, k', hcomp, fun hin => absurd (hiff.mp hin) (by decide)⟩

/-- The first numeral after boot: the byte behind the 32 bytes is the flag of the rest of the heap,
which is free before and in use behind it. -/
theorem not_staysInside_freshHeap :
    Reachable kernelHeap mapAll freshHeap ∧ ∃ p k₁ k',
      kmalloc (kernelSpace mapAll) 8 32 freshHeap.kernel = some (p, k₁) ∧ recordedSize k₁ p = 32 ∧
      (itoa (kernelSpace mapAll) 8 1 10 freshHeap.kernel).result = some (p, k') ∧
      ¬StaysInside freshHeap k₁ k' p 32 (itoa (kernelSpace mapAll) 8 1 10 freshHeap.kernel).events ∧
      getField k₁.mem (p + 32) .free = mblkFree ∧ getField k'.mem (p + 32) .free = mblkInUse := by
  refine ⟨reachable_historyOf _ _ _, ?_⟩
  have hcall : ((kmalloc (kernelSpace mapAll) 8 32 freshHeap.kernel).map fun r =>
      (r.1, recordedSize r.2 r.1, getField r.2.mem (r.1 + 32) .free)) =
      some (0xd0000014, 32, 1) := by decide +kernel
  have hrun : ((itoa (kernelSpace mapAll) 8 1 10 freshHeap.kernel).result.map fun r =>
      (r.1, getField r.2.mem (r.1 + 32) .free)) = some (0xd0000014, 0) := by decide +kernel
  have hstore : 0xd0000034 ∈ (itoa (kernelSpace mapAll) 8 1 10 freshHeap.kernel).events := by
    decide +kernel
  obtain ⟨r, hr, hval⟩ := Option.map_eq_some_iff.mp hcall
  obtain ⟨r', hr', hval'⟩ := Option.map_eq_some_iff.mp hrun
  simp only [Prod.mk.injEq] at hval hval'
  obtain ⟨hp, hsize, hfree⟩ := hval
  obtain ⟨hp', hfree'⟩ := hval'
  have hp₁ : r'.1 = r.1 := hp'.trans hp.symm
  refine ⟨r.1, r.2, r'.2, hr, hsize, hp₁ ▸ hr', fun hin => ?_, hfree, hp₁ ▸ hfree'⟩
  have hlast := (hin.stores _ hstore).2
  rw [hp] at hlast
  exact absurd hlast (by decide)

end PakOS
