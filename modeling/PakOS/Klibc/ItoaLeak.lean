import PakOS.Klibc.ItoaBuffer
import PakOS.Kmalloc.Lost

/-!
# What a numeral costs

`itoa` clears the byte behind its 32 bytes.  If the allocator has split the block that it took them
from, this byte is the flag of the rest, which is in use from then on although nobody holds it:
`kfree` of the numeral does not give it back, and no call of anybody does.  `itoa_leaks` says when
this happens, what is lost, and that it is lost for good.
-/

namespace PakOS

open Machine Coalesce

variable {E : Type*} {base : HeapBase} {mmap : Mmap E} {s : History E} {k k₁ k' : Kernel E}
  {bs bs₁ : List Block} {b : Block} {radix value limit : ℕ} {log : List ℕ}

/-- The lowest free block that can serve 32 bytes is so large that it is split. -/
def Splits (k : Kernel E) : Prop :=
  ∃ fuel hs h, walk k.mem fuel k.firstBlk = some hs ∧ h ∈ hs ∧ h.Fits 32 ∧
    (∀ g ∈ hs, g.Fits 32 → h.addr ≤ g.addr) ∧ 256 + 32 + sizeofMallocH < h.size

/-- What this means for the blocks. -/
theorem HeapInv.splits_iff (h : HeapInv k bs) :
    Splits k ↔ ∃ d ∈ bs, Fits 32 d ∧ (∀ c ∈ bs, Fits 32 c → d.addr ≤ c.addr) ∧ 308 < d.size := by
  have hwalk := h.walk_eq (Nat.lt_succ_self bs.length)
  have hentries := map_entry_headersFrom 0 bs
  constructor
  · rintro ⟨fuel, hs, g, hwalk', hg, hfit, hlow, hlarge⟩
    obtain rfl := eq_of_walk hwalk' hwalk
    obtain ⟨d, hd, heq⟩ := exists_block_of_entry hentries hg
    refine ⟨d, hd, (fits_of_entry_eq heq).mp hfit, ?_, size_eq_of_entry_eq heq ▸ hlarge⟩
    intro c hc hcfit
    obtain ⟨g', hg', heq'⟩ := exists_header_of_entry hentries hc
    rw [← addr_eq_of_entry_eq heq, ← addr_eq_of_entry_eq heq']
    exact hlow g' hg' ((fits_of_entry_eq heq').mpr hcfit)
  · rintro ⟨d, hd, hfit, hlow, hlarge⟩
    obtain ⟨g, hg, heq⟩ := exists_header_of_entry hentries hd
    refine ⟨_, _, g, hwalk, hg, (fits_of_entry_eq heq).mpr hfit, ?_,
      (size_eq_of_entry_eq heq).symm ▸ hlarge⟩
    intro g' hg' hfit'
    obtain ⟨c, hc, heq'⟩ := exists_block_of_entry hentries hg'
    rw [addr_eq_of_entry_eq heq, addr_eq_of_entry_eq heq']
    exact hlow c hc ((fits_of_entry_eq heq').mp hfit')

/-! ### What is behind the 32 bytes -/

/-- The rest that is split off begins behind the 32 bytes, and is free. -/
theorem KmallocStep.exists_rest (hstep : KmallocStep k bs 32 k₁ bs₁ b) (h : HeapInv k bs)
    (hsplit : Splits k) :
    b.size = 32 ∧ ∃ e ∈ bs₁, e.free = true ∧ e.addr = b.stop ∧ 256 < e.size := by
  obtain ⟨d', hd', hfit', hlow', hlarge'⟩ := h.splits_iff.mp hsplit
  have h32 : align16 32 = 32 := by decide
  cases hstep with
  | @reuse pre post d m hbs hpre hd _ =>
    subst hbs
    rw [h32] at hpre hd ⊢
    have heq := h.placed.eq_of_addr_eq hd' (show d ∈ pre ++ d :: post by simp)
      (le_antisymm (hlow' d (by simp) hd) (h.placed.le_of_fits hpre hd' hfit'))
    have hlarge : d.size > 256 + 32 + 20 := heq ▸ hlarge'
    rw [if_pos hlarge]
    refine ⟨rfl, ⟨d.addr + 20 + 32, d.size - 20 - 32, true⟩, ?_, rfl, rfl, ?_⟩
    · simp [takeBlock, hlarge]
    · simp only
      omega
  | grow hbs _ _ =>
    rw [h32] at hbs
    exact absurd hfit' (hbs d' hd')

/-- Behind a free block no free block begins. -/
theorem inUse_of_addr_eq_stop {lo hi : ℕ} {pre post : List Block} {d e : Block}
    (h : Placed lo (pre ++ d :: post) hi) (hcoal : Coalesced (pre ++ d :: post))
    (hd : d.free = true) (he : e ∈ pre ++ d :: post) (haddr : e.addr = d.stop) :
    e.free = false := by
  obtain ⟨hpre, hpost⟩ := placed_append_cons.mp h
  obtain ⟨-, -, -, hnext⟩ := Separated.neighbours hcoal hd
  rcases List.mem_append.mp he with he | he
  · have hbefore := (hpre.mem he).2
    unfold Block.stop at hbefore haddr
    omega
  · rcases List.mem_cons.mp he with rfl | he
    · unfold Block.stop at haddr
      omega
    · cases post with
      | nil => exact absurd he List.not_mem_nil
      | cons y ys =>
        rcases List.mem_cons.mp he with rfl | he
        · exact hnext e rfl
        · have hplace := hpost.1
          have hbehind := (hpost.2.mem he).1
          unfold Block.stop at hbehind hplace haddr
          omega

/-- Only such a rest is free behind the block that serves 32 bytes. -/
theorem KmallocStep.splits_of_free {e : Block} (hstep : KmallocStep k bs 32 k₁ bs₁ b)
    (h : HeapInv k bs) (h₁ : HeapInv k₁ bs₁) (he : e ∈ bs₁) (hefree : e.free = true)
    (haddr : e.addr = b.stop) : Splits k := by
  rw [h.splits_iff]
  have h32 : align16 32 = 32 := by decide
  cases hstep with
  | @reuse pre post d m hbs hpre hd _ =>
    subst hbs
    rw [h32] at hpre hd he haddr
    by_cases hlarge : d.size > 256 + 32 + 20
    · exact ⟨d, by simp, hd, fun c hc hfit => h.placed.le_of_fits hpre hc hfit, hlarge⟩
    · -- the block is taken whole
      exfalso
      rw [if_neg hlarge, show (⟨d.addr, d.size, false⟩ : Block).stop = d.stop from rfl] at haddr
      rw [takeBlock, if_neg hlarge, List.mem_append, List.mem_append, List.mem_singleton] at he
      have hmem : e ∈ pre ++ d :: post := by
        rcases he with (he | rfl) | he
        · exact List.mem_append_left _ he
        · exact absurd hefree Bool.false_ne_true
        · exact List.mem_append_right _ (List.mem_cons_of_mem d he)
      have hin := inUse_of_addr_eq_stop h.placed h.coalesced hd.1 hmem haddr
      exact Bool.false_ne_true (hin.symm.trans hefree)
  | grow hbs hstart hsize =>
    exfalso
    rw [h32] at h₁ haddr
    have hend := (h₁.placed.mem he).2
    rw [hstart, hsize, h32] at hend
    have hpage : growBytes 32 = 4096 := by decide
    unfold Block.stop at hend haddr
    simp only at haddr
    omega

/-- So it is in a call of `itoa` with a value other than zero. -/
theorem Allocated.exists_rest (hall : Allocated limit k bs (itoaSize value) k₁ bs₁ b)
    (hk : HeapInv k bs) (hleak : value ≠ 0 ∧ Splits k) :
    b.stop = b.addr + 20 + 32 ∧ ∃ e ∈ bs₁, e.free = true ∧ e.addr = b.stop ∧ 256 < e.size := by
  have hstep := hall.step
  rw [itoaSize, if_neg hleak.1] at hstep
  obtain ⟨hsize, hexists⟩ := hstep.exists_rest hk hleak.2
  exact ⟨by rw [Block.stop, hsize], hexists⟩

/-! ### What is in use -/

/-- `kmalloc` puts one more block in use. -/
theorem Allocated.inUseAt_iff {length : ℕ} (hall : Allocated limit k bs length k₁ bs₁ b)
    (hk : HeapInv k bs) (hlen : SizeOk length) :
    ¬InUseAt k (b.addr + 20) ∧ ∀ q, InUseAt k₁ q ↔ q = b.addr + 20 ∨ InUseAt k q := by
  obtain ⟨-, hbfree, -⟩ := hall.block hlen
  obtain ⟨hmem, hne⟩ := hall.step.inUse hk
  simp only [hall.heap.inUseAt_iff, hk.inUseAt_iff]
  refine ⟨?_, fun q => ?_⟩
  · rintro ⟨c, hc, hcfree, heq⟩
    exact hne c hc hcfree (by omega)
  · constructor
    · rintro ⟨c, hc, hcfree, rfl⟩
      refine ((hmem c hcfree).mp hc).imp (fun heq => ?_) fun hc => ⟨c, hc, hcfree, rfl⟩
      rw [heq]
    · rintro (rfl | ⟨c, hc, hcfree, rfl⟩)
      · exact ⟨b, (hmem b hbfree).mpr (Or.inl rfl), hbfree, rfl⟩
      · exact ⟨c, (hmem c hcfree).mpr (Or.inr hc), hcfree, rfl⟩

/-- `kfree` leaves the other blocks in use, and as large as they are. -/
theorem Freed.inUseAt_iff (h : Freed k bs b k') (hk : HeapInv k bs) {q : ℕ} :
    (InUseAt k' q ↔ InUseAt k q ∧ q ≠ b.addr + 20) ∧
      (InUseAt k' q → recordedSize k' q = recordedSize k q) := by
  rw [h.heap.inUseAt_iff, hk.inUseAt_iff]
  refine ⟨⟨?_, ?_⟩, ?_⟩
  · rintro ⟨c, hc, hcfree, rfl⟩
    obtain ⟨hc, hcb⟩ := (mem_releaseBlock hcfree).mp hc
    exact ⟨⟨c, hc, hcfree, rfl⟩, by omega⟩
  · rintro ⟨⟨c, hc, hcfree, rfl⟩, hne⟩
    exact ⟨c, (mem_releaseBlock hcfree).mpr ⟨hc, by omega⟩, hcfree, rfl⟩
  · rintro ⟨c, hc, hcfree, rfl⟩
    have hc' := ((mem_releaseBlock hcfree).mp hc).1
    exact (h.heap.size_eq hc).trans (hk.size_eq hc').symm

/-- The heap behind `itoa`: the blocks in use are those that `kmalloc` left in use, and the rest if
it was split off. -/
theorem Converted.exists_inUse (hconv : Converted k₁ b radix value log k')
    (hall : Allocated limit k bs (itoaSize value) k₁ bs₁ b) (hk : HeapInv k bs) :
    ∃ bs', HeapInv k' bs' ∧ ∀ c : Block, c.free = false →
      (c ∈ bs' ↔ c ∈ bs₁ ∨ (value ≠ 0 ∧ Splits k) ∧
        ∃ e ∈ bs₁, e.free = true ∧ e.addr = b.stop ∧ c = { e with free := false }) := by
  obtain ⟨hb, -, hsize⟩ := hall.block (sizeOk_of_small (itoaSize_small value).1).1
  have hsize' := itoaSize_le_iff.mp hsize
  by_cases hin : value = 0 ∨ 32 < b.size
  · obtain ⟨bs', hheap, -, hsame⟩ := hconv.exists_heap hall.heap hb hsize
    refine ⟨bs', hheap, fun c _ => ?_⟩
    rw [hsame hin]
    refine (or_iff_left ?_).symm
    rintro ⟨hleak, -⟩
    have hstop := (hall.exists_rest hk hleak).1
    have hlarge := hin.resolve_left hleak.1
    unfold Block.stop at hstop
    omega
  · have hv : value ≠ 0 := fun h0 => hin (Or.inl h0)
    have hstep := hall.step
    rw [itoaSize, if_neg hv] at hstep
    refine ⟨closeAt b.stop bs₁, hconv.heap_closeAt hall.heap hb hv (by omega), fun c hfree => ?_⟩
    rw [mem_closeAt_inUse hfree]
    refine or_congr_right ⟨fun hclosed => ⟨?_, hclosed⟩, fun hclosed => hclosed.2⟩
    obtain ⟨e, he, hefree, haddr, -⟩ := hclosed
    exact ⟨hv, hstep.splits_of_free hk hall.heap he hefree haddr⟩

/-- `itoa` puts the rest in use, if it was split off. -/
theorem Converted.inUseAt_iff (hconv : Converted k₁ b radix value log k')
    (hall : Allocated limit k bs (itoaSize value) k₁ bs₁ b) (hk : HeapInv k bs) :
    ∃ bs', HeapInv k' bs' ∧ b ∈ bs' ∧
      (∀ q, InUseAt k' q ↔
        InUseAt k₁ q ∨ (value ≠ 0 ∧ Splits k) ∧ q = b.addr + 20 + 52) ∧
      (value ≠ 0 ∧ Splits k → ¬InUseAt k₁ (b.addr + 20 + 52) ∧
        256 < recordedSize k' (b.addr + 20 + 52)) := by
  obtain ⟨hb, hbfree, -⟩ := hall.block (sizeOk_of_small (itoaSize_small value).1).1
  obtain ⟨bs', hheap, hin⟩ := hconv.exists_inUse hall hk
  refine ⟨bs', hheap, (hin b hbfree).mpr (Or.inl hb), fun q => ?_, fun hleak => ?_⟩
  · rw [hheap.inUseAt_iff, hall.heap.inUseAt_iff]
    constructor
    · rintro ⟨c, hc, hcfree, rfl⟩
      rcases (hin c hcfree).mp hc with hc | ⟨hleak, e, -, -, haddr, rfl⟩
      · exact Or.inl ⟨c, hc, hcfree, rfl⟩
      · refine Or.inr ⟨hleak, ?_⟩
        rw [haddr, (hall.exists_rest hk hleak).1]
    · rintro (⟨c, hc, hcfree, rfl⟩ | ⟨hleak, rfl⟩)
      · exact ⟨c, (hin c hcfree).mpr (Or.inl hc), hcfree, rfl⟩
      · obtain ⟨hstop, e, he, hefree, haddr, -⟩ := hall.exists_rest hk hleak
        refine ⟨{ e with free := false }, ?_, rfl, ?_⟩
        · exact (hin _ rfl).mpr (Or.inr ⟨hleak, e, he, hefree, haddr, rfl⟩)
        · rw [haddr, hstop]
  · obtain ⟨hstop, e, he, hefree, haddr, hlarge⟩ := hall.exists_rest hk hleak
    have hclosed := (hin { e with free := false } rfl).mpr
      (Or.inr ⟨hleak, e, he, hefree, haddr, rfl⟩)
    have hp : b.addr + 20 + 52 = e.addr + 20 := by rw [haddr, hstop]
    rw [hp, hall.heap.inUseAt_iff]
    refine ⟨?_, hlarge.trans_eq (hheap.size_eq hclosed).symm⟩
    rintro ⟨c, hc, hcfree, heq⟩
    have hce := hall.heap.placed.eq_of_addr_eq hc he (by omega)
    exact Bool.false_ne_true (hcfree.symm.trans (hce ▸ hefree))

/-- After `itoa` and `kfree` of the numeral, in use is what was, and the rest if it was split
off. -/
theorem HistoryInv.itoa_kfree (h : HistoryInv s bs) (hradix : radix = 10 ∨ radix = 16)
    (hvalue : value < 18446744073709551616)
    (hend : ∀ fuel p k₁, kmalloc (kernelSpace mmap) fuel (itoaSize value) s.kernel = some (p, k₁) →
      EndOk s.kernel k₁) :
    ∃ p k₁ k₂ bs₂,
      Yields (fun n => (itoa (kernelSpace mmap) n value radix s.kernel).result) (p, k₁) ∧
      Yields (fun n => kfree (kernelSpace mmap) n p k₁) (.ok, k₂) ∧ HeapInv k₂ bs₂ ∧
      (∀ q, InUseAt k₂ q ↔ q ∈ s.live ∨ (value ≠ 0 ∧ Splits s.kernel) ∧ q = p + 52) ∧
      (value ≠ 0 ∧ Splits s.kernel → p + 52 ∉ s.live ∧ 256 < recordedSize k₂ (p + 52)) := by
  obtain ⟨k₁, bs₁, b, log, k', -, hall, hcomp, hconv⟩ := h.itoa_completes hradix hvalue hend
  obtain ⟨hnew, hkmalloc⟩ :=
    hall.inUseAt_iff h.heap (sizeOk_of_small (itoaSize_small value).1).1
  obtain ⟨bs', hheap, hb, hitoa, hrest⟩ := hconv.inUseAt_iff hall h.heap
  obtain ⟨k₂, hyields, hfreed⟩ := hheap.yields_kfree (kernelSpace mmap) hb
  have hin : ∀ q, InUseAt k₂ q ↔
      InUseAt s.kernel q ∨ (value ≠ 0 ∧ Splits s.kernel) ∧ q = b.addr + 20 + 52 := by
    intro q
    rw [(hfreed.inUseAt_iff hheap).1, hitoa, hkmalloc]
    constructor
    · rintro ⟨(hq | hq) | hq, hne⟩
      · exact absurd hq hne
      · exact Or.inl hq
      · exact Or.inr hq
    · rintro (hq | ⟨hleak, rfl⟩)
      · exact ⟨Or.inl (Or.inr hq), fun heq => hnew (heq ▸ hq)⟩
      · exact ⟨Or.inr ⟨hleak, rfl⟩, by omega⟩
  refine ⟨b.addr + 20, k', k₂, _, hcomp.yields, hyields, hfreed.heap, fun q => ?_, fun hleak => ?_⟩
  · rw [h.mem_live_iff]
    exact hin q
  · obtain ⟨hnot, hlarge⟩ := hrest hleak
    rw [h.mem_live_iff]
    refine ⟨fun hlive => hnot ((hkmalloc _).mpr (Or.inr hlive)), ?_⟩
    rw [(hfreed.inUseAt_iff hheap).2 ((hin _).mpr (Or.inr ⟨hleak, rfl⟩))]
    exact hlarge

/-- **What a numeral costs.**  On every reachable heap whose end does not wrap around, for every
64-bit value and base 10 or 16: after `itoa` and `kfree` of the numeral, in use is what the clients
hold, whatever they do from there on, and, exactly if the value is not zero and the allocator split
a block for it, the rest of that block.  The rest is larger than 256 bytes, nobody holds it, and
nobody ever will. -/
theorem itoa_leaks (hs : Reachable base mmap s) (hradix : radix = 10 ∨ radix = 16)
    (hvalue : value < 18446744073709551616)
    (hend : ∀ fuel p k₁, kmalloc (kernelSpace mmap) fuel (itoaSize value) s.kernel = some (p, k₁) →
      EndOk s.kernel k₁) :
    ∃ p k₁ k₂,
      Yields (fun n => (itoa (kernelSpace mmap) n value radix s.kernel).result) (p, k₁) ∧
      Yields (fun n => kfree (kernelSpace mmap) n p k₁) (.ok, k₂) ∧
      ∀ ops t, ClientRun mmap { s with kernel := k₂ } ops t →
        (∀ q, InUseAt t.kernel q ↔ q ∈ t.live ∨ (value ≠ 0 ∧ Splits s.kernel) ∧ q = p + 52) ∧
        (value ≠ 0 ∧ Splits s.kernel →
          p + 52 ∉ t.live ∧ 256 < recordedSize t.kernel (p + 52)) := by
  obtain ⟨bs, h⟩ := hs.inv
  obtain ⟨p, k₁, k₂, bs₂, hitoa, hkfree, hheap, hin, hleak⟩ := h.itoa_kfree hradix hvalue hend
  refine ⟨p, k₁, k₂, hitoa, hkfree, fun ops t hrun => ?_⟩
  obtain ⟨hinUse, hlost⟩ := HeapInv.inUseAt_of_run (s := { s with kernel := k₂ }) hheap h.nodup
    (fun q hq => (hin q).mpr (Or.inl hq)) hrun
  -- what was in use without being held
  have hiff : ∀ q, InUseAt k₂ q ∧ q ∉ s.live ↔ (value ≠ 0 ∧ Splits s.kernel) ∧ q = p + 52 := by
    intro q
    rw [hin]
    constructor
    · rintro ⟨hq, hnot⟩
      exact hq.resolve_left hnot
    · rintro ⟨hcase, rfl⟩
      exact ⟨Or.inr ⟨hcase, rfl⟩, (hleak hcase).1⟩
  refine ⟨fun q => (hinUse q).trans (or_congr_right (hiff q)), fun hcase => ?_⟩
  obtain ⟨hinUse', hnot⟩ := (hiff (p + 52)).mpr ⟨hcase, rfl⟩
  obtain ⟨hnot', hsize⟩ := hlost _ hinUse' hnot
  refine ⟨hnot', ?_⟩
  rw [hsize]
  exact (hleak hcase).2

theorem itoa_leaks_threeLive :
    ∃ p k₁ k₂,
      Yields (fun n => (itoa (kernelSpace mapAll) n 48879 16 threeLive.kernel).result) (p, k₁) ∧
      Yields (fun n => kfree (kernelSpace mapAll) n p k₁) (.ok, k₂) ∧
      InUseAt k₂ (p + 52) ∧ p + 52 ∉ threeLive.live := by
  have hreach : Reachable kernelHeap mapAll threeLive := reachable_historyOf _ _ _
  have hcall : ((kmalloc (kernelSpace mapAll) 8 (itoaSize 48879) threeLive.kernel).map fun r =>
      decide (EndOk threeLive.kernel r.2)) = some true := by decide +kernel
  have hwalk : ((walk threeLive.kernel.mem 8 threeLive.kernel.firstBlk).map fun hs =>
      decide (∃ h ∈ hs, h.Fits 32 ∧ (∀ g ∈ hs, g.Fits 32 → h.addr ≤ g.addr) ∧
        256 + 32 + sizeofMallocH < h.size)) = some true := by decide +kernel
  obtain ⟨r, hr, hend⟩ := Option.map_eq_some_iff.mp hcall
  obtain ⟨hs, hhs, hsplit⟩ := Option.map_eq_some_iff.mp hwalk
  obtain ⟨h, hmem, hfit, hlow, hlarge⟩ := of_decide_eq_true hsplit
  have hleak : (48879 : ℕ) ≠ 0 ∧ Splits threeLive.kernel :=
    ⟨by decide, _, hs, h, hhs, hmem, hfit, hlow, hlarge⟩
  obtain ⟨p, k₁, k₂, hitoa, hkfree, hruns⟩ := itoa_leaks hreach (Or.inr rfl)
    (show 48879 < 18446744073709551616 by decide) (endOk_of_kmalloc hr (of_decide_eq_true hend))
  obtain ⟨hinUse, hlost⟩ := hruns [] { threeLive with kernel := k₂ } .nil
  dsimp only at hinUse hlost
  exact ⟨p, k₁, k₂, hitoa, hkfree, (hinUse _).mpr (Or.inr ⟨hleak, rfl⟩), (hlost hleak).1⟩

end PakOS
