import PakOS.PhyMM.Region
import PakOS.VirtMM.HeapPages
import PakOS.VirtMM.OwnFrames

/-!
# The heap on the machine

Boot code, frame allocator, paging and heap together.  `init_phymm` takes its frames from the memory
map, `mmap` takes frames for pages and page tables from it, and the heap takes pages from `mmap`; no
part looks whether the one below has anything left.  `boot_heap` says how far this goes: as long as
the heap has fewer pages than the pool had frames, every page of the heap is backed by memory of the
region that the map declares usable, and by no memory that is used for anything else.
-/

namespace PakOS

open Machine VirtMM FramePool

/-- The heap has `size` bytes, the pages of which are owned, and the pages below are translated as
`lower` says.  The pool began as `phy`, and of its frames no more than the pages of the heap and one
page table have been taken. -/
structure OnFrames (phy : PhyMM) (lower : ℕ → Option ℕ) (size : ℕ) (v : VirtMM PhyMM) (g : Gap) :
    Prop where
  /-- The pages of the heap. -/
  owns : Owns prudent v (pageRange heapPage (size / 4096))
  /-- The pages below it. -/
  lower : ∀ p < heapPage, v.translate p = lower p
  /-- The frames that are left. -/
  stocked : Stocked g v.pool
  /-- Several frames at once have been taken. -/
  lo_pos : 1 ≤ g.lo
  /-- Their number. -/
  count : g.lo + phy.hwasSsize ≤ g.hi + size / 4096 + 1
  /-- The pool is still where it was. -/
  same : PhyMM.SamePool phy v.pool
  /-- The frames of the heap are frames of the pool. -/
  frames : ∀ p ∈ pageRange heapPage (size / 4096), ∃ i < phy.hwasSsize,
    v.translate p = some (phy.hwaMmstart / 4096 + i)

/-- The provider of a heap of `size` bytes. -/
def HeapOnFrames (phy : PhyMM) (lower : ℕ → Option ℕ) (size : ℕ) (os : Option (VirtMM PhyMM)) : Prop :=
  0 < size ∧ ∃ v g, os = some v ∧ OnFrames phy lower size v g

/-- A request after which the heap has at most `n` pages. -/
def WithinPages {E : Type*} (n : ℕ) (k : Kernel E) (length : ℕ) : Prop :=
  ¬Serves k length → k.heapSize + growth length ≤ 4096 * n

variable {phy : PhyMM} {lower : ℕ → Option ℕ} {n k : ℕ} {v : VirtMM PhyMM} {g : Gap}

/-- A frame that is free is one of the pool. -/
theorem exists_of_not_inUse {s : PhyMM} {f : ℕ} (hfree : prudent.inUse s f = false) :
    ∃ i < s.hwasSsize, f = s.hwaMmstart / 4096 + i := by
  have hmem : s.hwaMmstart / 4096 ≤ f ∧ f < s.hwaMmstart / 4096 + s.hwasSsize ∧
      s.used (f - s.hwaMmstart / 4096) = false := by
    have hdec : (!decide (s.hwaMmstart / 4096 ≤ f ∧ f < s.hwaMmstart / 4096 + s.hwasSsize ∧
        s.used (f - s.hwaMmstart / 4096) = false)) = false := hfree
    rwa [Bool.not_eq_false', decide_eq_true_eq] at hdec
  exact ⟨f - s.hwaMmstart / 4096, by omega, by omega⟩

/-- Owning pages is a matter of the frames in use only. -/
theorem owns_phyMM {A : Set ℕ} (h : Owns prudent v A) : Owns phyMM v A :=
  ⟨⟨h.sound.selfMapped, h.sound.inUse⟩, h.below, h.frame, h.apart⟩

/-- Pages of one region lack one table at most. -/
theorem missingTables_le_one {P : Type*} (v : VirtMM P) {page d : ℕ}
    (hd : ∀ i < n, (page + i) % 1048576 / 1024 = d) : v.missingTables page n ≤ 1 := by
  refine Finset.card_le_one.mpr fun a ha b hb => ?_
  obtain ⟨i, hi, rfl⟩ := mem_regions.mp (Finset.mem_filter.mp ha).1
  obtain ⟨j, hj, rfl⟩ := mem_regions.mp (Finset.mem_filter.mp hb).1
  rw [hd i hi, hd j hj]

/-! ### Growing the heap -/

/-- The pages of the heap, and the frames that have been taken, after `mmap` of the `k` pages behind
the first `n`. -/
theorem onFrames_mmap (hown : Owns prudent v (pageRange heapPage n))
    (hlower : ∀ p < heapPage, v.translate p = lower p) (hstocked : Stocked g v.pool)
    (hsame : PhyMM.SamePool phy v.pool)
    (hframes : ∀ p ∈ pageRange heapPage n, ∃ i < phy.hwasSsize,
      v.translate p = some (phy.hwaMmstart / 4096 + i))
    (hk : 1 ≤ k) (hnk : n + k ≤ 128) (hroom : PhyMM.Room g k) (hlo : 1 ≤ (g.take k).lo)
    (htables : (g.take k).lo + v.missingTables (heapPage + n) k ≤ (g.take k).hi)
    (hcount : (g.take k).lo + phy.hwasSsize + v.missingTables (heapPage + n) k ≤
      (g.take k).hi + (n + k) + 1) :
    HeapOnFrames phy lower (4096 * (n + k))
      (pagedMmap phyMM (kheapStart + 4096 * n) (4096 * k) (some v)).2 := by
  have hheap : heapPage = 832 * 1024 := by decide
  have hpages : pageCount (4096 * k) = k := by unfold pageCount; omega
  have haddr : kheapStart + 4096 * n = 4096 * (heapPage + n) := by
    unfold kheapStart
    omega
  obtain ⟨hsup, v', hmmap, hmmap', hsame', hstocked'⟩ :=
    hown.sound.mmap_stocked hstocked hk (by omega) hroom hlo htables
  have hlen : 4096 * k < 4294967296 := by omega
  have hend : heapPage + n + pageCount (4096 * k) ≤ 1047552 := by omega
  obtain ⟨v₁, a, hmmap₁, hmaps, hown', -⟩ := hown.mmap_spec prudent_lawful hlen (by omega) hend
    (by rwa [hpages]) (by rw [hpages]; exact pageRange_disjoint heapPage n k)
  obtain ⟨-, rfl⟩ := Prod.mk.inj (Option.some.inj (hmmap₁.symm.trans hmmap'))
  rw [hpages] at hmaps
  rw [hpages, pageRange_union] at hown'
  have hdiv : 4096 * (n + k) / 4096 = n + k := Nat.mul_div_cancel_left _ (by decide)
  refine ⟨by omega, v₁, ⟨(g.take k).lo, (g.take k).hi - v.missingTables (heapPage + n) k⟩, ?_,
    by rwa [hdiv], fun p hp => ?_, hstocked', hlo, ?_, hsame.trans hsame', ?_⟩
  · rw [haddr, pagedMmap, Option.bind_some, hmmap]
  · rw [hmaps.kept p (by omega) fun i hi => spares_below hp (by omega) (by omega), hlower p hp]
  · rw [hdiv]
    simp only
    omega
  · rw [hdiv, ← pageRange_union]
    rintro p (hp | ⟨hlo, hhi⟩)
    · -- a page that was there keeps its frame
      rw [hmaps.kept p (by have := hp.2; omega)
        (hown.spares hp (by omega) (pageRange_disjoint heapPage n k))]
      exact hframes p hp
    · obtain ⟨i, rfl⟩ := Nat.exists_eq_add_of_le hlo
      obtain ⟨j, hj, hfj⟩ := exists_of_not_inUse (hmaps.free i (by omega))
      rw [hsame.ssize] at hj
      rw [hsame.mmstart] at hfj
      exact ⟨j, hj, by rw [hmaps.mapped i (by omega), hfj]⟩

/-- Requests after which the heap has fewer pages than the pool had frames keep the heap on its
frames. -/
theorem keepsProvider_heapOnFrames (lower : ℕ → Option ℕ) (hn : n + 1 ≤ phy.hwasSsize)
    (hsize : phy.hwasSsize ≤ 128) :
    KeepsProvider (pagedMmap phyMM) (HeapOnFrames phy lower) (WithinPages n) := by
  refine ⟨fun k length hg hover => ?_, fun k length hg hserves hdvd hfits hI => ?_⟩
  · have hle := hg hover.1
    have hlt := hover.2
    unfold kheapMaxSize at hlt
    omega
  obtain ⟨hpos, v, g, hos, h⟩ := hI
  obtain ⟨i, hi⟩ := hdvd
  obtain ⟨j, hj⟩ : ∃ j, growth length = 4096 * j := ⟨_, Nat.mul_comm _ 4096⟩
  have hjpos : 0 < growth length := by unfold growth; omega
  have hle := hg hserves
  have hdiv : 4096 * i / 4096 = i := Nat.mul_div_cancel_left i (by decide)
  have hheap : heapPage = 832 * 1024 := by decide
  have hown := h.owns
  have hframes := h.frames
  have hcount := h.count
  have hlo := h.lo_pos
  have hgap := h.stocked.le
  rw [hi] at hpos hle hown hframes hcount ⊢
  rw [hdiv] at hown hframes hcount
  rw [hj] at hjpos hle ⊢
  -- the table of the heap is there, since its first page is mapped
  obtain ⟨f, hf, -⟩ := hown.frame heapPage ⟨le_rfl, by omega⟩
  have hpres : Present (v.pde 832) := by
    have htable := VirtMM.present_of_translate hf
    rwa [hheap] at htable
  have hmissing : v.missingTables (heapPage + i) j = 0 := missingTables_eq_zero fun e he => by
    rwa [show (heapPage + i + e) % 1048576 / 1024 = 832 by omega]
  have hroom : g.lo + j ≤ g.hi := by omega
  have hleft := (Gap.take_lo_add (m := phy.hwasSsize - (i + j + 1)) hroom).mpr (by omega)
  obtain ⟨hlo', hle', -⟩ := Gap.take_le hroom
  rw [hos, ← Nat.mul_add]
  exact onFrames_mmap hown h.lower h.stocked h.same hframes (by omega) (by omega)
    ⟨hroom, by omega⟩ (by omega) (by rw [hmissing]; exact hle') (by rw [hmissing]; omega)

/-! ### From the start -/

section Boot

variable {kernelEnd addr len fuel p : ℕ} {m : Mem}

/-- The entry of the memory map from which the frames are taken suits the kernel: it is aligned, and
holds the image, a page, and the frames, of which there are whole bytes of the bitmap, below 4G. -/
structure Suits (kernelEnd base length : ℕ) (phy : PhyMM) : Prop where
  /-- The region begins with a page. -/
  aligned : 4096 ∣ base
  /-- It holds the image and a page. -/
  image : PhyMM.kernelSize kernelEnd ≤ length
  /-- The frames lie below 4G. -/
  below : base + PhyMM.kernelSize kernelEnd + 4096 * phy.hwasSsize ≤ 4294967296
  /-- There are some. -/
  pos : 0 < phy.hwasSsize
  /-- Each has a bit that is cleared. -/
  bitmap : 8 ∣ phy.hwasSsize

/-- The pool that `init_phymm` leaves. -/
theorem stocked_init (hend : 4096 ∣ kernelEnd) (hlow : 0xc0100000 ≤ kernelEnd)
    (hhigh : kernelEnd < 4294967296) (hp : PhyMM.Chosen kernelEnd addr len fuel m p)
    (hphy : PhyMM.initPhymm kernelEnd addr len fuel m = some (.ok, phy))
    (hsuits : Suits kernelEnd (PhyMM.entryBase m p) (PhyMM.entryLength m p) phy) :
    phy.hwaMmstart = PhyMM.entryBase m p + PhyMM.kernelSize kernelEnd ∧
      Stocked ⟨0, phy.hwasSsize⟩ phy := by
  obtain ⟨halign, -, hbelow, hpos, hdvd⟩ := hsuits
  have hbase : 0x100000 ≤ PhyMM.entryBase m p := hp.2.1
  have hsize := PhyMM.kernelSize_eq hlow hhigh
  have hmm : phy.hwaMmstart =
      add32 (PhyMM.entryBase m p % 4294967296) (PhyMM.kernelSize kernelEnd) := by
    obtain ⟨-, rfl⟩ := Prod.mk.inj (Option.some.inj (hp.initPhymm_eq.symm.trans hphy))
    rfl
  rw [Nat.mod_eq_of_lt (by omega), add32_of_lt (by omega)] at hmm
  have hslots := PhyMM.initPhymm_slots hend hhigh hphy (by omega) (by omega)
  refine ⟨hmm, (PhyMM.initPhymm_layout hphy).twoEnded hend (by omega) hhigh hslots hdvd, by omega, ?_⟩
  omega

/-- The frames of the pool are memory that nobody else uses. -/
theorem frameInRam_init (hend : 4096 ∣ kernelEnd) (hlow : 0xc0100000 ≤ kernelEnd)
    (hhigh : kernelEnd < 4294967296) (hp : PhyMM.Chosen kernelEnd addr len fuel m p)
    (hphy : PhyMM.initPhymm kernelEnd addr len fuel m = some (.ok, phy))
    (hsuits : Suits kernelEnd (PhyMM.entryBase m p) (PhyMM.entryLength m p) phy) {i : ℕ}
    (hi : i < phy.hwasSsize) :
    PhyMM.FrameInRam kernelEnd (PhyMM.entryBase m p) (PhyMM.entryLength m p) phy
      (4096 * (phy.hwaMmstart / 4096 + i)) := by
  obtain ⟨hmm, hstocked⟩ := stocked_init hend hlow hhigh hp hphy hsuits
  obtain ⟨b, hb⟩ := hstocked.aligned
  have hfit : phy.hwasSsize =
      min (PhyMM.framesFit kernelEnd (PhyMM.entryLength m p)) 128 := by
    obtain ⟨-, rfl⟩ := Prod.mk.inj (Option.some.inj (hp.initPhymm_eq.symm.trans hphy))
    exact PhyMM.poolSize_eq kernelEnd (PhyMM.entryLength m p)
  have hlen := hsuits.image
  have hbelow := hsuits.below
  rw [PhyMM.framesFit_of_le hlen (loadLE_lt 8 m (p + 12))] at hfit
  refine PhyMM.frameInRam_of_le (PhyMM.initPhymm_layout hphy) hend hlow hhigh hp.2.1 ?_ ?_ ?_ <;>
    omega

variable {img : BootImage} {pool₀ : PhyMM} {mem : PhysMem} {v₀ : VirtMM PhyMM}
  {k₀ k : Kernel (Option (VirtMM PhyMM))} {fuel' : ℕ} {st : Status}
  {s : History (Option (VirtMM PhyMM))}

/-- **The heap on the machine.**  After the boot code, a successful `init_phymm` on a memory map whose
first usable region suits the kernel, and `init_kmalloc`, and after every run of calls of `kmalloc`,
`kcalloc`, `krealloc` and `kfree` that leaves the heap fewer pages than the pool had frames: every page
of the heap has a frame of its own, in memory that the map declares usable and nobody else uses; every
byte of every allocation lies in these pages; and the pages below the heap are translated as the boot
code left them. -/
theorem boot_heap (hend : 4096 ∣ kernelEnd) (hlow : 0xc0100000 ≤ kernelEnd)
    (hhigh : kernelEnd < 4294967296) (hp : PhyMM.Chosen kernelEnd addr len fuel m p)
    (hphy : PhyMM.initPhymm kernelEnd addr len fuel m = some (.ok, phy))
    (hsuits : Suits kernelEnd (PhyMM.entryBase m p) (PhyMM.entryLength m p) phy)
    (himg : ∀ f ∈ [img.pdeFrame, img.pte768Frame], 4096 * f < PhyMM.kernelPhysical kernelEnd)
    (hblank : img.Blank mem) (hboot : Yields (img.start pool₀ mem) v₀)
    (hos : k₀.os = some { v₀ with pool := phy }) (hfirst : k₀.firstBlk = 0)
    (hinit : initKmalloc (kernelSpace (pagedMmap phyMM)) fuel' kheapStart 0 k₀ = some (st, k))
    (hrun : Relation.ReflTransGen
      (HeapCall (pagedMmap phyMM) (WithinPages (phy.hwasSsize - 1))) (kernelHeap.history k) s) :
    ∃ v, s.kernel.os = some v ∧ Owns phyMM v (pageRange heapPage (s.kernel.heapSize / 4096)) ∧
      (∀ q ∈ pageRange heapPage (s.kernel.heapSize / 4096), ∃ f, v.translate q = some f ∧
        PhyMM.FrameInRam kernelEnd (PhyMM.entryBase m p) (PhyMM.entryLength m p) phy (4096 * f)) ∧
      (∀ ptr ∈ s.live, ∀ i < getField s.kernel.mem (headerOf ptr) .size,
        (ptr + i) / 4096 ∈ pageRange heapPage (s.kernel.heapSize / 4096)) ∧
      ∀ q < heapPage, v.translate q = img.pageMap q := by
  obtain ⟨hmm, hstocked⟩ := stocked_init hend hlow hhigh hp hphy hsuits
  have hsize := PhyMM.kernelSize_eq hlow hhigh
  have hbase : 0x100000 ≤ PhyMM.entryBase m p := hp.2.1
  have hpos := hsuits.pos
  obtain ⟨c, hc⟩ := hsuits.bitmap
  have hcap := hstocked.pool.size_le
  obtain ⟨N, hN⟩ := hboot.exists_run
  obtain rfl : v₀ = img.booted pool₀ mem := (BootImage.start_yields hblank).unique N v₀ hN
  have hheap : heapPage = 832 * 1024 := by decide
  -- the tables of the boot code are no frames of the pool
  have huse : ∀ f ∈ [img.pdeFrame, img.pte768Frame], prudent.inUse phy f = true := by
    intro f hf
    have hlt := himg f hf
    rw [← Bool.not_eq_false]
    intro hfree
    obtain ⟨i, -, hi⟩ := exists_of_not_inUse hfree
    unfold PhyMM.kernelPhysical at hlt
    omega
  have hnone : pageRange heapPage 0 = ∅ := pageRange_zero heapPage
  have hmissing : (img.booted phy mem).missingTables (heapPage + 0) 3 ≤ 1 :=
    missingTables_le_one (img.booted phy mem) fun i hi =>
      show (heapPage + 0 + i) % 1048576 / 1024 = 832 by omega
  have hI : HeapOnFrames phy img.pageMap 12288 (pagedMmap phyMM kheapStart 12288 k₀.os).2 := by
    have hbooted : { img.booted pool₀ mem with pool := phy } = img.booted phy mem := rfl
    rw [hos, hbooted]
    refine onFrames_mmap (n := 0) (k := 3) (g := ⟨0, phy.hwasSsize⟩) (owns_booted hblank huse)
      (fun q hq => BootImage.pageWalk_bootMem hblank (by omega)) hstocked (.refl phy) ?_ (by decide)
      (by decide) ⟨?_, ?_⟩ ?_ ?_ ?_
    · rw [hnone]
      exact fun q hq => absurd hq id
    all_goals
      simp only [Gap.take_of_ne_one (show 3 ≠ 1 by decide)]
      omega
  obtain ⟨bs, h⟩ := (providerInv_init hfirst hinit hI).run
    (keepsProvider_heapOnFrames img.pageMap (by omega) hcap) hrun
  obtain ⟨-, v, g, hv, hon⟩ := h.provider
  refine ⟨v, hv, owns_phyMM hon.owns, fun q hq => ?_, fun ptr hptr i hi => h.mem_heapPages hptr hi,
    hon.lower⟩
  obtain ⟨i, hi, hf⟩ := hon.frames q hq
  exact ⟨_, hf, frameInRam_init hend hlow hhigh hp hphy hsuits hi⟩

end Boot

/-- A kernel that has not allocated yet, with the pages of the boot code and a frame allocator. -/
def bootedKernel (phy : PhyMM) : Kernel (Option (VirtMM PhyMM)) where
  mem := fun _ => 0
  firstBlk := 0
  heapStart := 0
  heapSize := 0
  minHeapSize := 0
  vgaCursorR := 0
  vgaCursorC := 0
  serial := []
  os := some (smallImage.booted phy fun _ _ => 0)

/-- The memory of the emulated machine suits a kernel that ends at `0xc0110000`. -/
theorem suits_pc : ∃ phy, PhyMM.initPhymm 0xc0110000 0x10000 48 2 PhyMM.pcMmap = some (.ok, phy) ∧
    Suits 0xc0110000 (PhyMM.entryBase PhyMM.pcMmap 0x10018)
      (PhyMM.entryLength PhyMM.pcMmap 0x10018) phy := by
  have hp : PhyMM.Chosen 0xc0110000 0x10000 48 2 PhyMM.pcMmap 0x10018 := by decide +kernel
  have hbase : PhyMM.entryBase PhyMM.pcMmap 0x10018 = 0x100000 := by decide +kernel
  have hlength : PhyMM.entryLength PhyMM.pcMmap 0x10018 = 0x7ee0000 := by decide +kernel
  have hinit := hp.initPhymm_eq
  have hsize : (PhyMM.usePool 0xc0110000 (PhyMM.entryBase PhyMM.pcMmap 0x10018)
      (PhyMM.entryLength PhyMM.pcMmap 0x10018)
      (PhyMM.beforeInit 0xc0110000 PhyMM.pcMmap)).hwasSsize = 128 := by decide +kernel
  generalize PhyMM.usePool 0xc0110000 (PhyMM.entryBase PhyMM.pcMmap 0x10018)
    (PhyMM.entryLength PhyMM.pcMmap 0x10018) (PhyMM.beforeInit 0xc0110000 PhyMM.pcMmap) = phy at *
  refine ⟨phy, hinit, ?_⟩
  rw [hbase, hlength]
  have hkernel : PhyMM.kernelSize 0xc0110000 = 0x11000 := by decide
  exact ⟨by decide, by rw [hkernel]; decide, by rw [hkernel, hsize]; decide, by omega, by omega⟩

/-- A first allocation of 100 bytes. -/
theorem boot_heap_pc : ∃ (s : History (Option (VirtMM PhyMM))) (v : VirtMM PhyMM),
    s.live ≠ [] ∧ s.kernel.os = some v ∧
      Owns phyMM v (pageRange heapPage (s.kernel.heapSize / 4096)) := by
  obtain ⟨phy, hphy, hsuits⟩ := suits_pc
  have hp : PhyMM.Chosen 0xc0110000 0x10000 48 2 PhyMM.pcMmap 0x10018 := by decide +kernel
  have hblank : smallImage.Blank fun _ _ => 0 := fun _ _ _ _ => rfl
  have himg : ∀ f ∈ [smallImage.pdeFrame, smallImage.pte768Frame],
      4096 * f < PhyMM.kernelPhysical 0xc0110000 := by decide
  obtain ⟨k, hinit⟩ := exists_initKmalloc kernelHeap (pagedMmap phyMM) (k := bootedKernel phy) rfl
  obtain ⟨-, hstart, hheap, -, hinv⟩ := initKmalloc_spec rfl hinit
  -- the block that is there after `init_kmalloc` serves the request
  have hserves : Serves k 100 :=
    hinv.serves_iff.mpr ⟨_, List.mem_cons_self, rfl, by decide⟩
  obtain ⟨fuel, q, k', hk⟩ := exists_kmalloc (pagedMmap phyMM) hinv 100
  have hne := kmalloc_ne_null hinv hk
  have hrun : Relation.ReflTransGen (HeapCall (pagedMmap phyMM) (WithinPages (phy.hwasSsize - 1)))
      (kernelHeap.history k) ((kernelHeap.history k).handOut q k') :=
    .single (.kmalloc hk fun h => absurd hserves h)
  have hboot : Yields (smallImage.start phy fun _ _ => 0) (smallImage.booted phy fun _ _ => 0) :=
    BootImage.start_yields hblank
  have hos : (bootedKernel phy).os = some { smallImage.booted phy fun _ _ => 0 with pool := phy } :=
    rfl
  obtain ⟨v, hv, hown, -⟩ := boot_heap (by decide) (by decide) (by decide) hp hphy hsuits himg
    hblank hboot hos rfl hinit hrun
  refine ⟨_, v, ?_, hv, hown⟩
  rw [History.handOut, if_neg hne]
  exact List.cons_ne_nil _ _

end PakOS
