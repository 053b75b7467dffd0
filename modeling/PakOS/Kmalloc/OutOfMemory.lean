import PakOS.Kmalloc.Integrity

/-!
# A refused mapping

`__new_blockspace` calls `mmap` and does not look at the status it returns; what it tests is the
address it computed itself.  So a request that no block fits grows the heap whether or not the pages
behind the new block exist, and the first request of all installs a first block either way
(`outOfMem_swallowed`).
-/

namespace PakOS

open Machine Coalesce

variable {E : Type*} {mmap : Mmap E}

/-- `mmap` refuses what `__new_blockspace` asks for to serve `size` bytes. -/
def Refused (mmap : Mmap E) (k : Kernel E) (size : ℕ) : Prop :=
  (mmap (add32 k.heapStart k.heapSize) (growBytes size) k.os).1 ≠ .ok

instance (mmap : Mmap E) (k : Kernel E) (size : ℕ) : Decidable (Refused mmap k size) := by
  unfold Refused
  infer_instance

/-- No header on the list serves a request. -/
def NoneFits (k : Kernel E) (length : ℕ) : Prop :=
  ∃ fuel hs, walk k.mem fuel k.firstBlk = some hs ∧
    ∀ h ∈ hs, ¬(h.free = mblkFree ∧ h.size ≥ align16 length)

/-- `kmalloc(length)` ends with `NULL` and an unchanged list. -/
def KmallocReports (mmap : Mmap E) (k : Kernel E) (length : ℕ) : Prop :=
  ∃ fuel k', kmalloc (kernelSpace mmap) fuel length k = some (0, k') ∧ SameList k k'

/-- `krealloc(ptr, length)` ends with `NULL` and an unchanged list. -/
def KreallocReports (mmap : Mmap E) (k : Kernel E) (ptr length : ℕ) : Prop :=
  ∃ fuel k', krealloc (kernelSpace mmap) fuel ptr length k = some (0, k') ∧ SameList k k'

theorem newBlockspace_firstBlk (k : Kernel E) (last size : ℕ) :
    (newBlockspace (kernelSpace mmap) last size k).2.firstBlk = k.firstBlk := by
  unfold newBlockspace kernelSpace
  simp only
  split <;> rfl

/-- `kmalloc` never moves a first block that is there. -/
theorem kmalloc_firstBlk {k k' : Kernel E} {fuel length p : ℕ} (hfirst : k.firstBlk ≠ 0)
    (hk : kmalloc (kernelSpace mmap) fuel length k = some (p, k')) : k'.firstBlk = k.firstBlk := by
  cases fuel with
  | zero => simp [kmalloc] at hk
  | succ fuel =>
    rw [kmalloc] at hk
    simp only [if_neg hfirst] at hk
    cases hfind : findFreeBlock k.mem (align16 length) fuel k.firstBlk k.firstBlk with
    | none => simp [hfind] at hk
    | some r =>
      obtain ⟨found, last⟩ := r
      simp only [hfind, Option.some.injEq, Prod.mk.injEq] at hk
      rw [← hk.2]
      simp only
      split
      · exact newBlockspace_firstBlk k last _
      · split <;> rfl

/-- When no header serves a request, no block of the list fits. -/
theorem HeapInv.not_fits {k : Kernel E} {bs : List Block} (h : HeapInv k bs) {length : ℕ}
    (hnone : NoneFits k length) : ∀ c ∈ bs, ¬Fits (align16 length) c := by
  obtain ⟨fuel, hs, hwalk, hhs⟩ := hnone
  obtain rfl := eq_of_walk hwalk (h.walk_eq (Nat.lt_succ_self _))
  intro c hc hfit
  obtain ⟨x, hx, -, hfree, hsize⟩ := exists_mem_headersFrom 0 hc
  refine hhs x hx ⟨?_, ?_⟩
  · rw [hfree, Block.flag, if_pos hfit.1]
  · rw [hsize]
    exact hfit.2

/-- `krealloc` of a block in use that is too small never returns `NULL`. -/
theorem HeapInv.krealloc_ne_null {k k' : Kernel E} {bs : List Block} {b : Block} {fuel size q : ℕ}
    (h : HeapInv k bs) (hb : b ∈ bs)
    (hk : krealloc (kernelSpace mmap) fuel (b.addr + 20) size k = some (q, k')) : q ≠ 0 := by
  have hnode := h.rep.nodes b hb
  unfold krealloc at hk
  rw [if_neg (by omega), h.headerOf_eq hb] at hk
  simp only [if_neg (not_not.mpr hnode.valid), hnode.size] at hk
  by_cases hsize : b.size ≥ size
  · rw [if_pos hsize] at hk
    simp only [Option.some.injEq, Prod.mk.injEq] at hk
    omega
  rw [if_neg hsize] at hk
  cases hkm : kmalloc (kernelSpace mmap) fuel size k with
  | none => simp [hkm] at hk
  | some r =>
    obtain ⟨newData, k₁⟩ := r
    have hnull := kmalloc_ne_null h hkm
    simp only [hkm, if_neg hnull] at hk
    cases hcopy : reallocCopy b.addr newData (b.addr + 20) fuel 0 k₁.mem with
    | none => simp [hcopy] at hk
    | some m =>
      simp only [hcopy, Option.map_eq_some_iff] at hk
      obtain ⟨r, -, hr⟩ := hk
      simp only [Prod.mk.injEq] at hr
      exact hr.1 ▸ hnull

/-- **Out of memory is swallowed.**  Whenever no block serves a request and `mmap` refuses to back a
new one, `kmalloc` does not report it, on no reachable heap and not on the heap before its first
block; nor does `krealloc` of a live allocation that is too small.  On a heap with blocks `kmalloc`
hands out the block that is not there. -/
theorem outOfMem_swallowed (base : HeapBase) (mmap : Mmap E) (length : ℕ) :
    (∀ s, Reachable base mmap s → NoneFits s.kernel length →
      Refused mmap s.kernel (align16 length) → ¬KmallocReports mmap s.kernel length ∧
        (∃ fuel k, kmalloc (kernelSpace mmap) fuel length s.kernel =
          some (s.kernel.heapStart + s.kernel.heapSize + 20, k)) ∧
        ∀ ptr ∈ s.live, getField s.kernel.mem (headerOf ptr) .size < length →
          ¬KreallocReports mmap s.kernel ptr length) ∧
    ∀ k : Kernel E, k.firstBlk = 0 →
      Refused mmap (base.begin k) (max base.minSize (align16 length)) →
        ¬KmallocReports mmap (base.begin k) length := by
  refine ⟨fun s hs hnone _ => ?_, fun k hfirst _ => ?_⟩
  · obtain ⟨bs, h⟩ := hs.inv
    refine ⟨?_, ?_, fun ptr hptr _ => ?_⟩
    · rintro ⟨fuel, k', hk, -⟩
      exact kmalloc_ne_null h.heap hk rfl
    · exact ⟨_, _, kmalloc_of_not_fits mmap h.heap (h.heap.not_fits hnone) (Nat.lt_succ_self _)⟩
    · rintro ⟨fuel, k', hk, -⟩
      obtain ⟨b, hb, -, rfl⟩ := h.exists_block hptr
      exact h.heap.krealloc_ne_null hb hk rfl
  · -- the first block is installed before the request is looked at
    rintro ⟨fuel, k', hk, hsame, -⟩
    have hempty : (base.begin k).firstBlk = 0 := hfirst
    cases fuel with
    | zero => simp [kmalloc] at hk
    | succ fuel =>
      rw [kmalloc_first hempty rfl base.start_bounds.1 base.start_bounds.2] at hk
      have hne : (firstGrown mmap (base.begin k) (align16 length)).firstBlk ≠ 0 :=
        base.start_bounds.1.ne'
      rw [kmalloc_firstBlk hne hk, hempty] at hsame
      exact hne hsame

/-- A provider of memory that backs only the addresses below `limit`. -/
def mapBelow (limit : ℕ) : Mmap Unit := fun addr length os =>
  (if addr + length ≤ limit then .ok else .outOfMem, os)

/-- A heap that may not grow beyond its first three pages, with one live allocation. -/
def fullHeap : History Unit := historyOf (mapBelow 0xd0003000) [.kmalloc 12000] (by decide +kernel)

theorem outOfMem_swallowed_fullHeap :
    (¬KmallocReports (mapBelow 0xd0003000) fullHeap.kernel 20000 ∧
      ¬KreallocReports (mapBelow 0xd0003000) fullHeap.kernel 0xd0000014 20000) ∧
    ¬KmallocReports (mapBelow 0xd0000000) (kernelHeap.begin bootKernel) 11000 := by
  have hnone : NoneFits fullHeap.kernel 20000 :=
    ⟨2, [⟨0xd0000000, 0, 0, 0, 12248⟩], by decide +kernel, by decide +kernel⟩
  obtain ⟨hkm, -, hkr⟩ := (outOfMem_swallowed kernelHeap (mapBelow 0xd0003000) 20000).1 fullHeap
    (reachable_historyOf _ _ _) hnone (by decide +kernel)
  exact ⟨⟨hkm, hkr 0xd0000014 (by decide +kernel) (by decide +kernel)⟩,
    (outOfMem_swallowed kernelHeap (mapBelow 0xd0000000) 11000).2 bootKernel rfl (by decide +kernel)⟩

/-- `mmap` refuses the pages for 20000 bytes, and `kmalloc` returns an address behind the end of
what is mapped. -/
theorem fullHeap_not_reported :
    Refused (mapBelow 0xd0003000) fullHeap.kernel (align16 20000) ∧
      ¬KmallocReports (mapBelow 0xd0003000) fullHeap.kernel 20000 := by
  refine ⟨by decide +kernel, ?_⟩
  rintro ⟨fuel, k, hk, -⟩
  have hp : (kmalloc (kernelSpace (mapBelow 0xd0003000)) 8 20000 fullHeap.kernel).map Prod.fst =
      some 0xd0003014 := by decide +kernel
  obtain ⟨⟨p, k'⟩, hk', hp⟩ := Option.map_eq_some_iff.mp hp
  have heq := (kmalloc_mono hk (Nat.le_add_right fuel 8)).symm.trans
    (kmalloc_mono hk' (Nat.le_add_left 8 fuel))
  simp only [Option.some.injEq, Prod.mk.injEq] at heq hp
  omega

end PakOS
