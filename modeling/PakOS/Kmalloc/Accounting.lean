import PakOS.Kmalloc.Integrity

/-!
# Accounting for the bytes of the heap

A block uses its payload and 20 bytes of header.  Taking a block and growing the heap keep the sum
over the block list in step with `_heap_size`; every merge of `kfree` adds two payload sizes and
forgets the header between them.  `Layout.Lost l n` says that `n` headers are missing from the sum.
Steps never find a lost header again (`Layout.Step.lost`), and `init_kmalloc` itself merges once, so
every reachable heap is short of `_heap_size` (`not_conserved`).
-/

namespace PakOS

open Machine Coalesce

variable {E : Type*} {base : HeapBase} {mmap : Mmap E}

/-- The bytes a block list accounts for. -/
def total (bs : List Block) : ℕ := (bs.map fun b => 20 + b.size).sum

@[simp] theorem total_nil : total [] = 0 := rfl

@[simp] theorem total_cons (b : Block) (bs : List Block) :
    total (b :: bs) = 20 + b.size + total bs := rfl

@[simp] theorem total_append (xs ys : List Block) : total (xs ++ ys) = total xs + total ys := by
  simp [total]

/-- The headers on the walk account for the same bytes. -/
theorem sum_headersFrom (prev : ℕ) (bs : List Block) :
    ((headersFrom prev bs).map fun h => sizeofMallocH + h.size).sum = total bs := by
  induction bs generalizing prev with
  | nil => rfl
  | cons b bs ih =>
    rw [headersFrom, List.map_cons, List.sum_cons, ih, total_cons]
    rfl

/-! ### What the abstract steps do to the sum -/

/-- Taking a block accounts for the same bytes, split or not. -/
theorem total_takeBlock {length : ℕ} {b : Block} : total (takeBlock length b) = 20 + b.size := by
  unfold takeBlock
  split
  · simp only [total_cons, total_nil]
    omega
  · simp

/-- Coalescing loses a header for every merge. -/
theorem total_coalesce (bs : List Block) :
    ∃ n, total (coalesce Block.free Block.merge bs) + 20 * n = total bs := by
  induction bs with
  | nil => exact ⟨0, rfl⟩
  | cons b bs ih =>
    obtain ⟨n, hn⟩ := ih
    rw [coalesce_cons, total_cons, ← hn]
    cases coalesce Block.free Block.merge bs with
    | nil => exact ⟨n, by simp [join]⟩
    | cons c cs =>
      by_cases hbc : b.free && c.free
      · refine ⟨n + 1, ?_⟩
        rw [join, if_pos hbc]
        simp only [total_cons, Block.merge]
        omega
      · refine ⟨n, ?_⟩
        rw [join, if_neg hbc]
        simp only [total_cons]
        omega

/-- Releasing a block loses a header for every merge. -/
theorem total_releaseBlock (a : ℕ) (bs : List Block) :
    ∃ n, total (releaseBlock a bs) + 20 * n = total bs := by
  have hopen : total (markAt Block.addr Block.released a bs) = total bs := by
    rw [total, total, markAt, List.map_map]
    congr 1
    refine List.map_congr_left fun b _ => ?_
    simp only [Function.comp_apply]
    split <;> rfl
  rw [← hopen]
  exact total_coalesce _

/-- `n` headers are missing from the sum over the blocks. -/
def Layout.Lost (l : Layout) (n : ℕ) : Prop := total l.blocks + 20 * n = l.size

/-- A step keeps the lost headers lost. -/
theorem Layout.Step.lost {l l' : Layout} {n : ℕ} (h : Layout.Step l l') (hn : l.Lost n) :
    ∃ n', n ≤ n' ∧ l'.Lost n' := by
  unfold Layout.Lost at *
  cases h with
  | take hb =>
    refine ⟨n, le_rfl, ?_⟩
    simp only [total_append, total_cons, total_takeBlock] at hn ⊢
    omega
  | grow hnbytes =>
    refine ⟨n, le_rfl, ?_⟩
    simp only [total_append, total_cons, total_nil] at hn ⊢
    omega
  | @release start size bs b _ _ =>
    obtain ⟨m, hm⟩ := total_releaseBlock b.addr bs
    refine ⟨n + m, Nat.le_add_right n m, ?_⟩
    simp only at hn ⊢
    omega

/-- A run keeps the lost headers lost. -/
theorem Layout.Run.lost {l l' : Layout} {n : ℕ} (h : Layout.Run l l') (hn : l.Lost n) :
    ∃ n', n ≤ n' ∧ l'.Lost n' := by
  induction h with
  | refl => exact ⟨n, le_rfl, hn⟩
  | tail _ hstep ih =>
    obtain ⟨n₁, hle₁, hn₁⟩ := ih
    obtain ⟨n₂, hle₂, hn₂⟩ := hstep.lost hn₁
    exact ⟨n₂, hle₁.trans hle₂, hn₂⟩

/-! ### Reachable heaps -/

/-- Every byte of the heap is accounted for by a block on the list. -/
def Conserved (s : History E) : Prop :=
  ∃ fuel hs, walk s.kernel.mem fuel s.kernel.firstBlk = some hs ∧
    (hs.map fun h => sizeofMallocH + h.size).sum = s.kernel.heapSize

/-- In every reachable heap at least one header is missing. -/
theorem exists_lost {s : History E} (hs : Reachable base mmap s) :
    ∃ bs n, HistoryInv s bs ∧ 0 < n ∧ total bs + 20 * n = s.kernel.heapSize := by
  obtain ⟨bs, hinv, hrun⟩ := hs.refines
  have hle := base.le_grow
  obtain ⟨n, hpos, hn⟩ := Layout.Run.lost hrun (n := 1) (by
    simp only [Layout.Lost, total_cons, total_nil]
    omega)
  exact ⟨bs, n, hinv, hpos, hn⟩

/-- **The heap is never fully accounted for.** -/
theorem not_conserved {s : History E} (hs : Reachable base mmap s) : ¬Conserved s := by
  obtain ⟨bs, n, hinv, hpos, hn⟩ := exists_lost hs
  rintro ⟨fuel, hdrs, hwalk, hsum⟩
  have heq := eq_of_walk hwalk (hinv.heap.walk_eq (Nat.lt_succ_self _))
  rw [heq, sum_headersFrom] at hsum
  omega

theorem not_conserved_threeLive : ¬Conserved threeLive :=
  not_conserved (reachable_historyOf _ _ _)

/-- Already the heap that `init_kmalloc` leaves behind has one header less than bytes. -/
theorem freshHeap_not_conserved : ¬Conserved freshHeap := by
  rintro ⟨fuel, hs, hwalk, hsum⟩
  have hblock : walk freshHeap.kernel.mem 2 freshHeap.kernel.firstBlk =
      some [⟨0xd0000000, 1, 0, 0, 12248⟩] := by decide +kernel
  have hsize : freshHeap.kernel.heapSize = 12288 := by decide +kernel
  rw [eq_of_walk hwalk hblock, hsize] at hsum
  exact absurd hsum (by decide)

end PakOS
