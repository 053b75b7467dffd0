import PakOS.Kmalloc.FreeOrder

/-!
# Full coalescing

No two neighbours on the list of a reachable heap are free, and its first header stays at
`_heap_start`: the steps of the abstract allocator keep the address of the first block
(`Layout.Step.head`).  So once everything has been given back, in whatever order, the list is a
single free block at the start of the heap (`heap_coalesced`).
-/

namespace PakOS

open Machine Coalesce

variable {E : Type*} {base : HeapBase} {mmap : Mmap E}

/-- A list of headers that is one free block at `a`. -/
def SingleFree (a : ℕ) (hdrs : List Header) : Prop := ∃ size, hdrs = [⟨a, mblkFree, 0, 0, size⟩]

/-! ### The first block -/

/-- The list of a layout begins at its start. -/
def Layout.Headed (l : Layout) : Prop := l.blocks ≠ [] ∧ headAddr l.blocks = l.start

/-- Taking a block leaves a block at its address. -/
theorem exists_takeBlock (length : ℕ) (b : Block) :
    ∃ c cs, takeBlock length b = c :: cs ∧ c.addr = b.addr := by
  unfold takeBlock
  split
  · exact ⟨_, _, rfl, rfl⟩
  · exact ⟨_, _, rfl, rfl⟩

/-- A step leaves the first block at the start. -/
theorem Layout.Step.head {l l' : Layout} (h : Layout.Step l l') (hl : l.Headed) : l'.Headed := by
  obtain ⟨hne, hhead⟩ := hl
  cases h with
  | @take start size length pre post b hb =>
    obtain ⟨c, cs, htake, haddr⟩ := exists_takeBlock length b
    refine ⟨?_, ?_⟩
    · simp [htake]
    · rw [← hhead, htake]
      cases pre with
      | nil => exact haddr
      | cons d pre => rfl
  | @grow start size nbytes bs hn =>
    refine ⟨by simp, ?_⟩
    rw [← hhead]
    cases bs with
    | nil => exact absurd rfl hne
    | cons b bs => rfl
  | release hb hfree =>
    exact ⟨releaseBlock_ne_nil hne, (headAddr_releaseBlock _ _).trans hhead⟩

/-- A run leaves the first block at the start. -/
theorem Layout.Run.head {l l' : Layout} (h : Layout.Run l l') (hl : l.Headed) : l'.Headed := by
  induction h with
  | refl => exact hl
  | tail _ hstep ih => exact hstep.head ih

/-- The first block of a reachable heap is at its start. -/
theorem Reachable.headed {s : History E} (hs : Reachable base mmap s) :
    ∃ bs, HistoryInv s bs ∧ headAddr bs = s.kernel.heapStart := by
  obtain ⟨bs, hinv, hrun⟩ := hs.refines
  have hhead := Layout.Run.head hrun ⟨List.cons_ne_nil _ _, rfl⟩
  exact ⟨bs, hinv, hhead.2⟩

/-! ### Free neighbours -/

/-- The headers of a coalesced list. -/
theorem isChain_headersFrom {prev : ℕ} {bs : List Block} (h : Coalesced bs) :
    (headersFrom prev bs).IsChain fun x y => ¬(x.free = mblkFree ∧ y.free = mblkFree) := by
  induction bs generalizing prev with
  | nil => exact List.isChain_nil
  | cons b bs ih =>
    cases bs with
    | nil => exact List.isChain_singleton _
    | cons c bs =>
      obtain ⟨hbc, hrest⟩ := List.isChain_cons_cons.mp h
      refine List.isChain_cons_cons.mpr ⟨fun ⟨hb, hc⟩ => ?_, ih hrest⟩
      simp only [Block.flag] at hb hc
      cases hbf : b.free <;> cases hcf : c.free <;> simp_all [mblkFree, mblkInUse]

/-- A coalesced list of free blocks has one block at most. -/
theorem eq_singleton_of_coalesced {bs : List Block} (h : Coalesced bs) (hne : bs ≠ [])
    (hfree : ∀ b ∈ bs, b.free = true) : ∃ b, bs = [b] := by
  cases bs with
  | nil => exact absurd rfl hne
  | cons b bs =>
    cases bs with
    | nil => exact ⟨b, rfl⟩
    | cons c bs =>
      have hbc := (List.isChain_cons_cons.mp h).1
      simp [hfree b, hfree c] at hbc

/-- When nothing is live, the list is a single free block at the start of the heap. -/
theorem HistoryInv.singleFree {s : History E} {bs : List Block} (h : HistoryInv s bs)
    (hhead : headAddr bs = s.kernel.heapStart) (hlive : s.live = []) :
    SingleFree s.kernel.heapStart (headersFrom 0 bs) := by
  have hfree : ∀ b ∈ bs, b.free = true := by
    intro b hb
    by_contra hused
    rw [Bool.not_eq_true] at hused
    have hmem := (h.live _).mpr ⟨b, hb, hused, rfl⟩
    rw [hlive] at hmem
    exact List.not_mem_nil hmem
  obtain ⟨b, rfl⟩ := eq_singleton_of_coalesced h.heap.coalesced h.heap.ne_nil hfree
  refine ⟨b.size, ?_⟩
  rw [← hhead, headersFrom, Block.flag, hfree b List.mem_cons_self]
  rfl

/-! ### Giving everything back -/

/-- Freeing all live allocations, in any order, leads to a history without live allocations. -/
theorem HistoryInv.kfreeAll {s : History E} {bs : List Block} {ps : List ℕ} (h : HistoryInv s bs)
    (hperm : ps.Perm s.live) :
    ∃ s', Relation.ReflTransGen (Step mmap) s s' ∧ s'.live = [] ∧
      PakOS.kfreeAll (kernelSpace mmap) 1 ps s.kernel = some s'.kernel := by
  induction ps generalizing s bs with
  | nil => exact ⟨s, .refl, hperm.nil_eq.symm, rfl⟩
  | cons p ps ih =>
    have hp : p ∈ s.live := hperm.mem_iff.mp List.mem_cons_self
    obtain ⟨b, hb, -, hpb⟩ := h.exists_block hp
    have hkfree := (kfree_of_mem (kernelSpace mmap) h.heap hb 0).1
    rw [← hpb] at hkfree
    have hstep : Step mmap s (s.giveBack p _) := .kfree (Or.inr hp) hkfree
    obtain ⟨bs', hinv, -⟩ := hstep.refines h
    have hrest : ps.Perm (s.giveBack p { s.kernel with mem := kfreeBlock s.kernel.mem b.addr }).live := by
      rw [History.giveBack, if_neg (by omega)]
      have herase := hperm.erase p
      rwa [List.erase_cons_head] at herase
    obtain ⟨s', hrun, hnil, hall⟩ := ih hinv hrest
    refine ⟨s', .head hstep hrun, hnil, ?_⟩
    rw [PakOS.kfreeAll, hkfree]
    rwa [History.giveBack_kernel] at hall

/-- **Full coalescing.**  In a reachable heap no two neighbours on the list are free.  When nothing
is live the list is one free block at `_heap_start`, and freeing all live allocations, in whatever
order, leads there. -/
theorem heap_coalesced {s : History E} (hs : Reachable base mmap s) :
    ∃ fuel hdrs, walk s.kernel.mem fuel s.kernel.firstBlk = some hdrs ∧
      (hdrs.IsChain fun h h' => ¬(h.free = mblkFree ∧ h'.free = mblkFree)) ∧
      (s.live = [] → SingleFree s.kernel.heapStart hdrs) ∧
      ∀ ps, ps.Perm s.live → ∃ k n hdrs', kfreeAll (kernelSpace mmap) 1 ps s.kernel = some k ∧
        walk k.mem n k.firstBlk = some hdrs' ∧ SingleFree k.heapStart hdrs' := by
  obtain ⟨bs, h, hhead⟩ := hs.headed
  refine ⟨_, _, h.heap.walk_eq (Nat.lt_succ_self _), isChain_headersFrom h.heap.coalesced,
    h.singleFree hhead, fun ps hperm => ?_⟩
  obtain ⟨s', hrun, hnil, hall⟩ := @HistoryInv.kfreeAll _ mmap s bs ps h hperm
  obtain ⟨k₀, k, fuel, st, hfirst, hinit, hrun₀⟩ := hs
  have hs' : Reachable base mmap s' := ⟨k₀, k, fuel, st, hfirst, hinit, hrun₀.trans hrun⟩
  obtain ⟨bs', h', hhead'⟩ := hs'.headed
  exact ⟨_, _, _, hall, h'.heap.walk_eq (Nat.lt_succ_self _), h'.singleFree hhead' hnil⟩

theorem heap_coalesced_threeLive :
    ∃ fuel hdrs, walk threeLive.kernel.mem fuel threeLive.kernel.firstBlk = some hdrs ∧
      (hdrs.IsChain fun h h' => ¬(h.free = mblkFree ∧ h'.free = mblkFree)) ∧
      (threeLive.live = [] → SingleFree threeLive.kernel.heapStart hdrs) ∧
      ∀ ps, ps.Perm threeLive.live → ∃ k n hdrs',
        kfreeAll (kernelSpace mapAll) 1 ps threeLive.kernel = some k ∧
          walk k.mem n k.firstBlk = some hdrs' ∧ SingleFree k.heapStart hdrs' :=
  heap_coalesced (reachable_historyOf _ _ _)

end PakOS
