import PakOS.Kmalloc.Integrity

/-!
# The order of frees does not matter

Freeing several live allocations one after the other is a `Coalesce.releaseAll` on the block list
(`kfreeAll_spec`), so the list it ends with is the coalesced list with all the blocks opened, in
whatever order they were freed (`kfree_order`).
-/

namespace PakOS

open Machine Coalesce

variable {E : Type*} {base : HeapBase} {mmap : Mmap E}

/-- Free the addresses one after the other, each with `STATUS_OK`. -/
def kfreeAll (space : Space E) (fuel : ℕ) : List ℕ → Kernel E → Option (Kernel E)
  | [], k => some k
  | p :: ps, k =>
    match kfree space fuel p k with
    | some (.ok, k) => kfreeAll space fuel ps k
    | _ => none

/-- Release the blocks of the given payloads. -/
def releaseBlocks (ps : List ℕ) (bs : List Block) : List Block :=
  releaseAll Block.free Block.merge Block.addr Block.released (ps.map (· - 20)) bs

/-- Freeing payloads in use releases their blocks. -/
theorem kfreeAll_spec (space : Space E) {k : Kernel E} {bs : List Block} {ps : List ℕ} (fuel : ℕ)
    (h : HeapInv k bs) (hnd : ps.Nodup) (hps : ∀ p ∈ ps, ∃ b ∈ bs, b.free = false ∧ p = b.addr + 20) :
    ∃ m, kfreeAll space (fuel + 1) ps k = some { k with mem := m } ∧
      HeapInv { k with mem := m } (releaseBlocks ps bs) := by
  induction ps generalizing k bs with
  | nil => exact ⟨k.mem, rfl, h⟩
  | cons p ps ih =>
    obtain ⟨b, hb, hfree, rfl⟩ := hps p List.mem_cons_self
    obtain ⟨hnotMem, hnd⟩ := List.nodup_cons.mp hnd
    obtain ⟨hkfree, hinv⟩ := kfree_of_mem space h hb fuel
    -- the other payloads are still in use
    have hrest : ∀ q ∈ ps, ∃ c ∈ releaseBlock b.addr bs, c.free = false ∧ q = c.addr + 20 := by
      intro q hq
      obtain ⟨c, hc, hcfree, rfl⟩ := hps q (List.mem_cons_of_mem _ hq)
      have hne : c.addr ≠ b.addr := fun heq => hnotMem (heq ▸ hq)
      exact ⟨c, (mem_releaseBlock hcfree).mpr ⟨hc, hne⟩, hcfree, rfl⟩
    obtain ⟨m, hm, hinv'⟩ := ih hinv hnd hrest
    refine ⟨m, ?_, ?_⟩
    · rw [kfreeAll, hkfree]
      exact hm
    · exact hinv'

/-- Releasing the blocks in another order gives the same list. -/
theorem releaseBlocks_perm {k : Kernel E} {bs : List Block} {ps qs : List ℕ} (h : HeapInv k bs)
    (hnd : ps.Nodup) (hps : ∀ p ∈ ps, ∃ b ∈ bs, b.free = false ∧ p = b.addr + 20)
    (hperm : ps.Perm qs) : releaseBlocks ps bs = releaseBlocks qs bs := by
  refine releaseAll_perm merging_blocks keyed_blocks h.coalesced h.placed.nodup ?_ ?_ (hperm.map _)
  · refine List.Nodup.map_on (fun p hp q hq hpq => ?_) hnd
    obtain ⟨b, -, -, rfl⟩ := hps p hp
    obtain ⟨c, -, -, rfl⟩ := hps q hq
    omega
  · intro a ha
    obtain ⟨p, hp, rfl⟩ := List.mem_map.mp ha
    obtain ⟨b, hb, hfree, rfl⟩ := hps p hp
    exact ⟨b, hb, hfree, by simp⟩

/-- **Free-order independence.**  Freeing distinct live allocations succeeds in every order, and two
orders leave the same heap variables and the same headers at the same addresses. -/
theorem kfree_order {s : History E} (hs : Reachable base mmap s) {ps qs : List ℕ} (fuel : ℕ)
    (hlive : ∀ p ∈ ps, p ∈ s.live) (hnd : ps.Nodup) (hperm : ps.Perm qs) :
    ∃ k₁ k₂ hdrs n, kfreeAll (kernelSpace mmap) (fuel + 1) ps s.kernel = some k₁ ∧
      kfreeAll (kernelSpace mmap) (fuel + 1) qs s.kernel = some k₂ ∧
      walk k₁.mem n k₁.firstBlk = some hdrs ∧ walk k₂.mem n k₂.firstBlk = some hdrs ∧
      k₁.firstBlk = k₂.firstBlk ∧ k₁.heapSize = k₂.heapSize := by
  obtain ⟨bs, hinv⟩ := hs.inv
  have hps : ∀ p ∈ ps, ∃ b ∈ bs, b.free = false ∧ p = b.addr + 20 :=
    fun p hp => hinv.exists_block (hlive p hp)
  have hqs : ∀ q ∈ qs, ∃ b ∈ bs, b.free = false ∧ q = b.addr + 20 :=
    fun q hq => hps q (hperm.mem_iff.mpr hq)
  obtain ⟨m₁, hm₁, hinv₁⟩ := kfreeAll_spec (kernelSpace mmap) fuel hinv.heap hnd hps
  obtain ⟨m₂, hm₂, hinv₂⟩ :=
    kfreeAll_spec (kernelSpace mmap) fuel hinv.heap (hperm.nodup_iff.mp hnd) hqs
  rw [← releaseBlocks_perm hinv.heap hnd hps hperm] at hinv₂
  exact ⟨_, _, _, _, hm₁, hm₂, hinv₁.walk_eq (Nat.lt_succ_self _),
    hinv₂.walk_eq (Nat.lt_succ_self _), rfl, rfl⟩

theorem kfree_order_threeLive :
    ∃ k₁ k₂ hdrs n,
      kfreeAll (kernelSpace mapAll) 1 [0xd0000014, 0xd0000098, 0xd00000cc] threeLive.kernel =
        some k₁ ∧
      kfreeAll (kernelSpace mapAll) 1 [0xd0000098, 0xd00000cc, 0xd0000014] threeLive.kernel =
        some k₂ ∧
      walk k₁.mem n k₁.firstBlk = some hdrs ∧ walk k₂.mem n k₂.firstBlk = some hdrs ∧
      k₁.firstBlk = k₂.firstBlk ∧ k₁.heapSize = k₂.heapSize :=
  kfree_order (reachable_historyOf _ _ _) 0 (by decide +kernel) (by decide) (by decide)

end PakOS
