import PakOS.Kmalloc.Client

/-!
# A zero behind a payload

What a zero byte does that is written right behind the payload of a block.  If another block's
header begins there, it hits the lowest byte of the header's free flag: a free block becomes one in
use, that nobody will ever give back, and a block in use stays one.  Otherwise nothing but a lost
byte is written.  The heap stays intact either way (`HeapInv.closeAt`); `closeAt` is what becomes of
its list.
-/

namespace PakOS

open Machine Coalesce

variable {E : Type*} {k : Kernel E} {bs : List Block} {b c : Block} {a L : ℕ}

/-- The block is in use if its header is at `a`. -/
def Block.closedAt (a : ℕ) (b : Block) : Block := if b.addr = a then { b with free := false } else b

/-- Mark the block at address `a` in use. -/
def closeAt (a : ℕ) (bs : List Block) : List Block := bs.map (Block.closedAt a)

@[simp] theorem Block.addr_closedAt (a : ℕ) (b : Block) : (b.closedAt a).addr = b.addr := by
  unfold Block.closedAt
  split <;> rfl

@[simp] theorem Block.size_closedAt (a : ℕ) (b : Block) : (b.closedAt a).size = b.size := by
  unfold Block.closedAt
  split <;> rfl

/-- Closing a block does not free it. -/
theorem Block.free_of_closedAt (h : (b.closedAt a).free = true) : b.free = true := by
  unfold Block.closedAt at h
  split at h
  · exact absurd h Bool.false_ne_true
  · exact h

theorem Block.closedAt_of_inUse (h : b.free = false) : b.closedAt a = b := by
  unfold Block.closedAt
  split
  · rw [← h]
  · rfl

theorem Block.closedAt_of_ne (h : b.addr ≠ a) : b.closedAt a = b := if_neg h

@[simp] theorem addrs_closeAt (a : ℕ) (bs : List Block) : addrs (closeAt a bs) = addrs bs := by
  unfold addrs closeAt
  rw [List.map_map]
  exact List.map_congr_left fun c _ => Block.addr_closedAt a c

/-- The blocks in use stay on the list. -/
theorem mem_closeAt_of_inUse (hc : c ∈ bs) (h : c.free = false) : c ∈ closeAt a bs := by
  have hmem : c.closedAt a ∈ closeAt a bs := List.mem_map_of_mem hc
  rwa [Block.closedAt_of_inUse h] at hmem

/-- The blocks elsewhere stay on the list. -/
theorem mem_closeAt_of_ne (hc : c ∈ bs) (h : c.addr ≠ a) : c ∈ closeAt a bs := by
  have hmem : c.closedAt a ∈ closeAt a bs := List.mem_map_of_mem hc
  rwa [Block.closedAt_of_ne h] at hmem

/-- The blocks in use are those that were, and the one that was closed. -/
theorem mem_closeAt_inUse (h : c.free = false) :
    c ∈ closeAt a bs ↔
      c ∈ bs ∨ ∃ e ∈ bs, e.free = true ∧ e.addr = a ∧ c = { e with free := false } := by
  constructor
  · intro hc
    obtain ⟨e, he, rfl⟩ := List.mem_map.mp hc
    by_cases hfree : e.free = false
    · exact Or.inl ((Block.closedAt_of_inUse hfree).symm ▸ he)
    · have haddr : e.addr = a := by
        by_contra hne
        exact hfree (Block.closedAt_of_ne hne ▸ h)
      exact Or.inr ⟨e, he, Bool.eq_true_of_not_eq_false hfree, haddr, if_pos haddr⟩
  · rintro (hc | ⟨e, he, -, haddr, rfl⟩)
    · exact mem_closeAt_of_inUse hc h
    · exact List.mem_map.mpr ⟨e, he, if_pos haddr⟩

/-- Closing a block moves none. -/
theorem Placed.closeAt {lo hi : ℕ} (h : Placed lo bs hi) : Placed lo (closeAt a bs) hi := by
  induction bs generalizing lo with
  | nil => exact h
  | cons c bs ih =>
    refine ⟨(Block.addr_closedAt a c).symm ▸ h.1, ?_⟩
    have hstop : (c.closedAt a).stop = c.stop := by
      rw [Block.stop, Block.addr_closedAt, Block.size_closedAt, Block.stop]
    rw [hstop]
    exact ih h.2

/-- Closing a block makes no neighbours free. -/
theorem coalesced_closeAt (h : Coalesced bs) : Coalesced (closeAt a bs) := by
  refine List.isChain_map_of_isChain _ (fun c d hcd hfree => hcd ?_) h
  exact ⟨Block.free_of_closedAt hfree.1, Block.free_of_closedAt hfree.2⟩

/-- A byte behind the payload of a block lies in no payload, and in no header but perhaps as its
first byte. -/
theorem HeapInv.stop_apart (h : HeapInv k bs) (hb : b ∈ bs) (hc : c ∈ bs) :
    c.stop ≤ b.stop ∨ b.stop = c.addr ∨ b.stop < c.addr := by
  by_cases hcb : c.addr = b.addr
  · rw [h.placed.eq_of_addr_eq hc hb hcb]
    exact Or.inl le_rfl
  · have happart := h.placed.apart hb hc fun heq => hcb heq.symm
    unfold Block.stop at happart ⊢
    omega

/-- Clearing the lowest byte of a flag. -/
theorem getField_free_update_zero {m : Mem} {x : ℕ} (hflag : getField m x .free ≤ 1) :
    getField (Function.update m x 0) x .free = 0 := by
  unfold getField MallocH.offset at hflag ⊢
  rw [Nat.add_zero] at hflag ⊢
  rw [loadLE] at hflag ⊢
  rw [Function.update_self,
    loadLE_congr (m := m) fun y hy _ => Function.update_of_ne (by omega) _ _]
  have hhigh : loadLE 3 m (x + 1) = 0 := by omega
  rw [hhigh]
  rfl

/-- Writing the first byte of a header changes its flag only. -/
theorem getField_update_first {m : Mem} {x y : ℕ} {v : UInt8} {f : MallocH}
    (h : x = y ∧ f ≠ .free ∨ x < y ∨ y + 20 ≤ x) :
    getField (Function.update m x v) y f = getField m y f := by
  have hf := f.offset_le
  refine loadLE_congr fun z hz hlt => Function.update_of_ne ?_ _ _
  rcases h with ⟨rfl, hfree⟩ | h
  · have hoff : 4 ≤ f.offset := by
      cases f with
      | free => exact absurd rfl hfree
      | magic | nextBlock | prevBlock | size => decide
    omega
  · omega

/-- The header of a block after its free flag, if it begins at `a`, was cleared. -/
theorem Node.closedAt {m m' : Mem} (h : Node m c)
    (hflag : c.addr = a → getField m a .free ≤ 1 → getField m' a .free = 0)
    (hfield : ∀ f, (c.addr = a → f ≠ .free) → getField m' c.addr f = getField m c.addr f) :
    Node m' (c.closedAt a) := by
  refine ⟨?_, ?_, ?_⟩
  · rw [Block.addr_closedAt, Block.size_closedAt, hfield _ fun _ => by decide, h.size]
  · rw [Block.addr_closedAt]
    by_cases hca : c.addr = a
    · have hclosed : (c.closedAt a).flag = 0 := by
        unfold Block.closedAt
        rw [if_pos hca]
        rfl
      have hle : getField m a .free ≤ 1 := by
        rw [← hca, h.free]
        unfold Block.flag
        split <;> decide
      rw [hclosed, hca]
      exact hflag hca hle
    · rw [Block.closedAt_of_ne hca, hfield _ fun heq => absurd heq hca, h.free]
  · rw [Block.addr_closedAt]
    unfold MblkValid
    rw [hfield _ fun _ => by decide]
    exact h.valid

/-- **A zero behind a payload.**  The heap stays a heap, and the block that begins there is in
use. -/
theorem HeapInv.closeAt (h : HeapInv k bs) (hb : b ∈ bs) :
    HeapInv { k with mem := Function.update k.mem b.stop 0 } (closeAt b.stop bs) := by
  have hfield : ∀ c ∈ bs, ∀ f, (c.addr = b.stop → f ≠ .free) →
      getField (Function.update k.mem b.stop 0) c.addr f = getField k.mem c.addr f := by
    intro c hc f hf
    refine getField_update_first ?_
    rcases h.stop_apart hb hc with hstop | hstop | hstop
    · unfold Block.stop at hstop ⊢
      omega
    · exact Or.inl ⟨hstop, hf hstop.symm⟩
    · exact Or.inr (Or.inl hstop)
  have hhead : headAddr (PakOS.closeAt b.stop bs) = headAddr bs := by
    unfold headAddr
    rw [addrs_closeAt]
  refine h.update hhead (fun hnil => h.ne_nil (List.map_eq_nil_iff.mp hnil)) ⟨fun c' hc' => ?_, ?_⟩
    h.placed.closeAt (coalesced_closeAt h.coalesced)
  · obtain ⟨c, hc, rfl⟩ := List.mem_map.mp hc'
    exact (h.rep.nodes c hc).closedAt (fun _ => getField_free_update_zero) (hfield c hc)
  · rw [addrs_closeAt]
    exact h.rep.links_of_fields (fun c hc => hfield c hc _ fun _ => by decide)
      fun c hc => hfield c hc _ fun _ => by decide

end PakOS
