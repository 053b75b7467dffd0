import PakOS.Kmalloc.Client

/-!
# A buffer on the heap

A function that takes a block as a buffer, and fills it while it takes other blocks and gives them
back.  `Buffered cap limit k₀ bs₀ b out k bs` says that it stands at such a point: it was called in
the state `k₀`, the block `b` has `cap` bytes and begins with `out`, and what was settled before is
what it was.
-/

namespace PakOS

open Machine Coalesce

variable {E : Type*} {cap L limit : ℕ} {k₀ k k' : Kernel E} {bs₀ bs bs' : List Block} {b c : Block}
  {out : List UInt8}

/-- The block `b` is a buffer of `cap` bytes that begins with `out`, and the bytes that were settled
in the state `k₀` are what they were. -/
structure Buffered (cap limit : ℕ) (k₀ : Kernel E) (bs₀ : List Block) (b : Block) (out : List UInt8)
    (k : Kernel E) (bs : List Block) : Prop where
  /-- The heap. -/
  heap : HeapInv k bs
  /-- The buffer is on the list. -/
  mem : b ∈ bs
  /-- It is in use. -/
  inUse : b.free = false
  /-- It is large enough. -/
  size : cap ≤ b.size
  /-- It begins with the bytes written so far. -/
  text : Holds k.mem (b.addr + 20) out
  /-- Settled bytes have kept their values and still are, and lie outside the buffer. -/
  settled : ∀ x, Settled limit k₀ bs₀ x →
    k.mem x = k₀.mem x ∧ Settled limit k bs x ∧ (x < b.addr + 20 ∨ b.stop ≤ x)

/-- Bytes may be stored to a block. -/
theorem HeapInv.store (h : HeapInv k bs) (hb : b ∈ bs) {l : List UInt8} (hl : l.length ≤ b.size) :
    HeapInv { k with mem := storeBytes k.mem (b.addr + 20) l } bs := by
  refine h.write_payload hb fun x hx => storeBytes_of_notMem ?_
  unfold Block.stop at hx
  omega

/-- The block that `kmalloc` returns, as an empty buffer. -/
theorem Allocated.buffered {length : ℕ} (h : Allocated limit k bs length k' bs' b) (hk : HeapInv k bs)
    (hlen : SizeOk length) (hcap : cap ≤ b.size) : Buffered cap limit k bs b [] k' bs' := by
  obtain ⟨hb, hfree, -⟩ := h.block hlen
  exact ⟨h.heap, hb, hfree, hcap, trivial, fun x hx => h.settled hk hlen hx⟩

namespace Buffered

/-- The bytes of the buffer are settled themselves. -/
theorem settled_text (h : Buffered cap limit k₀ bs₀ b out k bs) {n : ℕ} (hn : n ≤ cap) {x : ℕ}
    (hlo : b.addr + 20 ≤ x) (hhi : x < b.addr + 20 + n) : Settled limit k bs x := by
  have hsize := h.size
  exact Or.inr (Or.inr ⟨b, h.mem, h.inUse, hlo, by omega⟩)

/-- The buffer lies below 4G. -/
theorem lt (h : Buffered cap limit k₀ bs₀ b out k bs) : b.addr + 20 + cap < 4294967296 := by
  have hbounds := h.heap.block_bounds h.mem
  have hsize := h.size
  omega

/-- Appending to the buffer. -/
theorem write (h : Buffered cap limit k₀ bs₀ b out k bs) {m : Mem} {new : List UInt8}
    (hm : ∀ x, x < b.addr + 20 + out.length ∨ b.stop ≤ x → m x = k.mem x)
    (hnew : Holds m (b.addr + 20 + out.length) new) :
    Buffered cap limit k₀ bs₀ b (out ++ new) { k with mem := m } bs := by
  refine ⟨h.heap.write_payload h.mem fun x hx => hm x (by omega), h.mem, h.inUse, h.size,
    holds_append.mpr ⟨h.text.congr fun x _ hlt => hm x (Or.inl hlt), hnew⟩, fun x hx => ?_⟩
  obtain ⟨hmem, hx', hout⟩ := h.settled x hx
  exact ⟨(hm x (by omega)).trans hmem, hx', hout⟩

/-- A block is handed out. -/
theorem handed (h : Buffered cap limit k₀ bs₀ b out k bs) (hout : out.length ≤ cap)
    (hh : Handed L limit k bs k' bs' c) : Buffered cap limit k₀ bs₀ b out k' bs' := by
  refine ⟨hh.heap, (hh.blocks b h.mem h.inUse).1, h.inUse, h.size,
    h.text.congr fun x hlo hhi => (hh.settled x (h.settled_text hout hlo hhi)).1, fun x hx => ?_⟩
  obtain ⟨hmem, hx', houtside⟩ := h.settled x hx
  obtain ⟨hmem', hx'', -⟩ := hh.settled x hx'
  exact ⟨hmem'.trans hmem, hx'', houtside⟩

/-- The block is given back, when memory is `k₁`'s. -/
theorem returned {k₁ : Kernel E} {bs₁ : List Block} (h : Buffered cap limit k₀ bs₀ b out k bs)
    {out' : List UInt8} (hout : out'.length ≤ cap) (h' : Buffered cap limit k₀ bs₀ b out' k₁ bs₁)
    (hr : Returned L limit k bs k₁.mem k' bs') : Buffered cap limit k₀ bs₀ b out' k' bs' := by
  refine ⟨hr.heap, hr.blocks b h.mem h.inUse, h.inUse, h.size,
    h'.text.congr fun x hlo hhi => (hr.settled x (h.settled_text hout hlo hhi)).1, fun x hx => ?_⟩
  obtain ⟨hmem, hx'⟩ := hr.settled x (h.settled x hx).2.1
  obtain ⟨hmem', -, houtside⟩ := h'.settled x hx
  exact ⟨hmem.trans hmem', hx', houtside⟩

end Buffered

end PakOS
