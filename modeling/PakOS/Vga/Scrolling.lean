import PakOS.Kmalloc.Run
import PakOS.Vga.Screen

/-!
# Scrolling by way of the kernel heap

A heap with a free block of 3840 bytes serves the buffer for scrolling for ever: `kmalloc` takes the
first such block, and `kfree` merges it with what was split off, so that it is a free block of 3840
bytes again (`scrollBuffer_kernelHeap`).  With this the refinement theorem of the console holds of
the kernel as it boots.
-/

namespace PakOS

open Machine Coalesce Screen

variable {E : Type*}

/-- The heap lies where the kernel puts it, and among the first `fuel` blocks is one that serves the
buffer for scrolling. -/
def HasBuffer (fuel : ℕ) (k : Kernel E) : Prop :=
  kheapStart ≤ k.heapStart ∧ ∃ pre b post, HeapInv k (pre ++ b :: post) ∧
    (∀ c ∈ pre, ¬Fits 3840 c) ∧ Fits 3840 b ∧ pre.length < fuel

/-- The block that is free again after it was taken and given back. -/
def returned (b : Block) : Block :=
  ⟨b.addr, if b.size > 256 + 3840 + 20 then b.size - 20 else b.size, true⟩

/-- Taking a free block and giving it back leaves it free, at most 20 bytes smaller. -/
theorem releaseBlock_takeBlock {pre post : List Block} {b : Block} {lo hi : ℕ}
    (hp : Placed lo (pre ++ b :: post) hi) (hsep : Coalesced (pre ++ b :: post))
    (hb : b.free = true) :
    releaseBlock b.addr (pre ++ takeBlock 3840 b ++ post) = pre ++ returned b :: post := by
  obtain ⟨hpre, hpost, hlast, hhead⟩ := Separated.neighbours hsep hb
  have hp' : Placed lo (pre ++ takeBlock 3840 b ++ post) hi := hp.takeBlock
  have hfinal : Coalesced (pre ++ returned b :: post) :=
    coalesced_append_cons hpre hpost hlast hhead
  unfold takeBlock at hp' ⊢
  unfold returned at hfinal ⊢
  by_cases hsplit : b.size > 256 + 3840 + 20
  · rw [if_pos hsplit] at hp' ⊢
    rw [if_pos hsplit] at hfinal ⊢
    rw [List.append_assoc] at hp' ⊢
    -- what was split off is free, and is merged again
    have hmerge : (⟨b.addr, 3840, true⟩ : Block).merge
        ⟨b.addr + 20 + 3840, b.size - 20 - 3840, true⟩ = ⟨b.addr, b.size - 20, true⟩ := by
      simp only [Block.merge, Block.mk.injEq, and_true, true_and]
      omega
    have hstep := coalesce_append_merge merging_blocks (x := (⟨b.addr, 3840, true⟩ : Block))
      (y := ⟨b.addr + 20 + 3840, b.size - 20 - 3840, true⟩) rfl rfl pre post
    rw [hmerge, coalesce_of_separated hfinal] at hstep
    exact (releaseBlock_append_cons hp').trans hstep.symm
  · rw [if_neg hsplit] at hp' ⊢
    rw [if_neg hsplit] at hfinal ⊢
    rw [List.append_assoc] at hp' ⊢
    exact (releaseBlock_append_cons hp').trans (coalesce_of_separated hfinal)

/-- Writes in front of the heap keep the heap. -/
theorem HeapInv.of_sameOffScreen {k k' : Kernel E} {bs : List Block} (h : HeapInv k bs)
    (hstart : kheapStart ≤ k.heapStart) (hsame : SameOffScreen k k') : HeapInv k' bs := by
  have hmem : ∀ x, ¬OffHeaders bs x → k'.mem x = k.mem x := by
    intro x hx
    refine hsame.mem x fun hscreen => hx fun c hc => Or.inl ?_
    have hlo := (h.placed.mem hc).1
    unfold OnScreen vgaBase at hscreen
    unfold kheapStart at hstart
    omega
  have h' := h.write_offHeaders hmem
  exact ⟨hsame.first.trans h'.first, h'.ne_nil, h'.rep,
    by rw [hsame.start, hsame.size]; exact h'.placed, by rw [hsame.start]; exact h'.pos,
    by rw [hsame.start]; exact h'.aligned, by rw [hsame.size]; exact h'.size_aligned,
    by rw [hsame.start, hsame.size]; exact h'.end_lt, h'.coalesced⟩

/-- A heap with a large enough free block serves the buffer for scrolling, and goes on doing so. -/
theorem scrollBuffer_kernelHeap (space : Space E) (fuel : ℕ) :
    ScrollBuffer space (kfree space (fuel + 1)) (fuel + 1) (fun x => kheapStart ≤ x)
      (HasBuffer fuel) := by
  have hscreen : ∀ x, OnScreen x → x < kheapStart := by
    intro x hx
    unfold OnScreen vgaBase at hx
    unfold kheapStart
    omega
  refine ⟨fun x hheap hx => absurd (hscreen x hx) (Nat.not_lt.mpr hheap), ?_, ?_⟩
  · rintro k k' ⟨hstart, pre, b, post, h, hpre, hb, hfuel⟩ hsame
    exact ⟨hsame.start ▸ hstart, pre, b, post, h.of_sameOffScreen hstart hsame, hpre, hb, hfuel⟩
  · rintro k ⟨hstart, pre, b, post, h, hpre, hb, hfuel⟩
    have h3840 : align16 3840 = 3840 := by decide
    obtain ⟨m₁, hkmalloc, h₁, hframe⟩ :=
      kmalloc_of_fits space h (show ∀ c ∈ pre, ¬Fits (align16 3840) c by rwa [h3840])
        (by rwa [h3840]) hfuel
    rw [h3840] at h₁ hframe
    -- the block that was handed out
    obtain ⟨size, hsize, -, hmem⟩ := exists_mem_takeBlock hb
    have hc : (⟨b.addr, size, false⟩ : Block) ∈ pre ++ takeBlock 3840 b ++ post :=
      List.mem_append_left _ (List.mem_append_right _ hmem)
    have hbounds : 0 < b.addr ∧ b.addr + 20 + size < 4294967296 := h₁.block_bounds hc
    have hlo : k.heapStart ≤ b.addr := (h₁.placed.mem hc).1
    refine ⟨b.addr + 20, _, hkmalloc, by omega, fun x hx _ => by omega,
      ⟨fun x hx => hframe x (h₁.offHeaders_of_lt ?_), rfl, rfl⟩, ?_⟩
    · change x < k.heapStart
      omega
    intro m hm
    have h₂ : HeapInv { k with mem := m } (pre ++ takeBlock 3840 b ++ post) := by
      refine h₁.write_offHeaders fun x hx => hm x (fun hbuf => hx ?_) fun hon => hx ?_
      · exact h₁.offHeaders_payload hc (show b.addr + 20 ≤ x by omega)
          (show x < b.addr + 20 + size by omega)
      · exact h₁.offHeaders_of_lt ((hscreen x hon).trans_le hstart)
    obtain ⟨hkfree, h₃⟩ := kfree_of_mem space h₂ hc fuel
    rw [releaseBlock_takeBlock h.placed h.coalesced hb.1] at h₃
    refine ⟨_, _, hkfree, ⟨fun x hx => ?_, rfl, rfl⟩, hstart, pre, returned b, post, h₃, hpre, ?_,
      hfuel⟩
    · have hx' : x < k.heapStart := (Nat.not_le.mp hx).trans_le hstart
      exact h₂.kfreeBlock_of_offHeaders hc (h₂.offHeaders_of_lt hx')
    · refine ⟨rfl, ?_⟩
      have hsize := hb.2
      change 3840 ≤ if b.size > 256 + 3840 + 20 then b.size - 20 else b.size
      split <;> omega

/-! ### The refinement -/

section

variable {space : Space E} {kfree : Kfree E} {fuel : ℕ} {heap : ℕ → Prop} {I : Kernel E → Prop}

/-- The console shows the end of the page `t`: with the 24 lines that end at the cursor, or the
first 24 lines, in rows 0 to 23, nothing in row 24, and the cursor at its place. -/
structure ShowsEnd (k : Kernel E) (t : Page ℕ) : Prop where
  /-- Rows 0 to 23. -/
  rows : ∀ i < 24, ∀ j < 80, cell k.mem i j = t.text (t.row - 23 + i) j
  /-- Row 24. -/
  last : ∀ j < 80, cell k.mem 24 j = glyph 32
  /-- `vga_cursor_r` -/
  row : k.vgaCursorR = t.row - (t.row - 23)
  /-- The row is not the last one. -/
  row_le : k.vgaCursorR ≤ 23
  /-- `vga_cursor_c` -/
  col : k.vgaCursorC = t.col
  /-- The column is one of the screen. -/
  col_le : k.vgaCursorC ≤ 79

theorem showsEnd_of_shows {k : Kernel E} {t : Page ℕ} (h : Shows 24 80 (glyph 32) (screen k) t) :
    ShowsEnd k t := by
  have hrow : t.row = t.row - 23 + k.vgaCursorR := h.tracks.row
  have hlt : k.vgaCursorR < 24 := h.row_lt
  have hcol : t.col = k.vgaCursorC := h.tracks.col
  have hcol_lt : t.col < 80 := h.tidy.col_lt
  exact ⟨fun i hi j hj => h.tracks.text i hi.le j hj, fun j hj => h.last hj, by omega, by omega,
    hcol.symm, by omega⟩

/-- `vga_print` of 7-bit characters presses their keys. -/
theorem vgaPrint_spec (hb : ScrollBuffer space kfree fuel heap I) {str : List UInt8}
    (hstr : ∀ c ∈ str, c < 128) {k : Kernel E} (hk : I k) {t : Page ℕ}
    (hs : Shows 24 80 (glyph 32) (screen k) t) :
    ∃ k', vgaPrint space kfree fuel str k = some k' ∧
      Shows 24 80 (glyph 32) (screen k') (t.type 80 (str.map keyOf)) ∧
      ∀ x, ¬OnScreen x → ¬heap x → k'.mem x = k.mem x := by
  induction str generalizing k t with
  | nil => exact ⟨k, rfl, hs, fun _ _ _ => rfl⟩
  | cons c cs ih =>
    obtain ⟨k₁, hk₁, hI, hs₁, hmem₁⟩ := vgaPutchar_spec hb hk hs (hstr c List.mem_cons_self)
    obtain ⟨k₂, hk₂, hs₂, hmem₂⟩ := ih (fun d hd => hstr d (List.mem_cons_of_mem c hd)) hI hs₁
    refine ⟨k₂, ?_, hs₂, fun x hx hheap => (hmem₂ x hx hheap).trans (hmem₁ x hx hheap)⟩
    rw [vgaPrint, hk₁]
    exact hk₂

/-- From `vga_clear` on, the console shows the end of the page on which the keys of all characters
were pressed, and no other memory than the 2000 cells and that of the buffer is written. -/
theorem console_refines (hb : ScrollBuffer space kfree fuel heap I) {k : Kernel E} (hk : I k)
    (str : List UInt8) (hstr : ∀ c ∈ str, c < 128) :
    ∃ k', vgaPrint space kfree fuel str (vgaClear k) = some k' ∧
      ShowsEnd k' ((Page.blank (glyph 32)).type 80 (str.map keyOf)) ∧
      ∀ x, ¬OnScreen x → ¬heap x → k'.mem x = k.mem x := by
  have hoff := sameOffScreen_vgaClear k
  obtain ⟨k', hprint, hs, hmem⟩ :=
    vgaPrint_spec hb hstr (hb.stable k _ hk hoff) (shows_vgaClear k)
  exact ⟨k', hprint, showsEnd_of_shows hs,
    fun x hx hheap => (hmem x hx hheap).trans (hoff.mem x hx)⟩

end

/-- An `A`, thirty newlines and a `B`. -/
def scrolling : List UInt8 := 65 :: List.replicate 30 10 ++ [66]

/-- On the kernel as it boots the `A` has gone, and the `B` stands in the last row but one, since a
newline keeps the column. -/
theorem console_refines_scrolling :
    ∃ k k', initKmalloc (kernelSpace mapAll) 3 kheapStart 0 bootKernel = some (.ok, k) ∧
      vgaPrint (kernelSpace mapAll) (kfree (kernelSpace mapAll) 2) 2 scrolling (vgaClear k) =
        some k' ∧
      cell k'.mem 0 0 = glyph 32 ∧ cell k'.mem 23 1 = glyph 66 ∧ k'.vgaCursorR = 23 := by
  obtain ⟨k, hk⟩ := exists_initKmalloc kernelHeap mapAll (k := bootKernel) rfl
  obtain ⟨-, hstart, -, -, hinv⟩ := initKmalloc_spec rfl hk
  have hbuffer : HasBuffer 1 k :=
    ⟨hstart.ge, [], _, [], hinv, by simp, ⟨rfl, by decide⟩, Nat.one_pos⟩
  obtain ⟨k', hprint, hs, -⟩ := console_refines (scrollBuffer_kernelHeap (kernelSpace mapAll) 1)
    hbuffer scrolling (by decide +kernel)
  refine ⟨k, k', hk, hprint, ?_, ?_, ?_⟩
  · rw [hs.rows 0 (by decide) 0 (by decide)]
    decide +kernel
  · rw [hs.rows 23 (by decide) 1 (by decide)]
    decide +kernel
  · rw [hs.row]
    decide +kernel

end PakOS
