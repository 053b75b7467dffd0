import PakOS.Data.Page
import PakOS.Vga.Console

/-!
# The console shows the end of a page

The text buffer is a screen of 25 rows of 80 columns, and the characters given to `vga_putchar` are
keys.  `console_refines` says that the console always shows the end of the page on which all these
keys were pressed: rows 0 to 23 are its last lines, and row 24 is blank.

To scroll, `memmove` takes a buffer from the kernel heap.  `ScrollBuffer` is what the console relies
on: whenever it scrolls it gets one, apart from the screen, and taking it and giving it back touches
neither screen nor cursor.
-/

namespace PakOS

open Machine Screen

variable {E : Type*}

/-- The byte `x` belongs to one of the 2000 cells of the screen. -/
def OnScreen (x : ℕ) : Prop := vgaBase ≤ x ∧ x < vgaBase + 4000

/-- The cell in a row and a column. -/
def cell (m : Mem) (r c : ℕ) : ℕ := loadLE 2 m (vgaBase + 2 * (r * vgaWidth + c))

/-- The cell of a character, white on black. -/
def glyph (c : UInt8) : ℕ := 0x0f00 + c.toNat

/-- What a character does. -/
def keyOf (c : UInt8) : Key ℕ :=
  if c = 10 then .newline
  else if c = 13 then .ret
  else if c = 9 then .tab 4
  else .char (glyph c)

/-- The screen of a state. -/
def screen (k : Kernel E) : Page ℕ := ⟨cell k.mem, k.vgaCursorR, k.vgaCursorC⟩

/-- The states differ in the screen, the cursor and the serial port only. -/
structure SameOffScreen (k k' : Kernel E) : Prop where
  /-- The rest of the memory. -/
  mem : ∀ x, ¬OnScreen x → k'.mem x = k.mem x
  /-- `_first_blk` -/
  first : k'.firstBlk = k.firstBlk
  /-- `_heap_start` -/
  start : k'.heapStart = k.heapStart
  /-- `_heap_size` -/
  size : k'.heapSize = k.heapSize
  /-- `_min_heap_size` -/
  minSize : k'.minHeapSize = k.minHeapSize
  /-- The provider of memory. -/
  os : k'.os = k.os

/-- Memory was written in `heap` only, and the cursor stays. -/
structure HeapOnly (heap : ℕ → Prop) (k k' : Kernel E) : Prop where
  /-- The rest of the memory. -/
  mem : ∀ x, ¬heap x → k'.mem x = k.mem x
  /-- `vga_cursor_r` -/
  row : k'.vgaCursorR = k.vgaCursorR
  /-- `vga_cursor_c` -/
  col : k'.vgaCursorC = k.vgaCursorC

/-- In states with `I` the buffer for scrolling is there, in a part `heap` of the memory that is
apart from the screen. -/
structure ScrollBuffer (space : Space E) (kfree : Kfree E) (fuel : ℕ) (heap : ℕ → Prop)
    (I : Kernel E → Prop) : Prop where
  /-- The heap is apart from the screen. -/
  apart : ∀ x, heap x → ¬OnScreen x
  /-- Printing without scrolling keeps the buffer there. -/
  stable : ∀ k k', I k → SameOffScreen k k' → I k'
  /-- `kmalloc` returns a buffer for 24 rows, and `kfree` takes it back. -/
  buffer : ∀ k, I k → ∃ buf k₁, kmalloc space fuel 3840 k = some (buf, k₁) ∧
    buf + 3840 ≤ 4294967296 ∧ (∀ x, buf ≤ x → x < buf + 3840 → heap x) ∧ HeapOnly heap k k₁ ∧
      ∀ m, (∀ x, ¬(buf ≤ x ∧ x < buf + 3840) → ¬OnScreen x → m x = k₁.mem x) →
        ∃ st k₂, kfree buf { k₁ with mem := m } = some (st, k₂) ∧
          HeapOnly heap { k₁ with mem := m } k₂ ∧ I k₂

/-! ### Cells -/

/-- The cell that `vga_set_char` stores for a 7-bit character. -/
theorem glyph_eq {ch : UInt8} (hch : ch < 128) :
    signExtend16 ch ||| (15 ||| 0 <<< 4) <<< 8 = glyph ch := by
  have hlt : ch.toNat < 128 := hch
  have h := Nat.shiftLeft_add_eq_or_of_lt (show ch.toNat < 2 ^ 8 by omega) 15
  rw [signExtend16, if_pos hch, Nat.lor_comm]
  exact h.symm

theorem glyph_lt (ch : UInt8) : glyph ch < 256 ^ 2 := by
  have := ch.toNat_lt
  unfold glyph
  omega

/-- The cells after a 7-bit character is stored. -/
theorem cell_vgaSetChar {m : Mem} {r c i j : ℕ} {ch : UInt8} (hch : ch < 128) (hc : c < 80)
    (hj : j < 80) :
    cell (vgaSetChar r c ch m) i j = if i = r ∧ j = c then glyph ch else cell m i j := by
  unfold cell vgaSetChar vgaWidth
  dsimp only
  rw [glyph_eq hch]
  split
  · next hsame =>
    rw [hsame.1, hsame.2, loadLE_storeLE_same (glyph_lt ch)]
  · next hne =>
    exact loadLE_storeLE_disjoint (by omega)

/-- Storing a character changes the screen only. -/
theorem vgaSetChar_of_offScreen {m : Mem} {r c x : ℕ} {ch : UInt8} (hr : r < 25) (hc : c < 80)
    (hx : ¬OnScreen x) : vgaSetChar r c ch m x = m x := by
  unfold OnScreen at hx
  unfold vgaSetChar vgaWidth
  exact storeLE_of_notMem (by omega)

/-! ### `vga_clear` -/

/-- A row after its first `n` cells were cleared. -/
theorem cell_clearRow {m : Mem} {r n : ℕ} (hn : n ≤ 80) {i j : ℕ} (hj : j < 80) :
    cell ((List.range n).foldl (fun m c => vgaSetChar r c 32 m) m) i j =
      if i = r ∧ j < n then glyph 32 else cell m i j := by
  induction n with
  | zero => simp
  | succ n ih =>
    rw [List.range_succ, List.foldl_append, List.foldl_cons, List.foldl_nil,
      cell_vgaSetChar (by decide) (by omega) hj, ih (by omega)]
    by_cases hi : i = r
    · by_cases hjn : j = n
      · simp [hi, hjn]
      · have hiff : j < n + 1 ↔ j < n := by omega
        simp [hi, hjn, hiff]
    · simp [hi]

/-- The screen after its first `n` rows were cleared. -/
theorem cell_clearRows {m : Mem} {n i j : ℕ} (hj : j < 80) :
    cell ((List.range n).foldl
      (fun m r => (List.range vgaWidth).foldl (fun m c => vgaSetChar r c 32 m) m) m) i j =
      if i < n then glyph 32 else cell m i j := by
  induction n with
  | zero => simp
  | succ n ih =>
    rw [List.range_succ, List.foldl_append, List.foldl_cons, List.foldl_nil,
      cell_clearRow (show vgaWidth ≤ 80 from le_rfl) hj, ih]
    by_cases hi : i = n
    · simp [hi, hj, vgaWidth]
    · have hiff : i < n + 1 ↔ i < n := by omega
      simp [hi, hiff]

/-- Storing a list of characters changes the screen only. -/
theorem foldl_vgaSetChar_of_offScreen {m : Mem} {r n x : ℕ} (hr : r < 25) (hn : n ≤ 80)
    (hx : ¬OnScreen x) : (List.range n).foldl (fun m c => vgaSetChar r c 32 m) m x = m x := by
  induction n with
  | zero => rfl
  | succ n ih =>
    rw [List.range_succ, List.foldl_append, List.foldl_cons, List.foldl_nil,
      vgaSetChar_of_offScreen hr (by omega) hx, ih (by omega)]

/-- Clearing changes the screen and the cursor only. -/
theorem sameOffScreen_vgaClear (k : Kernel E) : SameOffScreen k (vgaClear k) := by
  have hrows : ∀ n ≤ 25, ∀ x, ¬OnScreen x → (List.range n).foldl
      (fun m r => (List.range vgaWidth).foldl (fun m c => vgaSetChar r c 32 m) m) k.mem x =
        k.mem x := by
    intro n hn x hx
    induction n with
    | zero => rfl
    | succ n ih =>
      rw [List.range_succ, List.foldl_append, List.foldl_cons, List.foldl_nil,
        foldl_vgaSetChar_of_offScreen (by omega) (show vgaWidth ≤ 80 from le_rfl) hx,
        ih (by omega)]
  exact ⟨hrows 25 le_rfl, rfl, rfl, rfl, rfl, rfl⟩

/-- After `vga_clear` the console shows a blank page. -/
theorem shows_vgaClear (k : Kernel E) :
    Shows 24 80 (glyph 32) (screen (vgaClear k)) (.blank (glyph 32)) := by
  refine (shows_blank (by decide) (by decide) _).congr ⟨fun i hi j hj => ?_, rfl, rfl⟩
  have hcell := cell_clearRows (m := k.mem) (n := vgaHeight) (i := i) hj
  rw [if_pos (show i < vgaHeight by unfold vgaHeight; omega)] at hcell
  exact hcell

/-! ### `vga_putchar` -/

theorem SameOffScreen.trans {k₁ k₂ k₃ : Kernel E} (h : SameOffScreen k₁ k₂)
    (h' : SameOffScreen k₂ k₃) : SameOffScreen k₁ k₃ :=
  ⟨fun x hx => (h'.mem x hx).trans (h.mem x hx), h'.first.trans h.first, h'.start.trans h.start,
    h'.size.trans h.size, h'.minSize.trans h.minSize, h'.os.trans h.os⟩

/-- The `switch` of `vga_putchar` does to the screen what the key does to a page. -/
theorem tracks_vgaPlace {k : Kernel E} {c : UInt8} (hc : c < 128) (hrow : k.vgaCursorR < 24)
    (hcol : k.vgaCursorC < 80) :
    Tracks 24 80 0 (screen (vgaPlace c k)) ((screen k).move (keyOf c)) := by
  have hrow' : (k.vgaCursorR + 1) % 256 = k.vgaCursorR + 1 := Nat.mod_eq_of_lt (by omega)
  have hcol' : (k.vgaCursorC + 1) % 256 = k.vgaCursorC + 1 := Nat.mod_eq_of_lt (by omega)
  have htab : (k.vgaCursorC + 4) % 256 = k.vgaCursorC + 4 := Nat.mod_eq_of_lt (by omega)
  unfold vgaPlace keyOf
  split
  · exact ⟨fun i _ j _ => by rw [Nat.zero_add]; rfl, by simp [screen, Page.move, hrow'], rfl⟩
  · split
    · exact ⟨fun i _ j _ => by rw [Nat.zero_add]; rfl, by simp [screen, Page.move], rfl⟩
    · split
      · exact ⟨fun i _ j _ => by rw [Nat.zero_add]; rfl, by simp [screen, Page.move],
          by simp [screen, Page.move, htab]⟩
      · refine ⟨fun i _ j hj => ?_, by simp [screen, Page.move], by simp [screen, Page.move, hcol']⟩
        rw [Nat.zero_add]
        exact cell_vgaSetChar hc hcol hj

/-- The line wrap is the one of a page. -/
theorem screen_vgaWrap {k : Kernel E} (hrow : k.vgaCursorR < 255) :
    screen (vgaWrap k) = (screen k).wrap 80 := by
  have hrow' : (k.vgaCursorR + 1) % 256 = k.vgaCursorR + 1 := Nat.mod_eq_of_lt (by omega)
  unfold vgaWrap Page.wrap
  by_cases hwrap : k.vgaCursorC ≥ vgaWidth
  · rw [if_pos hwrap, if_pos (show 80 ≤ (screen k).col from hwrap)]
    simp only [screen, hrow']
  · rw [if_neg hwrap, if_neg (show ¬80 ≤ (screen k).col from hwrap)]

/-- Writing a character changes the screen and the cursor only. -/
theorem sameOffScreen_vgaPlace {k : Kernel E} {c : UInt8} (hrow : k.vgaCursorR < 24)
    (hcol : k.vgaCursorC < 80) : SameOffScreen k (vgaPlace c k) := by
  unfold vgaPlace
  split
  · exact ⟨fun _ _ => rfl, rfl, rfl, rfl, rfl, rfl⟩
  · split
    · exact ⟨fun _ _ => rfl, rfl, rfl, rfl, rfl, rfl⟩
    · split
      · exact ⟨fun _ _ => rfl, rfl, rfl, rfl, rfl, rfl⟩
      · exact ⟨fun x hx => vgaSetChar_of_offScreen (by omega) hcol hx, rfl, rfl, rfl, rfl, rfl⟩

theorem sameOffScreen_vgaWrap (k : Kernel E) : SameOffScreen k (vgaWrap k) := by
  unfold vgaWrap
  split <;> exact ⟨fun _ _ => rfl, rfl, rfl, rfl, rfl, rfl⟩

section Scroll

variable {space : Space E} {kfree : Kfree E} {fuel : ℕ} {heap : ℕ → Prop} {I : Kernel E → Prop}

/-- A cell only depends on its two bytes. -/
theorem cell_congr {m m' : Mem} {r c : ℕ} (hr : r < 25) (hc : c < 80)
    (h : ∀ x, OnScreen x → m' x = m x) : cell m' r c = cell m r c := by
  unfold cell vgaWidth
  exact loadLE_congr fun x hx hlt => h x (by unfold OnScreen; omega)

/-- Memory after the rows below the first were copied to `buf`, and from there to the top. -/
def scrolled (m : Mem) (buf : ℕ) : Mem :=
  copyBytes (copyBytes m buf (vgaBase + 160) 3840) vgaBase buf 3840

/-- The two copies leave what is neither in the buffer nor on the screen. -/
theorem scrolled_of_off {m : Mem} {buf x : ℕ} (hbuf : buf + 3840 ≤ 4294967296)
    (hx : ¬(buf ≤ x ∧ x < buf + 3840)) (hscreen : ¬OnScreen x) : scrolled m buf x = m x := by
  unfold OnScreen at hscreen
  rw [scrolled, copyBytes_of_notMem (by unfold vgaBase; omega) (by omega),
    copyBytes_of_notMem hbuf (by omega)]

/-- The rows have moved up by way of the buffer, and the last row stays. -/
theorem cell_scrolled {m : Mem} {buf i j : ℕ} (hbuf : buf + 3840 ≤ 4294967296)
    (hside : buf + 3840 ≤ vgaBase ∨ vgaBase + 4000 ≤ buf) (hi : i ≤ 24) (hj : j < 80) :
    cell (scrolled m buf) i j = cell m (if i < 24 then i + 1 else i) j := by
  have hbase : vgaBase = 0xc00ff000 := rfl
  unfold cell vgaWidth scrolled
  by_cases hrow : i < 24
  · rw [if_pos hrow]
    refine loadLE_eq_of_forall fun e he => ?_
    have hsrc : vgaBase + 2 * ((i + 1) * 80 + j) + e = vgaBase + 160 + (2 * (i * 80 + j) + e) := by
      omega
    rw [Nat.add_assoc, copyBytes_of_mem (by omega) hbuf (by omega) (by omega),
      copyBytes_of_mem hbuf (by omega) (by omega) (by omega), hsrc]
  · rw [if_neg hrow]
    refine loadLE_congr fun x hx hlt => ?_
    rw [copyBytes_of_notMem (by omega) (by omega), copyBytes_of_notMem hbuf (by omega)]

/-- Scrolling by one row moves the rows up, and the last row stays. -/
theorem vgaScrolldown_spec (hb : ScrollBuffer space kfree fuel heap I) {k : Kernel E} (hk : I k) :
    ∃ k', vgaScrolldown space kfree fuel 1 k = some k' ∧ I k' ∧
      k'.vgaCursorR = k.vgaCursorR ∧ k'.vgaCursorC = k.vgaCursorC ∧
      (∀ x, ¬OnScreen x → ¬heap x → k'.mem x = k.mem x) ∧
      ∀ i ≤ 24, ∀ j < 80, cell k'.mem i j = cell k.mem (if i < 24 then i + 1 else i) j := by
  obtain ⟨buf, k₁, hkmalloc, hbuf32, hbuf, hk₁, hfree⟩ := hb.buffer k hk
  have happart : ∀ x, buf ≤ x → x < buf + 3840 → ¬OnScreen x :=
    fun x hx hlt => hb.apart x (hbuf x hx hlt)
  -- the ends of the buffer are not on the screen, so it lies on one side
  have hside : buf + 3840 ≤ vgaBase ∨ vgaBase + 4000 ≤ buf := by
    have hfirst := happart buf le_rfl (by omega)
    have hvga : ¬(buf ≤ vgaBase ∧ vgaBase < buf + 3840) :=
      fun h => happart vgaBase h.1 h.2 ⟨le_rfl, by omega⟩
    unfold OnScreen at hfirst
    omega
  have hoff : ∀ x, ¬(buf ≤ x ∧ x < buf + 3840) → ¬OnScreen x →
      scrolled k₁.mem buf x = k₁.mem x := fun x => scrolled_of_off hbuf32
  obtain ⟨st, k₂, hkfree, hk₂, hI⟩ := hfree _ hoff
  have hscreen₁ : ∀ x, OnScreen x → k₁.mem x = k.mem x :=
    fun x hx => hk₁.mem x fun hheap => hb.apart x hheap hx
  have hscreen₂ : ∀ x, OnScreen x → k₂.mem x = scrolled k₁.mem buf x :=
    fun x hx => hk₂.mem x fun hheap => hb.apart x hheap hx
  refine ⟨k₂, ?_, hI, hk₂.row.trans hk₁.row, hk₂.col.trans hk₁.col, ?_, ?_⟩
  · change memmove space kfree fuel vgaBase (vgaBase + 160) 3840 k = some k₂
    rw [memmove, hkmalloc]
    change (kfree buf { k₁ with mem := scrolled k₁.mem buf }).map Prod.snd = some k₂
    rw [hkfree, Option.map_some]
  · intro x hxscreen hxheap
    rw [hk₂.mem x hxheap, ← hk₁.mem x hxheap]
    exact hoff x (fun h => hxheap (hbuf x h.1 h.2)) hxscreen
  · intro i hi j hj
    rw [cell_congr (by omega) hj hscreen₂, cell_scrolled hbuf32 hside hi hj]
    exact cell_congr (by split <;> omega) hj hscreen₁

/-- The scroll at the end of `vga_putchar`, with the cursor behind the last row that is used. -/
theorem tracks_vgaScrolldown (hb : ScrollBuffer space kfree fuel heap I) {k : Kernel E} (hI : I k)
    (hge : 24 ≤ k.vgaCursorR) (hlt : k.vgaCursorR < 256) :
    ∃ k', ((vgaScrolldown space kfree fuel 1 k).map fun k =>
        { k with vgaCursorR := (k.vgaCursorR + 255) % 256 }) = some k' ∧ I k' ∧
      Tracks 24 80 0 (screen k') ((screen k).scroll 24) ∧
      ∀ x, ¬OnScreen x → ¬heap x → k'.mem x = k.mem x := by
  obtain ⟨k₂, hk₂, hI₂, hr, hcc, hmem, hcells⟩ := vgaScrolldown_spec hb hI
  refine ⟨{ k₂ with vgaCursorR := (k₂.vgaCursorR + 255) % 256 }, ?_, ?_, ?_, hmem⟩
  · rw [hk₂, Option.map_some]
  · exact hb.stable k₂ _ hI₂ ⟨fun _ _ => rfl, rfl, rfl, rfl, rfl, rfl⟩
  · unfold Page.scroll
    rw [if_pos (show 24 ≤ (screen k).row from hge)]
    refine ⟨fun i hi j hj => ?_, ?_, hcc.symm⟩
    · rw [Nat.zero_add]
      exact hcells i hi j hj
    · change k.vgaCursorR - 1 = 0 + (k₂.vgaCursorR + 255) % 256
      omega

/-- The row of the cursor does not wrap around before the line does. -/
theorem vgaPlace_row_lt {c : UInt8} {k : Kernel E} (hrow : k.vgaCursorR < 24) :
    (vgaPlace c k).vgaCursorR < 255 := by
  unfold vgaPlace
  split
  · change (k.vgaCursorR + 1) % 256 < 255
    omega
  · split
    · exact hrow.trans (by decide)
    · split
      · exact hrow.trans (by decide)
      · exact hrow.trans (by decide)

/-- The wrap of the line keeps the row of the cursor a byte. -/
theorem vgaWrap_row_lt {k : Kernel E} (hrow : k.vgaCursorR < 255) : (vgaWrap k).vgaCursorR < 256 := by
  unfold vgaWrap
  split
  · exact Nat.mod_lt _ (by decide)
  · exact hrow.trans (by decide)

/-- Moving the cursor and writing a character send nothing to the serial port. -/
theorem serial_vgaWrap_vgaPlace (c : UInt8) (k : Kernel E) :
    (vgaWrap (vgaPlace c k)).serial = k.serial := by
  have hplace : (vgaPlace c k).serial = k.serial := by
    unfold vgaPlace
    repeat' split
    all_goals rfl
  unfold vgaWrap
  split <;> exact hplace

/-- What `vga_putchar` of a 7-bit character does before it scrolls. -/
structure BeforeScroll (c : UInt8) (k k' : Kernel E) : Prop where
  /-- Only the screen, the cursor and the serial port change. -/
  off : SameOffScreen k k'
  /-- The character goes to the serial port. -/
  serial : k'.serial = k.serial ++ [c]
  /-- The row of the cursor is a byte. -/
  row_lt : k'.vgaCursorR < 256
  /-- The key is pressed. -/
  tracks : Tracks 24 80 0 (screen k') ((screen k).press 80 (keyOf c))

theorem beforeScroll_of_shows {k : Kernel E} {t : Page ℕ} (hs : Shows 24 80 (glyph 32) (screen k) t)
    {c : UInt8} (hc : c < 128) :
    BeforeScroll c k (vgaWrap (vgaPlace c { k with serial := k.serial ++ [c] })) := by
  have hrow : k.vgaCursorR < 24 := hs.row_lt
  have hcol : k.vgaCursorC < 80 := hs.tracks.col.symm.trans_lt hs.tidy.col_lt
  have hsent : SameOffScreen k { k with serial := k.serial ++ [c] } :=
    ⟨fun _ _ => rfl, rfl, rfl, rfl, rfl, rfl⟩
  have hrow' := vgaPlace_row_lt (c := c) (k := { k with serial := k.serial ++ [c] }) hrow
  have hplace := sameOffScreen_vgaPlace (c := c) (k := { k with serial := k.serial ++ [c] }) hrow hcol
  refine ⟨hsent.trans (hplace.trans (sameOffScreen_vgaWrap _)), serial_vgaWrap_vgaPlace c _,
    vgaWrap_row_lt hrow', ?_⟩
  rw [screen_vgaWrap hrow']
  exact (tracks_vgaPlace (k := { k with serial := k.serial ++ [c] }) hc hrow hcol).wrap

/-- `vga_putchar` of a 7-bit character presses its key. -/
theorem vgaPutchar_spec (hb : ScrollBuffer space kfree fuel heap I) {k : Kernel E} (hk : I k)
    {t : Page ℕ} (hs : Shows 24 80 (glyph 32) (screen k) t) {c : UInt8} (hc : c < 128) :
    ∃ k', vgaPutchar space kfree fuel c k = some k' ∧ I k' ∧
      Shows 24 80 (glyph 32) (screen k') (t.press 80 (keyOf c)) ∧
      ∀ x, ¬OnScreen x → ¬heap x → k'.mem x = k.mem x := by
  have hrow : k.vgaCursorR < 24 := hs.row_lt
  have hcol : k.vgaCursorC < 80 := hs.tracks.col.symm.trans_lt hs.tidy.col_lt
  have hrow' := vgaPlace_row_lt (c := c) (k := { k with serial := k.serial ++ [c] }) hrow
  generalize hk₁ : vgaWrap (vgaPlace c { k with serial := k.serial ++ [c] }) = k₁
  have hoff : SameOffScreen k k₁ := by
    have hplace : SameOffScreen k (vgaPlace c { k with serial := k.serial ++ [c] }) :=
      (show SameOffScreen k { k with serial := k.serial ++ [c] } from
        ⟨fun _ _ => rfl, rfl, rfl, rfl, rfl, rfl⟩).trans (sameOffScreen_vgaPlace hrow hcol)
    exact hk₁ ▸ hplace.trans (sameOffScreen_vgaWrap _)
  have htracks : Tracks 24 80 0 (screen k₁) ((screen k).press 80 (keyOf c)) := by
    rw [← hk₁, screen_vgaWrap hrow']
    exact (tracks_vgaPlace (k := { k with serial := k.serial ++ [c] }) hc hrow hcol).wrap
  have hshows := hs.press (keyOf c)
  have hI := hb.stable k k₁ hk hoff
  rw [vgaPutchar]
  simp only [hk₁]
  by_cases hscroll : k₁.vgaCursorR ≥ vgaHeight - 1
  · obtain ⟨k', hk', hI', hscrolled, hmem⟩ :=
      tracks_vgaScrolldown hb hI hscroll (hk₁ ▸ vgaWrap_row_lt hrow')
    rw [if_pos hscroll, hk']
    refine ⟨k', rfl, hI', hshows.congr (hscrolled.trans htracks.scroll_zero), ?_⟩
    intro x hxscreen hxheap
    exact (hmem x hxscreen hxheap).trans (hoff.mem x hxscreen)
  · rw [if_neg hscroll]
    refine ⟨k₁, rfl, hI, ?_, fun x hx _ => hoff.mem x hx⟩
    refine hshows.congr (Tracks.trans ?_ htracks.scroll_zero)
    have hsame : (screen k₁).scroll 24 = screen k₁ := if_neg hscroll
    rw [hsame]
    exact ⟨fun i _ j _ => by rw [Nat.zero_add], (Nat.zero_add _).symm, rfl⟩

end Scroll

end PakOS
