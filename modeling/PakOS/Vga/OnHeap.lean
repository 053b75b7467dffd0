import PakOS.Klibc.Memory
import PakOS.Kmalloc.StaleFree
import PakOS.Vga.Scrolling

/-!
# Printing among the clients of the heap

To scroll, the console takes a buffer from the heap in which everybody else keeps data.  Here it
prints on any reachable heap, between any calls of others: the kernel is then a store of objects, a
page, and what went to the serial port, and each step changes the part that it names
(`console_onHeap`).  A print neither fails nor touches an object.
-/

namespace PakOS

open Machine Coalesce Screen

variable {E : Type*} {base : HeapBase} {mmap : Mmap E} {s t u : History E} {bs bs' : List Block}
  {str str' : List UInt8}

/-- The history has a heap behind the screen that serves the buffer for scrolling. -/
structure Scrollable (s : History E) (bs : List Block) : Prop where
  /-- The heap. -/
  inv : HistoryInv s bs
  /-- It lies behind the screen. -/
  above : vgaBase + 4000 ≤ s.kernel.heapStart
  /-- It serves 24 rows. -/
  ready : Ready 3840 4294967295 s.kernel bs

/-- The history `t` is `s` after `str` was printed, as far as others can tell. -/
structure Printed (mmap : Mmap E) (s : History E) (str : List UInt8) (t : History E) : Prop where
  /-- The same addresses are live. -/
  live : t.live = s.live
  /-- They hold what they held. -/
  contents : ∀ p ∈ s.live, SameContents s.kernel t.kernel p
  /-- In front of the heap only the screen changes. -/
  front : ∀ x < s.kernel.heapStart, ¬OnScreen x → t.kernel.mem x = s.kernel.mem x
  /-- The heap starts where it did. -/
  start : t.kernel.heapStart = s.kernel.heapStart
  /-- The characters went to the serial port. -/
  serial : t.kernel.serial = s.kernel.serial ++ str
  /-- The heap was used as it should be. -/
  run : ∃ ops, ClientRun mmap s ops t

theorem Printed.trans (h : Printed mmap s str t) (h' : Printed mmap t str' u) :
    Printed mmap s (str ++ str') u := by
  obtain ⟨ops, hrun⟩ := h.run
  obtain ⟨ops', hrun'⟩ := h'.run
  refine ⟨h'.live.trans h.live, fun p hp => ?_, fun x hx hscreen => ?_, h'.start.trans h.start, ?_,
    ⟨_, hrun.trans hrun'⟩⟩
  · exact (h.contents p hp).trans (h'.contents p (h.live ▸ hp))
  · exact (h'.front x (h.start ▸ hx) hscreen).trans (h.front x hx hscreen)
  · rw [h'.serial, h.serial, List.append_assoc]

/-! ### One character -/

/-- What happens on the screen does not concern a heap behind it. -/
theorem sameHeap_of_sameOffScreen {k k' : Kernel E} (habove : vgaBase + 4000 ≤ k.heapStart)
    (hk : SameOffScreen k k') : SameHeap k k' := by
  refine ⟨hk.first, hk.start, hk.size, fun x hx _ => hk.mem x fun hscreen => ?_⟩
  exact absurd (hscreen.2.trans_le habove) (Nat.not_lt.mpr hx)

/-- Printing that stays on the screen. -/
theorem Scrollable.offScreen (mmap : Mmap E) (h : Scrollable s bs) {k : Kernel E}
    (hk : SameOffScreen s.kernel k) (hserial : k.serial = s.kernel.serial ++ str) :
    Printed mmap s str { s with kernel := k } ∧ Scrollable { s with kernel := k } bs := by
  have hheap := sameHeap_of_sameOffScreen h.above hk
  have hinv := h.inv.heap.of_sameHeap hheap
  refine ⟨⟨rfl, fun p hp => ?_, fun x _ hscreen => hk.mem x hscreen, hk.start, hserial,
    ⟨_, .cons (.other hheap) .nil⟩⟩, h.inv.kernel hinv, hk.start ▸ h.above, ?_⟩
  · obtain ⟨b, hb, -, rfl⟩ := h.inv.exists_block hp
    refine ⟨(hinv.size_eq hb).trans (h.inv.heap.size_eq hb).symm, fun i _ => ?_⟩
    refine hk.mem _ fun hscreen => ?_
    have hlt := hscreen.2.trans_le h.above
    have hplace := (h.inv.heap.placed.mem hb).1
    omega
  · have hready := h.ready
    unfold Ready at hready ⊢
    rwa [hk.start, hk.size]

/-- `vga_scrolldown` of one row moves the rows up by way of the heap. -/
theorem Scrollable.vgaScrolldown (mmap : Mmap E) (h : Scrollable s bs) :
    ∃ t bs', Yields (fun n => vgaScrolldown (kernelSpace mmap) (kfree (kernelSpace mmap) n) n 1
        s.kernel) t.kernel ∧ Printed mmap s [] t ∧ Scrollable t bs' ∧
      SameConsole s.kernel t.kernel ∧
      ∀ i ≤ 24, ∀ j < 80, cell t.kernel.mem i j =
        cell s.kernel.mem (if i < 24 then i + 1 else i) j := by
  have habove := h.above
  have hvga : vgaBase = 0xc00ff000 := rfl
  obtain ⟨k₁, bs₁, b, hyields, hall⟩ := h.ready.yields_kmalloc mmap h.inv.heap
    (by decide) (show 3840 + 35 < 4096 by decide) (by decide)
  obtain ⟨t, hreturns, hmoved, hinv, hready, hstart', hsizes⟩ := h.inv.moved_of_allocated
    (by decide) (by decide) hyields hall (show s.Region (vgaBase + 160) 3840 from Or.inl (by omega))
    (show s.Region vgaBase 3840 from Or.inl (by omega)) (by omega) (by omega)
  refine ⟨t, _, hreturns, ⟨hmoved.live, fun p hp => ⟨hsizes p hp, fun i hi => ?_⟩,
    fun x hx hscreen => ?_, hstart', ?_, hmoved.run⟩, ⟨hinv, hstart' ▸ habove, hready⟩,
    hmoved.console, fun i hi j hj => ?_⟩
  · -- what is live lies behind the screen
    obtain ⟨c, hc, -, rfl⟩ := h.inv.exists_block hp
    have hplace := (h.inv.heap.placed.mem hc).1
    refine hmoved.others _ (Or.inr ⟨_, hp, Nat.le_add_right _ _, ?_⟩) (Or.inr (by omega))
    exact Nat.add_lt_add_left hi _
  · refine hmoved.others x (Or.inl hx) ?_
    unfold OnScreen at hscreen
    omega
  · rw [hmoved.console.serial, List.append_nil]
  · unfold cell vgaWidth
    by_cases hrow : i < 24
    · rw [if_pos hrow]
      refine loadLE_eq_of_forall fun e he => ?_
      rw [Nat.add_assoc, hmoved.copied _ (by omega)]
      congr 1
      omega
    · rw [if_neg hrow]
      refine loadLE_congr fun x hx hlt => hmoved.others x (Or.inl ?_) (Or.inr (by omega))
      omega

/-- After the rows have moved up and the cursor with them, the screen is the page scrolled. -/
theorem tracks_scroll {k k₂ : Kernel E} (hge : 24 ≤ k.vgaCursorR) (hlt : k.vgaCursorR < 256)
    (hsame : SameConsole k k₂)
    (hcells : ∀ i ≤ 24, ∀ j < 80, cell k₂.mem i j = cell k.mem (if i < 24 then i + 1 else i) j) :
    Tracks 24 80 0 (screen { k₂ with vgaCursorR := (k₂.vgaCursorR + 255) % 256 })
      ((screen k).scroll 24) := by
  have hrow := hsame.row
  unfold Page.scroll
  rw [if_pos (show 24 ≤ (screen k).row from hge)]
  refine ⟨fun i hi j hj => ?_, ?_, hsame.col.symm⟩
  · rw [Nat.zero_add]
    exact hcells i hi j hj
  · change k.vgaCursorR - 1 = 0 + (k₂.vgaCursorR + 255) % 256
    omega

/-- `vga_putchar` of a 7-bit character presses its key, on every heap. -/
theorem Scrollable.vgaPutchar (mmap : Mmap E) (h : Scrollable s bs) {p : Page ℕ}
    (hs : Shows 24 80 (glyph 32) (screen s.kernel) p) {c : UInt8} (hc : c < 128) :
    ∃ t bs', Yields (fun n => vgaPutchar (kernelSpace mmap) (kfree (kernelSpace mmap) n) n c
        s.kernel) t.kernel ∧ Printed mmap s [c] t ∧ Scrollable t bs' ∧
      Shows 24 80 (glyph 32) (screen t.kernel) (p.press 80 (keyOf c)) := by
  generalize hk₁ : vgaWrap (vgaPlace c { s.kernel with serial := s.kernel.serial ++ [c] }) = k₁
  have hplaced := beforeScroll_of_shows hs hc
  rw [hk₁] at hplaced
  obtain ⟨hoff, hserial, hlt, htracks⟩ := hplaced
  have hshows := hs.press (keyOf c)
  obtain ⟨hprinted, hscrollable⟩ := h.offScreen mmap hoff hserial
  have hputchar : ∀ n, PakOS.vgaPutchar (kernelSpace mmap) (kfree (kernelSpace mmap) n) n c
      s.kernel = if k₁.vgaCursorR ≥ 24 then
        (PakOS.vgaScrolldown (kernelSpace mmap) (kfree (kernelSpace mmap) n) n 1 k₁).map fun k =>
          { k with vgaCursorR := (k.vgaCursorR + 255) % 256 }
      else some k₁ := fun n => by
    rw [PakOS.vgaPutchar]
    simp only [hk₁]
    rfl
  simp only [hputchar]
  by_cases hscroll : k₁.vgaCursorR ≥ 24
  · simp only [if_pos hscroll]
    obtain ⟨t, bs', hreturns, hprinted', hscrollable', hsame, hcells⟩ :=
      hscrollable.vgaScrolldown mmap
    -- the cursor follows the rows
    obtain ⟨hlast, hscrollable''⟩ := hscrollable'.offScreen mmap
      (k := { t.kernel with vgaCursorR := (t.kernel.vgaCursorR + 255) % 256 })
      ⟨fun _ _ => rfl, rfl, rfl, rfl, rfl, rfl⟩
      (show t.kernel.serial = t.kernel.serial ++ [] from (List.append_nil _).symm)
    refine ⟨_, bs', hreturns.map _, ?_, hscrollable'', hshows.congr
      ((tracks_scroll hscroll hlt hsame hcells).trans htracks.scroll_zero)⟩
    have hall := (hprinted.trans hprinted').trans hlast
    rwa [List.append_nil, List.append_nil] at hall
  · simp only [if_neg hscroll]
    refine ⟨_, bs, Yields.const k₁, hprinted, hscrollable, hshows.congr
      (Tracks.trans ?_ htracks.scroll_zero)⟩
    have hsame : (screen k₁).scroll 24 = screen k₁ := if_neg hscroll
    rw [hsame]
    exact ⟨fun i _ j _ => by rw [Nat.zero_add], (Nat.zero_add _).symm, rfl⟩

/-- `vga_print` of 7-bit characters presses their keys, on every heap. -/
theorem Scrollable.vgaPrint (mmap : Mmap E) (h : Scrollable s bs) {p : Page ℕ}
    (hs : Shows 24 80 (glyph 32) (screen s.kernel) p) (hstr : ∀ c ∈ str, c < 128) :
    ∃ t bs', Yields (fun n => vgaPrint (kernelSpace mmap) (kfree (kernelSpace mmap) n) n str
        s.kernel) t.kernel ∧ Printed mmap s str t ∧ Scrollable t bs' ∧
      Shows 24 80 (glyph 32) (screen t.kernel) (p.type 80 (str.map keyOf)) := by
  induction str generalizing s bs p with
  | nil =>
    have hnone : Printed mmap s [] s := ⟨rfl, fun p _ => ⟨rfl, fun _ _ => rfl⟩, fun _ _ _ => rfl,
      rfl, (List.append_nil _).symm, ⟨[], .nil⟩⟩
    exact ⟨s, bs, Yields.const _, hnone, h, hs⟩
  | cons c cs ih =>
    obtain ⟨t, bs₁, hfirst, hprinted, hscrollable, hshows⟩ :=
      h.vgaPutchar mmap hs (hstr c List.mem_cons_self)
    obtain ⟨u, bs₂, hrest, hprinted', hscrollable', hshows'⟩ :=
      ih hscrollable hshows fun d hd => hstr d (List.mem_cons_of_mem c hd)
    refine ⟨u, bs₂, ?_, hprinted.trans hprinted', hscrollable', hshows'⟩
    have hall := hfirst.bind (g := fun k n =>
      PakOS.vgaPrint (kernelSpace mmap) (kfree (kernelSpace mmap) n) n cs k) hrest
    have hcons : ∀ n, PakOS.vgaPrint (kernelSpace mmap) (kfree (kernelSpace mmap) n) n (c :: cs)
        s.kernel = (PakOS.vgaPutchar (kernelSpace mmap) (kfree (kernelSpace mmap) n) n c
          s.kernel).bind fun k =>
            PakOS.vgaPrint (kernelSpace mmap) (kfree (kernelSpace mmap) n) n cs k := fun n => by
      rw [PakOS.vgaPrint]
      cases PakOS.vgaPutchar (kernelSpace mmap) (kfree (kernelSpace mmap) n) n c s.kernel <;> rfl
    simpa only [hcons] using hall

/-! ### What the calls of others show -/

/-- Neither the screen nor the cursor nor the serial port changes. -/
structure Quiet (k k' : Kernel E) : Prop where
  /-- The screen. -/
  mem : ∀ x, OnScreen x → k'.mem x = k.mem x
  /-- The cursor and the serial port. -/
  console : SameConsole k k'

theorem Quiet.screen {k k' : Kernel E} (h : Quiet k k') :
    Tracks 24 80 0 (screen k') (screen k) := by
  refine ⟨fun i hi j hj => ?_, ?_, h.console.col.symm⟩
  · rw [Nat.zero_add]
    exact cell_congr (by omega) hj h.mem
  · rw [Nat.zero_add]
    exact h.console.row.symm

/-- `kmalloc` shows nothing, and what it returns lies behind the screen. -/
theorem quiet_kmalloc {k k' : Kernel E} {fuel length p : ℕ} (h : HeapInv k bs)
    (habove : vgaBase + 4000 ≤ k.heapStart)
    (hk : kmalloc (kernelSpace mmap) fuel length k = some (p, k')) (hlen : SizeOk length)
    (hend : EndOk k k') : Quiet k k' ∧ k'.heapStart = k.heapStart ∧ vgaBase + 4000 ≤ p ∧
      p + length ≤ 4294967296 := by
  obtain ⟨bs', b, rfl, hall⟩ := exists_allocated h hk hlen hend
  obtain ⟨hb, -, hsize⟩ := hall.block hlen
  have hplace := (hall.heap.placed.mem hb).1
  have hbounds := hall.heap.block_bounds hb
  have hstart := hall.start
  refine ⟨⟨fun x hx => hall.frame x (hall.heap.offHeaders_of_lt ?_), kmalloc_sameConsole h hk⟩,
    hstart, by omega, by omega⟩
  have hlt := hx.2
  omega

/-- The calls of others, but for those that do something else, show nothing. -/
theorem ClientStep.quiet {op : ObjectStore.Op ℕ UInt8} (h : HistoryInv s bs)
    (habove : vgaBase + 4000 ≤ s.kernel.heapStart) (hs : ClientStep mmap s op t)
    (hskip : op ≠ .skip) : Quiet s.kernel t.kernel := by
  cases hs with
  | kmalloc hk hlen hend =>
    rw [History.handOut_kernel]
    exact (quiet_kmalloc h.heap habove hk hlen hend).1
  | kcalloc hk hmul hlen hend =>
    obtain ⟨k₁, hk₁, rfl⟩ := kcalloc_eq_some_iff.mp hk
    rw [mul32_of_lt hmul] at hk₁ hend ⊢
    obtain ⟨hquiet, -, hp, hfits⟩ := quiet_kmalloc h.heap habove hk₁ hlen hend
    rw [History.handOut_kernel]
    refine ⟨fun x hx => (fillBytes_of_notMem hfits (Or.inl ?_)).trans (hquiet.mem x hx),
      hquiet.console.row, hquiet.console.col, hquiet.console.serial⟩
    exact hx.2.trans_le hp
  | kreallocNull hk hlen hend =>
    rw [History.moved_kernel]
    exact (quiet_kmalloc h.heap habove hk hlen hend).1
  | @krealloc fuel ptr size q k hptr hk hlen hend =>
    obtain ⟨b, hb, hfree, rfl⟩ := h.exists_block hptr
    rw [recordedSize, h.heap.size_eq hb] at hend
    rw [History.moved_kernel]
    by_cases hsize : size ≤ b.size
    · rw [h.heap.krealloc_keep hb hsize fuel] at hk
      simp only [Option.some.injEq, Prod.mk.injEq] at hk
      obtain ⟨-, rfl⟩ := hk
      exact ⟨fun _ _ => rfl, rfl, rfl, rfl⟩
    · have hlt := Nat.lt_of_not_le hsize
      obtain ⟨k₁, bs₁, b₁, hkm, rfl, hmoves⟩ :=
        krealloc_moves h.heap hb hfree hk hlen hlt (hend hlt)
      obtain ⟨hquiet, hstart, hp, -⟩ :=
        quiet_kmalloc h.heap habove hkm hlen (hend hlt _ _ hkm)
      -- the bytes that are copied go to the new block
      have hmem : ∀ x, OnScreen x → k.mem x = s.kernel.mem x := fun x hx =>
        hmoves.frame x (hmoves.inv₁.offHeaders_of_lt (hstart ▸ hx.2.trans_le habove))
          (Or.inl (hx.2.trans_le hp))
      obtain ⟨m, rfl⟩ := hmoves.kernel
      exact ⟨hmem, hquiet.console.row, hquiet.console.col, hquiet.console.serial⟩
  | kfreeNull hk => exact absurd rfl hskip
  | kfree hptr hk =>
    obtain ⟨b, hb, -, rfl⟩ := h.exists_block hptr
    obtain ⟨-, rfl, -⟩ := kfree_step h.heap hb hk
    rw [History.giveBack_kernel]
    exact ⟨fun x hx => h.heap.kfreeBlock_of_offHeaders hb
      (h.heap.offHeaders_of_lt (hx.2.trans_le habove)), rfl, rfl, rfl⟩
  | write hptr hi =>
    obtain ⟨b, hb, -, rfl⟩ := h.exists_block hptr
    have hplace := (h.heap.placed.mem hb).1
    refine ⟨fun x hx => Function.update_of_ne ?_ _ _, rfl, rfl, rfl⟩
    have hlt := hx.2
    omega
  | other hk => exact absurd rfl hskip

/-! ### The kernel as a store, a page and a serial line -/

/-- What happens in the kernel, as far as its clients can tell. -/
inductive DeskEvent
  /-- Somebody uses the heap, or does something else. -/
  | call (op : ObjectStore.Op ℕ UInt8)
  /-- The screen is cleared. -/
  | clear
  /-- Something is printed. -/
  | print (str : List UInt8)

/-- The objects of the heap, the page that was printed on, and what was sent to the serial port. -/
structure Desk where
  /-- The objects. -/
  store : ObjectStore.Store ℕ UInt8
  /-- The page. -/
  page : Page ℕ
  /-- The characters sent. -/
  sent : List UInt8

/-- Each event changes what it names, and nothing else. -/
inductive Desk.Step (d : Desk) : DeskEvent → Desk → Prop
  /-- A step of the store. -/
  | call {op : ObjectStore.Op ℕ UInt8} {σ : ObjectStore.Store ℕ UInt8}
      (hop : ObjectStore.Step d.store op σ) : Desk.Step d (.call op) { d with store := σ }
  /-- A new page. -/
  | clear : Desk.Step d .clear { d with page := .blank (glyph 32) }
  /-- The keys are pressed, and the characters sent. -/
  | print {str : List UInt8} : Desk.Step d (.print str)
      { d with page := d.page.type 80 (str.map keyOf), sent := d.sent ++ str }

/-- A run. -/
inductive Desk.Run : Desk → List DeskEvent → Desk → Prop
  /-- No step. -/
  | nil {d : Desk} : Desk.Run d [] d
  /-- A step, and what follows. -/
  | cons {d d' d'' : Desk} {e : DeskEvent} {es : List DeskEvent} (hstep : Desk.Step d e d')
      (hrun : Desk.Run d' es d'') : Desk.Run d (e :: es) d''

/-- A step of the kernel: a call of a client, `vga_clear`, or `vga_print` of 7-bit characters, where
the end of the heap does not wrap around if the heap has to grow for the buffer. -/
inductive DeskStep (mmap : Mmap E) (s : History E) : DeskEvent → History E → Prop
  /-- Somebody uses the heap, or does something else that does not show. -/
  | call {op : ObjectStore.Op ℕ UInt8} {t : History E} (hop : ClientStep mmap s op t)
      (hskip : op = .skip → Quiet s.kernel t.kernel) : DeskStep mmap s (.call op) t
  /-- `vga_clear()` -/
  | clear : DeskStep mmap s .clear { s with kernel := vgaClear s.kernel }
  /-- `vga_print(str)` -/
  | print {fuel : ℕ} {str : List UInt8} {k : Kernel E}
      (hk : PakOS.vgaPrint (kernelSpace mmap) (kfree (kernelSpace mmap) fuel) fuel str s.kernel =
        some k)
      (hstr : ∀ c ∈ str, c < 128)
      (hend : ∀ fuel p k₁, kmalloc (kernelSpace mmap) fuel 3840 s.kernel = some (p, k₁) →
        EndOk s.kernel k₁) : DeskStep mmap s (.print str) { s with kernel := k }

/-- A run of such steps. -/
inductive DeskRun (mmap : Mmap E) : History E → List DeskEvent → History E → Prop
  /-- No step. -/
  | nil {s : History E} : DeskRun mmap s [] s
  /-- A step, and what follows. -/
  | cons {s t u : History E} {e : DeskEvent} {es : List DeskEvent} (hstep : DeskStep mmap s e t)
      (hrun : DeskRun mmap t es u) : DeskRun mmap s (e :: es) u

/-- The kernel is the desk `d`: its objects, the page on its screen, and its serial port. -/
structure OnDesk (s : History E) (d : Desk) : Prop where
  /-- The heap. -/
  inv : ∃ bs, HistoryInv s bs
  /-- It lies behind the screen. -/
  above : vgaBase + 4000 ≤ s.kernel.heapStart
  /-- The objects. -/
  store : s.store = d.store
  /-- The page. -/
  page : Shows 24 80 (glyph 32) (screen s.kernel) d.page
  /-- The characters sent. -/
  sent : s.kernel.serial = d.sent

/-- A kernel whose heap has room for the buffer scrolls. -/
theorem HistoryInv.scrollable (h : HistoryInv s bs) (habove : vgaBase + 4000 ≤ s.kernel.heapStart)
    (hend : ∀ fuel p k₁, kmalloc (kernelSpace mmap) fuel 3840 s.kernel = some (p, k₁) →
      EndOk s.kernel k₁) : Scrollable s bs :=
  ⟨h, habove, h.heap.ready_of_endOk (by decide) hend⟩

/-- One step of the kernel is one step of the desk. -/
theorem DeskStep.onDesk {d : Desk} {e : DeskEvent} (hs : OnDesk s d) (hstep : DeskStep mmap s e t) :
    ∃ d', Desk.Step d e d' ∧ OnDesk t d' := by
  obtain ⟨bs, h⟩ := hs.inv
  cases hstep with
  | @call op t hop hskip =>
    have hquiet : Quiet s.kernel t.kernel := by
      by_cases hop' : op = .skip
      · exact hskip hop'
      · exact hop.quiet h hs.above hop'
    obtain ⟨bs', h', hlayout⟩ := (hop.step h).refines h
    have hstart : t.kernel.heapStart = s.kernel.heapStart := Layout.Run.start hlayout
    exact ⟨_, .call (hs.store ▸ hop.store h), ⟨bs', h'⟩, hstart ▸ hs.above, rfl,
      hs.page.congr hquiet.screen, hquiet.console.serial.trans hs.sent⟩
  | clear =>
    have hheap := sameHeap_of_sameOffScreen hs.above (sameOffScreen_vgaClear s.kernel)
    exact ⟨_, .clear, ⟨bs, h.kernel (h.heap.of_sameHeap hheap)⟩, hheap.start ▸ hs.above,
      (h.store_other hheap).trans hs.store, shows_vgaClear s.kernel, hs.sent⟩
  | @print fuel str k hk hstr hend =>
    obtain ⟨u, bs', hyields, hprinted, hscrollable, hshows⟩ :=
      (h.scrollable hs.above hend).vgaPrint mmap hs.page hstr
    obtain rfl := hyields.unique fuel k hk
    have hstore : History.store { s with kernel := u.kernel } = s.store :=
      funext fun p => History.store_congr Iff.rfl (hprinted.contents p)
    refine ⟨_, .print, ⟨bs', hscrollable.inv.heap, h.nodup, ?_⟩, hscrollable.above,
      hstore.trans hs.store, hshows, hprinted.serial.trans (congrArg (· ++ str) hs.sent)⟩
    rw [← hprinted.live]
    exact hscrollable.inv.live

/-- A run of the kernel is a run of the desk. -/
theorem DeskRun.onDesk {d : Desk} {es : List DeskEvent} (hs : OnDesk s d)
    (hrun : DeskRun mmap s es t) : ∃ d', Desk.Run d es d' ∧ OnDesk t d' := by
  induction hrun generalizing d with
  | nil => exact ⟨d, .nil, hs⟩
  | cons hstep _ ih =>
    obtain ⟨d₁, hd, hs₁⟩ := hstep.onDesk hs
    obtain ⟨d₂, hrun', hs₂⟩ := ih hs₁
    exact ⟨d₂, .cons hd hrun', hs₂⟩

/-- **Printing among the clients of the heap.**  From a reachable heap and a screen that shows a
page, every run of heap calls, `vga_clear` and `vga_print`, in any order, is a run of a store of
objects, a page and a serial line, each of which changes in its own steps only.  The console shows
the end of the page; and as long as the heap can still serve the buffer for scrolling, the next print
succeeds, and uses the heap as a client that gives back what it takes. -/
theorem console_onHeap {p : Page ℕ} {es : List DeskEvent} (hs : Reachable base mmap s)
    (hpage : Shows 24 80 (glyph 32) (screen s.kernel) p) (hrun : DeskRun mmap s es t) :
    ∃ p', Desk.Run ⟨s.store, p, s.kernel.serial⟩ es ⟨t.store, p', t.kernel.serial⟩ ∧
      ShowsEnd t.kernel p' ∧
      ∀ str : List UInt8, (∀ c ∈ str, c < 128) →
        (∀ fuel q k₁, kmalloc (kernelSpace mmap) fuel 3840 t.kernel = some (q, k₁) →
          EndOk t.kernel k₁) →
        ∃ u, Yields (fun n => PakOS.vgaPrint (kernelSpace mmap) (kfree (kernelSpace mmap) n) n str
          t.kernel) u.kernel ∧ ShowsEnd u.kernel (p'.type 80 (str.map keyOf)) ∧
          u.live = t.live ∧ ∃ ops, ClientRun mmap t ops u := by
  obtain ⟨⟨store, p', sent⟩, hdesk, ht⟩ :=
    hrun.onDesk (d := ⟨s.store, p, s.kernel.serial⟩) ⟨hs.inv, hs.above, rfl, hpage, rfl⟩
  obtain rfl : t.store = store := ht.store
  obtain rfl : t.kernel.serial = sent := ht.sent
  refine ⟨p', hdesk, showsEnd_of_shows ht.page, fun str hstr hend => ?_⟩
  obtain ⟨bs, h⟩ := ht.inv
  obtain ⟨u, -, hyields, hprinted, -, hshows⟩ :=
    (h.scrollable ht.above hend).vgaPrint mmap ht.page hstr
  exact ⟨u, hyields, showsEnd_of_shows hshows, hprinted.live, hprinted.run⟩

/-- On the heap as `init_kmalloc` leaves it, an `A`, thirty newlines and a `B` are printed: the `B`
stands in the last row but one. -/
theorem console_onHeap_scrolling : ∃ s t : History Unit, Reachable kernelHeap mapAll s ∧
    DeskRun mapAll s [.print scrolling] t ∧ cell t.kernel.mem 23 1 = glyph 66 := by
  obtain ⟨k, hk⟩ := exists_initKmalloc kernelHeap mapAll (k := bootKernel) rfl
  obtain ⟨-, hstart, hsize, -, hinv⟩ := initKmalloc_spec rfl hk
  have hbegin : Reachable kernelHeap mapAll (kernelHeap.history k) :=
    ⟨bootKernel, k, 3, .ok, rfl, hk, .refl⟩
  -- the screen is cleared
  have hheap : SameHeap (kernelHeap.history k).kernel (vgaClear k) :=
    sameHeap_of_sameOffScreen hbegin.above (sameOffScreen_vgaClear k)
  have hcleared := hbegin.tail (.other hheap)
  have hstr : ∀ c ∈ scrolling, c < 128 := by decide +kernel
  have hend : ∀ fuel p k₁, kmalloc (kernelSpace mapAll) fuel 3840 (vgaClear k) = some (p, k₁) →
      EndOk (vgaClear k) k₁ := fun fuel p k₁ hk₁ => by
    have hfirst : HeapInv (vgaClear k)
        ([] ++ ⟨kernelHeap.start, kernelHeap.grow - 40, true⟩ :: []) := hinv.of_sameHeap hheap
    obtain ⟨-, ⟨m, rfl⟩, -⟩ := eq_of_kmalloc_of_fits hfirst (by simp) ⟨rfl, by decide⟩ hk₁
    have hbound : k.heapStart + k.heapSize < 4294967296 := by
      rw [hstart, hsize]
      decide
    exact ⟨le_rfl, hbound⟩
  obtain ⟨p, hdesk, -, hprints⟩ := console_onHeap hcleared (shows_vgaClear k) .nil
  cases hdesk
  obtain ⟨u, hyields, hshows, -⟩ := hprints scrolling hstr hend
  obtain ⟨fuel, hprint⟩ := hyields.exists_run
  refine ⟨_, _, hcleared, .cons (.print hprint hstr hend) .nil, ?_⟩
  rw [hshows.rows 23 (by decide) 1 (by decide)]
  decide +kernel

end PakOS
