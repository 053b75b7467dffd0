import PakOS.Klibc.PrintkExpansion
import PakOS.Klibc.PrintkHeap
import PakOS.Kmalloc.Lost
import PakOS.Vga.OnHeap

/-!
# `printk` among the clients of the heap

`printk` takes a buffer, takes a block for each numeral, prints, which may take another block to
scroll, and gives all of them back.  It does so among everybody else: every run of heap calls and
output, in any order, is a run of a store of objects, a page and a serial line, in which a call of
`printk` types what its format stands for (`printk_onHeap`).  A message neither fails nor touches an
object; what may happen is that a block stays in use that nobody holds.
-/

namespace PakOS

open Machine Coalesce Screen

variable {E : Type*} {base : HeapBase} {mmap : Mmap E} {s t : History E} {bs : List Block}
  {lost : List ℕ} {fmt limit : ℕ} {f out str : List UInt8} {args : List Arg} {ps : List Piece}
  {k₀ : Kernel E} {bs₀ : List Block} {b : Block} {st : Printk E}

/-- The format `f` at `fmt` with the arguments `args` is a message: it stands for the pieces `ps`,
which fit into the buffer and have 7-bit characters, and the heap may grow by three pages, for the
buffer, the numerals, and the buffer for scrolling. -/
structure Message (s : History E) (fmt : ℕ) (f : List UInt8) (args : List Arg) (ps : List Piece) :
    Prop where
  /-- The format. -/
  format : StringAt s fmt f
  /-- What it stands for. -/
  reads : Matches (StringAt s) ((f.length + 1) % 65536) ((f.length + 1) % 65536) (f ++ [0]) args ps
  /-- The strings are short. -/
  short : ∀ p ∈ ps, p.Short
  /-- The pieces fit. -/
  fits : (bytesOf ps).length ≤ 199
  /-- The characters. -/
  ascii : ∀ c ∈ bytesOf ps, c < 128
  /-- The room. -/
  room : s.kernel.heapStart + s.kernel.heapSize + 12288 < 4294967296

/-- The kernel `k` is what a call of `printk` leaves that prints `str`. -/
structure Logged (s : History E) (str : List UInt8) (k : Kernel E) : Prop where
  /-- The heap is one in which what the clients hold is in use. -/
  inv : ∃ lost bs, HistoryInv ({ s with kernel := k }.withLost lost) bs
  /-- The clients' objects are what they were. -/
  contents : ∀ p ∈ s.live, SameContents s.kernel k p
  /-- In front of the heap only the screen changes. -/
  front : ∀ x < s.kernel.heapStart, ¬OnScreen x → k.mem x = s.kernel.mem x
  /-- The heap starts where it did. -/
  start : k.heapStart = s.kernel.heapStart
  /-- The characters went to the serial port. -/
  serial : k.serial = s.kernel.serial ++ str

/-! ### The loop and its buffer -/

/-- A string that is nobody's business still is when more blocks are in use. -/
theorem StringAt.withLost {p : ℕ} (h : StringAt s p str) (lost : List ℕ) :
    StringAt (s.withLost lost) p str := by
  refine ⟨h.string, fun x hlo hhi => (h.owned x hlo hhi).imp_right fun hx => hx.imp_right ?_⟩
  rintro ⟨q, hq, hx⟩
  exact ⟨q, List.mem_append_left lost hq, hx⟩

/-- `printk` takes its buffer. -/
theorem exists_working (mmap : Mmap E) (h : HeapInv k₀ bs₀)
    (hlimit : k₀.heapStart + k₀.heapSize + 8192 = limit) (hlt : limit < 4294967296)
    (args : List Arg) :
    ∃ b k₁ bs₁, Yields (fun n => kmalloc (kernelSpace mmap) n 200 k₀) (b.addr + 20, k₁) ∧
      Printing limit k₀ bs₀ b [] ⟨0, 0, args, k₁⟩ ∧ Allocated limit k₀ bs₀ 200 k₁ bs₁ b ∧
      Working limit b k₁ bs₁ := by
  have hready : Ready 208 (limit - 4096) k₀ bs₀ := Or.inl (by omega)
  obtain ⟨k₁, bs₁, b, hyields, hall⟩ := hready.yields_kmalloc mmap h (by omega)
    (show 200 + 35 < 4096 by decide) (show align16 200 ≤ 208 by decide)
  have hok : SizeOk 200 := by decide
  obtain ⟨hb, hbfree, hsize⟩ := hall.block hok
  have hle := hall.le
  have hready' : Ready 32 limit k₁ bs₁ := Or.inl (by omega)
  have hall' : Allocated limit k₀ bs₀ 200 k₁ bs₁ b := hall.mono (by omega)
  exact ⟨b, k₁, bs₁, hyields, ⟨⟨bs₁, hall'.buffered h hok hsize, hready'⟩, rfl, Nat.zero_le _⟩,
    hall', hall.heap, hb, hbfree, hsize, hready'⟩

/-- The terminator makes the buffer a string. -/
theorem Printing.terminated (h : Printing limit k₀ bs₀ b out st) (hout : out.length < 200) :
    CString (Function.update st.kernel.mem (add32 (b.addr + 20) st.bufidx) 0) (b.addr + 20)
      (upToNul out) := by
  obtain ⟨⟨bs, hbuf, -⟩, hidx, -⟩ := h
  have hlt := hbuf.lt
  rw [hidx, add32_of_lt (by omega)]
  refine cstring_upToNul (holds_append.mpr ⟨hbuf.text.congr fun x _ hx => ?_, ?_, trivial⟩)
    (by omega)
  · exact Function.update_of_ne (by omega) _ _
  · exact Function.update_self _ _ _

/-- It changes no byte that was settled before. -/
theorem Printing.settled (h : Printing limit k₀ bs₀ b out st) (hout : out.length < 200) {x : ℕ}
    (hx : Settled limit k₀ bs₀ x) :
    Function.update st.kernel.mem (add32 (b.addr + 20) st.bufidx) 0 x = k₀.mem x := by
  obtain ⟨⟨bs, hbuf, -⟩, hidx, -⟩ := h
  have hlt := hbuf.lt
  have hsize := hbuf.size
  obtain ⟨hmem, -, hapart⟩ := hbuf.settled x hx
  unfold Block.stop at hapart
  rw [hidx, add32_of_lt (by omega), Function.update_of_ne (by omega), hmem]

/-- The text `str` stands in a buffer of the heap, and nothing was printed yet. -/
structure Composed (s : History E) (str : List UInt8) (buffer : ℕ) (k : Kernel E) : Prop where
  /-- The buffer is one more live address. -/
  inv : ∃ lost bs, HistoryInv (History.withLost ⟨k, buffer :: s.live, s.stale⟩ lost) bs
  /-- The text. -/
  text : CString k.mem buffer str
  /-- The clients' objects are what they were. -/
  contents : ∀ p ∈ s.live, SameContents s.kernel k p
  /-- Nothing in front of the heap has changed. -/
  front : ∀ x < s.kernel.heapStart, k.mem x = s.kernel.mem x
  /-- Nothing was printed. -/
  console : SameConsole s.kernel k
  /-- The heap starts where it did. -/
  start : k.heapStart = s.kernel.heapStart
  /-- It has grown by two pages at most. -/
  size : k.heapStart + k.heapSize ≤ s.kernel.heapStart + s.kernel.heapSize + 8192

/-- The buffer behind the loop, with the terminator, when all stores were inside it. -/
theorem HistoryInv.composed_of_worked {k₁ : Kernel E} {bs₁ bs₂ : List Block} {fuel : ℕ}
    (h : HistoryInv (s.withLost lost) bs)
    (hk₁ : kmalloc (kernelSpace mmap) fuel 200 s.kernel = some (b.addr + 20, k₁))
    (hall : Allocated limit s.kernel bs 200 k₁ bs₁ b)
    (hworked : Worked limit b k₁ bs₁ st.kernel bs₂)
    (hprinted : Printing limit s.kernel bs b out st) (hout : out.length < 200)
    (hlimit : s.kernel.heapStart + s.kernel.heapSize + 8192 = limit) :
    Composed s (upToNul out) (b.addr + 20) { st.kernel with
      mem := Function.update st.kernel.mem (add32 (b.addr + 20) st.bufidx) 0 } := by
  have hheap : HeapInv s.kernel bs := h.heap
  obtain ⟨-, hbfree, -⟩ := hall.block (by decide)
  have hput := hworked.working.put 0 (hprinted.bufidx.trans_lt hout)
  have hblocks : ∀ c ∈ bs, c.free = false → c ∈ bs₂ := fun c hc hfree =>
    hworked.blocks c (hall.mem_of_mem hheap hc hfree).1 hfree
  have hlive : ∀ p ∈ s.live, ∃ c ∈ bs, c.free = false ∧ p = c.addr + 20 := fun p hp =>
    h.exists_block (List.mem_append_left lost hp)
  have hnew : b.addr + 20 ∉ s.live := fun hp =>
    KmallocStep.notMem_live (s := s.withLost lost) hall.step h (List.mem_append_left lost hp)
  have hconsole := (kmalloc_sameConsole hheap hk₁).trans hworked.console
  refine ⟨?_, hprinted.terminated hout, fun p hp => ?_,
    fun x hx => hprinted.settled hout (Or.inl hx),
    ⟨hconsole.row, hconsole.col, hconsole.serial⟩, hworked.start.trans hall.start, ?_⟩
  · -- what was in use still is, and the buffer as well
    have hheld : ∀ p ∈ (b.addr + 20) :: s.live, ∃ c ∈ bs₂, c.free = false ∧ p = c.addr + 20 := by
      intro p hp
      rcases List.mem_cons.mp hp with rfl | hp
      · exact ⟨b, hput.working.mem, hbfree, rfl⟩
      · obtain ⟨c, hc, hfree, rfl⟩ := hlive p hp
        exact ⟨c, hblocks c hc hfree, hfree, rfl⟩
    obtain ⟨lost', hinv⟩ := HeapInv.exists_lost (s := ⟨_, (b.addr + 20) :: s.live, s.stale⟩)
      hput.working.heap (List.nodup_cons.mpr ⟨hnew, (List.nodup_append.mp h.nodup).1⟩) hheld
    exact ⟨lost', bs₂, hinv⟩
  · obtain ⟨c, hc, hfree, rfl⟩ := hlive p hp
    refine ⟨(hput.working.heap.size_eq (hblocks c hc hfree)).trans (hheap.size_eq hc).symm,
      fun i hi => hprinted.settled hout (Or.inr (Or.inr ⟨c, hc, hfree, by omega, ?_⟩))⟩
    rw [recordedSize, hheap.size_eq hc] at hi
    omega
  · have hle := hworked.working.ready.le
    rwa [← hlimit] at hle

/-- The loop of `printk` and the terminator behind it compose the message. -/
theorem HistoryInv.composed (mmap : Mmap E) (h : HistoryInv (s.withLost lost) bs)
    (hm : Message s fmt f args ps) :
    ∃ buffer k₁ es st, Yields (fun n => kmalloc (kernelSpace mmap) n 200 s.kernel) (buffer, k₁) ∧
      Completes (fun n => printkLoop (kernelSpace mmap) fmt ((f.length + 1) % 65536) buffer n
        ⟨0, 0, args, k₁⟩) es st ∧
      Composed s (upToNul (bytesOf ps)) buffer { st.kernel with
        mem := Function.update st.kernel.mem (add32 buffer st.bufidx) 0 } := by
  have hroom := hm.room
  have hfits := hm.fits
  obtain ⟨limit, hlimit⟩ : ∃ l, s.kernel.heapStart + s.kernel.heapSize + 8192 = l := ⟨_, rfl⟩
  have hheap : HeapInv s.kernel bs := h.heap
  obtain ⟨b, k₁, bs₁, hkmalloc, hprinting, hall, hworking⟩ :=
    exists_working mmap hheap hlimit (by omega) args
  have hlasting : ∀ p t, StringAt s p t → Lasting limit s.kernel bs p t := by
    intro p t ht
    rw [← hlimit]
    exact h.lasting (ht.withLost lost)
  -- the loop runs to its end, with all stores in the buffer
  have hguarded := printkLoop_guarded mmap (by omega) (hlasting _ _ hm.format)
    (Nat.mod_lt _ (by decide)) (hm.reads.mono hlasting) hprinting rfl rfl (Or.inl (Nat.zero_add _))
  obtain ⟨es, st, hcomp, hes, hprinted⟩ :=
    hguarded.completes ⟨hm.short, by rw [List.length_nil]; omega⟩
  rw [List.nil_append] at hprinted
  obtain ⟨N, hN⟩ := hcomp.exists_fuel
  have hleads := printkLoop_worked (s := ⟨0, 0, args, k₁⟩) mmap hworking (by omega) fmt
    ((f.length + 1) % 65536) N
  rw [hN N le_rfl] at hleads
  obtain ⟨bs₂, hworked⟩ := hleads (fun e he => (hes e he).1) st rfl
  obtain ⟨fuel, hk₁⟩ := hkmalloc.exists_run
  exact ⟨b.addr + 20, k₁, es, st, hkmalloc, hcomp,
    h.composed_of_worked hk₁ hall hworked hprinted (by omega) hlimit⟩

/-! ### The whole call -/

/-- The message is printed, and the buffer given back. -/
theorem Composed.logged (mmap : Mmap E) {buffer : ℕ} {k : Kernel E} {p : Page ℕ}
    (h : Composed s str buffer k) (habove : vgaBase + 4000 ≤ s.kernel.heapStart)
    (hroom : s.kernel.heapStart + s.kernel.heapSize + 12288 < 4294967296)
    (hstr : ∀ c ∈ str, c < 128) (hs : Shows 24 80 (glyph 32) (screen s.kernel) p) :
    ∃ k₂ k₃, Yields (fun n => vgaPrint (kernelSpace mmap) (kfree (kernelSpace mmap) n) n str k) k₂ ∧
      Yields (fun n => kfree (kernelSpace mmap) n buffer k₂) (.ok, k₃) ∧ Logged s str k₃ ∧
      Shows 24 80 (glyph 32) (screen k₃) (p.type 80 (str.map keyOf)) := by
  obtain ⟨lost, bs, hinv⟩ := h.inv
  have hsize := h.size
  have hstart := h.start
  have hquiet : Quiet s.kernel k := ⟨fun x hx => h.front x (hx.2.trans_le habove), h.console⟩
  have hscrollable : Scrollable (History.withLost ⟨k, buffer :: s.live, s.stale⟩ lost) bs :=
    ⟨hinv, habove.trans hstart.ge, Or.inl (show k.heapStart + k.heapSize + 4096 ≤ _ by omega)⟩
  obtain ⟨t, bs₂, hprint, hprinted, hscrollable₂, hshows⟩ :=
    hscrollable.vgaPrint mmap (hs.congr hquiet.screen) hstr
  have hlive : t.live = buffer :: (s.live ++ lost) := hprinted.live
  have hbuffer : buffer ∈ t.live := hlive ▸ List.mem_cons_self
  obtain ⟨b, hb, -, rfl⟩ := hscrollable₂.inv.exists_block hbuffer
  obtain ⟨k₃, hkfree, hfreed⟩ := hscrollable₂.inv.heap.yields_kfree (kernelSpace mmap) hb
  obtain ⟨fuel, hk₃⟩ := hkfree.exists_run
  have hstep : ClientStep mmap t (.drop (b.addr + 20)) (t.giveBack (b.addr + 20) k₃) :=
    .kfree hbuffer hk₃
  have hrun : ClientRun mmap t [.drop (b.addr + 20)] (t.giveBack (b.addr + 20) k₃) :=
    .cons hstep .nil
  have hquiet₃ := hstep.quiet hscrollable₂.inv hscrollable₂.above (by simp)
  rw [History.giveBack_kernel] at hquiet₃
  have hstart₂ : t.kernel.heapStart = s.kernel.heapStart := hprinted.start.trans hstart
  refine ⟨t.kernel, k₃, hprint, hkfree, ⟨⟨lost, ?_⟩, fun q hq => ?_, fun x hx hscreen => ?_,
    hfreed.start.trans hstart₂, ?_⟩, hshows.congr hquiet₃.screen⟩
  · obtain ⟨bs₃, hinv₃⟩ := hrun.inv hscrollable₂.inv
    have hlive₃ : (t.giveBack (b.addr + 20) k₃).live = s.live ++ lost := by
      rw [History.giveBack, if_neg (by omega), hlive, List.erase_cons_head]
    have hheap₃ : HeapInv k₃ bs₃ := History.giveBack_kernel t _ k₃ ▸ hinv₃.heap
    have hnodup₃ := hinv₃.nodup
    have hmem₃ := hinv₃.live
    rw [hlive₃] at hnodup₃ hmem₃
    exact ⟨bs₃, hheap₃, hnodup₃, hmem₃⟩
  · -- the buffer is none of the clients' objects
    have hq' : q ∈ s.live ++ lost := List.mem_append_left lost hq
    have hne : b.addr + 20 ≠ q := by
      rintro rfl
      exact (List.nodup_cons.mp hinv.nodup).1 hq'
    have hlast := hrun.sameContents hscrollable₂.inv (p := q)
      (hlive ▸ List.mem_cons_of_mem _ hq') (fun op hop => by
        rw [List.mem_singleton.mp hop, ObjectStore.Op.names_drop]
        exact hne)
    rw [History.giveBack_kernel] at hlast
    exact ((h.contents q hq).trans (hprinted.contents q (List.mem_cons_of_mem _ hq'))).trans hlast
  · rw [hfreed.frame x (hscrollable₂.inv.heap.offHeaders_of_lt (hstart₂ ▸ hx))]
    exact (hprinted.front x (hstart ▸ hx) hscreen).trans (h.front x hx)
  · rw [hquiet₃.console.serial, hprinted.serial]
    exact congrArg (· ++ str) h.console.serial

/-- A message is printed, on every heap in which what the clients hold is in use. -/
theorem HistoryInv.printk (mmap : Mmap E) (h : HistoryInv (s.withLost lost) bs) {p : Page ℕ}
    (hm : Message s fmt f args ps) (habove : vgaBase + 4000 ≤ s.kernel.heapStart)
    (hs : Shows 24 80 (glyph 32) (screen s.kernel) p) :
    ∃ k, Yields (fun n => (printk (kernelSpace mmap) n fmt args s.kernel).result) k ∧
      Logged s (upToNul (bytesOf ps)) k ∧
      Shows 24 80 (glyph 32) (screen k) (p.type 80 ((upToNul (bytesOf ps)).map keyOf)) := by
  obtain ⟨buffer, k₁, es, st, hkmalloc, hloop, hcomposed⟩ := h.composed mmap hm
  have hascii : ∀ c ∈ upToNul (bytesOf ps), c < 128 := fun c hc =>
    hm.ascii c ((List.takeWhile_prefix _).subset hc)
  obtain ⟨k₂, k₃, hprint, hkfree, hlogged, hshows⟩ :=
    hcomposed.logged mmap habove hm.room hascii hs
  have hend : Completes (fun n => printkEnd (kernelSpace mmap) n buffer st)
      ([.write st.bufidx] ++ ([] ++ ([.print (upToNul (bytesOf ps))] ++ ([] ++ ([] ++ []))))) k₃ :=
    (Completes.emit _ _).bind ((Completes.ofOption hcomposed.text.charsFrom).bind
      ((Completes.emit _ _).bind ((Completes.ofOption hprint).bind ((Completes.ofOption hkfree).bind
        (Completes.emit [] k₃)))))
  have hall : Completes (fun n => PakOS.printk (kernelSpace mmap) n fmt args s.kernel)
      ([] ++ ([] ++ (es ++ _))) k₃ :=
    (Completes.ofOption hm.format.string.strlen).bind ((Completes.ofOption hkmalloc).bind
      (hloop.bind hend))
  exact ⟨k₃, hall.yields, hlogged, hshows⟩

/-! ### Runs -/

/-- A step of the kernel: a call of a client, `vga_clear`, `vga_print`, or `printk` of a message. -/
inductive LogStep (mmap : Mmap E) (s : History E) : DeskEvent → History E → Prop
  /-- What happens on the desk. -/
  | desk {e : DeskEvent} {t : History E} (h : DeskStep mmap s e t) : LogStep mmap s e t
  /-- `printk(fmt, ...)` -/
  | printk {fuel fmt : ℕ} {f : List UInt8} {args : List Arg} {ps : List Piece} {k : Kernel E}
      (hk : (PakOS.printk (kernelSpace mmap) fuel fmt args s.kernel).result = some k)
      (hm : Message s fmt f args ps) :
      LogStep mmap s (.print (upToNul (bytesOf ps))) { s with kernel := k }

/-- A run of such steps. -/
inductive LogRun (mmap : Mmap E) : History E → List DeskEvent → History E → Prop
  /-- No step. -/
  | nil {s : History E} : LogRun mmap s [] s
  /-- A step, and what follows. -/
  | cons {s t u : History E} {e : DeskEvent} {es : List DeskEvent} (hstep : LogStep mmap s e t)
      (hrun : LogRun mmap t es u) : LogRun mmap s (e :: es) u

/-- The kernel is the desk `d` for the clients, who hold some of the blocks in use. -/
structure OnLog (s : History E) (d : Desk) : Prop where
  /-- The heap. -/
  inv : ∃ lost bs, HistoryInv (s.withLost lost) bs
  /-- It lies behind the screen. -/
  above : vgaBase + 4000 ≤ s.kernel.heapStart
  /-- The objects. -/
  store : s.store = d.store
  /-- The page. -/
  page : Shows 24 80 (glyph 32) (screen s.kernel) d.page
  /-- The characters sent. -/
  sent : s.kernel.serial = d.sent

/-- More blocks in use make no difference to a step. -/
theorem DeskStep.withLost {e : DeskEvent} (hstep : DeskStep mmap s e t) (lost : List ℕ) :
    DeskStep mmap (s.withLost lost) e (t.withLost lost) := by
  cases hstep with
  | call hop hskip => exact .call (hop.withLost lost) hskip
  | clear => exact .clear
  | print hk hstr hend => exact .print hk hstr hend

/-- A step that is one of the desk, for the clients. -/
theorem DeskStep.onLog {d : Desk} {e : DeskEvent} (hs : OnLog s d) (hstep : DeskStep mmap s e t) :
    ∃ d', Desk.Step d e d' ∧ OnLog t d' := by
  obtain ⟨lost, bs, h⟩ := hs.inv
  have hdesk : OnDesk (s.withLost lost) { d with store := (s.withLost lost).store } :=
    ⟨⟨bs, h⟩, hs.above, rfl, hs.page, hs.sent⟩
  obtain ⟨d', hd, ht⟩ := (hstep.withLost lost).onDesk hdesk
  obtain ⟨bs', h'⟩ := ht.inv
  have hsame : (t.withLost lost).store = (s.withLost lost).store → t.store = d.store := by
    intro heq
    rw [t.store_eq_without h'.nodup, heq, ← s.store_eq_without h.nodup, hs.store]
  cases hstep with
  | call hop hskip =>
    cases hd
    exact ⟨_, .call (hs.store ▸ hop.store_of_lost h), ⟨lost, bs', h'⟩, ht.above, rfl, ht.page,
      ht.sent⟩
  | clear =>
    cases hd
    exact ⟨_, .clear, ⟨lost, bs', h'⟩, ht.above, hsame ht.store, ht.page, ht.sent⟩
  | print hk hstr hend =>
    cases hd
    exact ⟨_, .print, ⟨lost, bs', h'⟩, ht.above, hsame ht.store, ht.page, ht.sent⟩

/-- One step of the kernel is one step of the desk. -/
theorem LogStep.onLog {d : Desk} {e : DeskEvent} (hs : OnLog s d) (hstep : LogStep mmap s e t) :
    ∃ d', Desk.Step d e d' ∧ OnLog t d' := by
  cases hstep with
  | desk h => exact h.onLog hs
  | @printk fuel fmt f args ps k hk hm =>
    obtain ⟨lost, bs, h⟩ := hs.inv
    obtain ⟨k', hyields, hlogged, hshows⟩ := h.printk mmap hm hs.above hs.page
    obtain rfl := hyields.unique fuel k hk
    have hstore : History.store { s with kernel := k } = s.store :=
      funext fun p => History.store_congr Iff.rfl (hlogged.contents p)
    exact ⟨_, .print, hlogged.inv, hs.above.trans hlogged.start.ge, hstore.trans hs.store, hshows,
      hlogged.serial.trans (congrArg (· ++ _) hs.sent)⟩

/-- A run of the kernel is a run of the desk. -/
theorem LogRun.onLog {d : Desk} {es : List DeskEvent} (hs : OnLog s d) (hrun : LogRun mmap s es t) :
    ∃ d', Desk.Run d es d' ∧ OnLog t d' := by
  induction hrun generalizing d with
  | nil => exact ⟨d, .nil, hs⟩
  | cons hstep _ ih =>
    obtain ⟨d₁, hd, hs₁⟩ := hstep.onLog hs
    obtain ⟨d₂, hrun', hs₂⟩ := ih hs₁
    exact ⟨d₂, .cons hd hrun', hs₂⟩

/-- **`printk` among the clients of the heap.**  From a reachable heap and a screen that shows a
page, every run of heap calls, `vga_clear`, `vga_print` and `printk` of messages, in any order, is a
run of a store of objects, a page and a serial line, in which `printk` types what its format stands
for; and the next message, if there is room for it, is printed, and leaves every object as it
is. -/
theorem printk_onHeap {p : Page ℕ} {es : List DeskEvent} (hs : Reachable base mmap s)
    (hpage : Shows 24 80 (glyph 32) (screen s.kernel) p) (hrun : LogRun mmap s es t) :
    ∃ p', Desk.Run ⟨s.store, p, s.kernel.serial⟩ es ⟨t.store, p', t.kernel.serial⟩ ∧
      ShowsEnd t.kernel p' ∧
      ∀ fmt f args ps, Message t fmt f args ps →
        ∃ k, Yields (fun n => (PakOS.printk (kernelSpace mmap) n fmt args t.kernel).result) k ∧
          Logged t (upToNul (bytesOf ps)) k ∧
          ShowsEnd k (p'.type 80 ((upToNul (bytesOf ps)).map keyOf)) := by
  obtain ⟨bs, h⟩ := hs.inv
  have hinv : HistoryInv (s.withLost []) bs := by
    rwa [History.withLost, List.append_nil]
  obtain ⟨⟨store, p', sent⟩, hdesk, ht⟩ := hrun.onLog (d := ⟨s.store, p, s.kernel.serial⟩)
    ⟨⟨[], bs, hinv⟩, hs.above, rfl, hpage, rfl⟩
  obtain rfl : t.store = store := ht.store
  obtain rfl : t.kernel.serial = sent := ht.sent
  refine ⟨p', hdesk, showsEnd_of_shows ht.page, fun fmt f args ps hm => ?_⟩
  obtain ⟨lost, bs', h'⟩ := ht.inv
  obtain ⟨k, hyields, hlogged, hshows⟩ := h'.printk mmap hm ht.above ht.page
  exact ⟨k, hyields, hlogged, showsEnd_of_shows hshows⟩

/-- The format `mac=%x\n` in front of the heap is a message. -/
theorem message_macDirectives (hstart : s.kernel.heapStart = 0xd0000000)
    (hsize : s.kernel.heapSize = 12288) :
    Message (s.withBytes 4096 (formatOf macDirectives true ++ [0])) 4096
      (formatOf macDirectives true) (argsOf macDirectives) (piecesOf macDirectives true) := by
  have hfmt := stringAt_withBytes s (a := 4096) [] (formatOf macDirectives true) []
    (by rw [hstart]; decide) (by rw [hstart]; decide) (by decide)
  rw [List.append_nil] at hfmt
  refine ⟨hfmt, matches_formatOf (by decide) (fun p u hd => by simp [macDirectives] at hd),
    fun p hp => ?_, by decide +kernel, by decide +kernel, ?_⟩
  · simp only [piecesOf, macDirectives, List.map_cons, List.map_nil, Directive.piece, if_true,
      List.append_nil, List.mem_cons, List.not_mem_nil, or_false] at hp
    rcases hp with rfl | rfl | rfl | rfl | rfl | rfl <;> trivial
  · rw [(s.heap_withBytes 4096 _).1, (s.heap_withBytes 4096 _).2, hstart, hsize]
    decide

/-- On the heap after boot, whose screen was cleared, `mac=BEEF` is printed. -/
theorem printk_onHeap_macDirectives : ∃ s t : History Unit, Reachable kernelHeap mapAll s ∧
    LogRun mapAll s [.print [109, 97, 99, 61, 66, 69, 69, 70, 10, 13]] t ∧
    cell t.kernel.mem 0 4 = glyph 66 := by
  have hfresh : Reachable kernelHeap mapAll freshHeap := reachable_historyOf _ _ _
  have hstart : freshHeap.kernel.heapStart = 0xd0000000 := by decide +kernel
  have hsize : freshHeap.kernel.heapSize = 12288 := by decide +kernel
  generalize freshHeap = s at hfresh hstart hsize
  have hheap : SameHeap s.kernel (vgaClear s.kernel) :=
    sameHeap_of_sameOffScreen hfresh.above (sameOffScreen_vgaClear _)
  have hcleared := hfresh.tail (.other hheap)
  have hm := message_macDirectives (s := { s with kernel := vgaClear s.kernel })
    (hheap.start.trans hstart) (hheap.size.trans hsize)
  have hreach := hcleared.withBytes (a := 4096) (l := formatOf macDirectives true ++ [0])
    (by rw [show (vgaClear s.kernel).heapStart = _ from hheap.start, hstart]; decide)
  have hquiet : Quiet (vgaClear s.kernel) (History.withBytes { s with kernel := vgaClear s.kernel }
      4096 (formatOf macDirectives true ++ [0])).kernel :=
    ⟨fun x hx => storeBytes_of_notMem (Or.inr (le_trans (by decide) hx.1)), rfl, rfl, rfl⟩
  obtain ⟨p, hdesk, -, hprints⟩ :=
    printk_onHeap hreach ((shows_vgaClear s.kernel).congr hquiet.screen) .nil
  cases hdesk
  obtain ⟨k, hyields, -, hshows⟩ := hprints _ _ _ _ hm
  obtain ⟨fuel, hprint⟩ := hyields.exists_run
  have htext : upToNul (bytesOf (piecesOf macDirectives true)) =
      [109, 97, 99, 61, 66, 69, 69, 70, 10, 13] := by decide +kernel
  have hstep := LogStep.printk hprint hm
  rw [htext] at hstep hshows
  refine ⟨_, _, hreach, .cons hstep .nil, ?_⟩
  rw [hshows.rows 0 (by decide) 4 (by decide)]
  decide +kernel

end PakOS
