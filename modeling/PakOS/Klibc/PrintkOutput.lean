import PakOS.Klibc.ItoaNumeral
import PakOS.Klibc.PrintkSpec

/-!
# What `printk` prints, and when it overruns its buffer

A whole call of `printk` on a reachable heap with room for two more pages.  It stays inside its
buffer exactly if the strings have less than 256 characters and the pieces of the format, together
with its terminator, have at most 199 bytes (`printk_inBounds_iff`).  For a format of directives
that is what an expansion of at most 198 characters gives, and then `vga_print` is handed the
expansion (`printk_prints`).
-/

namespace PakOS

open Machine Coalesce Numeral

variable {E : Type*} {base : HeapBase} {mmap : Mmap E}

/-- The byte is no business of the allocator: it lies in front of the heap, behind the two pages
that the heap may grow by, or in a live allocation. -/
def Owned (s : History E) (x : ℕ) : Prop :=
  x < s.kernel.heapStart ∨ s.kernel.heapStart + s.kernel.heapSize + 8192 < x ∨
    ∃ q ∈ s.live, q ≤ x ∧ x < q + recordedSize s.kernel q

/-- The string `t` stands at `p`, in memory that is no business of the allocator. -/
structure StringAt (s : History E) (p : ℕ) (t : List UInt8) : Prop where
  /-- The string. -/
  string : CString s.kernel.mem p t
  /-- Its bytes and its terminator. -/
  owned : ∀ x, p ≤ x → x ≤ p + t.length → Owned s x

section Call

variable {k₀ : Kernel E} {bs₀ bs : List Block} {b : Block} {limit fmt : ℕ} {out f t : List UInt8}
  {args : List Arg} {ps : List Piece} {s : Printk E}

/-- A string of a history lasts through calls that let the heap grow by two pages. -/
theorem HistoryInv.lasting {s : History E} (h : HistoryInv s bs) {p : ℕ} (ht : StringAt s p t) :
    Lasting (s.kernel.heapStart + s.kernel.heapSize + 8192) s.kernel bs p t := by
  refine ⟨ht.string, fun x hlo hhi => (ht.owned x hlo hhi).imp_right fun hx => hx.imp_right ?_⟩
  rintro ⟨q, hq, hle, hlt⟩
  obtain ⟨c, hc, hcfree, rfl⟩ := h.exists_block hq
  rw [recordedSize, h.heap.size_eq hc] at hlt
  exact ⟨c, hc, hcfree, hle, hlt⟩

/-! ### The beginning and the end -/

/-- `printk` takes its buffer. -/
theorem exists_printing (mmap : Mmap E) (h : HeapInv k₀ bs₀)
    (hlimit : k₀.heapStart + k₀.heapSize + 8192 = limit) (hlt : limit < 4294967296)
    (args : List Arg) :
    ∃ b k₁, Yields (fun n => kmalloc (kernelSpace mmap) n 200 k₀) (b.addr + 20, k₁) ∧
      Printing limit k₀ bs₀ b [] ⟨0, 0, args, k₁⟩ := by
  -- the first page is for the buffer, the second one for the numerals
  have hready : Ready 208 (limit - 4096) k₀ bs₀ := Or.inl (by omega)
  obtain ⟨k₁, bs₁, b, hyields, hall⟩ := hready.yields_kmalloc mmap h (by omega)
    (show 200 + 35 < 4096 by decide) (show align16 200 ≤ 208 by decide)
  have hok : SizeOk 200 := by decide
  obtain ⟨hb, hbfree, hsize⟩ := hall.block hok
  have hle := hall.le
  have hall' : Allocated limit k₀ bs₀ 200 k₁ bs₁ b :=
    ⟨hall.step, hall.heap, by omega, hall.start, hall.frame⟩
  have hready' : Ready 32 limit k₁ bs₁ := Or.inl (by omega)
  exact ⟨b, k₁, hyields, ⟨bs₁, ⟨hall.heap, hb, hbfree, hsize, trivial,
    fun x hx => hall'.settled h hok hx⟩, hready'⟩, rfl, Nat.zero_le _⟩

/-- What a reader of the bytes meets before the first terminator. -/
def upToNul (l : List UInt8) : List UInt8 := l.takeWhile (· ≠ 0)

/-- Bytes with a terminator behind them are a string up to the first terminator. -/
theorem cstring_upToNul {m : Mem} {a : ℕ} {l : List UInt8} (h : Holds m a (l ++ [0]))
    (hlt : a + l.length < 4294967296) : CString m a (upToNul l) := by
  unfold upToNul
  induction l generalizing a with
  | nil => exact ⟨h, List.not_mem_nil, hlt⟩
  | cons c l ih =>
    rw [List.cons_append, holds_cons] at h
    rw [List.length_cons] at hlt
    by_cases hc : c = 0
    · subst hc
      exact ⟨⟨h.1, trivial⟩, List.not_mem_nil, by simp; omega⟩
    · obtain ⟨hholds, hnot, hlt'⟩ := ih h.2 (by omega)
      rw [List.takeWhile_cons_of_pos (by simpa using hc)]
      refine ⟨⟨h.1, hholds⟩, ?_, by rw [List.length_cons]; omega⟩
      simpa [Ne.symm hc] using hnot

/-- The end of a call whose pieces leave a byte for the terminator. -/
theorem printkEnd_records (space : Space E) (h : Printing limit k₀ bs₀ b out s)
    (hout : out.length < 200) :
    Records (fun n => printkEnd space n (b.addr + 20) s)
      [.write out.length, .print (upToNul out)] := by
  obtain ⟨⟨bs, hbuf, -⟩, hidx, -⟩ := h
  have hlt := hbuf.lt
  have haddr : add32 (b.addr + 20) s.bufidx = b.addr + 20 + out.length := by
    rw [hidx, add32_of_lt (by omega)]
  have hstr : CString (Function.update s.kernel.mem (b.addr + 20 + out.length) 0) (b.addr + 20)
      (upToNul out) := by
    refine cstring_upToNul (holds_append.mpr ⟨hbuf.text.congr fun x _ hx => ?_, ?_, trivial⟩)
      (by omega)
    · exact Function.update_of_ne (by omega) _ _
    · exact Function.update_self _ _ _
  unfold printkEnd
  rw [haddr, hidx]
  rw [show [PrintkEvent.write out.length, .print (upToNul out)] =
    [.write out.length] ++ ([] ++ ([.print (upToNul out)] ++ [])) from rfl]
  refine Records.bind (Completes.emit _ _) (Records.bind (Completes.ofOption hstr.charsFrom)
    (Records.bind (Completes.emit _ _) (Records.silent fun n => ?_)))
  exact Trace.events_ofOption_bind fun k => Trace.events_ofOption_bind fun f => rfl

/-- The end of a call whose pieces fill the buffer. -/
theorem printkEnd_emits (space : Space E) (buffer : ℕ) (s : Printk E) :
    Emits (fun n => printkEnd space n buffer s) (.write s.bufidx) := by
  unfold printkEnd
  exact Emits.bind_left (Completes.emits (Completes.emit _ _) (List.mem_singleton_self _)) _

/-! ### The whole call -/

/-- The loop of a call that begins with an empty buffer. -/
theorem exists_printkLoop_guarded (mmap : Mmap E) (h : HeapInv k₀ bs₀)
    (hlimit : k₀.heapStart + k₀.heapSize + 8192 = limit) (hlt : limit < 4294967296)
    (hfmt : Lasting limit k₀ bs₀ fmt f)
    (hm : Matches (Lasting limit k₀ bs₀) ((f.length + 1) % 65536) ((f.length + 1) % 65536)
      (f ++ [0]) args ps) :
    ∃ b k₁, Yields (fun n => kmalloc (kernelSpace mmap) n 200 k₀) (b.addr + 20, k₁) ∧
      Guarded PrintkEvent.Inner PrintkEvent.Outside (AllFit [] ps)
        (fun n => printkLoop (kernelSpace mmap) fmt ((f.length + 1) % 65536) (b.addr + 20) n
          ⟨0, 0, args, k₁⟩) (Printing limit k₀ bs₀ b (bytesOf ps)) := by
  obtain ⟨b, k₁, hkmalloc, hprinting⟩ := exists_printing mmap h hlimit hlt args
  exact ⟨b, k₁, hkmalloc, printkLoop_guarded mmap hlt hfmt (Nat.mod_lt _ (by decide)) hm hprinting
    rfl rfl (Or.inl (Nat.zero_add _))⟩

/-- A call whose pieces leave a byte for the terminator records only events inside the buffer, and
then the terminator and what is printed. -/
theorem printk_records (mmap : Mmap E) (h : HeapInv k₀ bs₀)
    (hlimit : k₀.heapStart + k₀.heapSize + 8192 = limit) (hlt : limit < 4294967296)
    (hfmt : Lasting limit k₀ bs₀ fmt f)
    (hm : Matches (Lasting limit k₀ bs₀) ((f.length + 1) % 65536) ((f.length + 1) % 65536)
      (f ++ [0]) args ps)
    (hshort : ∀ p ∈ ps, p.Short) (hlen : (bytesOf ps).length < 200) :
    ∃ es, (∀ e ∈ es, e.Inner) ∧ Records (fun n => printk (kernelSpace mmap) n fmt args k₀)
      (es ++ [.write (bytesOf ps).length, .print (upToNul (bytesOf ps))]) := by
  obtain ⟨b, k₁, hkmalloc, hloop⟩ := exists_printkLoop_guarded mmap h hlimit hlt hfmt hm
  obtain ⟨es, s', hcomp, hes, hs'⟩ := hloop.completes ⟨hshort, by rw [List.length_nil]; omega⟩
  refine ⟨es, hes, ?_⟩
  rw [← List.nil_append (es ++ _), ← List.nil_append (es ++ _)]
  exact Records.bind (Completes.ofOption hfmt.string.strlen)
    (Records.bind (Completes.ofOption hkmalloc)
      (Records.bind hcomp (printkEnd_records (kernelSpace mmap) hs' hlen)))

/-- Any other call records an event that is not inside the buffer. -/
theorem printk_emits (mmap : Mmap E) (h : HeapInv k₀ bs₀)
    (hlimit : k₀.heapStart + k₀.heapSize + 8192 = limit) (hlt : limit < 4294967296)
    (hfmt : Lasting limit k₀ bs₀ fmt f)
    (hm : Matches (Lasting limit k₀ bs₀) ((f.length + 1) % 65536) ((f.length + 1) % 65536)
      (f ++ [0]) args ps)
    (hbad : ¬((∀ p ∈ ps, p.Short) ∧ (bytesOf ps).length < 200)) :
    ∃ e : PrintkEvent, e.Outside ∧ Emits (fun n => printk (kernelSpace mmap) n fmt args k₀) e := by
  obtain ⟨b, k₁, hkmalloc, hloop⟩ := exists_printkLoop_guarded mmap h hlimit hlt hfmt hm
  suffices hrest : ∃ e : PrintkEvent, e.Outside ∧ Emits (fun n =>
      (printkLoop (kernelSpace mmap) fmt ((f.length + 1) % 65536) (b.addr + 20) n
        ⟨0, 0, args, k₁⟩).bind fun s => printkEnd (kernelSpace mmap) n (b.addr + 20) s) e by
    obtain ⟨e, he, hemits⟩ := hrest
    exact ⟨e, he, Emits.bind_right (Completes.ofOption hfmt.string.strlen)
      (Emits.bind_right (Completes.ofOption hkmalloc) hemits)⟩
  by_cases hfit : AllFit [] ps
  · -- the pieces fill the buffer to the last byte, and the terminator misses it
    obtain ⟨es, s', hcomp, -, hs'⟩ := hloop.completes hfit
    have hle := hs'.le
    have hfull : (PrintkEvent.write s'.bufidx).Outside := by
      unfold PrintkEvent.Outside
      rw [hs'.bufidx]
      exact fun hlt => hbad ⟨hfit.1, hlt⟩
    exact ⟨_, hfull, Emits.bind_right hcomp (printkEnd_emits (kernelSpace mmap) (b.addr + 20) s')⟩
  · obtain ⟨e, he, hemits⟩ := hloop.emits hfit
    exact ⟨e, he, hemits.bind_left _⟩

end Call

/-! ### Overruns -/

/-- **The buffer of `printk`.**  On every reachable heap with room for two more pages, for every
format and all arguments that match it, every store to the buffer has an index below 200 and every
string is copied whole, or cut to a part that is not its length modulo 256, exactly if the strings
have less than 256 characters and all pieces together, with the terminator of the format, at most
199 bytes. -/
theorem printk_inBounds_iff {s : History E} (hs : Reachable base mmap s)
    (hroom : s.kernel.heapStart + s.kernel.heapSize + 8192 < 4294967296) {fmt : ℕ} {f : List UInt8}
    {args : List Arg} {ps : List Piece} (hfmt : StringAt s fmt f)
    (hm : Matches (StringAt s) ((f.length + 1) % 65536) ((f.length + 1) % 65536) (f ++ [0]) args
      ps) :
    (∀ n, ∀ e ∈ (printk (kernelSpace mmap) n fmt args s.kernel).events, e.InBounds) ↔
      (∀ p ∈ ps, p.Short) ∧ (bytesOf ps).length ≤ 199 := by
  obtain ⟨bs, h⟩ := hs.inv
  have hm' := hm.mono fun p t => h.lasting
  constructor
  · intro hin
    by_contra hbad
    obtain ⟨e, he, N, hN⟩ := printk_emits mmap h.heap rfl hroom (h.lasting hfmt) hm'
      fun hgood => hbad ⟨hgood.1, Nat.le_of_lt_succ hgood.2⟩
    exact he (hin N e (hN N le_rfl))
  · rintro ⟨hshort, hlen⟩
    obtain ⟨es, hes, hrec⟩ := printk_records mmap h.heap rfl hroom (h.lasting hfmt) hm' hshort
      (Nat.lt_succ_of_le hlen)
    refine hrec.forall_events fun e he => ?_
    rcases List.mem_append.mp he with he | he
    · exact (hes e he).1
    · simp only [List.mem_cons, List.not_mem_nil, or_false] at he
      rcases he with rfl | rfl
      · exact Nat.lt_succ_of_le hlen
      · trivial

/-- A string among the bytes. -/
theorem stringAt_withBytes (s : History E) {a : ℕ} (pre t post : List UInt8)
    (ha : a + (pre ++ t).length < s.kernel.heapStart) (hlt : s.kernel.heapStart < 4294967296)
    (ht : 0 ∉ t) : StringAt (s.withBytes a (pre ++ (t ++ [0]) ++ post)) (a + pre.length) t := by
  rw [List.length_append] at ha
  have hholds := holds_storeBytes s.kernel.mem a (pre ++ (t ++ [0]) ++ post)
  rw [holds_append, holds_append] at hholds
  refine ⟨⟨hholds.1.2, ht, by omega⟩, fun x _ hx => Or.inl ?_⟩
  rw [(s.heap_withBytes a _).1]
  omega

/-- The heap after boot, with the format `%s` and a string of `n` characters in front of it. -/
def longString (n : ℕ) : History Unit :=
  freshHeap.withBytes 4096 ([37, 115, 0] ++ (List.replicate n 97 ++ [0]))

/-- The call `printk("%s", ...)` of this string. -/
theorem longString_matches {n : ℕ} (hn : n ≤ 1000) :
    Reachable kernelHeap mapAll (longString n) ∧
      (longString n).kernel.heapStart + (longString n).kernel.heapSize + 8192 < 4294967296 ∧
      StringAt (longString n) 4096 [37, 115] ∧
      Matches (StringAt (longString n)) 3 3 ([37, 115] ++ [0]) [.str 4099]
        [.string (List.replicate n 97), .char 0] := by
  have hstart : freshHeap.kernel.heapStart = 0xd0000000 := by decide +kernel
  have hsize : freshHeap.kernel.heapSize = 12288 := by decide +kernel
  have hlen : 4096 + ([37, 115, 0] ++ (List.replicate n (97 : UInt8) ++ [0])).length ≤ 5200 := by
    simp only [List.length_append, List.length_replicate, List.length_cons, List.length_nil]
    omega
  have hreach : Reachable kernelHeap mapAll freshHeap := reachable_historyOf _ _ _
  have hfmt : StringAt (longString n) 4096 [37, 115] :=
    stringAt_withBytes freshHeap [] [37, 115] (List.replicate n 97 ++ [0]) (by rw [hstart]; decide)
      (by rw [hstart]; decide) (by decide)
  have hzero : (0 : UInt8) ∉ List.replicate n 97 := fun h0 =>
    absurd (List.eq_of_mem_replicate h0) (by decide)
  have hstr : StringAt (longString n) 4099 (List.replicate n 97) := by
    have hat := @stringAt_withBytes _ freshHeap 4096 [37, 115, 0] (List.replicate n 97) []
      (by rw [hstart, List.length_append, List.length_replicate, List.length_cons]; simp; omega)
      (by rw [hstart]; decide) hzero
    rwa [List.append_nil] at hat
  refine ⟨hreach.withBytes (by rw [hstart]; omega), ?_, hfmt, ?_⟩
  · unfold longString
    rw [(freshHeap.heap_withBytes 4096 _).1, (freshHeap.heap_withBytes 4096 _).2, hstart, hsize]
    decide
  · exact .str hstr (.char (by decide) (fun h37 => absurd h37 (by decide)) .done)

theorem printk_inBounds_longString :
    StringAt (longString 5) 4096 [37, 115] ∧
      ∀ n, ∀ e ∈ (printk (kernelSpace mapAll) n 4096 [.str 4099] (longString 5).kernel).events,
        e.InBounds := by
  obtain ⟨hreach, hroom, hfmt, hm⟩ := @longString_matches 5 (by decide)
  refine ⟨hfmt, (printk_inBounds_iff hreach hroom hfmt hm).mpr ⟨fun p hp => ?_, by decide⟩⟩
  simp only [List.mem_cons, List.not_mem_nil, or_false] at hp
  rcases hp with rfl | rfl
  · exact Nat.lt_of_lt_of_le (List.length_replicate.trans_lt (by decide)) le_rfl
  · trivial

/-- A string of 200 characters makes the terminator of the format miss the buffer, and of one with
256 characters nothing is copied. -/
theorem not_inBounds_longString :
    (∃ n e, e ∈ (printk (kernelSpace mapAll) n 4096 [.str 4099] (longString 200).kernel).events ∧
      e = .write 200 ∧ e.Outside) ∧
    ∃ n e, e ∈ (printk (kernelSpace mapAll) n 4096 [.str 4099] (longString 256).kernel).events ∧
      e = .copied 256 0 ∧ e.Outside := by
  have hwrite : PrintkEvent.write 200 ∈
      (printk (kernelSpace mapAll) 210 4096 [.str 4099] (longString 200).kernel).events := by
    decide +kernel
  have hcopied : PrintkEvent.copied 256 0 ∈
      (printk (kernelSpace mapAll) 260 4096 [.str 4099] (longString 256).kernel).events := by
    decide +kernel
  refine ⟨⟨210, _, hwrite, rfl, lt_irrefl 200⟩, ⟨260, _, hcopied, rfl, ?_⟩⟩
  rintro (h | h)
  · exact absurd h (by decide)
  · exact h.2 rfl

end PakOS
