import PakOS.Klibc.PrintkOutput
import PakOS.Klibc.Memory

/-!
# What `printk` does to the heap

`printk` takes its buffer from the heap, and for each numeral another block, which it gives back.
As long as every store to the buffer stays inside it, the heap remains a heap, with the blocks that
were in use still in use, and nothing is printed before `vga_print`: that is `printkLoop_worked`, by
induction over the fuel, for every format and whatever the arguments are.  The blocks in use may
have become more, since `itoa` may mark the block behind its own one as such.
-/

namespace PakOS

open Machine Coalesce

variable {E : Type*} {mmap : Mmap E} {limit radix value n fmt len : ℕ} {k k' k'' : Kernel E}
  {bs bs' bs'' : List Block} {b : Block} {s : Printk E}

/-- The block `b` is the buffer of a call of `printk`, and the heap is ready for a numeral. -/
structure Working (limit : ℕ) (b : Block) (k : Kernel E) (bs : List Block) : Prop where
  /-- The heap. -/
  heap : HeapInv k bs
  /-- The buffer is on the list. -/
  mem : b ∈ bs
  /-- It is in use. -/
  inUse : b.free = false
  /-- It is large enough. -/
  size : 200 ≤ b.size
  /-- The heap is ready. -/
  ready : Ready 32 limit k bs

/-- The call has come from the state `k` to the state `k'`. -/
structure Worked (limit : ℕ) (b : Block) (k : Kernel E) (bs : List Block) (k' : Kernel E)
    (bs' : List Block) : Prop where
  /-- It can go on. -/
  working : Working limit b k' bs'
  /-- The blocks that were in use still are. -/
  blocks : ∀ c ∈ bs, c.free = false → c ∈ bs'
  /-- Nothing was printed. -/
  console : SameConsole k k'
  /-- The heap starts where it did. -/
  start : k'.heapStart = k.heapStart

theorem SameConsole.trans (h : SameConsole k k') (h' : SameConsole k' k'') : SameConsole k k'' :=
  ⟨h'.row.trans h.row, h'.col.trans h.col, h'.serial.trans h.serial⟩

theorem Worked.refl (h : Working limit b k bs) : Worked limit b k bs k bs :=
  ⟨h, fun _ hc _ => hc, ⟨rfl, rfl, rfl⟩, rfl⟩

theorem Worked.trans (h : Worked limit b k bs k' bs') (h' : Worked limit b k' bs' k'' bs'') :
    Worked limit b k bs k'' bs'' :=
  ⟨h'.working, fun c hc hfree => h'.blocks c (h.blocks c hc hfree) hfree,
    h.console.trans h'.console, h'.start.trans h.start⟩

/-- Writing to the buffer. -/
theorem Working.write (h : Working limit b k bs) {m : Mem}
    (hm : ∀ x, x < b.addr + 20 ∨ b.stop ≤ x → m x = k.mem x) :
    Worked limit b k bs { k with mem := m } bs :=
  ⟨⟨h.heap.write_payload h.mem hm, h.mem, h.inUse, h.size, h.ready⟩, fun _ hc _ => hc,
    ⟨rfl, rfl, rfl⟩, rfl⟩

/-- A store to the buffer at an index that is inside it. -/
theorem Working.put (h : Working limit b k bs) {idx : ℕ} (v : UInt8) (hidx : idx < 200) :
    Worked limit b k bs
      { k with mem := Function.update k.mem (add32 (b.addr + 20) idx) v } bs := by
  have hbounds := h.heap.block_bounds h.mem
  have hsize := h.size
  refine h.write fun x hx => Function.update_of_ne ?_ _ _
  rw [add32_of_lt (by omega)]
  unfold Block.stop at hx
  omega

/-- A copy to the buffer whose stores are at indices that are inside it. -/
theorem copyBytes_inside (h : HeapInv k bs) (hb : b ∈ bs) (hsize : 200 ≤ b.size) {m : Mem}
    {idx src x : ℕ} (hin : ∀ e ∈ writes idx n, e.InBounds) (hx : x < b.addr + 20 ∨ b.stop ≤ x) :
    copyBytes m (add32 (b.addr + 20) idx) src n x = m x := by
  cases n with
  | zero => rfl
  | succ n =>
    have hlast : idx + n < 200 :=
      hin (.write (idx + n)) (List.mem_map.mpr ⟨n, List.mem_range.mpr (Nat.lt_succ_self n), rfl⟩)
    have hbounds := h.block_bounds hb
    rw [add32_of_lt (by omega)]
    unfold Block.stop at hx
    exact copyBytes_of_notMem (by omega) (by omega)

/-! ### The branches -/

/-- A numeral is converted, copied to the buffer, and given back. -/
theorem printkNumber_worked (mmap : Mmap E) (h : Working limit b s.kernel bs)
    (hlimit : limit < 4294967296) (hradix : radix = 10 ∨ radix = 16)
    (hvalue : value < 18446744073709551616) (n : ℕ) :
    Trace.Leads PrintkEvent.InBounds
      (printkNumber (kernelSpace mmap) n (b.addr + 20) value radix s)
      fun s' => ∃ bs', Worked limit b s.kernel bs s'.kernel bs' := by
  obtain ⟨k₁, bs₁, c, log, k₂, hyields, hall, hcomp, hconv⟩ := itoa_completes mmap h.heap
    (h.ready.mono (itoaSize_small value).2) hlimit (show 10 ≤ radix by omega)
    (show radix ≤ 36 by omega) hvalue
  obtain ⟨bs₂, hhanded⟩ := hconv.handed hall h.heap h.ready
  obtain ⟨m₂, rfl⟩ := hconv.kernel
  obtain ⟨fuel, hk₁⟩ := hyields.exists_run
  have hconsole := kmalloc_sameConsole h.heap hk₁
  have hb₂ := (hhanded.blocks b h.mem h.inUse).1
  unfold printkNumber
  refine .bind (.ofOption fun r hr => hcomp.yields.unique n r hr) ?_
  rintro _ rfl
  refine .bind (.ofOption fun l _ => trivial) fun l _ => ?_
  have hcopy : Trace.Leads PrintkEvent.InBounds (Trace.emit (writes s.bufidx ((l - 1) % 256))
      (copyBytes m₂ (add32 (b.addr + 20) s.bufidx) (c.addr + 20) ((l - 1) % 256)))
      fun m => ∀ x, x < b.addr + 20 ∨ b.stop ≤ x → m x = m₂ x :=
    .emit fun hin x hx => copyBytes_inside hhanded.heap hb₂ h.size hin hx
  refine .bind hcopy fun m hm => ?_
  -- the copy stays inside the buffer, so that the block of the numeral can be given back
  have hheap : HeapInv { { k₁ with mem := m₂ } with mem := m } bs₂ :=
    hhanded.heap.write_payload hb₂ hm
  obtain ⟨k₃, hkfree, hreturned⟩ := hhanded.returned (kernelSpace mmap) hheap
  refine .bind (.ofOption fun f hf => hf) fun f hf => .emit fun _ => ?_
  obtain ⟨-, hk₃, -⟩ := kfree_step hheap hhanded.mem hf
  obtain rfl := hkfree.unique n f hf
  refine ⟨_, ⟨hreturned.heap, hreturned.blocks b h.mem h.inUse, h.inUse, h.size, hreturned.ready⟩,
    hreturned.blocks, ?_, ?_⟩
  · rw [hk₃]
    exact ⟨hconsole.row, hconsole.col, hconsole.serial⟩
  · rw [hk₃]
    exact hall.start

/-- The branch for `%d` and `%x`. -/
theorem printkInt_worked (mmap : Mmap E) (h : Working limit b s.kernel bs)
    (hlimit : limit < 4294967296) (n fmt : ℕ) :
    Trace.Leads PrintkEvent.InBounds (printkInt (kernelSpace mmap) n fmt (b.addr + 20) s)
      fun s' => ∃ bs', Worked limit b s.kernel bs s'.kernel bs' := by
  unfold printkInt
  split
  · dsimp only
    split
    · next v args hargs =>
      refine printkNumber_worked (s := { s with args := args }) mmap h hlimit ?_
        (v.toNat_lt.trans (by decide)) n
      split
      · exact Or.inl rfl
      · exact Or.inr rfl
    · exact .none _
  · exact .emit fun _ => ⟨bs, .refl h⟩

/-- The branch for `%ld` and `%lx`. -/
theorem printkLong_worked (mmap : Mmap E) (h : Working limit b s.kernel bs)
    (hlimit : limit < 4294967296) (n fmt : ℕ) :
    Trace.Leads PrintkEvent.InBounds (printkLong (kernelSpace mmap) n fmt (b.addr + 20) s)
      fun s' => ∃ bs', Worked limit b s.kernel bs s'.kernel bs' := by
  unfold printkLong
  split
  · dsimp only
    split
    · next v args hargs =>
      refine printkNumber_worked (s := { s with i := (s.i + 1) % 65536, args := args }) mmap h
        hlimit ?_ v.toNat_lt n
      split
      · exact Or.inl rfl
      · exact Or.inr rfl
    · exact .none _
  · exact .emit fun _ => ⟨bs, .refl h⟩

/-- The branch for `%s`. -/
theorem printkStr_worked (h : Working limit b s.kernel bs) (n fmt : ℕ) :
    Trace.Leads PrintkEvent.InBounds (printkStr n fmt (b.addr + 20) s)
      fun s' => ∃ bs', Worked limit b s.kernel bs s'.kernel bs' := by
  unfold printkStr
  split
  · split
    · refine .bind (.ofOption fun l _ => trivial) fun l _ => .emit fun hin => ⟨bs, h.write ?_⟩
      exact fun x hx => copyBytes_inside h.heap h.mem h.size
        (fun e he => hin e (List.mem_cons_of_mem _ he)) hx
    · exact .none _
  · exact .emit fun _ => ⟨bs, .refl h⟩

/-- The body of the loop. -/
theorem printkBody_worked (mmap : Mmap E) (h : Working limit b s.kernel bs)
    (hlimit : limit < 4294967296) (n fmt len : ℕ) :
    Trace.Leads PrintkEvent.InBounds (printkBody (kernelSpace mmap) n fmt len (b.addr + 20) s)
      fun s' => ∃ bs', Worked limit b s.kernel bs s'.kernel bs' := by
  unfold printkBody
  split
  · have hint := printkInt_worked (s := { s with i := (s.i + 1) % 65536 }) mmap h hlimit n fmt
    refine .bind hint ?_
    rintro s₁ ⟨bs₁, h₁⟩
    refine .bind (printkLong_worked mmap h₁.working hlimit n fmt) ?_
    rintro s₂ ⟨bs₂, h₂⟩
    refine (printkStr_worked h₂.working n fmt).mono ?_
    rintro s₃ ⟨bs₃, h₃⟩
    exact ⟨bs₃, (h₁.trans h₂).trans h₃⟩
  · split
    · refine .emit fun hin => ⟨bs, ?_⟩
      have hfirst := h.put 10 (hin _ List.mem_cons_self)
      exact hfirst.trans (hfirst.working.put 13 (hin _ (List.mem_cons_of_mem _ List.mem_cons_self)))
    · exact .emit fun hin => ⟨bs, h.put _ (hin _ List.mem_cons_self)⟩

/-- **The loop of `printk` and the heap.**  As long as the stores stay inside the buffer, the heap
remains a heap, the blocks in use remain in use, and nothing is printed. -/
theorem printkLoop_worked (mmap : Mmap E) (h : Working limit b s.kernel bs)
    (hlimit : limit < 4294967296) (fmt len n : ℕ) :
    Trace.Leads PrintkEvent.InBounds (printkLoop (kernelSpace mmap) fmt len (b.addr + 20) n s)
      fun s' => ∃ bs', Worked limit b s.kernel bs s'.kernel bs' := by
  induction n generalizing s bs with
  | zero => exact .none _
  | succ n ih =>
    rw [printkLoop]
    split
    · refine .bind (printkBody_worked mmap h hlimit n fmt len) ?_
      rintro s₁ ⟨bs₁, h₁⟩
      refine (ih (s := { s₁ with i := (s₁.i + 1) % 65536 }) h₁.working).mono ?_
      rintro s₂ ⟨bs₂, h₂⟩
      exact ⟨bs₂, h₁.trans h₂⟩
    · exact .emit fun _ => ⟨bs, .refl h⟩

end PakOS
