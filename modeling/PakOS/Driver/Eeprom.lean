import PakOS.Klibc.PrintkSpec

/-!
# `eeprom_rword`

`eeprom_rword` of `driver/eth/intel_8254x.c`, which polls the card until it has answered.  The card
is a parameter: `eerd cmd i` is what the register EERD reads at poll `i` after the command `cmd` was
written to it.  Each poll calls `printk("")`, which takes a block from the heap and gives it back;
`empty` is the address of the literal.
-/

namespace PakOS

open Machine Coalesce

namespace Intel8254x

variable {E : Type*}

/-- The register EERD: the response to each poll after a command. -/
abbrev Eerd := ℕ → ℕ → ℕ

/-- The loop of `eeprom_rword`, from poll `i` on. -/
def eepromPoll (space : Space E) (eerd : Eerd) (empty cmd : ℕ) :
    ℕ → ℕ → Kernel E → Option (ℕ × Kernel E)
  | 0, _, _ => none
  | fuel + 1, i, k =>
    let resp := eerd cmd i
    (printk space fuel empty [] k).result.bind fun k =>
      if resp &&& 1 <<< 4 = 0 then eepromPoll space eerd empty cmd fuel (i + 1) k
      else some (resp / 65536 % 65536, k)

/-- `eeprom_rword(offset)` -/
def eepromRword (space : Space E) (fuel : ℕ) (eerd : Eerd) (empty offset : ℕ) (k : Kernel E) :
    Option (ℕ × Kernel E) :=
  eepromPoll space eerd empty (1 ||| offset <<< 8) fuel 0 k

/-- The card answers the reading of the word at `offset` with `w`, after any number of polls. -/
def Answers (eerd : Eerd) (offset w : ℕ) : Prop :=
  ∃ d, (∀ j < d, eerd (1 ||| offset <<< 8) j &&& 1 <<< 4 = 0) ∧
    eerd (1 ||| offset <<< 8) d &&& 1 <<< 4 ≠ 0 ∧ eerd (1 ||| offset <<< 8) d / 65536 % 65536 = w

variable {mmap : Mmap E} {limit empty : ℕ} {k k' : Kernel E} {bs bs' : List Block}

/-! ### The empty format -/

/-- The loop of `printk("")` writes the terminator of the format. -/
theorem completes_printkLoop_empty (space : Space E) (buffer : ℕ) (hempty : k.mem empty = 0)
    (hlt : empty < 4294967296) :
    Completes (fun n => printkLoop space empty 1 buffer n ⟨0, 0, [], k⟩) [.write 0]
      ⟨1, 1, [], { k with mem := Function.update k.mem (add32 buffer 0) 0 }⟩ := by
  have hchar : Printk.char empty (⟨0, 0, [], k⟩ : Printk E) 0 = 0 := by
    rw [Printk.char, add32_of_lt hlt]
    exact hempty
  let p : Printk E := ⟨1, 1, [], { k with mem := Function.update k.mem (add32 buffer 0) 0 }⟩
  have hbody : ∀ n, printkBody space n empty 1 buffer ⟨0, 0, [], k⟩ =
      Trace.emit [.write 0] { p with i := 0 } := by
    intro n
    rw [printkBody, hchar, if_neg fun h37 => absurd h37.1 (by decide), if_neg (by decide),
      Printk.put]
    rfl
  have hrest : Completes (fun n => printkLoop space empty 1 buffer n p) [] p :=
    (Completes.emit [] p).succ rfl fun n => by rw [printkLoop, if_neg (Nat.lt_irrefl 1)]
  have hrun : Completes (fun n => (Trace.emit [PrintkEvent.write 0] p).bind fun s =>
      printkLoop space empty 1 buffer n s) [.write 0] p :=
    (Completes.emit [PrintkEvent.write 0] p).bind hrest
  refine hrun.succ rfl fun n => ?_
  rw [printkLoop, if_pos Nat.one_pos, hbody]
  rfl

/-- What follows the loop when the buffer holds the empty string. -/
theorem exists_completes_printkEnd_empty (space : Space E) {buffer : ℕ} {s : Printk E} {m : Mem}
    {st : Status} (hm : m = Function.update s.kernel.mem (add32 buffer s.bufidx) 0)
    (hstr : CString m buffer [])
    (hkfree : Yields (fun n => kfree space n buffer { s.kernel with mem := m }) (st, k')) :
    ∃ es, Completes (fun n => printkEnd space n buffer s) es k' := by
  subst hm
  -- there is nothing to print, and the buffer is given back
  have hlast : Completes (fun n => (Trace.ofOption (kfree space n buffer
      { s.kernel with mem := Function.update s.kernel.mem (add32 buffer s.bufidx) 0 })).bind
        fun f => Trace.emit [] f.2) ([] ++ []) k' :=
    (Completes.ofOption hkfree).bind (Completes.emit ([] : List PrintkEvent) k')
  have hprint : Completes (fun n => (Trace.ofOption (vgaPrint space (kfree space n) n []
      { s.kernel with mem := Function.update s.kernel.mem (add32 buffer s.bufidx) 0 })).bind
        fun k => (Trace.ofOption (kfree space n buffer k)).bind fun f => Trace.emit [] f.2)
      ([] ++ ([] ++ [])) k' := (Completes.ofOption (Yields.const _)).bind hlast
  exact ⟨_, (Completes.emit _ _).bind ((Completes.ofOption hstr.charsFrom).bind
    ((Completes.emit _ _).bind hprint))⟩

/-! ### The EEPROM -/

/-- `printk("")` takes a block and gives it back. -/
theorem exists_printk_empty (mmap : Mmap E) (hk : HeapInv k bs) (hready : Ready 208 limit k bs)
    (hlimit : limit < 4294967296) (hempty : k.mem empty = 0) (hset : Settled limit k bs empty)
    (hlt : empty < 4294967296) :
    ∃ k' bs', Yields (fun n => (printk (kernelSpace mmap) n empty [] k).result) k' ∧
      Returned 208 limit k bs k.mem k' bs' := by
  obtain ⟨k₁, bs₁, b, hkmalloc, hall⟩ := hready.yields_kmalloc mmap hk hlimit
    (show 200 + 35 < 4096 by decide) (show align16 200 ≤ 208 by decide)
  have hhanded := hall.handed hk (by decide) hready (by decide)
  obtain ⟨hb, -, hsize⟩ := hall.block (show SizeOk 200 by decide)
  have hbounds := hall.heap.block_bounds hb
  have hone : add32 (b.addr + 20) 1 = b.addr + 20 + 1 := add32_of_lt (by omega)
  have hzero : add32 (b.addr + 20) 0 = b.addr + 20 := add32_of_lt (by omega)
  -- both terminators, that of the format and that of the buffer, are written
  let m₁ := Function.update k₁.mem (b.addr + 20) 0
  let m := Function.update m₁ (b.addr + 20 + 1) 0
  have hm : ∀ x, x < b.addr + 20 ∨ b.stop ≤ x → m x = k₁.mem x := by
    intro x hx
    unfold Block.stop at hx
    exact (Function.update_of_ne (by omega) _ _).trans (Function.update_of_ne (by omega) _ _)
  obtain ⟨k', hkfree, hret⟩ :=
    hhanded.returned (kernelSpace mmap) (hall.heap.write_payload hb hm)
  have hempty₁ : k₁.mem empty = 0 := (hhanded.settled empty hset).1.trans hempty
  have hfmt : CString k.mem empty [] := ⟨⟨hempty, trivial⟩, List.not_mem_nil, hlt⟩
  have hstr : CString m (b.addr + 20) [] := by
    refine ⟨⟨?_, trivial⟩, List.not_mem_nil, by rw [List.length_nil]; omega⟩
    exact (Function.update_of_ne (by omega) _ _).trans (Function.update_self _ _ _)
  have hloop := completes_printkLoop_empty (kernelSpace mmap) (b.addr + 20) hempty₁ hlt
  rw [hzero] at hloop
  obtain ⟨es, hend⟩ := exists_completes_printkEnd_empty (kernelSpace mmap)
    (s := ⟨1, 1, [], { k₁ with mem := m₁ }⟩) (by rw [hone]) hstr hkfree
  refine ⟨k', _, (Completes.bind (Completes.ofOption hfmt.strlen) (Completes.bind
    (Completes.ofOption hkmalloc) (Completes.bind hloop hend))).yields, hret.heap, hret.ready,
    hret.blocks, fun x hx => ?_⟩
  obtain ⟨hmem, -, hout⟩ := hhanded.settled x hx
  obtain ⟨hmem', hx'⟩ := hret.settled x hx
  exact ⟨hmem'.trans ((hm x hout).trans hmem), hx'⟩

/-- One poll and what comes behind it. -/
theorem eepromPoll_succ (space : Space E) (eerd : Eerd) (cmd fuel i : ℕ) (k : Kernel E) :
    eepromPoll space eerd empty cmd (fuel + 1) i k =
      (printk space fuel empty [] k).result.bind fun k =>
        if eerd cmd i &&& 1 <<< 4 = 0 then eepromPoll space eerd empty cmd fuel (i + 1) k
        else some (eerd cmd i / 65536 % 65536, k) := rfl

/-- The polls for an answer that comes after `d` of them. -/
theorem exists_eepromPoll (mmap : Mmap E) {eerd : Eerd} {cmd d i : ℕ} (hk : HeapInv k bs)
    (hready : Ready 208 limit k bs) (hlimit : limit < 4294967296) (hempty : k.mem empty = 0)
    (hset : Settled limit k bs empty) (hlt : empty < 4294967296)
    (hbusy : ∀ j < d, eerd cmd (i + j) &&& 1 <<< 4 = 0) (hdone : eerd cmd (i + d) &&& 1 <<< 4 ≠ 0) :
    ∃ k' bs', Yields (fun n => eepromPoll (kernelSpace mmap) eerd empty cmd n i k)
        (eerd cmd (i + d) / 65536 % 65536, k') ∧ Returned 208 limit k bs k.mem k' bs' := by
  induction d generalizing i k bs with
  | zero =>
    obtain ⟨k', bs', hprintk, hret⟩ := exists_printk_empty mmap hk hready hlimit hempty hset hlt
    have hrest : Yields (fun n => if eerd cmd i &&& 1 <<< 4 = 0 then
        eepromPoll (kernelSpace mmap) eerd empty cmd n (i + 1) k'
        else some (eerd cmd i / 65536 % 65536, k')) (eerd cmd i / 65536 % 65536, k') := by
      rw [Nat.add_zero] at hdone
      simp only [if_neg hdone]
      exact Yields.const _
    exact ⟨k', bs', (hprintk.bind hrest).succ rfl fun n => eepromPoll_succ _ _ _ n i k, hret⟩
  | succ d ih =>
    obtain ⟨k₁, bs₁, hprintk, hret⟩ := exists_printk_empty mmap hk hready hlimit hempty hset hlt
    obtain ⟨hmem, hset₁⟩ := hret.settled empty hset
    have hshift : ∀ j, i + 1 + j = i + (j + 1) := fun j => by omega
    obtain ⟨k', bs', hpoll, hret'⟩ := ih (i := i + 1) hret.heap hret.ready (hmem.trans hempty) hset₁
      (fun j hj => hshift j ▸ hbusy (j + 1) (Nat.succ_lt_succ hj)) (hshift d ▸ hdone)
    have hrest : Yields (fun n => if eerd cmd i &&& 1 <<< 4 = 0 then
        eepromPoll (kernelSpace mmap) eerd empty cmd n (i + 1) k₁
        else some (eerd cmd i / 65536 % 65536, k₁))
        (eerd cmd (i + (d + 1)) / 65536 % 65536, k') := by
      have hbusy₀ : eerd cmd i &&& 1 <<< 4 = 0 := hbusy 0 (Nat.succ_pos d)
      simp only [if_pos hbusy₀]
      rwa [hshift] at hpoll
    exact ⟨k', bs', (hprintk.bind hrest).succ rfl fun n => eepromPoll_succ _ _ _ n i k,
      hret.trans hret'⟩

/-- `eeprom_rword` returns the word that the card answers with. -/
theorem exists_eepromRword (mmap : Mmap E) {eerd : Eerd} {offset w : ℕ} (hk : HeapInv k bs)
    (hready : Ready 208 limit k bs) (hlimit : limit < 4294967296) (hempty : k.mem empty = 0)
    (hset : Settled limit k bs empty) (hlt : empty < 4294967296) (hans : Answers eerd offset w) :
    ∃ k' bs', Yields (fun n => eepromRword (kernelSpace mmap) n eerd empty offset k) (w, k') ∧
      Returned 208 limit k bs k.mem k' bs' := by
  obtain ⟨d, hbusy, hdone, rfl⟩ := hans
  rw [← Nat.zero_add d] at hdone ⊢
  exact exists_eepromPoll mmap hk hready hlimit hempty hset hlt
    (fun j hj => (Nat.zero_add j).symm ▸ hbusy j (by omega)) hdone

end Intel8254x

end PakOS
