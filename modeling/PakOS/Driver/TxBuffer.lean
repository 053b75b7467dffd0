import PakOS.Driver.Intel8254x
import PakOS.VirtMM.Lpa

/-!
# What the card reads

A descriptor makes the card read `length` bytes from the physical address `buffer` on.  The driver
enters `_lpa(buffer_addr)` and twice the length of the caller's buffer.

The length is right for the empty buffer only (`reads_iff`).  The addresses are right, whatever the
length, if bits 10 and 11 of the page's entry are those of the buffer's address and the pages of the
buffer lie in frames in a row (`addresses_iff`), as the frames of the heap need not.
-/

namespace PakOS

open Machine

namespace Intel8254x

variable {P : Type*} {s : VirtMM P} {buffer len : ℕ}

/-- The descriptor that `add_tx_buffer(buffer, len, eop)` leaves in the place of `d`. -/
def filled (s : VirtMM P) (buffer len eop : ℕ) (d : Tdesc) : Option Tdesc :=
  (s.lpa buffer).map fun hwaddr => (TxCall.fields ⟨hwaddr, len, eop⟩).foldl (fun d set => set d) d

/-- Byte `i` of the card's buffer is byte `i` of the caller's, for the first `len` bytes. -/
def SameBytes (s : VirtMM P) (buffer len : ℕ) (d : Tdesc) : Prop :=
  ∀ i < len, s.physicalAddr (buffer + i) = some (d.buffer + i)

/-- The bytes from `buffer` on are mapped, the first one also when there is none, and end below
4G. -/
structure Buffer (s : VirtMM P) (buffer len : ℕ) : Prop where
  /-- The directory's last entry is present. -/
  last : Present (s.pde 1023)
  /-- It names the directory. -/
  self : frameOf (s.pde 1023) = s.pdeTable
  /-- The entries of page tables are 32-bit words. -/
  word : ∀ f i, s.phys f i < 4294967296
  /-- The buffer ends below 4G. -/
  le : buffer + len ≤ 4294967296
  /-- The buffer begins below 4G. -/
  lt : buffer < 4294967296
  /-- The first byte is mapped. -/
  start : s.translate (buffer / 4096) ≠ none
  /-- The other bytes are mapped. -/
  mapped : ∀ i < len, s.translate ((buffer + i) / 4096) ≠ none

/-- Both entries of a page that is mapped are present. -/
theorem present_of_translate {lg : ℕ} (h : s.translate (lg / 4096) ≠ none) :
    Present (s.pde (lg / 4096 / 1024)) ∧ Present (s.entryOf lg) := by
  have htable : Present (s.pde (lg / 4096 / 1024)) := by
    by_contra habs
    exact h (pageWalk_of_not_present habs)
  refine ⟨htable, ?_⟩
  by_contra habs
  exact h ((pageWalk_of_present htable).trans (decode_of_not_present habs))

/-- The descriptor of a mapped buffer. -/
theorem Buffer.filled_eq (h : Buffer s buffer len) (eop : ℕ) (d : Tdesc) :
    ∃ d', filled s buffer len eop d = some d' ∧
      d'.buffer = s.entryOf buffer / 1024 * 1024 + buffer % 1024 ∧
      d'.length = len * 2 % 65536 := by
  obtain ⟨htable, -⟩ := present_of_translate h.start
  rw [filled, VirtMM.lpa_eq h.last h.self h.lt htable (h.word _ _)]
  exact ⟨_, rfl, rfl, rfl⟩

/-- The address of a byte that is mapped. -/
theorem physicalAddr_of_translate {lg f : ℕ} (h : s.translate (lg / 4096) = some f) :
    s.physicalAddr lg = some (4096 * f + lg % 4096) := by
  rw [VirtMM.physicalAddr, h, Option.map_some]

/-- The frame of the buffer's first byte. -/
theorem Buffer.translate_start (h : Buffer s buffer len) :
    s.translate (buffer / 4096) = some (s.entryOf buffer / 4096) := by
  obtain ⟨htable, hentry⟩ := present_of_translate h.start
  exact (pageWalk_of_present htable).trans (decode_of_present hentry)

/-- Whatever its length field says, the descriptor of a mapped buffer names the caller's bytes
exactly if the buffer is empty, or bits 10 and 11 of the entry of its first page are those of its
address and its pages lie in frames in a row. -/
theorem Buffer.sameBytes_iff (h : Buffer s buffer len) {d : Tdesc}
    (hd : d.buffer = s.entryOf buffer / 1024 * 1024 + buffer % 1024) :
    SameBytes s buffer len d ↔ len = 0 ∨
      s.entryOf buffer / 1024 % 4 = buffer / 1024 % 4 ∧
      ∀ j, 4096 * j < buffer % 4096 + len →
        s.translate (buffer / 4096 + j) = some (s.entryOf buffer / 4096 + j) := by
  constructor
  · intro hsame
    rcases Nat.eq_zero_or_pos len with h0 | hpos
    · exact Or.inl h0
    have hbits : s.entryOf buffer / 1024 % 4 = buffer / 1024 % 4 := by
      have hfirst := hsame 0 hpos
      rw [Nat.add_zero, physicalAddr_of_translate h.translate_start, Option.some.injEq] at hfirst
      omega
    refine Or.inr ⟨hbits, fun j hj => ?_⟩
    rcases Nat.eq_zero_or_pos j with rfl | hjpos
    · exact h.translate_start
    -- the first byte of page `j` of the buffer
    have hbyte := hsame (4096 * j - buffer % 4096) (by omega)
    have hpage : (buffer + (4096 * j - buffer % 4096)) / 4096 = buffer / 4096 + j := by omega
    cases hf : s.translate (buffer / 4096 + j) with
    | none =>
      have := h.mapped (4096 * j - buffer % 4096) (by omega)
      rw [hpage] at this
      exact absurd hf this
    | some f =>
      rw [← hpage] at hf
      rw [physicalAddr_of_translate hf, Option.some.injEq] at hbyte
      exact congrArg some (by omega)
  · rintro (rfl | ⟨hbits, hrow⟩) i hi
    · exact absurd hi (Nat.not_lt_zero i)
    · have hpage : buffer / 4096 + ((buffer % 4096 + i) / 4096) = (buffer + i) / 4096 := by omega
      have hf := hrow ((buffer % 4096 + i) / 4096) (by omega)
      rw [hpage] at hf
      rw [physicalAddr_of_translate hf, Option.some.injEq]
      omega

/-- For a mapped buffer of at most 65535 bytes, `add_tx_buffer` makes the card read exactly the
caller's bytes if and only if there are none; the length field is twice the length, in 16 bits, and
the first `len` bytes are the caller's exactly under the condition of `Buffer.sameBytes_iff`. -/
theorem reads_iff (h : Buffer s buffer len) (hlen : len < 65536) (eop : ℕ) (d : Tdesc) :
    ∃ d', filled s buffer len eop d = some d' ∧
      (d'.length = len ∧ SameBytes s buffer len d' ↔ len = 0) ∧
      d'.length = 2 * len % 65536 ∧
      (SameBytes s buffer len d' ↔ len = 0 ∨
        s.entryOf buffer / 1024 % 4 = buffer / 1024 % 4 ∧
        ∀ j, 4096 * j < buffer % 4096 + len →
          s.translate (buffer / 4096 + j) = some (s.entryOf buffer / 4096 + j)) := by
  obtain ⟨d', hfill, hbuffer, hlength⟩ := h.filled_eq eop d
  refine ⟨d', hfill, ?_, by rw [hlength, Nat.mul_comm], h.sameBytes_iff hbuffer⟩
  constructor
  · rintro ⟨hd, -⟩
    omega
  · rintro rfl
    exact ⟨hlength, fun i hi => absurd hi (Nat.not_lt_zero i)⟩

/-- The first heap page with its words in 32 bits. -/
theorem firstHeapPage_buffer {len : ℕ} (hlen : len ≤ 4096) :
    Buffer VirtMM.firstHeapPage kheapStart len := by
  have hstart : VirtMM.firstHeapPage.translate (kheapStart / 4096) = some 256 := by decide
  refine ⟨by decide, by decide, fun f i => ?_, ?_, by decide, ?_, fun i hi => ?_⟩
  · change setWord VirtMM.oneTable.phys _ _ _ f i < _
    rw [setWord_apply]
    change (if _ then _ else if _ then if _ then _ else if _ then _ else _ else _) < _
    split_ifs <;> decide
  · unfold kheapStart
    omega
  · exact hstart ▸ Option.some_ne_none 256
  · rw [show (kheapStart + i) / 4096 = kheapStart / 4096 by unfold kheapStart; omega, hstart]
    exact Option.some_ne_none 256

/-- An ARP packet of 42 bytes at the start of the heap: the addresses are the caller's. -/
theorem reads_firstHeapPage :
    ∃ d', filled VirtMM.firstHeapPage kheapStart 42 1 .zero = some d' ∧
      SameBytes VirtMM.firstHeapPage kheapStart 42 d' := by
  obtain ⟨d', hfill, -, -, hsame⟩ :=
    reads_iff (firstHeapPage_buffer (show 42 ≤ 4096 by decide)) (by decide) 1 .zero
  refine ⟨d', hfill, hsame.mpr (Or.inr ⟨by decide, fun j hj => ?_⟩)⟩
  have hj0 : j = 0 := by
    unfold kheapStart at hj
    omega
  rw [hj0]
  decide

/-- Of this packet the card reads 84 bytes. -/
theorem not_reads_firstHeapPage :
    Buffer VirtMM.firstHeapPage kheapStart 42 ∧
      ∃ d', filled VirtMM.firstHeapPage kheapStart 42 1 .zero = some d' ∧ d'.length = 84 ∧
        ¬(d'.length = 42 ∧ SameBytes VirtMM.firstHeapPage kheapStart 42 d') := by
  have hbuffer := firstHeapPage_buffer (show 42 ≤ 4096 by decide)
  obtain ⟨d', hfill, -, hlength⟩ := hbuffer.filled_eq 1 .zero
  refine ⟨hbuffer, d', hfill, hlength, fun h => ?_⟩
  exact absurd (hlength.symm.trans h.1) (by decide)

end Intel8254x

end PakOS
