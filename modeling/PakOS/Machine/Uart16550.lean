import PakOS.Machine.Program

/-!
# Serial ports

The programming interface of a 16550A, and what the chip does by itself.  Characters that a program
writes wait in a queue, are taken into the shift register, and leave it on the line, or, while the
chip is in loopback mode, for its own receiver.  Meanwhile characters may come in from the other
end.  A character on the line is recorded with the divisor and the format that it was sent with.
-/

namespace Machine

open Relation

/-- The registers that a program sets. -/
structure UartRegs where
  /-- The interrupts that are enabled. -/
  ier : UInt8
  /-- The format of characters.  With bit 7 the divisor stands in front of other registers. -/
  lcr : UInt8
  /-- The modem lines, and with bit 4 loopback mode. -/
  mcr : UInt8
  /-- The low byte of the divisor. -/
  dll : UInt8
  /-- The high byte of the divisor. -/
  dlm : UInt8
  /-- The queues are enabled. -/
  fifos : Bool
  deriving DecidableEq, Repr

/-- A character on the line. -/
structure Frame where
  /-- The divisor that it was sent with. -/
  divisor : ℕ
  /-- The format. -/
  format : UInt8
  /-- The character. -/
  char : UInt8
  deriving DecidableEq, Repr

namespace UartRegs

/-- The divisor stands in front of other registers. -/
def dlab (r : UartRegs) : Bool := r.lcr &&& 0x80 ≠ 0

/-- What is sent comes back. -/
def loopback (r : UartRegs) : Bool := r.mcr &&& 0x10 ≠ 0

/-- How many characters each queue takes. -/
def capacity (r : UartRegs) : ℕ := if r.fifos then 16 else 1

/-- A character as it is sent. -/
def frame (r : UartRegs) (b : UInt8) : Frame :=
  ⟨r.dlm.toNat * 256 + r.dll.toNat, r.lcr &&& 0x7f, b⟩

/-- What a byte that is written does to the registers. -/
def write (r : UartRegs) (offset : ℕ) (v : UInt8) : UartRegs :=
  match offset with
  | 0 => if r.dlab then { r with dll := v } else r
  | 1 => if r.dlab then { r with dlm := v } else { r with ier := v }
  | 2 => { r with fifos := v &&& 0x01 ≠ 0 }
  | 3 => { r with lcr := v }
  | 4 => { r with mcr := v }
  | _ => r

end UartRegs

/-- A 16550A. -/
structure Uart16550 where
  /-- The registers. -/
  regs : UartRegs
  /-- The characters that wait to be sent. -/
  tx : List UInt8
  /-- The character that is being sent. -/
  shift : Option UInt8
  /-- The characters that were received. -/
  rx : List UInt8
  /-- The one that was read last. -/
  rbr : UInt8
  /-- What has been sent. -/
  line : List Frame
  deriving DecidableEq, Repr

namespace Uart16550

/-- The queue after a character is written.  One for which there is no room is lost, or takes the
place of the one that waits. -/
def accept (v : UInt8) (c : Uart16550) : List UInt8 :=
  if c.tx.length < c.regs.capacity then c.tx ++ [v] else if c.regs.fifos then c.tx else [v]

/-- A byte is written.  Enabling or disabling the queues clears them, and bits 1 and 2 of what
enables them clear one of them. -/
def write (offset : ℕ) (v : UInt8) (c : Uart16550) : Uart16550 :=
  let regs := c.regs.write offset v
  match offset with
  | 0 => { c with regs := regs, tx := if c.regs.dlab then c.tx else c.accept v }
  | 2 =>
    { c with
      regs := regs
      rx := if regs.fifos ≠ c.regs.fifos ∨ regs.fifos ∧ v &&& 0x02 ≠ 0 then [] else c.rx
      tx := if regs.fifos ≠ c.regs.fifos ∨ regs.fifos ∧ v &&& 0x04 ≠ 0 then [] else c.tx }
  | _ => { c with regs := regs }

/-- The status: a character was received, none waits to be sent, none is being sent. -/
def lineStatus (c : Uart16550) : UInt8 :=
  (if c.rx = [] then 0 else 0x01) ||| (if c.tx = [] then 0x20 else 0) |||
    if c.tx = [] ∧ c.shift = none then 0x40 else 0

/-- A byte is read. -/
def read (offset : ℕ) (c : Uart16550) : UInt8 × Uart16550 :=
  match offset with
  | 0 =>
    if c.regs.dlab then (c.regs.dll, c)
    else match c.rx with
      | [] => (c.rbr, c)
      | b :: bs => (b, { c with rx := bs, rbr := b })
  | 1 => (if c.regs.dlab then c.regs.dlm else c.regs.ier, c)
  | 3 => (c.regs.lcr, c)
  | 4 => (c.regs.mcr, c)
  | 5 => (c.lineStatus, c)
  | _ => (0xff, c)

/-- A character comes in. -/
def receive (b : UInt8) (c : Uart16550) : Uart16550 :=
  { c with rx := if c.rx.length < c.regs.capacity then c.rx ++ [b] else c.rx }

/-- What the chip does by itself, where `Heard` are the characters that may come from the other
end. -/
inductive Own (Heard : UInt8 → Prop) (c : Uart16550) : Uart16550 → Prop
  /-- A character is taken from the queue. -/
  | load {b : UInt8} {bs : List UInt8} (hshift : c.shift = none) (htx : c.tx = b :: bs) :
      Own Heard c { c with tx := bs, shift := some b }
  /-- A character has been sent. -/
  | send {b : UInt8} (hshift : c.shift = some b) (hline : c.regs.loopback = false) :
      Own Heard c { c with shift := none, line := c.line ++ [c.regs.frame b] }
  /-- A character has come back. -/
  | loop {b : UInt8} (hshift : c.shift = some b) (hloop : c.regs.loopback = true) :
      Own Heard c (receive b { c with shift := none })
  /-- A character comes in. -/
  | hear {b : UInt8} (hline : c.regs.loopback = false) (hb : Heard b) : Own Heard c (c.receive b)

/-- The chip at the ports from `base` on. -/
def device (base : ℕ) (Heard : UInt8 → Prop) : Device Uart16550 where
  outb port v c := if base ≤ port then c.write (port - base) v else c
  inb port c := if base ≤ port then c.read (port - base) else (0xff, c)
  Own := Own Heard

variable {Heard : UInt8 → Prop} {base : ℕ} {c d : Uart16550}

@[simp] theorem device_outb (offset : ℕ) (v : UInt8) (c : Uart16550) :
    (device base Heard).outb (base + offset) v c = c.write offset v := by
  simp [device]

@[simp] theorem device_inb (offset : ℕ) (c : Uart16550) :
    (device base Heard).inb (base + offset) c = c.read offset := by
  simp [device]

@[simp] theorem write_regs (offset : ℕ) (v : UInt8) (c : Uart16550) :
    (c.write offset v).regs = c.regs.write offset v := by
  unfold write
  split <;> rfl

/-- Only a program changes the registers. -/
theorem Own.regs (h : Own Heard c d) : d.regs = c.regs := by
  cases h <;> rfl

/-- Only a program writes to the queue. -/
theorem Own.tx_eq_nil (h : Own Heard c d) (htx : c.tx = []) : d.tx = [] := by
  cases h with
  | load _ htx' => exact absurd (htx.symm.trans htx') (List.cons_ne_nil _ _).symm
  | _ => exact htx

/-- A queue that is empty accepts a character. -/
theorem accept_of_nil (v : UInt8) (h : c.tx = []) : c.accept v = [v] := by
  have hroom : c.tx.length < c.regs.capacity := by
    rw [h, UartRegs.capacity]
    split <;> decide
  rw [accept, if_pos hroom, h, List.nil_append]

/-- The status shows whether a character waits. -/
theorem lineStatus_and (c : Uart16550) : c.lineStatus &&& 0x20 = if c.tx = [] then 0x20 else 0 := by
  unfold lineStatus
  split <;> split <;> split <;> decide

/-- What waits is sent by itself. -/
theorem exists_drained (Heard : UInt8 → Prop) (c : Uart16550) :
    ∃ d, ReflTransGen (Own Heard) c d ∧ d.tx = [] ∧ d.shift = none := by
  obtain ⟨n, hn⟩ : ∃ n, c.tx.length = n := ⟨_, rfl⟩
  induction n generalizing c with
  | zero =>
    have htx := List.length_eq_zero_iff.mp hn
    cases hshift : c.shift with
    | none => exact ⟨c, .refl, htx, hshift⟩
    | some b =>
      cases hloop : c.regs.loopback with
      | false => exact ⟨_, .single (.send hshift hloop), htx, rfl⟩
      | true => exact ⟨_, .single (.loop hshift hloop), htx, rfl⟩
  | succ n ih =>
    obtain ⟨e, hown, htx, hshift⟩ : ∃ e, ReflTransGen (Own Heard) c e ∧ e.tx = c.tx ∧
        e.shift = none := by
      cases hshift : c.shift with
      | none => exact ⟨c, .refl, rfl, hshift⟩
      | some b =>
        cases hloop : c.regs.loopback with
        | false => exact ⟨_, .single (.send hshift hloop), rfl, rfl⟩
        | true => exact ⟨_, .single (.loop hshift hloop), rfl, rfl⟩
    obtain ⟨b, bs, hcons⟩ := List.exists_cons_of_length_eq_add_one (htx ▸ hn)
    obtain ⟨d, hrest, hd⟩ := ih { e with tx := bs, shift := some b } <| by
      rw [← htx, hcons, List.length_cons] at hn
      exact Nat.succ.inj hn
    exact ⟨d, (hown.tail (.load hshift hcons)).trans hrest, hd⟩

end Uart16550

end Machine
