import Mathlib.Data.Nat.Notation

/-!
# Interrupt controllers

The programming interface of an 8259A, and two of them in a cascade.  A controller is initialised by
a sequence of command words; what a byte at its data port means depends on how far the sequence has
come, and at the end of it the data port is the mask register.

`Cascade.vector` is what a program wants to know about the two: with which vector a request on one
of the sixteen lines reaches the processor, while no other is in service.
-/

namespace Machine

/-- What the next byte at the data port is taken for. -/
inductive Awaits
  | mask
  | icw2
  | icw3
  | icw4
  deriving DecidableEq, Repr

/-- An 8259A. -/
structure I8259 where
  /-- The mask register. -/
  imr : BitVec 8
  /-- The vector of line 0. -/
  icw2 : BitVec 8
  /-- The lines with a slave, or the line of the master that a slave is on. -/
  icw3 : BitVec 8
  /-- The mode. -/
  icw4 : BitVec 8
  /-- There is no cascade. -/
  single : Bool
  /-- The sequence has a fourth word. -/
  needsIcw4 : Bool
  /-- How far the sequence has come. -/
  awaits : Awaits
  deriving DecidableEq, Repr

namespace I8259

/-- A byte at the command port.  Bit 4 begins the sequence, from any state, and clears the masks;
the other commands do not concern what is modelled here. -/
def writeCommand (v : BitVec 8) (c : I8259) : I8259 :=
  if v.getLsbD 4 then
    { c with
      imr := 0
      icw4 := if v.getLsbD 0 then c.icw4 else 0
      single := v.getLsbD 1
      needsIcw4 := v.getLsbD 0
      awaits := .icw2 }
  else c

/-- What comes behind the third word. -/
def afterIcw3 (c : I8259) : Awaits := if c.needsIcw4 then .icw4 else .mask

/-- A byte at the data port. -/
def writeData (v : BitVec 8) (c : I8259) : I8259 :=
  match c.awaits with
  | .mask => { c with imr := v }
  | .icw2 => { c with icw2 := v, awaits := if c.single then c.afterIcw3 else .icw3 }
  | .icw3 => { c with icw3 := v, awaits := c.afterIcw3 }
  | .icw4 => { c with icw4 := v, awaits := .mask }

/-- The data port reads the masks. -/
def readData (c : I8259) : BitVec 8 := c.imr

/-- The controller is initialised, in 8086 mode and in a cascade, and line `n` is not masked. -/
def accepts (c : I8259) (n : ℕ) : Bool :=
  c.awaits = .mask && c.icw4.getLsbD 0 && !c.single && !c.imr.getLsbD n

/-- The vector of line `n`: the low three bits of the second word are not used. -/
def vector (c : I8259) (n : ℕ) : ℕ := c.icw2.toNat / 8 * 8 + n

end I8259

/-- A master and its slave. -/
structure Cascade where
  /-- Lines 0 to 7. -/
  master : I8259
  /-- Lines 8 to 15. -/
  slave : I8259
  deriving DecidableEq, Repr

/-- The vector with which a request on a line reaches the processor, if it does.  A slave is heard
on the line of the master that both agree on, and that line is no other device's. -/
def Cascade.vector (p : Cascade) (line : ℕ) : Option ℕ :=
  if line < 8 then
    if p.master.accepts line && !p.master.icw3.getLsbD line then some (p.master.vector line) else none
  else if line < 16 then
    let id := p.slave.icw3.toNat % 8
    if p.slave.accepts (line - 8) && p.master.accepts id && p.master.icw3.getLsbD id then
      some (p.slave.vector (line - 8))
    else none
  else none

end Machine
