import Mathlib.Logic.Function.Basic
import PakOS.Machine.I8259

/-!
# The interrupt lines

`kernel/irq/pic.c`.  `init_pic` programs the two controllers, from whatever state the firmware left
them in, and `pic_noirq` and `pic_yesirq` write their masks.

`IrqLines` is what the rest of the kernel means by it: sixteen lines, each enabled or not, and the
vectors at which they arrive.  `pic_refines` says that the controllers are that after every sequence
of calls, and which lines are heard then.  A line of the slave is heard only while line 2 is enabled,
and line 9 is enabled from the beginning.
-/

namespace PakOS

open Machine

/-- `_PIC1_COMMAND` -/
def pic1Command : BitVec 16 := 0x20

/-- `_PIC1_DATA` -/
def pic1Data : BitVec 16 := pic1Command + 1

/-- `_PIC2_COMMAND` -/
def pic2Command : BitVec 16 := 0xa0

/-- `_PIC2_DATA` -/
def pic2Data : BitVec 16 := pic2Command + 1

/-- `_ICW1_ICW4` -/
def icw1Icw4 : BitVec 8 := 0x01

/-- `_ICW1_INIT` -/
def icw1Init : BitVec 8 := 0x10

/-- `_ICW4_8086` -/
def icw4x8086 : BitVec 8 := 0x01

/-- The two controllers of a PC. -/
abbrev Pics := Cascade

namespace Pics

/-- `___outb(port, val)` -/
def outb (port : BitVec 16) (val : BitVec 8) (p : Pics) : Pics :=
  if port = pic1Command then { p with master := p.master.writeCommand val }
  else if port = pic1Data then { p with master := p.master.writeData val }
  else if port = pic2Command then { p with slave := p.slave.writeCommand val }
  else if port = pic2Data then { p with slave := p.slave.writeData val }
  else p

/-- `___inb(port)` of a data port. -/
def inb (port : BitVec 16) (p : Pics) : BitVec 8 :=
  if port = pic1Data then p.master.readData
  else if port = pic2Data then p.slave.readData
  else 0xff

/-- `___io_wait()` writes to a port that belongs to neither. -/
def ioWait (p : Pics) : Pics := p.outb 0x80 0

/-- `pic_remap(master_offset, slave_offset)` -/
def picRemap (masterOffset slaveOffset : BitVec 32) (p : Pics) : Pics :=
  let a1 := p.inb pic1Data
  let a2 := p.inb pic2Data
  let p := (p.outb pic1Command (icw1Init ||| icw1Icw4)).ioWait
  let p := (p.outb pic2Command (icw1Init ||| icw1Icw4)).ioWait
  let p := (p.outb pic1Data (masterOffset.setWidth 8)).ioWait
  let p := (p.outb pic2Data (slaveOffset.setWidth 8)).ioWait
  let p := (p.outb pic1Data 4).ioWait
  let p := (p.outb pic2Data 2).ioWait
  let p := (p.outb pic1Data icw4x8086).ioWait
  let p := (p.outb pic2Data icw4x8086).ioWait
  (p.outb pic1Data a1).outb pic2Data a2

/-- `pic_noirqs()` -/
def picNoirqs (p : Pics) : Pics := (p.outb pic1Data (~~~4)).outb pic2Data (~~~2)

/-- The port with the mask of a line, and the bit of the line there. -/
def maskBit (irqline : BitVec 8) : BitVec 16 × BitVec 8 :=
  if irqline < 8 then (pic1Data, irqline) else (pic2Data, irqline - 8)

/-- `pic_noirq(irqline)`; `none` where the shift is undefined. -/
def picNoirq (irqline : BitVec 8) (p : Pics) : Option Pics :=
  let (port, irqline) := maskBit irqline
  if irqline.toNat < 32 then
    some (p.outb port (((p.inb port).setWidth 32 ||| (1 : BitVec 32) <<< irqline.toNat).setWidth 8))
  else none

/-- `pic_yesirq(irqline)`; `none` where the shift is undefined. -/
def picYesirq (irqline : BitVec 8) (p : Pics) : Option Pics :=
  let (port, irqline) := maskBit irqline
  if irqline.toNat < 32 then
    some (p.outb port (((p.inb port).setWidth 32 &&& ~~~((1 : BitVec 32) <<< irqline.toNat)).setWidth 8))
  else none

/-- Whatever the controllers were doing, `pic_remap` initialises them, and keeps the masks. -/
theorem picRemap_eq (m s : BitVec 32) (p : Pics) : p.picRemap m s =
    ⟨⟨p.master.imr, m.setWidth 8, 4, icw4x8086, false, true, .mask⟩,
      ⟨p.slave.imr, s.setWidth 8, 2, icw4x8086, false, true, .mask⟩⟩ := rfl

/-- `init_pic()`, which always returns `STATUS_OK`. -/
def initPic (p : Pics) : Pics := (p.picRemap 0x20 0x28).picNoirqs

end Pics

/-! ### Lines -/

/-- The interrupt lines, as the kernel sees them. -/
structure IrqLines where
  /-- The lines that are enabled. -/
  enabled : ℕ → Bool
  /-- The vector of line 0. -/
  master : BitVec 8
  /-- The vector of line 8. -/
  slave : BitVec 8

/-- What `init_pic` leaves enabled: line 2, on which the slave is, and line 9. -/
def IrqLines.init : IrqLines := ⟨fun n => n = 2 || n = 9, 0x20, 0x28⟩

/-- The vector with which a line is heard.  Line 2 is no line of its own, and the lines behind it are
heard while it is enabled. -/
def IrqLines.vector (l : IrqLines) (line : ℕ) : Option ℕ :=
  if line < 8 then
    if l.enabled line && line ≠ 2 then some (l.master.toNat / 8 * 8 + line) else none
  else if line < 16 then
    if l.enabled line && l.enabled 2 then some (l.slave.toNat / 8 * 8 + (line - 8)) else none
  else none

/-- A call to `pic.c`. -/
inductive PicCall
  | remap (masterOffset slaveOffset : BitVec 32)
  | noirqs
  | noirq (irqline : BitVec 8)
  | yesirq (irqline : BitVec 8)

namespace PicCall

/-- Make the call. -/
def run : PicCall → Pics → Option Pics
  | remap m s, p => some (p.picRemap m s)
  | noirqs, p => some p.picNoirqs
  | noirq irqline, p => p.picNoirq irqline
  | yesirq irqline, p => p.picYesirq irqline

/-- The shift in the call is defined. -/
def Defined : PicCall → Prop
  | remap _ _ | noirqs => True
  | noirq irqline | yesirq irqline => irqline.toNat < 40

/-- What the call means for the lines.  There are sixteen. -/
def apply (l : IrqLines) : PicCall → IrqLines
  | remap m s => { l with master := m.setWidth 8, slave := s.setWidth 8 }
  | noirqs => { l with enabled := IrqLines.init.enabled }
  | noirq irqline =>
    if irqline.toNat < 16 then { l with enabled := Function.update l.enabled irqline.toNat false }
    else l
  | yesirq irqline =>
    if irqline.toNat < 16 then { l with enabled := Function.update l.enabled irqline.toNat true }
    else l

end PicCall

/-- Make calls one after the other. -/
def runPic : List PicCall → Pics → Option Pics
  | [], p => some p
  | c :: cs, p => (c.run p).bind (runPic cs)

/-- A controller that is initialised as part of a cascade, with `icw3` for its third word. -/
structure Member (c : I8259) (icw3 : BitVec 8) : Prop where
  /-- The data port is the mask register. -/
  awaits : c.awaits = .mask
  /-- 8086 mode. -/
  icw4 : c.icw4 = icw4x8086
  /-- There is a cascade. -/
  single : c.single = false
  /-- The place in it. -/
  icw3 : c.icw3 = icw3

/-- The controllers are initialised, with the slave on line 2, and implement the lines `l`. -/
structure PicInv (p : Pics) (l : IrqLines) : Prop where
  /-- The master. -/
  master : Member p.master 4
  /-- The slave. -/
  slave : Member p.slave 2
  /-- Lines 0 to 7. -/
  low : ∀ n < 8, l.enabled n = !p.master.imr.getLsbD n
  /-- Lines 8 to 15. -/
  high : ∀ n < 8, l.enabled (8 + n) = !p.slave.imr.getLsbD n
  /-- The vector of line 0. -/
  masterVector : l.master = p.master.icw2
  /-- The vector of line 8. -/
  slaveVector : l.slave = p.slave.icw2

variable {p : Pics} {l : IrqLines}

/-- The lines that are heard are those of `IrqLines`. -/
theorem PicInv.vector_eq (h : PicInv p l) (line : ℕ) : p.vector line = l.vector line := by
  have haccepts : ∀ {c : I8259} {icw3 : BitVec 8}, Member c icw3 → ∀ n,
      c.accepts n = !c.imr.getLsbD n := fun hc n => by
    rw [I8259.accepts, hc.awaits, hc.icw4, hc.single]
    rfl
  have hid : p.slave.icw3.toNat % 8 = 2 := by
    rw [h.slave.icw3]
    rfl
  rw [Cascade.vector, IrqLines.vector, I8259.vector, I8259.vector, h.masterVector, h.slaveVector]
  by_cases hlow : line < 8
  · rw [if_pos hlow, if_pos hlow, haccepts h.master, h.low line hlow, h.master.icw3]
    have hcascade : ∀ n < 8, (!(4 : BitVec 8).getLsbD n) = decide (n ≠ 2) := by decide
    rw [hcascade line hlow]
  rw [if_neg hlow, if_neg hlow]
  by_cases hhigh : line < 16
  · obtain ⟨n, rfl⟩ := Nat.exists_eq_add_of_le (Nat.le_of_not_lt hlow)
    have hn : n < 8 := by omega
    have hbit : (4 : BitVec 8).getLsbD 2 = true := rfl
    simp only [if_pos hhigh, Nat.add_sub_cancel_left, hid]
    rw [haccepts h.slave, haccepts h.master, h.high n hn, h.low 2 (by decide), h.master.icw3, hbit,
      Bool.and_true]
  · rw [if_neg hhigh, if_neg hhigh]

/-! ### The calls -/

/-- A byte at the data port of such a controller is a mask. -/
theorem Member.writeData {c : I8259} {icw3 : BitVec 8} (h : Member c icw3) (v : BitVec 8) :
    c.writeData v = { c with imr := v } := by
  rw [I8259.writeData, h.awaits]

theorem Member.withMask {c : I8259} {icw3 : BitVec 8} (h : Member c icw3) (v : BitVec 8) :
    Member { c with imr := v } icw3 := ⟨h.awaits, h.icw4, h.single, h.icw3⟩

/-- After `pic_remap`, whatever came before, the lines are those that the masks leave. -/
theorem picInv_picRemap (m s : BitVec 32) (p : Pics) (enabled : ℕ → Bool)
    (hlow : ∀ n < 8, enabled n = !p.master.imr.getLsbD n)
    (hhigh : ∀ n < 8, enabled (8 + n) = !p.slave.imr.getLsbD n) :
    PicInv (p.picRemap m s) ⟨enabled, m.setWidth 8, s.setWidth 8⟩ := by
  rw [Pics.picRemap_eq]
  exact ⟨⟨rfl, rfl, rfl, rfl⟩, ⟨rfl, rfl, rfl, rfl⟩, hlow, hhigh, rfl, rfl⟩

/-- `pic_noirqs`. -/
theorem PicInv.picNoirqs (h : PicInv p l) :
    PicInv p.picNoirqs { l with enabled := IrqLines.init.enabled } := by
  have heq : p.picNoirqs = ⟨p.master.writeData (~~~4), p.slave.writeData (~~~2)⟩ := rfl
  rw [heq, h.master.writeData, h.slave.writeData]
  have hlow : ∀ n < 8, IrqLines.init.enabled n = !(~~~4 : BitVec 8).getLsbD n := by decide
  have hhigh : ∀ n < 8, IrqLines.init.enabled (8 + n) = !(~~~2 : BitVec 8).getLsbD n := by decide
  exact ⟨h.master.withMask _, h.slave.withMask _, hlow, hhigh, h.masterVector, h.slaveVector⟩

/-- A mask in which one bit is written; a line behind the last has no bit. -/
theorem PicInv.outb (h : PicInv p l) {irqline val : BitVec 8} {b : Bool}
    (hline : irqline.toNat < 40) (hval : ∀ n < 8, val.getLsbD n =
      if n = (Pics.maskBit irqline).2.toNat then b
      else (p.inb (Pics.maskBit irqline).1).getLsbD n) :
    PicInv (p.outb (Pics.maskBit irqline).1 val)
      (if irqline.toNat < 16 then
        { l with enabled := Function.update l.enabled irqline.toNat (!b) } else l) := by
  by_cases hlow : irqline < 8
  · have hlt : irqline.toNat < 8 := hlow
    have hport : Pics.maskBit irqline = (pic1Data, irqline) := if_pos hlow
    have hout : p.outb pic1Data val = { p with master := p.master.writeData val } := rfl
    have hin : p.inb pic1Data = p.master.imr := rfl
    simp only [hport] at hval ⊢
    have hbits : ∀ n < 8, Function.update l.enabled irqline.toNat (!b) n = !val.getLsbD n := by
      intro n hn
      rw [hval n hn, hin, Function.update_apply, h.low n hn]
      split <;> rfl
    have hothers : ∀ n < 8, Function.update l.enabled irqline.toNat (!b) (8 + n) =
        !p.slave.imr.getLsbD n := by
      intro n hn
      rw [Function.update_of_ne (by omega), h.high n hn]
    rw [if_pos (by omega), hout, h.master.writeData]
    exact ⟨h.master.withMask val, h.slave, hbits, hothers, h.masterVector, h.slaveVector⟩
  · have hge : 8 ≤ irqline.toNat := Nat.le_of_not_lt hlow
    have hport : Pics.maskBit irqline = (pic2Data, irqline - 8) := if_neg hlow
    have hout : p.outb pic2Data val = { p with slave := p.slave.writeData val } := rfl
    have hin : p.inb pic2Data = p.slave.imr := rfl
    have hbit : (irqline - 8).toNat = irqline.toNat - 8 := BitVec.toNat_sub_of_le hge
    simp only [hport, hbit] at hval ⊢
    rw [hout, h.slave.writeData]
    by_cases hsixteen : irqline.toNat < 16
    · have hbits : ∀ n < 8, Function.update l.enabled irqline.toNat (!b) (8 + n) =
          !val.getLsbD n := by
        intro n hn
        rw [hval n hn, hin, Function.update_apply, h.high n hn]
        by_cases hn' : n = irqline.toNat - 8
        · rw [if_pos (by omega), if_pos hn']
        · rw [if_neg (by omega), if_neg hn']
      have hothers : ∀ n < 8, Function.update l.enabled irqline.toNat (!b) n =
          !p.master.imr.getLsbD n := by
        intro n hn
        rw [Function.update_of_ne (by omega), h.low n hn]
      rw [if_pos hsixteen]
      exact ⟨h.master, h.slave.withMask val, hothers, hbits, h.masterVector, h.slaveVector⟩
    · -- no bit of the mask is written
      have hbits : ∀ n < 8, l.enabled (8 + n) = !val.getLsbD n := by
        intro n hn
        rw [hval n hn, hin, if_neg (by omega), h.high n hn]
      rw [if_neg hsixteen]
      exact ⟨h.master, h.slave.withMask val, h.low, hbits, h.masterVector, h.slaveVector⟩

/-- The mask that `pic_noirq` writes. -/
theorem getLsbD_or_shift (x : BitVec 8) {k n : ℕ} (hn : n < 8) :
    ((x.setWidth 32 ||| (1 : BitVec 32) <<< k).setWidth 8).getLsbD n =
      if n = k then true else x.getLsbD n := by
  rw [BitVec.getLsbD_setWidth, BitVec.getLsbD_or, BitVec.getLsbD_setWidth, BitVec.getLsbD_shiftLeft]
  grind

/-- The mask that `pic_yesirq` writes. -/
theorem getLsbD_and_not_shift (x : BitVec 8) {k n : ℕ} (hn : n < 8) :
    ((x.setWidth 32 &&& ~~~((1 : BitVec 32) <<< k)).setWidth 8).getLsbD n =
      if n = k then false else x.getLsbD n := by
  rw [BitVec.getLsbD_setWidth, BitVec.getLsbD_and, BitVec.getLsbD_setWidth, BitVec.getLsbD_not,
    BitVec.getLsbD_shiftLeft]
  grind

/-- The shift for a line below 40 is defined. -/
theorem maskBit_lt {irqline : BitVec 8} (h : irqline.toNat < 40) :
    (Pics.maskBit irqline).2.toNat < 32 := by
  unfold Pics.maskBit
  split
  · next hlow =>
    have hlt : irqline.toNat < 8 := hlow
    exact Nat.lt_trans hlt (by decide)
  · next hlow =>
    have hge : 8 ≤ irqline.toNat := Nat.le_of_not_lt hlow
    have hbit : (irqline - 8).toNat = irqline.toNat - 8 := BitVec.toNat_sub_of_le hge
    simp only [hbit]
    omega

/-- Every call leaves the controllers initialised, and does to the lines what it means. -/
theorem PicInv.run (h : PicInv p l) {c : PicCall} (hc : c.Defined) :
    ∃ p', c.run p = some p' ∧ PicInv p' (c.apply l) := by
  cases c with
  | remap m s => exact ⟨_, rfl, picInv_picRemap m s p l.enabled h.low h.high⟩
  | noirqs => exact ⟨_, rfl, h.picNoirqs⟩
  | noirq irqline =>
    exact ⟨_, if_pos (maskBit_lt hc), h.outb hc fun n hn => getLsbD_or_shift _ hn⟩
  | yesirq irqline =>
    exact ⟨_, if_pos (maskBit_lt hc), h.outb hc fun n hn => getLsbD_and_not_shift _ hn⟩

/-- A run of calls. -/
theorem PicInv.runPic (h : PicInv p l) {calls : List PicCall} (hcalls : ∀ c ∈ calls, c.Defined) :
    ∃ p', runPic calls p = some p' ∧ PicInv p' (calls.foldl PicCall.apply l) := by
  induction calls generalizing p l with
  | nil => exact ⟨p, rfl, h⟩
  | cons c calls ih =>
    obtain ⟨p₁, hrun, h₁⟩ := h.run (hcalls c List.mem_cons_self)
    obtain ⟨p', hruns, h'⟩ := ih h₁ fun d hd => hcalls d (List.mem_cons_of_mem c hd)
    exact ⟨p', by rw [PakOS.runPic, hrun, Option.bind_some, hruns], h'⟩

/-- `init_pic`, whatever the firmware left behind. -/
theorem picInv_initPic (p : Pics) : PicInv p.initPic IrqLines.init := by
  let enabled : ℕ → Bool := fun n =>
    if n < 8 then !p.master.imr.getLsbD n else !p.slave.imr.getLsbD (n - 8)
  have hhigh : ∀ n < 8, enabled (8 + n) = !p.slave.imr.getLsbD n := by
    intro n _
    simp only [enabled, Nat.add_sub_cancel_left]
    exact if_neg (by omega)
  exact (picInv_picRemap 0x20 0x28 p enabled (fun n hn => if_pos hn) hhigh).picNoirqs

/-- Only `pic_remap` moves the lines. -/
theorem foldl_apply_vectors {calls : List PicCall} (hcalls : ∀ c ∈ calls, ∀ m s, c ≠ .remap m s)
    (l : IrqLines) : (calls.foldl PicCall.apply l).master = l.master ∧
      (calls.foldl PicCall.apply l).slave = l.slave := by
  induction calls generalizing l with
  | nil => exact ⟨rfl, rfl⟩
  | cons c calls ih =>
    have hkeep : (c.apply l).master = l.master ∧ (c.apply l).slave = l.slave := by
      cases c with
      | remap m s => exact absurd rfl (hcalls _ List.mem_cons_self m s)
      | noirqs => exact ⟨rfl, rfl⟩
      | noirq | yesirq =>
        rw [PicCall.apply]
        split <;> exact ⟨rfl, rfl⟩
    obtain ⟨hm, hs⟩ := ih (fun d hd => hcalls d (List.mem_cons_of_mem c hd)) (c.apply l)
    exact ⟨hm.trans hkeep.1, hs.trans hkeep.2⟩

/-- Without `pic_remap` the lines are heard behind the vectors of the processor. -/
theorem IrqLines.vector_foldl {calls : List PicCall} (hcalls : ∀ c ∈ calls, ∀ m s, c ≠ .remap m s)
    {line v : ℕ} (hv : (calls.foldl PicCall.apply IrqLines.init).vector line = some v) :
    line < 16 ∧ v = 32 + line := by
  obtain ⟨hm, hs⟩ := foldl_apply_vectors hcalls IrqLines.init
  have hmaster : (32 : BitVec 8).toNat / 8 * 8 = 32 := rfl
  have hslave : (40 : BitVec 8).toNat / 8 * 8 = 40 := rfl
  rw [IrqLines.vector, hm, hs] at hv
  simp only [IrqLines.init, hmaster, hslave] at hv
  split at hv
  · obtain ⟨-, heq⟩ := Option.ite_none_right_eq_some.mp hv
    rw [Option.some.injEq] at heq
    omega
  · obtain ⟨hlt, hv⟩ := Option.ite_none_right_eq_some.mp hv
    obtain ⟨-, heq⟩ := Option.ite_none_right_eq_some.mp hv
    rw [Option.some.injEq] at heq
    omega

/-- **The controllers implement sixteen lines.**  From every state in which the firmware may have left
the controllers, also in the middle of an initialisation, `init_pic` enables lines 2 and 9 and no
other; after it and every sequence of calls for which the shifts are defined, each line is heard
exactly if the calls left it enabled, and line 2 as well if it belongs to the slave, and with the
vector that the last call of `pic_remap` gave it. -/
theorem pic_refines (p : Pics) {calls : List PicCall} (hcalls : ∀ c ∈ calls, c.Defined) :
    ∃ p', runPic calls p.initPic = some p' ∧
      ∀ line, p'.vector line = (calls.foldl PicCall.apply IrqLines.init).vector line := by
  obtain ⟨p', hrun, h⟩ := (picInv_initPic p).runPic hcalls
  exact ⟨p', hrun, h.vector_eq⟩

/-- The controllers as the firmware of a PC leaves them, but that the slave waits for its third
word. -/
def firmwarePics : Pics where
  master := ⟨0xb8, 0x08, 0x04, 0x01, false, true, .mask⟩
  slave := ⟨0x00, 0x70, 0x00, 0x01, false, true, .icw3⟩

/-- The keyboard and the slave are switched on and off. -/
theorem pic_refines_keyboard :
    ∃ p', runPic [.yesirq 1, .yesirq 12, .noirq 2] firmwarePics.initPic = some p' ∧
      p'.vector 1 = some 0x21 ∧ p'.vector 12 = none := by
  obtain ⟨p', hrun, hvector⟩ := @pic_refines firmwarePics [.yesirq 1, .yesirq 12, .noirq 2]
    (by simp [PicCall.Defined])
  exact ⟨p', hrun, (hvector 1).trans (by decide), (hvector 12).trans (by decide)⟩

end PakOS
