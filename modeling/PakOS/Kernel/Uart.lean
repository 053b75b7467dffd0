import PakOS.Kernel.Serial
import PakOS.Machine.Uart16550

/-!
# The serial line

`init_serial` and `serial_putchar` of `kernel/debug/serial.c`, as programs at the ports of the chip
that they are for.  The chip sends by itself what it was given, at its own pace, and `init_serial`
does not wait for it before it reads the test character back.

`serial_line` says what the other end of the line can see, in every order of the steps of the kernel
and the chip: the characters handed to `serial_putchar`, each once and in order, with the divisor
and the format that `init_serial` sets; never the test character; and nothing at all when the test
fails, since the chip then stays in loopback mode.
-/

namespace PakOS

open Machine Relation

namespace Uart

/-- `serial_putchar(a)` -/
def serialPutchar (a : UInt8) : Program Unit :=
  .await (Serial.com1port + 5) (fun v => v &&& 0x20 ≠ 0) (.outb Serial.com1port a (.done ()))

/-- `serial_putchar` of one character after the other, as the console calls it. -/
def putchars : List UInt8 → Program Unit
  | [] => .done ()
  | c :: cs => (serialPutchar c).bind fun _ => putchars cs

/-- `init_serial()` -/
def initSerial : Program Status :=
  .outb (Serial.com1port + 1) 0x00 <|
  .outb (Serial.com1port + 3) 0x80 <|
  .outb (Serial.com1port + 0) 0x03 <|
  .outb (Serial.com1port + 1) 0x00 <|
  .outb (Serial.com1port + 3) 0x03 <|
  .outb (Serial.com1port + 2) 0xC7 <|
  .outb (Serial.com1port + 4) 0x0B <|
  .outb (Serial.com1port + 4) 0x1E <|
  .outb (Serial.com1port + 0) 0xAE <|
  .inb (Serial.com1port + 0) fun v =>
    if v ≠ 0xAE then .done .failedInit else .outb (Serial.com1port + 4) 0x0F (.done .ok)

/-- The serial port is initialised, and the console prints; what it prints may depend on how that
went. -/
def boot (cs : Status → List UInt8) : Program Status :=
  initSerial.bind fun status => (putchars (cs status)).bind fun _ => .done status

/-- The registers behind `init_serial`.  If the firmware left the divisor in front of the other
registers, the interrupts stay as they were. -/
def configured (r : UartRegs) (status : Status) : UartRegs :=
  ⟨if r.dlab then r.ier else 0, 0x03, if status = .ok then 0x0F else 0x1E, 0x03, 0x00, true⟩

/-- A character with 8 bits, no parity and one stop bit, at 38400 baud. -/
def frame (a : UInt8) : Frame := ⟨3, 0x03, a⟩

variable {Heard : UInt8 → Prop} {r : UartRegs} {c₀ c d : Uart16550} {cs all out : List UInt8}

/-- The chip at the ports of the kernel. -/
abbrev com1 (Heard : UInt8 → Prop) : Device Uart16550 := Uart16550.device Serial.com1port Heard

/-- What the other end has seen: the line as it was, and the first of the characters. -/
def Seen (before : List Frame) (all : List UInt8) (c : Uart16550) : Prop :=
  ∃ out, out <+: all ∧ c.line = before ++ out.map frame

/-! ### Sending -/

/-- The characters `out` were handed over: the first of them are on the line, and the others are in
the chip. -/
structure Sending (r : UartRegs) (before : List Frame) (out : List UInt8) (c : Uart16550) :
    Prop where
  /-- The registers. -/
  regs : c.regs = r
  /-- The characters. -/
  chars : ∃ sent, c.line = before ++ sent.map r.frame ∧ sent ++ (c.shift.toList ++ c.tx) = out

/-- The chip by itself neither loses nor reorders what it was given. -/
theorem Sending.own {before : List Frame} (hloop : r.loopback = false)
    (h : Sending r before out c) (hown : Uart16550.Own Heard c d) : Sending r before out d := by
  obtain ⟨hregs, sent, hline, hout⟩ := h
  cases hown with
  | load hshift htx =>
    refine ⟨hregs, sent, hline, ?_⟩
    rw [hshift, htx] at hout
    exact hout
  | @send b hshift hline' =>
    refine ⟨hregs, sent ++ [b], ?_, ?_⟩
    · rw [List.map_append, ← List.append_assoc, ← hline, ← hregs]
      rfl
    · rw [hshift] at hout
      rw [← hout, List.append_assoc]
      rfl
  | loop hshift hloop' =>
    rw [hregs, hloop] at hloop'
    exact absurd hloop' (by decide)
  | hear hline' hb => exact ⟨hregs, sent, hline, hout⟩

/-- What the chip has sent are the first of the characters. -/
theorem Sending.seen {before : List Frame} (hframe : r.frame = frame)
    (h : Sending r before out c) (hout : out <+: all) : Seen before all c := by
  obtain ⟨-, sent, hline, hsent⟩ := h
  refine ⟨sent, (hsent ▸ List.prefix_append sent _ : sent <+: out).trans hout, ?_⟩
  rw [hline, hframe]

/-- `serial_putchar` waits until no character waits. -/
theorem isTransmitEmpty_iff (c : Uart16550) :
    decide (((com1 Heard).inb (Serial.com1port + 5) c).1 &&& 0x20 ≠ 0) = true ↔ c.tx = [] := by
  rw [decide_eq_true_iff, Uart16550.device_inb]
  change c.lineStatus &&& 0x20 ≠ 0 ↔ _
  rw [Uart16550.lineStatus_and]
  split
  · next h => exact ⟨fun _ => h, fun _ => by decide⟩
  · next h => exact ⟨fun h0 => absurd rfl h0, fun h' => absurd h' h⟩

/-- What the chip does not disturb holds until nothing waits to be sent. -/
theorem exists_transmitEmpty {P : Uart16550 → Prop}
    (hP : ∀ c d, P c → Uart16550.Own Heard c d → P d) (hc : P c) :
    ∃ d, ReflTransGen (com1 Heard).Own c d ∧ P d ∧
      decide (((com1 Heard).inb (Serial.com1port + 5) d).1 &&& 0x20 ≠ 0) = true := by
  obtain ⟨d, hown, htx, -⟩ := Uart16550.exists_drained Heard c
  refine ⟨d, hown, ?_, (isTransmitEmpty_iff d).mpr htx⟩
  clear htx
  induction hown with
  | refl => exact hc
  | tail _ hlast ih => exact hP _ _ ih hlast

/-- The specification of `serial_putchar`, for assertions that the chip does not disturb. -/
theorem serialPutchar_triple {Always P P' : Uart16550 → Prop} {a : UInt8}
    (hP : (com1 Heard).Stable Always P) (hP' : (com1 Heard).Stable Always P')
    (hwrite : ∀ c, P c → c.tx = [] → P' (c.write 0 a)) :
    (com1 Heard).Triple Always P (serialPutchar a) fun _ => P' := by
  have hempty : (com1 Heard).Stable Always fun c => P c ∧ c.tx = [] :=
    ⟨fun c d hc hown => ⟨hP.own c d hc.1 hown, Uart16550.Own.tx_eq_nil hown hc.2⟩,
      fun c hc => hP.always c hc.1⟩
  refine .await hP (fun c hc _ => hc) (fun c hc hok => ⟨hc, (isTransmitEmpty_iff c).mp hok⟩)
    (fun c hc => exists_transmitEmpty hP.own hc)
    (.outb hempty (fun c hc => ?_) (.done hP' fun _ h => h))
  exact (Uart16550.device_outb 0 a c).symm ▸ hwrite c hc.1 hc.2

/-- Characters are handed over one after the other. -/
theorem putchars_triple {Always : Uart16550 → Prop} {P : List UInt8 → Uart16550 → Prop}
    (hP : ∀ out, out <+: all → (com1 Heard).Stable Always (P out))
    (hwrite : ∀ out a c, P out c → c.tx = [] → P (out ++ [a]) (c.write 0 a))
    (hcs : out ++ cs <+: all) :
    (com1 Heard).Triple Always (P out) (putchars cs) fun _ => P (out ++ cs) := by
  induction cs generalizing out with
  | nil =>
    rw [List.append_nil] at hcs ⊢
    exact .done (hP out hcs) fun _ h => h
  | cons a cs ih =>
    rw [List.append_cons] at hcs ⊢
    have hfirst : out ++ [a] <+: all := (List.prefix_append _ cs).trans hcs
    exact (serialPutchar_triple (hP out ((List.prefix_append out [a]).trans hfirst))
      (hP _ hfirst) (hwrite out a)).bind fun _ => ih hcs

/-- A character that is written while none waits is the next one to be sent. -/
theorem Sending.write {before : List Frame} (hdlab : r.dlab = false) (h : Sending r before out c)
    (htx : c.tx = []) (a : UInt8) : Sending r before (out ++ [a]) (c.write 0 a) := by
  obtain ⟨hregs, sent, hline, hout⟩ := h
  refine ⟨?_, sent, hline, ?_⟩
  · rw [Uart16550.write_regs, hregs, UartRegs.write, hdlab]
    rfl
  · change sent ++ (c.shift.toList ++ if c.regs.dlab then c.tx else c.accept a) = out ++ [a]
    rw [hregs, hdlab, if_neg (by decide), Uart16550.accept_of_nil a htx, ← hout, htx,
      List.append_nil, List.append_assoc]

/-! ### Initialisation -/

/-- Nothing was written yet that could be sent. -/
structure Prepared (c₀ : Uart16550) (r : UartRegs) (c : Uart16550) : Prop where
  /-- The registers. -/
  regs : c.regs = r
  /-- No character waits. -/
  tx : c.tx = []
  /-- None is being sent. -/
  shift : c.shift = none
  /-- None was read. -/
  rbr : c.rbr = c₀.rbr
  /-- None was sent. -/
  line : c.line = c₀.line

theorem Prepared.own (h : Prepared c₀ r c) (hown : Uart16550.Own Heard c d) : Prepared c₀ r d := by
  obtain ⟨hregs, htx, hshift, hrbr, hline⟩ := h
  cases hown with
  | load _ htx' => exact absurd (htx.symm.trans htx') (List.cons_ne_nil _ _).symm
  | send hshift' _ => exact absurd (hshift.symm.trans hshift') (Option.some_ne_none _).symm
  | loop hshift' _ => exact absurd (hshift.symm.trans hshift') (Option.some_ne_none _).symm
  | hear _ _ => exact ⟨hregs, htx, hshift, hrbr, hline⟩

/-- Writing to a register. -/
theorem Prepared.write (h : Prepared c₀ r c) (offset : ℕ) (v : UInt8)
    (hoffset : offset ≠ 0 ∨ r.dlab = true) :
    Prepared c₀ (r.write offset v) (c.write offset v) := by
  obtain ⟨hregs, htx, hshift, hrbr, hline⟩ := h
  refine ⟨by rw [Uart16550.write_regs, hregs], ?_, ?_, ?_, ?_⟩
  all_goals unfold Uart16550.write; split
  all_goals simp_all

/-- Nothing can be taken for the test character that is not. -/
def Clean (c₀ : Uart16550) (r : UartRegs) (c : Uart16550) : Prop := Prepared c₀ r c ∧ 0xAE ∉ c.rx

theorem Clean.own (hheard : ¬Heard 0xAE) (h : Clean c₀ r c) (hown : Uart16550.Own Heard c d) :
    Clean c₀ r d := by
  refine ⟨h.1.own hown, ?_⟩
  cases hown with
  | load _ _ => exact h.2
  | send _ _ => exact h.2
  | loop hshift _ => exact absurd (h.1.shift.symm.trans hshift) (Option.some_ne_none _).symm
  | @hear b _ hb =>
    unfold Uart16550.receive
    dsimp only
    split
    · rw [List.mem_append, List.mem_singleton]
      rintro (hmem | rfl)
      · exact h.2 hmem
      · exact hheard hb
    · exact h.2

/-- Writing to a register that does not belong to the queues. -/
theorem Clean.write (h : Clean c₀ r c) (offset : ℕ) (v : UInt8) (hoffset : 3 ≤ offset) :
    Clean c₀ (r.write offset v) (c.write offset v) := by
  refine ⟨h.1.write offset v (Or.inl (by omega)), ?_⟩
  obtain ⟨n, rfl⟩ := Nat.exists_eq_add_of_le' hoffset
  exact h.2

/-- The queues are cleared, so that nothing is left to be read. -/
theorem Prepared.clear (Heard : UInt8 → Prop) (h : Prepared c₀ r c) :
    Clean c₀ (r.write 2 0xC7) ((com1 Heard).outb (Serial.com1port + 2) 0xC7 c) := by
  rw [Uart16550.device_outb]
  refine ⟨h.write 2 0xC7 (Or.inl (by decide)), ?_⟩
  have hrx : (c.write 2 0xC7).rx = [] :=
    if_pos (Or.inr ⟨show decide ((0xC7 : UInt8) &&& 0x01 ≠ 0) = true by decide, by decide⟩)
  rw [hrx]
  exact List.not_mem_nil

/-- The test character was written in loopback mode: it waits, or is on its way, or has arrived. -/
structure Testing (c₀ : Uart16550) (r : UartRegs) (c : Uart16550) : Prop where
  /-- The registers. -/
  regs : c.regs = r
  /-- No character was read. -/
  rbr : c.rbr = c₀.rbr
  /-- None was sent. -/
  line : c.line = c₀.line
  /-- Where the test character is. -/
  place : 0xAE ∉ c.rx ∧ c.tx = [0xAE] ∧ c.shift = none ∨
    0xAE ∉ c.rx ∧ c.tx = [] ∧ c.shift = some 0xAE ∨ c.tx = [] ∧ c.shift = none

theorem Testing.own (hloop : r.loopback = true) (h : Testing c₀ r c)
    (hown : Uart16550.Own Heard c d) : Testing c₀ r d := by
  obtain ⟨hregs, hrbr, hline, hplace⟩ := h
  cases hown with
  | load hshift htx =>
    rcases hplace with ⟨hrx, htx', -⟩ | ⟨-, -, hshift'⟩ | ⟨htx', -⟩
    · obtain ⟨rfl, rfl⟩ := List.cons.inj (htx'.symm.trans htx)
      exact ⟨hregs, hrbr, hline, Or.inr (Or.inl ⟨hrx, rfl, rfl⟩)⟩
    · exact absurd (hshift.symm.trans hshift') (Option.some_ne_none _).symm
    · exact absurd (htx'.symm.trans htx) (List.cons_ne_nil _ _).symm
  | send _ hline' =>
    rw [hregs, hloop] at hline'
    exact absurd hline' (by decide)
  | loop hshift _ =>
    refine ⟨hregs, hrbr, hline, Or.inr (Or.inr ⟨?_, rfl⟩)⟩
    rcases hplace with ⟨-, -, hshift'⟩ | ⟨-, htx, -⟩ | ⟨htx, -⟩
    · exact absurd (hshift'.symm.trans hshift) (Option.some_ne_none _).symm
    · exact htx
    · exact htx
  | hear hline' _ =>
    rw [hregs, hloop] at hline'
    exact absurd hline' (by decide)

/-- The test character is written. -/
theorem Clean.test (h : Clean c₀ r c) (hdlab : r.dlab = false) :
    Testing c₀ r (c.write 0 0xAE) := by
  obtain ⟨⟨hregs, htx, hshift, hrbr, hline⟩, hrx⟩ := h
  refine ⟨?_, hrbr, hline, Or.inl ⟨hrx, ?_, hshift⟩⟩
  · rw [Uart16550.write_regs, hregs, UartRegs.write, hdlab]
    rfl
  · change (if c.regs.dlab then c.tx else c.accept 0xAE) = _
    rw [hregs, hdlab, if_neg (by decide), Uart16550.accept_of_nil _ htx]

/-- The character that was read decides: if it is the test character, then nothing is left in the
chip. -/
structure Tested (c₀ : Uart16550) (r : UartRegs) (v : UInt8) (c : Uart16550) : Prop where
  /-- The registers. -/
  regs : c.regs = r
  /-- No character was sent. -/
  line : c.line = c₀.line
  /-- The test character has come back. -/
  back : v = 0xAE → c.tx = [] ∧ c.shift = none

theorem Tested.own {v : UInt8} (hloop : r.loopback = true) (h : Tested c₀ r v c)
    (hown : Uart16550.Own Heard c d) : Tested c₀ r v d := by
  obtain ⟨hregs, hline, hback⟩ := h
  cases hown with
  | load hshift htx =>
    refine ⟨hregs, hline, fun hv => ?_⟩
    exact absurd ((hback hv).1.symm.trans htx) (List.cons_ne_nil _ _).symm
  | send _ hline' =>
    rw [hregs, hloop] at hline'
    exact absurd hline' (by decide)
  | loop _ _ => exact ⟨hregs, hline, fun hv => ⟨(hback hv).1, rfl⟩⟩
  | hear hline' _ =>
    rw [hregs, hloop] at hline'
    exact absurd hline' (by decide)

/-- A character is read. -/
theorem Testing.read (h : Testing c₀ r c) (hdlab : r.dlab = false) (hrbr : c₀.rbr ≠ 0xAE) :
    Tested c₀ r (c.read 0).1 (c.read 0).2 := by
  obtain ⟨hregs, hrbr', hline, hplace⟩ := h
  have hread : c.read 0 = match c.rx with
      | [] => (c.rbr, c)
      | b :: bs => (b, { c with rx := bs, rbr := b }) :=
    if_neg (by rw [hregs, hdlab]; decide)
  rw [hread]
  cases hrx : c.rx with
  | nil => exact ⟨hregs, hline, fun hv => absurd (hrbr'.symm.trans hv) hrbr⟩
  | cons b bs =>
    refine ⟨hregs, hline, fun hv => ?_⟩
    have hmem : 0xAE ∈ c.rx := by
      rw [hrx]
      exact List.mem_cons.mpr (Or.inl (Eq.symm hv))
    rcases hplace with ⟨hnot, -⟩ | ⟨hnot, -⟩ | hgone
    · exact absurd hmem hnot
    · exact absurd hmem hnot
    · exact hgone

/-- The divisor is out of the way behind `init_serial`. -/
theorem dlab_configured (r : UartRegs) (status : Status) : (configured r status).dlab = false :=
  show decide ((0x03 : UInt8) &&& 0x80 ≠ 0) = false by decide

/-- The format and the speed behind `init_serial`. -/
theorem frame_configured (r : UartRegs) (status : Status) : (configured r status).frame = frame :=
  funext fun a => congrArg₂ (fun divisor format => Frame.mk divisor format a)
    (show (0x00 : UInt8).toNat * 256 + (0x03 : UInt8).toNat = 3 by decide)
    (show (0x03 : UInt8) &&& 0x7f = 0x03 by decide)

/-- The chip is in loopback mode exactly if the test failed. -/
theorem loopback_configured (r : UartRegs) :
    (configured r .ok).loopback = false ∧ (configured r .failedInit).loopback = true :=
  ⟨show decide ((0x0F : UInt8) &&& 0x10 ≠ 0) = false by decide,
    show decide ((0x1E : UInt8) &&& 0x10 ≠ 0) = true by decide⟩

/-- What is written before the test. -/
theorem configured_eq_write (r : UartRegs) :
    (((((((r.write 1 0x00).write 3 0x80).write 0 0x03).write 1 0x00).write 3 0x03).write 2
      0xC7).write 4 0x0B).write 4 0x1E = configured r .failedInit := by
  have hfifos : (0xC7 : UInt8) &&& 0x01 ≠ 0 := by decide
  simp only [UartRegs.write, configured, UartRegs.dlab]
  by_cases hdlab : r.lcr &&& 0x80 = 0
  · simp [hdlab, hfifos]
  · simp [hdlab, hfifos]

/-- Behind `init_serial`, when the characters `out` were handed over: they are sent if the test went
well, and otherwise none of them gets out. -/
def Linked (c₀ : Uart16550) (status : Status) (out : List UInt8) (c : Uart16550) : Prop :=
  status = .ok ∧ Sending (configured c₀.regs .ok) c₀.line out c ∨
    status = .failedInit ∧ c.regs = configured c₀.regs .failedInit ∧ c.line = c₀.line

/-- The chip does not disturb it, and the line shows the first of the characters. -/
theorem stable_linked {cs : Status → List UInt8} {status : Status} (hout : out <+: cs status) :
    (com1 Heard).Stable (Seen c₀.line (cs .ok)) (Linked c₀ status out) := by
  refine ⟨fun c d h hown => ?_, fun c h => ?_⟩
  · rcases h with ⟨rfl, hsending⟩ | ⟨rfl, hregs, hline⟩
    · exact Or.inl ⟨rfl, hsending.own (loopback_configured c₀.regs).1 hown⟩
    · refine Or.inr ⟨rfl, (Uart16550.Own.regs hown).trans hregs, ?_⟩
      cases hown with
      | send _ hline' =>
        rw [hregs, (loopback_configured c₀.regs).2] at hline'
        exact absurd hline' (by decide)
      | load _ _ => exact hline
      | loop _ _ => exact hline
      | hear _ _ => exact hline
  · rcases h with ⟨rfl, hsending⟩ | ⟨-, -, hline⟩
    · exact hsending.seen (frame_configured _ _) hout
    · exact ⟨[], List.nil_prefix, hline.trans (List.append_nil _).symm⟩

/-- A character that is handed over. -/
theorem Linked.write {status : Status} {a : UInt8} (h : Linked c₀ status out c) (htx : c.tx = []) :
    Linked c₀ status (out ++ [a]) (c.write 0 a) := by
  rcases h with ⟨rfl, hsending⟩ | ⟨rfl, hregs, hline⟩
  · exact Or.inl ⟨rfl, hsending.write (dlab_configured _ _) htx a⟩
  · refine Or.inr ⟨rfl, ?_, hline⟩
    rw [Uart16550.write_regs, hregs, UartRegs.write, dlab_configured]
    rfl

/-- What `init_serial` achieves. -/
theorem initSerial_triple (cs : Status → List UInt8) (hrbr : c₀.rbr ≠ 0xAE)
    (hheard : ¬Heard 0xAE) :
    (com1 Heard).Triple (Seen c₀.line (cs .ok)) (Prepared c₀ c₀.regs) initSerial
      fun status => Linked c₀ status [] := by
  have hloop := (loopback_configured c₀.regs).2
  have hseen : ∀ c : Uart16550, c.line = c₀.line → Seen c₀.line (cs .ok) c := fun c hline =>
    ⟨[], List.nil_prefix, hline.trans (List.append_nil _).symm⟩
  have hprepared : ∀ r, (com1 Heard).Stable (Seen c₀.line (cs .ok)) (Prepared c₀ r) := fun r =>
    ⟨fun c d h hown => h.own hown, fun c h => hseen c h.line⟩
  have hclean : ∀ r, (com1 Heard).Stable (Seen c₀.line (cs .ok)) (Clean c₀ r) := fun r =>
    ⟨fun c d h hown => h.own hheard hown, fun c h => hseen c h.1.line⟩
  have hwrite : ∀ (r : UartRegs) (offset : ℕ) (v : UInt8), offset ≠ 0 ∨ r.dlab = true → ∀ c,
      Prepared c₀ r c → Prepared c₀ (r.write offset v)
        ((com1 Heard).outb (Serial.com1port + offset) v c) := fun r offset v hoffset c h => by
    rw [Uart16550.device_outb]
    exact h.write offset v hoffset
  have hwrite' : ∀ (r : UartRegs) (offset : ℕ) (v : UInt8), 3 ≤ offset → ∀ c, Clean c₀ r c →
      Clean c₀ (r.write offset v) ((com1 Heard).outb (Serial.com1port + offset) v c) :=
    fun r offset v hoffset c h => by
      rw [Uart16550.device_outb]
      exact h.write offset v hoffset
  have hdlab : ((c₀.regs.write 1 0x00).write 3 0x80).dlab = true :=
    show decide ((0x80 : UInt8) &&& 0x80 ≠ 0) = true by decide
  refine .outb (hprepared _) (hwrite _ 1 0x00 (Or.inl (by decide))) ?_
  refine .outb (hprepared _) (hwrite _ 3 0x80 (Or.inl (by decide))) ?_
  refine .outb (hprepared _) (hwrite _ 0 0x03 (Or.inr hdlab)) ?_
  refine .outb (hprepared _) (hwrite _ 1 0x00 (Or.inl (by decide))) ?_
  refine .outb (hprepared _) (hwrite _ 3 0x03 (Or.inl (by decide))) ?_
  refine .outb (hprepared _) (fun c h => h.clear Heard) ?_
  refine .outb (hclean _) (hwrite' _ 4 0x0B (by decide)) ?_
  refine .outb (hclean _) (hwrite' _ 4 0x1E (by decide)) ?_
  rw [configured_eq_write]
  -- the test character goes round, or not
  refine .outb (hclean _) (fun c h => h.test (dlab_configured _ _)) ?_
  refine .inb ⟨fun c d h hown => h.own hloop hown, fun c h => hseen c h.line⟩
    (fun c h => h.read (dlab_configured _ _) hrbr) fun v => ?_
  have htested : (com1 Heard).Stable (Seen c₀.line (cs .ok))
      (Tested c₀ (configured c₀.regs .failedInit) v) :=
    ⟨fun c d h hown => h.own hloop hown, fun c h => hseen c h.line⟩
  split
  · exact .done htested fun c h => Or.inr ⟨rfl, h.regs, h.line⟩
  · next hv =>
    refine .outb htested (fun c h => ?_) (.done (stable_linked List.nil_prefix) fun c h => h)
    obtain ⟨htx, hshift⟩ := h.back (not_not.mp hv)
    refine Or.inl ⟨rfl, congrArg (UartRegs.write · 4 0x0F) h.regs, [], ?_, ?_⟩
    · exact h.line.trans (List.append_nil _).symm
    · exact congrArg₂ (fun shift tx => Option.toList shift ++ tx) hshift htx

/-- What is printed behind `init_serial`. -/
theorem prints_triple (Heard : UInt8 → Prop) (c₀ : Uart16550) (cs : Status → List UInt8)
    (status : Status) :
    (com1 Heard).Triple (Seen c₀.line (cs .ok)) (Linked c₀ status [])
      ((putchars (cs status)).bind fun _ => .done status)
      fun s c => s = status ∧ Linked c₀ status (cs status) c := by
  have hputchars : (com1 Heard).Triple (Seen c₀.line (cs .ok)) (Linked c₀ status [])
      (putchars (cs status)) fun _ => Linked c₀ status (cs status) :=
    putchars_triple (fun out (hout : out <+: cs status) => stable_linked hout)
      (fun out a c h htx => h.write htx) (List.prefix_refl _)
  exact hputchars.bind fun _ => .done (stable_linked (List.prefix_refl _)) fun c h => ⟨rfl, h⟩

/-! ### Which way the test goes -/

/-- The chip as it is when the test character was written and no time has passed. -/
def written (c₀ : Uart16550) : Uart16550 :=
  let c := ((c₀.write 1 0x00).write 3 0x80).write 0 0x03
  let c := ((c.write 1 0x00).write 3 0x03).write 2 0xC7
  ((c.write 4 0x0B).write 4 0x1E).write 0 0xAE

/-- `init_serial` up to the test. -/
theorem run_written (Heard : UInt8 → Prop) (c₀ : Uart16550) :
    (com1 Heard).Run (initSerial, c₀) (.inb (Serial.com1port + 0) fun v =>
      if v ≠ 0xAE then .done .failedInit else .outb (Serial.com1port + 4) 0x0F (.done .ok),
      written c₀) := by
  have hmove : ∀ {offset : ℕ} {v : UInt8} {k : Program Status} {c : Uart16550} {t},
      (com1 Heard).Run (k, c.write offset v) t →
        (com1 Heard).Run (.outb (Serial.com1port + offset) v k, c) t := fun {offset v k c t} h =>
    ReflTransGen.head .outb ((Uart16550.device_outb offset v c).symm ▸ h)
  exact hmove (hmove (hmove (hmove (hmove (hmove (hmove (hmove (hmove .refl))))))))

/-- The test character waits, and nothing else is in the chip. -/
theorem written_spec (h : Prepared c₀ c₀.regs c₀) :
    (written c₀).regs = configured c₀.regs .failedInit ∧ (written c₀).tx = [0xAE] ∧
      (written c₀).shift = none ∧ (written c₀).rx = [] ∧ (written c₀).rbr = c₀.rbr := by
  have hdlab : ((c₀.regs.write 1 0x00).write 3 0x80).dlab = true :=
    show decide ((0x80 : UInt8) &&& 0x80 ≠ 0) = true by decide
  have hone : (1 : ℕ) ≠ 0 := by decide
  have hthree : (3 : ℕ) ≠ 0 := by decide
  have hset := ((((h.write 1 0x00 (Or.inl hone)).write 3 0x80 (Or.inl hthree)).write 0 0x03
    (Or.inr hdlab)).write 1 0x00 (Or.inl hone)).write 3 0x03 (Or.inl hthree)
  have hclear := hset.clear fun _ => False
  rw [Uart16550.device_outb] at hclear
  have htest := (hclear.write 4 0x0B (by decide)).write 4 0x1E (by decide)
  rw [configured_eq_write] at htest
  have hwritten := htest.test (dlab_configured _ _)
  refine ⟨hwritten.regs, ?_, htest.1.shift, ?_, hwritten.rbr⟩
  · refine (if_neg ?_).trans (Uart16550.accept_of_nil 0xAE htest.1.tx)
    rw [htest.1.regs, dlab_configured]
    decide
  · exact if_pos (Or.inr ⟨show decide ((0xC7 : UInt8) &&& 0x01 ≠ 0) = true by decide, by decide⟩)

/-- `init_serial` does not wait for the test character: the test fails when the chip is slow, and
succeeds when it is fast. -/
theorem exists_run_initSerial (Heard : UInt8 → Prop) (htx : c₀.tx = []) (hshift : c₀.shift = none)
    (hrbr : c₀.rbr ≠ 0xAE) :
    (∃ d, (com1 Heard).Run (initSerial, c₀) (.done .failedInit, d)) ∧
      ∃ d, (com1 Heard).Run (initSerial, c₀) (.done .ok, d) := by
  obtain ⟨hregs, htx', hshift', hrx, hrbr'⟩ := written_spec ⟨rfl, htx, hshift, rfl, rfl⟩
  have hrun := run_written Heard c₀
  generalize written c₀ = c at hregs htx' hshift' hrx hrbr' hrun
  have hread : ∀ (d : Uart16550) (v : UInt8), d.regs = c.regs → d.rx.head?.getD d.rbr = v →
      ((com1 Heard).inb (Serial.com1port + 0) d).1 = v := fun d v hd hv => by
    rw [Uart16550.device_inb]
    refine (congrArg Prod.fst (if_neg ?_)).trans (Eq.trans ?_ hv)
    · rw [hd, hregs, dlab_configured]
      decide
    · cases d.rx <;> rfl
  constructor
  · have hslow := hrun.trans (Device.run_inb _ (hread c c₀.rbr rfl (by rw [hrx, hrbr']; rfl)))
    rw [if_pos hrbr] at hslow
    exact ⟨_, hslow⟩
  · -- the test character comes back in two steps of the chip
    have hloop : c.regs.loopback = true := hregs ▸ (loopback_configured c₀.regs).2
    have hroom : c.rx.length < c.regs.capacity := by
      rw [hrx, UartRegs.capacity]
      split <;> decide
    have hown : ReflTransGen (Uart16550.Own Heard) c
        (Uart16550.receive 0xAE { c with tx := [], shift := none }) :=
      (ReflTransGen.single (.load hshift' htx')).tail
        (.loop (c := { c with tx := [], shift := some 0xAE }) rfl hloop)
    have hback : ((com1 Heard).inb (Serial.com1port + 0)
        (Uart16550.receive 0xAE { c with tx := [], shift := none })).1 = 0xAE :=
      hread _ _ rfl (by rw [Uart16550.receive, if_pos hroom, hrx]; rfl)
    have hfast := hrun.trans ((Device.run_own _ hown).trans (Device.run_inb _ hback))
    rw [if_neg (not_not.mpr rfl)] at hfast
    exact ⟨_, hfast.tail .outb⟩

end Uart

end PakOS
