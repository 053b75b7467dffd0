import PakOS.Klibc.String
import PakOS.Vga.Console

/-!
# The serial port

`serial_putchar` and `serial_print` of `kernel/debug/serial.c`, as traces of the characters that
`serial_putchar` is handed and of the bytes that go out to the port.  `strlen` counts the terminator
and `serial_print` keeps the count in eight bits, so what it sends is the string with its
terminator, cut off at the count modulo 256 (`CString.serialPrint_completes`): never the string
itself (`serialPrint_ne`).
-/

namespace PakOS

open Machine

namespace Serial

/-- `_COM1PORT` -/
def com1port : ℕ := 0x3f8

/-- What can be seen of the functions. -/
inductive Event where
  /-- `serial_putchar(a)` is called. -/
  | putchar (a : UInt8)
  /-- `___outb(port, val)` -/
  | outb (port : ℕ) (val : UInt8)
  deriving DecidableEq

/-- `__is_transmit_empty()`, as the read number `t` of the status register; `status` gives what
every read finds there. -/
def isTransmitEmpty (status : ℕ → UInt8) (t : ℕ) : UInt8 := status t &&& 0x20

/-- `while (__is_transmit_empty() == 0);` from the read number `t` on: the number of reads when it
ends. -/
def awaitTransmit (status : ℕ → UInt8) : ℕ → ℕ → Option ℕ
  | 0, _ => none
  | fuel + 1, t =>
    if isTransmitEmpty status t = 0 then awaitTransmit status fuel (t + 1) else some (t + 1)

/-- `serial_putchar(a)` -/
def serialPutchar (status : ℕ → UInt8) (a : UInt8) (fuel t : ℕ) : Trace Event ℕ :=
  (Trace.emit [.putchar a] ()).bind fun _ =>
    (Trace.ofOption (awaitTransmit status fuel t)).bind fun t =>
      Trace.emit [.outb com1port a] t

/-- `for (uint8_t i = 0; i < len; i++) serial_putchar(str[i]);` from `i` on. -/
def putchars (status : ℕ → UInt8) (m : Mem) (str len : ℕ) : ℕ → ℕ → ℕ → Trace Event ℕ
  | 0, _, _ => ⟨[], none⟩
  | fuel + 1, i, t =>
    if i < len then
      (serialPutchar status (m (add32 str i)) fuel t).bind fun t =>
        putchars status m str len fuel ((i + 1) % 256) t
    else Trace.emit [] t

/-- `serial_print(str)`; `uint8_t len` keeps the low byte of the length. -/
def serialPrint (status : ℕ → UInt8) (m : Mem) (str fuel t : ℕ) : Trace Event ℕ :=
  (Trace.ofOption (strlen m str fuel 0)).bind fun len =>
    putchars status m str (len % 256) fuel 0 t

/-- What `serial_putchar` was handed. -/
def passed (log : List Event) : List UInt8 :=
  log.filterMap fun
    | .putchar a => some a
    | .outb _ _ => none

/-- The port becomes ready each time. -/
def BecomesReady (status : ℕ → UInt8) : Prop := ∀ t, ∃ d, isTransmitEmpty status (t + d) ≠ 0

/-- What the header promises of `strlen`: the number of characters before the terminator. -/
def StandardStrlen (m : Mem) (str : ℕ) (s : List UInt8) : Prop :=
  Yields (fun n => strlen m str n 0) s.length

/-- What `serial_print` is there for: it hands the characters of the string to `serial_putchar`, and
returns. -/
def PrintsString (status : ℕ → UInt8) (m : Mem) (str t : ℕ) (s : List UInt8) : Prop :=
  ∃ log t', Completes (fun n => serialPrint status m str n t) log t' ∧ passed log = s

variable {status : ℕ → UInt8} {m : Mem} {a t i len : ℕ} {s : List UInt8}

/-! ### One character -/

/-- The wait for the port ends when it is ready. -/
theorem awaitTransmit_of_ready (h : isTransmitEmpty status t ≠ 0) :
    Yields (fun n => awaitTransmit status n t) (t + 1) :=
  (Yields.const (t + 1)).succ rfl fun n => by rw [awaitTransmit, if_neg h]

/-- The wait for the port ends when it becomes ready. -/
theorem awaitTransmit_yields {d : ℕ} (h : isTransmitEmpty status (t + d) ≠ 0) :
    ∃ t', Yields (fun n => awaitTransmit status n t) t' := by
  induction d generalizing t with
  | zero => exact ⟨t + 1, awaitTransmit_of_ready h⟩
  | succ d ih =>
    by_cases hnow : isTransmitEmpty status t = 0
    · rw [← Nat.add_assoc, Nat.add_right_comm] at h
      obtain ⟨t', ht'⟩ := ih h
      exact ⟨t', ht'.succ rfl fun n => by rw [awaitTransmit, if_pos hnow]⟩
    · exact ⟨t + 1, awaitTransmit_of_ready hnow⟩

/-- What a call of `serial_putchar` leaves in the log. -/
def putcharEvents (a : UInt8) : List Event := [.putchar a, .outb com1port a]

/-- `serial_putchar` sends its character. -/
theorem serialPutchar_completes (hready : BecomesReady status) (c : UInt8) (t : ℕ) :
    ∃ t', Completes (fun n => serialPutchar status c n t) (putcharEvents c) t' := by
  obtain ⟨d, hd⟩ := hready t
  obtain ⟨t', ht'⟩ := awaitTransmit_yields hd
  have hcall := Completes.emit [Event.putchar c] ()
  have hwait : Completes (fun n => Trace.ofOption (awaitTransmit status n t)) ([] : List Event) t' :=
    .ofOption ht'
  have hsend := Completes.emit [Event.outb com1port c] t'
  exact ⟨t', hcall.bind (hwait.bind (g := fun t _ => Trace.emit [Event.outb com1port c] t) hsend)⟩

/-- The characters that were handed over one by one. -/
theorem passed_putchars (l : List UInt8) : passed (l.flatMap putcharEvents) = l := by
  induction l with
  | nil => rfl
  | cons c l ih =>
    rw [List.flatMap_cons, passed, List.filterMap_append]
    exact congrArg (c :: ·) ih

/-! ### The string -/

/-- What `serial_print` sends of the string `s`. -/
def sent (s : List UInt8) : List UInt8 := (s ++ [0]).take ((s.length + 1) % 256)

theorem length_sent (s : List UInt8) : (sent s).length = (s.length + 1) % 256 := by
  rw [sent, List.length_take, List.length_append, List.length_singleton]
  exact Nat.min_eq_left (Nat.mod_le _ _)

/-- A string is not what is sent of it: the count of its characters is another one. -/
theorem sent_ne (s : List UInt8) : sent s ≠ s := by
  intro h
  have hlen := length_sent s
  rw [h] at hlen
  omega

example : sent [79, 75] = [79, 75, 0] := by decide

/-- The loop of `serial_print` hands over the bytes of the string and its terminator, up to the
count. -/
theorem putchars_completes (h : CString m a s) (hready : BecomesReady status)
    (hlen : len ≤ s.length + 1) (hbyte : len < 256) {l : List UInt8}
    (hl : l = ((s ++ [0]).take len).drop i) (t : ℕ) :
    ∃ t', Completes (fun n => putchars status m a len n i t) (l.flatMap putcharEvents) t' := by
  have hcount : ((s ++ [0]).take len).length = len := by
    rw [List.length_take, List.length_append, List.length_singleton]
    exact Nat.min_eq_left hlen
  induction l generalizing i t with
  | nil =>
    have hend : len ≤ i := by
      rw [← hcount]
      exact List.drop_eq_nil_iff.mp hl.symm
    refine ⟨t, (Completes.emit [] t).succ rfl fun n => ?_⟩
    rw [putchars, if_neg (Nat.not_lt_of_le hend)]
  | cons c l ih =>
    have hi : i < len := by
      by_contra hend
      rw [List.drop_eq_nil_of_le (by omega)] at hl
      exact List.cons_ne_nil c l hl
    rw [List.drop_eq_getElem_cons (by omega), List.getElem_take, List.cons.injEq] at hl
    have hi' : i < (s ++ [0]).length := hi.trans_le (by rw [List.length_append]; exact hlen)
    have hlt := h.lt
    have hchar : m (add32 a i) = c := by
      rw [add32_of_lt (by omega), holds_iff.mp h.holds i hi', ← hl.1]
    have hnext : (i + 1) % 256 = i + 1 := Nat.mod_eq_of_lt (by omega)
    obtain ⟨t₁, hfirst⟩ := serialPutchar_completes hready c t
    obtain ⟨t₂, hrest⟩ := ih hl.2 t₁
    have hboth := hfirst.bind (g := fun t n => putchars status m a len n (i + 1) t) hrest
    refine ⟨t₂, hboth.succ rfl fun n => ?_⟩
    rw [putchars, if_pos hi, hchar, hnext]

end Serial

open Serial

variable {status : ℕ → UInt8} {m : Mem} {a : ℕ} {s : List UInt8}

/-- What `serial_print` hands to `serial_putchar`. -/
theorem CString.serialPrint_completes (h : CString m a s) (hready : BecomesReady status) (t : ℕ) :
    ∃ t', Completes (fun n => Serial.serialPrint status m a n t)
      ((sent s).flatMap putcharEvents) t' := by
  have hbyte : (s.length + 1) % 256 < 256 := Nat.mod_lt _ (by decide)
  obtain ⟨t', hloop⟩ := putchars_completes h hready (Nat.mod_le _ _) hbyte (i := 0) rfl t
  have hcount : Completes (fun n => Trace.ofOption (PakOS.strlen m a n 0)) ([] : List Event)
      (s.length + 1) := .ofOption h.strlen
  exact ⟨t', hcount.bind (g := fun len n => putchars status m a (len % 256) n 0 t) hloop⟩

/-- A run of `serial_print` that returns has passed on what is sent of the string. -/
theorem CString.passed_eq (h : CString m a s) (hready : BecomesReady status) {log : List Event}
    {t t' : ℕ} (hrun : Completes (fun n => Serial.serialPrint status m a n t) log t') :
    passed log = sent s := by
  obtain ⟨t₁, hsent⟩ := h.serialPrint_completes hready t
  rw [(hrun.eq hsent).1, passed_putchars]

/-- The console's record of the serial port grows by the characters that are passed on. -/
theorem CString.serial_eq {E : Type*} (h : CString m a s) (hready : BecomesReady status)
    {log : List Event} {t t' : ℕ} (k : Kernel E)
    (hrun : Completes (fun n => Serial.serialPrint status m a n t) log t') :
    (PakOS.serialPrint s k).serial = k.serial ++ passed log := by
  rw [h.passed_eq hready hrun]
  rfl

/-- `strlen` counts one character more than there are. -/
theorem CString.not_standardStrlen (h : CString m a s) : ¬StandardStrlen m a s := by
  intro hstandard
  obtain ⟨n, hn⟩ := h.strlen.exists_run
  exact absurd (hstandard.unique n _ hn) (Nat.succ_ne_self s.length)

/-- `serial_print` does not print the string. -/
theorem CString.not_printsString (h : CString m a s) (hready : BecomesReady status) (t : ℕ) :
    ¬PrintsString status m a t s := by
  rintro ⟨log, t', hrun, hpassed⟩
  exact sent_ne s ((h.passed_eq hready hrun).symm.trans hpassed)

/-- There is no string of which `strlen` gives the length, and none that `serial_print` prints. -/
theorem serialPrint_ne (h : CString m a s) (hready : BecomesReady status) (t : ℕ) :
    ¬StandardStrlen m a s ∧ ¬PrintsString status m a t s :=
  ⟨h.not_standardStrlen, h.not_printsString hready t⟩

/-- A string that was stored with its terminator. -/
theorem cString_storeBytes (m : Mem) (h0 : 0 ∉ s) (hlt : a + s.length < 4294967296) :
    CString (storeBytes m a (s ++ [0])) a s :=
  ⟨holds_storeBytes m a (s ++ [0]), h0, hlt⟩

/-- The port is always ready. -/
theorem becomesReady_const : BecomesReady fun _ => 0x20 := by
  have hready : (0x20 : UInt8) &&& 0x20 ≠ 0 := by decide
  exact fun _ => ⟨0, hready⟩

/-- The string `OK`. -/
theorem serialPrint_ne_ok :
    ¬StandardStrlen (storeBytes (fun _ => 0xff) 0x9000 ([79, 75] ++ [0])) 0x9000 [79, 75] ∧
      ¬PrintsString (fun _ => 0x20) (storeBytes (fun _ => 0xff) 0x9000 ([79, 75] ++ [0])) 0x9000 0
        [79, 75] :=
  serialPrint_ne (cString_storeBytes _ (by decide) (by decide)) becomesReady_const 0

/-- Of 255 letters nothing is printed: the count is 256, and its low byte 0. -/
theorem letters_not_printed :
    let s := List.replicate 255 65
    let m := storeBytes (fun _ => 0xff) 0x9000 (s ++ [0])
    sent s = [] ∧ ¬StandardStrlen m 0x9000 s ∧ ¬PrintsString (fun _ => 0x20) m 0x9000 0 s := by
  intro s m
  have h0 : 0 ∉ s := fun hmem => absurd (List.eq_of_mem_replicate hmem) (by decide)
  have hlen : s.length = 255 := List.length_replicate
  have hstr : CString m 0x9000 s := cString_storeBytes _ h0 (by rw [hlen]; decide)
  refine ⟨?_, hstr.not_standardStrlen, hstr.not_printsString becomesReady_const 0⟩
  rw [sent, hlen]
  exact List.take_zero

end PakOS
