import PakOS.Klibc.Itoa
import PakOS.Vga.Console

/-!
# `printk`

`printk` of `klibc/kstdio.c`, as a trace of what it does to its 200-byte buffer and of what it hands
to `vga_print`.  The index into the format, the index into the buffer and the length of the format
are 16-bit variables, and the lengths of numerals and strings are kept in 8 bits.  `strlen` counts
the terminator, so that the loop also copies the terminator of the format into the buffer.

The arguments are a list; `va_arg` takes the next one, and a call whose next argument has another
type has no meaning: the model stops there.
-/

namespace PakOS

open Machine

variable {E : Type*}

/-- An argument of `printk`, as `va_arg` reads it. -/
inductive Arg
  /-- A word of 32 bits. -/
  | word (v : UInt32)
  /-- A word of 64 bits. -/
  | long (v : UInt64)
  /-- The address of a string. -/
  | str (p : ℕ)

/-- What `printk` does to its buffer, and with it. -/
inductive PrintkEvent
  /-- A store to `buffer[idx]`. -/
  | write (idx : ℕ)
  /-- `%s` copies `count` bytes of a string of `length` characters. -/
  | copied (length count : ℕ)
  /-- `vga_print` is handed the characters `str`. -/
  | print (str : List UInt8)
  deriving DecidableEq

/-- The stores of a copy of `n` bytes to the buffer, from `bufidx` on. -/
def writes (bufidx n : ℕ) : List PrintkEvent :=
  (List.range n).map fun j => .write (bufidx + j)

/-- The local variables of `printk` that the loop changes, and the kernel. -/
structure Printk (E : Type*) where
  /-- `i`, the index into the format. -/
  i : ℕ
  /-- `bufidx`, the index into the buffer. -/
  bufidx : ℕ
  /-- The arguments that `argptr` has not passed. -/
  args : List Arg
  /-- The kernel state. -/
  kernel : Kernel E

/-- `fmt[i + j]` -/
def Printk.char (fmt : ℕ) (s : Printk E) (j : ℕ) : UInt8 := s.kernel.mem (add32 fmt (s.i + j))

/-- The conversion of a number: `itoa`, `memcpy` to the buffer, `kfree`. -/
def printkNumber (space : Space E) (fuel buffer value base : ℕ) (s : Printk E) :
    Trace PrintkEvent (Printk E) :=
  (Trace.ofOption (itoa space fuel value base s.kernel).result).bind fun r =>
    (Trace.ofOption (strlen r.2.mem r.1 fuel 0)).bind fun l =>
      let intstrlen := (l - 1) % 256
      (Trace.emit (writes s.bufidx intstrlen)
          (copyBytes r.2.mem (add32 buffer s.bufidx) r.1 intstrlen)).bind fun m =>
        (Trace.ofOption (kfree space fuel r.1 { r.2 with mem := m })).bind fun f =>
          Trace.emit [] { s with bufidx := (s.bufidx + intstrlen) % 65536, kernel := f.2 }

/-- The branch for `%d` and `%x`. -/
def printkInt (space : Space E) (fuel fmt buffer : ℕ) (s : Printk E) :
    Trace PrintkEvent (Printk E) :=
  if s.char fmt 0 = 100 ∨ s.char fmt 0 = 120 then
    let base := if s.char fmt 0 = 100 then 10 else 16
    match s.args with
    | .word v :: args => printkNumber space fuel buffer v.toNat base { s with args := args }
    | _ => ⟨[], none⟩
  else Trace.emit [] s

/-- The branch for `%ld` and `%lx`. -/
def printkLong (space : Space E) (fuel fmt buffer : ℕ) (s : Printk E) :
    Trace PrintkEvent (Printk E) :=
  if s.char fmt 0 = 108 ∧ (s.char fmt 1 = 120 ∨ s.char fmt 1 = 100) then
    let s := { s with i := (s.i + 1) % 65536 }
    let base := if s.char fmt 0 = 100 then 10 else 16
    match s.args with
    | .long v :: args => printkNumber space fuel buffer v.toNat base { s with args := args }
    | _ => ⟨[], none⟩
  else Trace.emit [] s

/-- The branch for `%s`. -/
def printkStr (fuel fmt buffer : ℕ) (s : Printk E) : Trace PrintkEvent (Printk E) :=
  if s.char fmt 0 = 115 then
    match s.args with
    | .str p :: args =>
      (Trace.ofOption (strlen s.kernel.mem p fuel 0)).bind fun l =>
        let slen := (l - 1) % 256
        Trace.emit (.copied (l - 1) slen :: writes s.bufidx slen)
          { s with
            bufidx := (s.bufidx + slen) % 65536
            args := args
            kernel :=
              { s.kernel with
                mem := copyBytes s.kernel.mem (add32 buffer s.bufidx) p slen } }
    | _ => ⟨[], none⟩
  else Trace.emit [] s

/-- `buffer[bufidx++] = c` -/
def Printk.put (buffer : ℕ) (c : UInt8) (s : Printk E) : Printk E :=
  { s with
    bufidx := (s.bufidx + 1) % 65536
    kernel :=
      { s.kernel with mem := Function.update s.kernel.mem (add32 buffer s.bufidx) c } }

/-- The body of the loop. -/
def printkBody (space : Space E) (fuel fmt len buffer : ℕ) (s : Printk E) :
    Trace PrintkEvent (Printk E) :=
  if s.char fmt 0 = 37 ∧ s.i + 1 < len then
    (printkInt space fuel fmt buffer { s with i := (s.i + 1) % 65536 }).bind fun s =>
      (printkLong space fuel fmt buffer s).bind fun s => printkStr fuel fmt buffer s
  else if s.char fmt 0 = 10 then
    Trace.emit [.write s.bufidx, .write ((s.bufidx + 1) % 65536)] ((s.put buffer 10).put buffer 13)
  else Trace.emit [.write s.bufidx] (s.put buffer (s.char fmt 0))

/-- `for (uint16_t i = 0; i < len; i++)`, from the current index on. -/
def printkLoop (space : Space E) (fmt len buffer : ℕ) :
    ℕ → Printk E → Trace PrintkEvent (Printk E)
  | 0, _ => ⟨[], none⟩
  | fuel + 1, s =>
    if s.i < len then
      (printkBody space fuel fmt len buffer s).bind fun s =>
        printkLoop space fmt len buffer fuel { s with i := (s.i + 1) % 65536 }
    else Trace.emit [] s

/-- What follows the loop: the terminator, `vga_print`, `kfree`. -/
def printkEnd (space : Space E) (fuel buffer : ℕ) (s : Printk E) :
    Trace PrintkEvent (Kernel E) :=
  (Trace.emit [.write s.bufidx]
      { s.kernel with
        mem := Function.update s.kernel.mem (add32 buffer s.bufidx) 0 }).bind fun k =>
    (Trace.ofOption (charsFrom k.mem buffer fuel 0)).bind fun str =>
      (Trace.emit [.print str] k).bind fun k =>
        (Trace.ofOption (vgaPrint space (kfree space fuel) fuel str k)).bind fun k =>
          (Trace.ofOption (kfree space fuel buffer k)).bind fun f => Trace.emit [] f.2

/-- `printk(fmt, ...)` -/
def printk (space : Space E) (fuel fmt : ℕ) (args : List Arg) (k : Kernel E) :
    Trace PrintkEvent (Kernel E) :=
  (Trace.ofOption (strlen k.mem fmt fuel 0)).bind fun l =>
    let len := l % 65536
    (Trace.ofOption (kmalloc space fuel 200 k)).bind fun r =>
      let buffer := r.1
      (printkLoop space fmt len buffer fuel ⟨0, 0, args, r.2⟩).bind fun s =>
        printkEnd space fuel buffer s

end PakOS
