import PakOS.Kmalloc.Alloc

/-!
# The console

`vga.c`, `serial_print` and the `memmove` that scrolls the screen.  `memmove` takes a buffer from
the kernel heap and frees it again, so printing can change the heap; and `kfree` prints when it
refuses a pointer.  The cycle is cut by giving `memmove`, and everything above it, the `kfree` to
call as an argument; `PakOS.Kmalloc.Free` closes it.
-/

namespace PakOS

open Machine

variable {E : Type*}

/-- `kfree` as its callers see it. -/
abbrev Kfree (E : Type*) := ℕ → Kernel E → Option (Status × Kernel E)

/-- `VGA_WIDTH` -/
def vgaWidth : ℕ := 80

/-- `VGA_HEIGHT` -/
def vgaHeight : ℕ := 25

/-- `(uint16_t) ch` for a signed `char`. -/
def signExtend16 (ch : UInt8) : ℕ := if ch < 128 then ch.toNat else 0xff00 + ch.toNat

/-- `memmove(dest, src, n)` -/
def memmove (space : Space E) (kfree : Kfree E) (fuel dest src n : ℕ) (k : Kernel E) :
    Option (Kernel E) :=
  match kmalloc space fuel n k with
  | none => none
  | some (buf, k) =>
    let m := copyBytes k.mem buf src n
    let m := copyBytes m dest buf n
    (kfree buf { k with mem := m }).map Prod.snd

/-- `vga_set_char(r, c, ch)` -/
def vgaSetChar (r c : ℕ) (ch : UInt8) (m : Mem) : Mem :=
  let color := 15 ||| 0 <<< 4
  storeLE 2 m (vgaBase + 2 * (r * vgaWidth + c)) (signExtend16 ch ||| color <<< 8)

/-- `vga_clear()` -/
def vgaClear (k : Kernel E) : Kernel E :=
  { k with
    mem := (List.range vgaHeight).foldl
      (fun m r => (List.range vgaWidth).foldl (fun m c => vgaSetChar r c 32 m) m) k.mem
    vgaCursorR := 0
    vgaCursorC := 0 }

/-- `vga_scrolldown(by)` -/
def vgaScrolldown (space : Space E) (kfree : Kfree E) (fuel by' : ℕ) (k : Kernel E) :
    Option (Kernel E) :=
  let newStart := vgaBase + vgaWidth * by' * 2
  let bufsize := vgaWidth * 2 * vgaHeight
  memmove space kfree fuel vgaBase newStart (bufsize - vgaWidth * by' * 2) k

/-- The `switch` of `vga_putchar`: write the character or move the cursor. -/
def vgaPlace (c : UInt8) (k : Kernel E) : Kernel E :=
  if c = 10 then { k with vgaCursorR := (k.vgaCursorR + 1) % 256 }
  else if c = 13 then { k with vgaCursorC := 0 }
  else if c = 9 then { k with vgaCursorC := (k.vgaCursorC + 4) % 256 }
  else
    { k with
      mem := vgaSetChar k.vgaCursorR k.vgaCursorC c k.mem
      vgaCursorC := (k.vgaCursorC + 1) % 256 }

/-- The line wrap of `vga_putchar`. -/
def vgaWrap (k : Kernel E) : Kernel E :=
  if k.vgaCursorC ≥ vgaWidth then
    { k with vgaCursorC := 0, vgaCursorR := (k.vgaCursorR + 1) % 256 }
  else k

/-- `vga_putchar(c)` -/
def vgaPutchar (space : Space E) (kfree : Kfree E) (fuel : ℕ) (c : UInt8) (k : Kernel E) :
    Option (Kernel E) :=
  let k := vgaWrap (vgaPlace c { k with serial := k.serial ++ [c] })
  if k.vgaCursorR ≥ vgaHeight - 1 then
    (vgaScrolldown space kfree fuel 1 k).map fun k =>
      { k with vgaCursorR := (k.vgaCursorR + 255) % 256 }
  else some k

/-- `vga_print(str)` of the characters of `str` before its terminator. -/
def vgaPrint (space : Space E) (kfree : Kfree E) (fuel : ℕ) :
    List UInt8 → Kernel E → Option (Kernel E)
  | [], k => some k
  | c :: cs, k =>
    match vgaPutchar space kfree fuel c k with
    | none => none
    | some k => vgaPrint space kfree fuel cs k

/-- The character of a nibble, as `vga_puthex` computes it. -/
def hexNibble (n : ℕ) : UInt8 := if n ≤ 9 then UInt8.ofNat (n + 48) else UInt8.ofNat (n + 55)

/-- The characters `vga_puthex(i)` prints after `0x`: the bytes of `i` from the highest, two nibbles
each. -/
def hexDigits (i : ℕ) : List UInt8 :=
  [3, 2, 1, 0].flatMap fun j =>
    let byte := i / 256 ^ j % 256
    [hexNibble (byte / 16), hexNibble (byte % 16)]

/-- `vga_puthex(i)` -/
def vgaPuthex (space : Space E) (kfree : Kfree E) (fuel i : ℕ) (k : Kernel E) :
    Option (Kernel E) :=
  match vgaPrint space kfree fuel [48, 120] k with
  | none => none
  | some k => vgaPrint space kfree fuel (hexDigits i) k

/-- `serial_print(str)` of a string with the given characters before its terminator: `strlen` counts
the terminator, and the count is kept in an 8-bit variable. -/
def serialPrint (str : List UInt8) (k : Kernel E) : Kernel E :=
  { k with serial := k.serial ++ (str ++ [0]).take ((str.length + 1) % 256) }

end PakOS
