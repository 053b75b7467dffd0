import PakOS.Kernel.Traps
import PakOS.Klibc.HexText
import PakOS.Kmalloc.StaleFree
import PakOS.Vga.Scrolling

/-!
# Panics

`kpanic` and `_kguard` of `kernel.c`, and `handle_pagefault` and the handlers of `cpu_traps.c`, up to
the point where they stop.  They clear the screen first, and what they print does not scroll, so that
none of them uses the heap, which may be what is broken.  `panic_screen` says that every panic shows
its text in any state of the kernel, leaves the rest of memory for whoever looks at it, and can be
read off the screen.
-/

namespace PakOS

open Machine Screen Numeral

variable {E : Type*}

/-- The characters of a literal. -/
def ascii (s : String) : List UInt8 := s.toList.map fun c => UInt8.ofNat c.toNat

/-- `kpanic(message)` -/
def kpanic (space : Space E) (kfree : Kfree E) (fuel : ℕ) (message : List UInt8) (k : Kernel E) :
    Option (Kernel E) :=
  (vgaPrint space kfree fuel (ascii "Encountered Bruh Moment: ") (vgaClear k)).bind fun k =>
    vgaPrint space kfree fuel message k

/-- `handle_pagefault(frame)`, with `frame->error` and the register `cr2`. -/
def handlePagefault (space : Space E) (kfree : Kfree E) (fuel : ℕ) (error : UInt8) (cr2 : UInt32)
    (k : Kernel E) : Option (Kernel E) := do
  let k ← vgaPrint space kfree fuel (ascii "Encountered Bruh Momement: Page Fault\n\n\r") (vgaClear k)
  let k ← vgaPrint space kfree fuel
    (if error &&& 4 ≠ 0 then ascii "User process tried to" else ascii "Kernel process tried to") k
  let k ← vgaPrint space kfree fuel
    (if error &&& 2 ≠ 0 then ascii " write " else ascii " read ") k
  let k ← vgaPrint space kfree fuel
    (if error &&& 1 ≠ 0 then ascii "a page and caused a protection fault"
      else ascii "a non-existent page entry") k
  let k ← vgaPrint space kfree fuel (ascii " at ") k
  vgaPuthex space kfree fuel cr2.toNat k

/-- What the handlers tell `kpanic`; that of page faults does not call it. -/
def CpuIsr.message : CpuIsr → Option (List UInt8)
  | faultDe => ascii "Fault Division By Zero"
  | faultDb => ascii "Fault Debug"
  | intNomask => ascii "Interrupt Nonmaskable"
  | faultBp => ascii "Breakpoint"
  | faultOf => ascii "Fault Overflow"
  | faultBr => ascii "Bound range exceeded"
  | faultUd => ascii "Invalid opcode"
  | faultNm => ascii "Device Not Available"
  | abortDf => ascii "Double Fault"
  | faultTs => ascii "Invalid TSS"
  | faultNp => ascii "Segment Not Present"
  | faultSs => ascii "Stack Segment Fault"
  | faultGp => ascii "General Protection Fault"
  | faultPf => none
  | faultMf => ascii "x87 Floating-Point Exception"
  | faultAc => ascii "Alignment Check"
  | abortMc => ascii "Machine Check"
  | faultXmxf => ascii "SIMD Floating Point Exception"
  | faultVe => ascii "Virtualization Exception"
  | faultSx => ascii "Security Exception"

/-- The handlers. -/
def CpuIsr.handle (space : Space E) (kfree : Kfree E) (fuel : ℕ) (error : UInt8) (cr2 : UInt32)
    (isr : CpuIsr) (k : Kernel E) : Option (Kernel E) :=
  match isr.message with
  | some message => kpanic space kfree fuel message k
  | none => handlePagefault space kfree fuel error cr2 k

/-- The `switch` of `_kguard`. -/
def kguardError : Status → List UInt8
  | .borkdMem => ascii "Borked Memory Error"
  | .doubleFree => ascii "Double Free Error"
  | .invalidMem => ascii "Invalid Memory Access Violation"
  | .failedInit => ascii "Kernel Initialization Routine Failed"
  | .outOfMem => ascii "Kernel Ran Out Of Memory"
  | .invalidFree => ascii "Invalid Freeing Of Memory"
  | _ => ascii "Undefined Error"

/-- `_kguard(status)` -/
def kguard (space : Space E) (kfree : Kfree E) (fuel : ℕ) (status : Status) (k : Kernel E) :
    Option (Kernel E) :=
  if status = .ok then some k
  else
    (vgaPrint space kfree fuel (ascii "KGuard Panic\n\n\r") (vgaClear k)).bind fun k =>
      vgaPrint space kfree fuel (kguardError status) k

/-! ### What is on the screen -/

/-- The screen reads `lines`, from the first row on, and nothing else is on it. -/
def Reads (k : Kernel E) (lines : List (List UInt8)) : Prop :=
  ∀ i < 25, ∀ j < 80, cell k.mem i j = glyph ((lines.getD i []).getD j 32)

/-- How the kernel comes to stop. -/
inductive Panic
  /-- The processor calls a handler; `error` and `cr2` are what it finds there. -/
  | trap (isr : CpuIsr) (error : UInt8) (cr2 : UInt32)
  /-- `_kguard` is given a status. -/
  | guard (status : Status)

namespace Panic

/-- What the kernel does. -/
def run (space : Space E) (kfree : Kfree E) (fuel : ℕ) : Panic → Kernel E → Option (Kernel E)
  | trap isr error cr2, k => isr.handle space kfree fuel error cr2 k
  | guard status, k => kguard space kfree fuel status k

/-- The sentence about a page fault, up to the address. -/
def sentence (user write protection : Bool) : List UInt8 :=
  (if user then ascii "User process tried to" else ascii "Kernel process tried to") ++
    (if write then ascii " write " else ascii " read ") ++
    (if protection then ascii "a page and caused a protection fault"
      else ascii "a non-existent page entry") ++ ascii " at 0x"

/-- The lines that a panic leaves on the screen. -/
def lines : Panic → List (List UInt8)
  | trap isr error cr2 =>
    match isr.message with
    | some message => [ascii "Encountered Bruh Moment: " ++ message]
    | none => [ascii "Encountered Bruh Momement: Page Fault", [],
        sentence (error &&& 4 ≠ 0) (error &&& 2 ≠ 0) (error &&& 1 ≠ 0) ++ hexDigits cr2.toNat]
  | guard status => [ascii "KGuard Panic", [], kguardError status]

/-- The text that a panic prints. -/
def text : Panic → List UInt8
  | trap isr error cr2 =>
    match isr.message with
    | some message => ascii "Encountered Bruh Moment: " ++ message
    | none => ascii "Encountered Bruh Momement: Page Fault" ++ ascii "\n\n\r" ++
        (sentence (error &&& 4 ≠ 0) (error &&& 2 ≠ 0) (error &&& 1 ≠ 0) ++ hexDigits cr2.toNat)
  | guard status => ascii "KGuard Panic" ++ ascii "\n\n\r" ++ kguardError status

/-- The two panics say the same: they come from the same handler, and from page faults at the same
address of the same kind; or `_kguard` has the same text for both. -/
def Alike : Panic → Panic → Prop
  | trap isr error cr2, trap isr' error' cr2' => isr = isr' ∧ (isr = .faultPf → cr2 = cr2' ∧
      ∀ bit ∈ [4, 2, 1], error &&& bit ≠ 0 ↔ error' &&& bit ≠ 0)
  | guard status, guard status' => kguardError status = kguardError status'
  | _, _ => False

end Panic

/-! ### Printing that does not scroll -/

section

variable (space : Space E) (kfree : Kfree E) (fuel : ℕ) {k : Kernel E} {t : Page ℕ}

/-- `vga_putchar` needs no heap when the cursor does not come to the last row. -/
theorem vgaPutchar_of_row_lt (hs : Shows 24 80 (glyph 32) (screen k) t) {c : UInt8} (hc : c < 128)
    (hrow : (t.press 80 (keyOf c)).row < 24) :
    ∃ k', vgaPutchar space kfree fuel c k = some k' ∧ SameOffScreen k k' ∧
      k'.serial = k.serial ++ [c] ∧
      Shows 24 80 (glyph 32) (screen k') (t.press 80 (keyOf c)) := by
  obtain ⟨hoff, hserial, -, htracks⟩ := beforeScroll_of_shows hs hc
  generalize hk₁ : vgaWrap (vgaPlace c { k with serial := k.serial ++ [c] }) = k₁ at *
  have hshows := hs.press (keyOf c)
  have hpress := (hs.tracks.press (keyOf c)).row
  have hlt : ((screen k).press 80 (keyOf c)).row < 24 := by omega
  have hkeep : ((screen k).press 80 (keyOf c)).scroll 24 = (screen k).press 80 (keyOf c) :=
    if_neg (Nat.not_le.mpr hlt)
  rw [hkeep] at hshows
  have hscroll : ¬k₁.vgaCursorR ≥ vgaHeight - 1 := by
    have hrow₁ : ((screen k).press 80 (keyOf c)).row = 0 + k₁.vgaCursorR := htracks.row
    unfold vgaHeight
    omega
  refine ⟨k₁, ?_, hoff, hserial, hshows.congr htracks⟩
  rw [vgaPutchar]
  simp only [hk₁, if_neg hscroll]

/-- `vga_print` needs no heap when the text ends in front of the last row. -/
theorem vgaPrint_of_row_lt {str : List UInt8} (hs : Shows 24 80 (glyph 32) (screen k) t)
    (hstr : ∀ c ∈ str, c < 128) (hrow : (t.type 80 (str.map keyOf)).row < 24) :
    ∃ k', vgaPrint space kfree fuel str k = some k' ∧ SameOffScreen k k' ∧
      k'.serial = k.serial ++ str ∧
      Shows 24 80 (glyph 32) (screen k') (t.type 80 (str.map keyOf)) := by
  induction str generalizing k t with
  | nil => exact ⟨k, rfl, ⟨fun _ _ => rfl, rfl, rfl, rfl, rfl, rfl⟩, (List.append_nil _).symm, hs⟩
  | cons c cs ih =>
    have htidy := (hs.tidy.press (keyOf c)).1
    have hle := htidy.row_le_type (cs.map keyOf)
    obtain ⟨k₁, hk₁, hoff₁, hserial₁, hs₁⟩ :=
      vgaPutchar_of_row_lt space kfree fuel hs (hstr c List.mem_cons_self) (hle.trans_lt hrow)
    obtain ⟨k₂, hk₂, hoff₂, hserial₂, hs₂⟩ :=
      ih hs₁ (fun d hd => hstr d (List.mem_cons_of_mem c hd)) hrow
    refine ⟨k₂, ?_, hoff₁.trans hoff₂, ?_, hs₂⟩
    · rw [vgaPrint, hk₁]
      exact hk₂
    · rw [hserial₂, hserial₁, List.append_assoc]
      rfl

end

/-! ### The text on the page -/

/-- The characters are 7-bit characters and no control characters. -/
def Plain (cs : List UInt8) : Prop := ∀ c ∈ cs, c < 128 ∧ Printable c

instance (cs : List UInt8) : Decidable (Plain cs) :=
  List.decidableBAll (fun c => c < 128 ∧ Printable c) cs

/-- Such characters are written. -/
theorem Plain.map_keyOf {cs : List UInt8} (hcs : Plain cs) :
    cs.map keyOf = (cs.map glyph).map .char := by
  rw [List.map_map]
  refine List.map_congr_left fun c hc => ?_
  obtain ⟨h10, h13, h9⟩ := (hcs c hc).2
  rw [keyOf, if_neg h10, if_neg h13, if_neg h9]
  rfl

/-- What a page reads when such characters are typed from its place `n` on, where it was blank. -/
theorem Plain.type {cs : List UInt8} (hcs : Plain cs) {t : Page ℕ} (hcol : t.col < 80) :
    (t.type 80 (cs.map keyOf)).col < 80 ∧
      (t.type 80 (cs.map keyOf)).place 80 = t.place 80 + cs.length ∧
      ∀ i, ∀ j < 80, (t.type 80 (cs.map keyOf)).text i j =
        if t.place 80 ≤ i * 80 + j ∧ i * 80 + j < t.place 80 + cs.length then
          glyph (cs.getD (i * 80 + j - t.place 80) 32)
        else t.text i j := by
  obtain ⟨hcol', hplace, htext⟩ := Page.type_chars hcol (cs.map glyph)
  rw [hcs.map_keyOf]
  rw [List.length_map] at hplace
  refine ⟨hcol', hplace, fun i j hj => ?_⟩
  rw [htext i j hj]
  by_cases hle : t.place 80 ≤ i * 80 + j
  · by_cases hlt : i * 80 + j < t.place 80 + cs.length
    · rw [if_pos hle, if_pos ⟨hle, hlt⟩, List.getD_eq_getElem _ _ (by rw [List.length_map]; omega),
        List.getD_eq_getElem _ _ (by omega), List.getElem_map]
    · rw [if_pos hle, if_neg fun h => hlt h.2, List.getD_eq_default _ _ (by rw [List.length_map]; omega)]
  · rw [if_neg hle, if_neg fun h => hle h.1]

/-- The page reads `lines`, and its cursor is not in the last row of the screen. -/
structure PageReads (t : Page ℕ) (lines : List (List UInt8)) : Prop where
  /-- The cursor is not in the last row. -/
  row_lt : t.row < 24
  /-- The lines. -/
  text : ∀ i, ∀ j < 80, t.text i j = glyph ((lines.getD i []).getD j 32)

/-- The text puts `lines` on a blank page. -/
structure Spells (str : List UInt8) (lines : List (List UInt8)) : Prop where
  /-- The characters are 7-bit characters. -/
  lt : ∀ c ∈ str, c < 128
  /-- The page. -/
  page : PageReads ((Page.blank (glyph 32)).type 80 (str.map keyOf)) lines

/-- One line on a blank page. -/
theorem Plain.spells {cs : List UInt8} (hcs : Plain cs) (hlen : cs.length ≤ 80) :
    Spells cs [cs] := by
  obtain ⟨-, hplace, htext⟩ := hcs.type (t := .blank (glyph 32)) (by decide)
  have hzero : (Page.blank (glyph 32)).place 80 = 0 := rfl
  rw [hzero] at hplace htext
  refine ⟨fun c hc => (hcs c hc).1, by unfold Page.place at hplace; omega, fun i j hj => ?_⟩
  rw [htext i j hj]
  cases i with
  | zero =>
    rw [List.getD_cons_zero]
    by_cases hj' : j < cs.length
    · rw [if_pos (by omega)]
      simp
    · rw [if_neg (by omega), List.getD_eq_default _ _ (by omega)]
      rfl
  | succ i =>
    rw [if_neg (by omega)]
    rfl

/-- A line, a blank one and another line. -/
theorem Plain.spells_lines {cs ds : List UInt8} (hcs : Plain cs) (hlen : cs.length < 80)
    (hds : Plain ds) (hlen' : ds.length ≤ 80) :
    Spells (cs ++ ascii "\n\n\r" ++ ds) [cs, [], ds] := by
  have hbreaks : ∀ c ∈ ascii "\n\n\r", c < 128 := by decide +kernel
  have hlt : ∀ c ∈ cs ++ ascii "\n\n\r" ++ ds, c < 128 := by
    intro c hc
    rcases List.mem_append.mp hc with hc | hc
    · exact (List.mem_append.mp hc).elim (fun hc => (hcs c hc).1) (hbreaks c)
    · exact (hds c hc).1
  obtain ⟨-, -, htext₁⟩ := hcs.spells hlen.le
  obtain ⟨hcol₁, hplace₁, -⟩ := hcs.type (t := .blank (glyph 32)) (by decide)
  have hzero : (Page.blank (glyph 32)).place 80 = 0 := rfl
  rw [hzero] at hplace₁
  refine ⟨hlt, ?_⟩
  rw [List.map_append, List.map_append, Page.type_append, Page.type_append]
  generalize (Page.blank (glyph 32)).type 80 (cs.map keyOf) = t₁ at *
  -- two newlines and a carriage return go to the third row
  have hbreak : t₁.type 80 ((ascii "\n\n\r").map keyOf) = { t₁ with row := t₁.row + 2, col := 0 } := by
    have hkeys : (ascii "\n\n\r").map keyOf = [.newline, .newline, .ret] := rfl
    have hwrap : ¬80 ≤ t₁.col := by omega
    rw [hkeys]
    simp [Page.type, Page.press, Page.move, Page.wrap, hwrap]
  rw [hbreak]
  have hrow : t₁.row = 0 := by
    unfold Page.place at hplace₁
    omega
  obtain ⟨-, hplace, htext⟩ := hds.type (t := { t₁ with row := t₁.row + 2, col := 0 })
    (Nat.zero_lt_succ 79)
  have hthird : Page.place 80 { t₁ with row := t₁.row + 2, col := 0 } = 160 := by
    change (t₁.row + 2) * 80 + 0 = 160
    omega
  rw [hthird] at hplace htext
  refine ⟨by unfold Page.place at hplace; omega, fun i j hj => ?_⟩
  rw [htext i j hj]
  have hold := htext₁ i j hj
  rcases i with _ | _ | _ | i
  · rw [if_neg (by omega)]
    exact hold
  · rw [if_neg (by omega)]
    exact hold
  · rw [List.getD_cons_succ, List.getD_cons_succ, List.getD_cons_zero]
    by_cases hj' : j < ds.length
    · rw [if_pos (by omega), show (0 + 1 + 1) * 80 + j - 160 = j by omega]
    · rw [if_neg (by omega), List.getD_eq_default _ _ (by omega)]
      exact hold
  · rw [if_neg (by omega)]
    exact hold

/-! ### Every panic shows -/

/-- Printing on a cleared screen. -/
theorem Spells.reads {str : List UInt8} {lines : List (List UInt8)} (h : Spells str lines)
    (space : Space E) (kfree : Kfree E) (fuel : ℕ) (k : Kernel E) :
    ∃ k', vgaPrint space kfree fuel str (vgaClear k) = some k' ∧ Reads k' lines ∧
      SameOffScreen k k' ∧ k'.serial = k.serial ++ str := by
  obtain ⟨k', hprint, hoff, hserial, hs⟩ :=
    vgaPrint_of_row_lt space kfree fuel (shows_vgaClear k) h.lt h.page.row_lt
  refine ⟨k', hprint, fun i hi j hj => ?_, (sameOffScreen_vgaClear k).trans hoff, hserial⟩
  have hcell := hs.tracks.text i (by omega) j hj
  have htop : Page.top 24 ((Page.blank (glyph 32)).type 80 (str.map keyOf)) = 0 := by
    have hrow := h.page.row_lt
    unfold Page.top
    omega
  rw [htop, Nat.zero_add] at hcell
  exact hcell.trans (h.page.text i j hj)

namespace Panic

/-- The sentence about a page fault is plain, and fits into a line with the address. -/
theorem plain_sentence (user write protection : Bool) :
    Plain (sentence user write protection) ∧ (sentence user write protection).length ≤ 72 := by
  cases user <;> cases write <;> cases protection <;> decide

theorem plain_hexDigits (v : ℕ) : Plain (hexDigits v) := by
  intro c hc
  refine ⟨?_, printable_hexDigits v c hc⟩
  rw [hexDigits_eq] at hc
  obtain ⟨d, hd, rfl⟩ := mem_text hc
  have hall : ∀ d < 16, digitChar d < 128 := by decide
  exact hall d (lowDigits_lt (by decide) 8 v d hd)

theorem length_hexDigits (v : ℕ) : (hexDigits v).length = 8 := by
  rw [hexDigits_eq, length_text, length_lowDigits]

/-- What the handlers say is plain, and fits into a line. -/
theorem plain_message {isr : CpuIsr} {message : List UInt8} (h : isr.message = some message) :
    Plain (ascii "Encountered Bruh Moment: " ++ message) ∧
      (ascii "Encountered Bruh Moment: " ++ message).length ≤ 80 := by
  cases isr <;> cases h <;> decide

/-- What `_kguard` says is plain, and fits into a line. -/
theorem plain_kguardError (status : Status) :
    Plain (kguardError status) ∧ (kguardError status).length ≤ 80 := by
  cases status <;> decide

/-- A sentence about a page fault, with the address. -/
theorem plain_sentence_append (user write protection : Bool) (v : ℕ) :
    Plain (sentence user write protection ++ hexDigits v) ∧
      (sentence user write protection ++ hexDigits v).length ≤ 80 := by
  obtain ⟨hplain, hlen⟩ := plain_sentence user write protection
  refine ⟨fun c hc => ?_, by rw [List.length_append, length_hexDigits]; omega⟩
  rcases List.mem_append.mp hc with hc | hc
  · exact hplain c hc
  · exact plain_hexDigits v c hc

/-- The text of a panic spells its lines. -/
theorem spells (p : Panic) : Spells p.text p.lines := by
  cases p with
  | trap isr error cr2 =>
    cases hmessage : isr.message with
    | some message =>
      obtain ⟨hplain, hlen⟩ := plain_message hmessage
      simp only [text, lines, hmessage]
      exact hplain.spells hlen
    | none =>
      obtain ⟨hplain, hlen⟩ := plain_sentence_append (error &&& 4 ≠ 0) (error &&& 2 ≠ 0)
        (error &&& 1 ≠ 0) cr2.toNat
      have htitle : Plain (ascii "Encountered Bruh Momement: Page Fault") := by decide
      simp only [text, lines, hmessage]
      exact htitle.spells_lines (by decide) hplain hlen
  | guard status =>
    obtain ⟨hplain, hlen⟩ := plain_kguardError status
    have htitle : Plain (ascii "KGuard Panic") := by decide
    exact htitle.spells_lines (by decide) hplain hlen

/-- `handle_pagefault` prints its title, the sentence and the address. -/
theorem handlePagefault_eq (space : Space E) (kfree : Kfree E) (fuel : ℕ) (error : UInt8)
    (cr2 : UInt32) (k : Kernel E) : handlePagefault space kfree fuel error cr2 k =
      vgaPrint space kfree fuel (ascii "Encountered Bruh Momement: Page Fault" ++ ascii "\n\n\r" ++
        (sentence (error &&& 4 ≠ 0) (error &&& 2 ≠ 0) (error &&& 1 ≠ 0) ++ hexDigits cr2.toNat))
        (vgaClear k) := by
  have htitle : ascii "Encountered Bruh Momement: Page Fault\n\n\r" =
      ascii "Encountered Bruh Momement: Page Fault" ++ ascii "\n\n\r" := by decide
  have hat : ascii " at 0x" = ascii " at " ++ [48, 120] := by decide
  unfold sentence handlePagefault
  rw [htitle, hat]
  generalize ascii "Encountered Bruh Momement: Page Fault" ++ ascii "\n\n\r" = title
  generalize ascii " at " = at'
  simp only [decide_eq_true_eq, List.append_assoc, vgaPrint_append, vgaPuthex_eq,
    Option.bind_eq_bind, List.cons_append, List.nil_append]

/-- A panic clears the screen and prints its text. -/
theorem run_eq (space : Space E) (kfree : Kfree E) (fuel : ℕ) {p : Panic} (hp : p ≠ guard .ok)
    (k : Kernel E) : p.run space kfree fuel k = vgaPrint space kfree fuel p.text (vgaClear k) := by
  cases p with
  | trap isr error cr2 =>
    cases hmessage : isr.message with
    | some message =>
      simp only [run, CpuIsr.handle, text, hmessage]
      rw [vgaPrint_append, kpanic]
    | none =>
      simp only [run, CpuIsr.handle, text, hmessage]
      exact handlePagefault_eq space kfree fuel error cr2 k
  | guard status =>
    have hstatus : status ≠ .ok := fun h => hp (by rw [h])
    have htitle : ascii "KGuard Panic\n\n\r" = ascii "KGuard Panic" ++ ascii "\n\n\r" := by decide
    simp only [run, text]
    rw [kguard, if_neg hstatus, htitle, ← vgaPrint_append]

/-! ### Reading the screen -/

/-- A row with a line on it. -/
def row (line : List UInt8) : List UInt8 := (List.range 80).map fun j => line.getD j 32

theorem glyph_inj {c d : UInt8} (h : glyph c = glyph d) : c = d := by
  unfold glyph at h
  exact UInt8.toNat_inj.mp (by omega)

/-- A screen reads one text only, up to blanks at the ends of the lines. -/
theorem row_eq_of_reads {k : Kernel E} {ls ls' : List (List UInt8)} (h : Reads k ls)
    (h' : Reads k ls') {i : ℕ} (hi : i < 25) : row (ls.getD i []) = row (ls'.getD i []) := by
  refine List.map_congr_left fun j hj => ?_
  have hj' := List.mem_range.mp hj
  exact glyph_inj ((h i hi j hj').symm.trans (h' i hi j hj'))

/-- The first line of a handler. -/
def headline (isr : CpuIsr) : List UInt8 :=
  match isr.message with
  | some message => ascii "Encountered Bruh Moment: " ++ message
  | none => ascii "Encountered Bruh Momement: Page Fault"

theorem lines_trap_getD_zero (isr : CpuIsr) (error : UInt8) (cr2 : UInt32) :
    (trap isr error cr2).lines.getD 0 [] = headline isr := by
  unfold lines headline
  cases hmessage : isr.message <;> simp [hmessage]

/-- The handlers have different first lines. -/
theorem headline_inj {isr isr' : CpuIsr} (h : row (headline isr) = row (headline isr')) :
    isr = isr' := by
  have hfind : ∀ isr : CpuIsr, ([.faultDe, .faultDb, .intNomask, .faultBp, .faultOf, .faultBr,
      .faultUd, .faultNm, .abortDf, .faultTs, .faultNp, .faultSs, .faultGp, .faultPf, .faultMf,
      .faultAc, .abortMc, .faultXmxf, .faultVe, .faultSx] : List CpuIsr).find?
        (fun i => row (headline i) = row (headline isr)) = some isr := by
    intro isr
    cases isr <;> decide +kernel
  exact Option.some.inj ((hfind isr).symm.trans (h ▸ hfind isr'))

/-- The digits tell the address. -/
theorem evalString_hexDigits {v : ℕ} (hv : v < 4294967296) : evalString 16 (hexDigits v) = v := by
  have hlt : ∀ d ∈ lowDigits 16 8 v, d < 36 := fun d hd =>
    (lowDigits_lt (by decide) 8 v d hd).trans (by decide)
  rw [hexDigits_eq, evalString_text hlt, ofDigits_lowDigits]
  exact Nat.mod_eq_of_lt hv

/-- Sentences of different kinds differ before the address. -/
theorem sentence_ne (user write protection user' write' protection' : Bool) :
    (user = user' ∧ write = write' ∧ protection = protection') ∨
      ∃ j < 58, (sentence user write protection).getD j 32 ≠
        (sentence user' write' protection').getD j 32 := by
  revert user write protection user' write' protection'
  decide +kernel

/-- A sentence tells the kind of the page fault, and where it was. -/
theorem sentence_inj {user write protection user' write' protection' : Bool} {v v' : ℕ}
    (hv : v < 4294967296) (hv' : v' < 4294967296)
    (h : row (sentence user write protection ++ hexDigits v) =
      row (sentence user' write' protection' ++ hexDigits v')) :
    (user = user' ∧ write = write' ∧ protection = protection') ∧ v = v' := by
  have hchar : ∀ j < 80, (sentence user write protection ++ hexDigits v).getD j 32 =
      (sentence user' write' protection' ++ hexDigits v').getD j 32 := fun j hj =>
    List.map_inj_left.mp h j (List.mem_range.mpr hj)
  have hlong : ∀ u w p : Bool, 58 ≤ (sentence u w p).length := by decide
  have hkind : user = user' ∧ write = write' ∧ protection = protection' := by
    rcases sentence_ne user write protection user' write' protection' with heq | ⟨j, hj, hne⟩
    · exact heq
    · have hj' := hchar j (by omega)
      rw [List.getD_append _ _ _ _ (hj.trans_le (hlong _ _ _)),
        List.getD_append _ _ _ _ (hj.trans_le (hlong _ _ _))] at hj'
      exact absurd hj' hne
  refine ⟨hkind, ?_⟩
  obtain ⟨rfl, rfl, rfl⟩ := hkind
  obtain ⟨-, hlen⟩ := plain_sentence user write protection
  have hdigits : hexDigits v = hexDigits v' := by
    refine List.ext_getElem (by rw [length_hexDigits, length_hexDigits]) fun e he he' => ?_
    have hj := hchar ((sentence user write protection).length + e) (by
      rw [length_hexDigits] at he
      omega)
    rw [List.getD_append_right _ _ _ _ (Nat.le_add_right _ _),
      List.getD_append_right _ _ _ _ (Nat.le_add_right _ _), Nat.add_sub_cancel_left,
      List.getD_eq_getElem _ _ he, List.getD_eq_getElem _ _ he'] at hj
    exact hj
  rw [← evalString_hexDigits hv, hdigits, evalString_hexDigits hv']

/-- No handler has the first line of `_kguard`. -/
theorem headline_ne (isr : CpuIsr) : row (headline isr) ≠ row (ascii "KGuard Panic") := by
  cases isr <;> decide +kernel

/-- The errors of `_kguard` do not end in blanks, and can be told apart. -/
theorem kguardError_inj {status status' : Status}
    (h : row (kguardError status) = row (kguardError status')) :
    kguardError status = kguardError status' := by
  have hstrip : ∀ status, ((row (kguardError status)).reverse.dropWhile (· = 32)).reverse =
      kguardError status := by
    intro status
    cases status <;> decide +kernel
  rw [← hstrip status, h, hstrip status']

/-- Panics with the same screen say the same. -/
theorem alike_of_reads {k : Kernel E} {p p' : Panic} (h : Reads k p.lines) (h' : Reads k p'.lines) :
    p.Alike p' := by
  have hfirst := row_eq_of_reads h h' (show 0 < 25 by decide)
  have hthird := row_eq_of_reads h h' (show 2 < 25 by decide)
  cases p with
  | trap isr error cr2 =>
    rw [lines_trap_getD_zero] at hfirst
    cases p' with
    | trap isr' error' cr2' =>
      rw [lines_trap_getD_zero] at hfirst
      obtain rfl := headline_inj hfirst
      refine ⟨rfl, fun hpf => ?_⟩
      subst hpf
      obtain ⟨⟨h4, h2, h1⟩, hcr2⟩ := sentence_inj cr2.toNat_lt cr2'.toNat_lt hthird
      refine ⟨UInt32.toNat_inj.mp hcr2, fun bit hbit => ?_⟩
      simp only [List.mem_cons, List.not_mem_nil, or_false] at hbit
      rcases hbit with rfl | rfl | rfl
      · exact decide_eq_decide.mp h4
      · exact decide_eq_decide.mp h2
      · exact decide_eq_decide.mp h1
    | guard status => exact absurd hfirst (headline_ne isr)
  | guard status =>
    cases p' with
    | trap isr error cr2 =>
      rw [lines_trap_getD_zero] at hfirst
      exact absurd hfirst.symm (headline_ne isr)
    | guard status' => exact kguardError_inj hthird

/-- Panics that say the same leave the same lines. -/
theorem Alike.lines {p p' : Panic} (h : p.Alike p') : p.lines = p'.lines := by
  cases p with
  | trap isr error cr2 =>
    cases p' with
    | trap isr' error' cr2' =>
      obtain ⟨rfl, hpf⟩ := h
      unfold Panic.lines
      cases hmessage : isr.message with
      | some message => simp only [hmessage]
      | none =>
        have hisr : isr = .faultPf := by cases isr <;> first | rfl | cases hmessage
        obtain ⟨rfl, hbits⟩ := hpf hisr
        have h4 : decide (error &&& 4 ≠ 0) = decide (error' &&& 4 ≠ 0) :=
          decide_eq_decide.mpr (hbits 4 (by simp))
        have h2 : decide (error &&& 2 ≠ 0) = decide (error' &&& 2 ≠ 0) :=
          decide_eq_decide.mpr (hbits 2 (by simp))
        have h1 : decide (error &&& 1 ≠ 0) = decide (error' &&& 1 ≠ 0) :=
          decide_eq_decide.mpr (hbits 1 (by simp))
        simp only [hmessage, h4, h2, h1]
    | guard status => cases h
  | guard status =>
    cases p' with
    | trap isr error cr2 => cases h
    | guard status' => exact congrArg (fun e => [ascii "KGuard Panic", [], e]) h

end Panic

/-- **A panic can be read off the screen.**  In every state of the kernel, whatever the heap is like,
a panic that is due stops with its text on an otherwise blank screen and on the serial port, and with
the rest of memory as it was; and another panic would have left the same screen only if it says the
same. -/
theorem panic_screen (space : Space E) (kfree : Kfree E) (fuel : ℕ) (k : Kernel E) {p : Panic}
    (hp : p ≠ .guard .ok) :
    ∃ k', p.run space kfree fuel k = some k' ∧ Reads k' p.lines ∧ SameOffScreen k k' ∧
      k'.serial = k.serial ++ p.text ∧ ∀ p' : Panic, Reads k' p'.lines ↔ p.Alike p' := by
  obtain ⟨k', hrun, hreads, hoff, hserial⟩ := p.spells.reads space kfree fuel k
  refine ⟨k', (Panic.run_eq space kfree fuel hp k).trans hrun, hreads, hoff, hserial, fun p' => ?_⟩
  exact ⟨fun h => Panic.alike_of_reads hreads h, fun h => h.lines ▸ hreads⟩

/-- A write to `0xdeadbeef` without a page there, with a heap that never has memory: the first digit
of the address. -/
theorem panic_screen_pagefault : ∃ k', (Panic.trap .faultPf 2 0xdeadbeef).run
    (fun _ k => (0, k)) (fun _ _ => none) 0 bootKernel = some k' ∧ cell k'.mem 2 61 = glyph 68 := by
  obtain ⟨k', hrun, hreads, -⟩ := panic_screen (fun _ k => (0, k)) (fun _ _ => none) 0 bootKernel
    (show Panic.trap .faultPf 2 0xdeadbeef ≠ .guard .ok by simp)
  refine ⟨k', hrun, (hreads 2 (by decide) 61 (by decide)).trans ?_⟩
  decide +kernel

end PakOS
