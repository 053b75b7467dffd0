import PakOS.Klibc.ItoaBuffer
import PakOS.Klibc.Printk
import PakOS.Kmalloc.Buffer

/-!
# What `printk` writes

A format with its arguments is a list of pieces, and `printk` appends the bytes of one piece after
the other to its buffer.  `Matches` is the reading of the format; it follows the index, which also
passes over the terminator of the format.

`printkLoop_guarded` is the specification of the loop: if the strings have less than 256 characters
and all pieces together fit into the 200 bytes, the loop appends them all; if not, some store misses
the buffer or some string is cut to its length modulo 256.
-/

namespace PakOS

open Machine Coalesce Numeral

variable {E : Type*} {mmap : Mmap E} {limit len fmt radix value : ℕ} {k₀ k k' : Kernel E}
  {bs₀ bs bs' : List Block} {b c : Block} {out f : List UInt8} {s : Printk E}

/-! ### Pieces -/

/-- What a part of the format puts into the buffer. -/
inductive Piece
  /-- A character. -/
  | char (c : UInt8)
  /-- The two characters for a newline. -/
  | newline
  /-- The text of a number. -/
  | number (radix value : ℕ)
  /-- The characters of a string. -/
  | string (t : List UInt8)

/-- The bytes of a piece. -/
def Piece.bytes : Piece → List UInt8
  | .char c => [c]
  | .newline => [10, 13]
  | .number radix value => itoaText radix value
  | .string t => t

/-- The length of a string fits into 8 bits. -/
def Piece.Short : Piece → Prop
  | .string t => t.length < 256
  | _ => True

/-- The base that a conversion character stands for. -/
def radixOf (c : UInt8) : ℕ := if c = 100 then 10 else 16

/-- The reading of a format: `Matches Str len r t args ps` says that the loop, with `r` of its `len`
characters to go, reads the pieces `ps` from the characters `t` and the arguments `args`, where
`Str` are the strings that stand in memory.  The terminator is one of the characters.  `%l` looks
one character ahead, also behind the last of the `len`; there the index must not wrap around, or
else the loop begins again and never runs out of conversions. -/
inductive Matches (Str : ℕ → List UInt8 → Prop) (len : ℕ) :
    ℕ → List UInt8 → List Arg → List Piece → Prop
  /-- The end of the format; further arguments are not looked at. -/
  | done {t : List UInt8} {args : List Arg} : Matches Str len 0 t args []
  /-- An ordinary character, or `%` as the last one. -/
  | char {r : ℕ} {c : UInt8} {t : List UInt8} {args : List Arg} {ps : List Piece} (hc : c ≠ 10)
      (hp : c = 37 → r = 0) (h : Matches Str len r t args ps) :
      Matches Str len (r + 1) (c :: t) args (.char c :: ps)
  /-- A newline. -/
  | newline {r : ℕ} {t : List UInt8} {args : List Arg} {ps : List Piece}
      (h : Matches Str len r t args ps) : Matches Str len (r + 1) (10 :: t) args (.newline :: ps)
  /-- `%d` or `%x` -/
  | int {r : ℕ} {c : UInt8} {v : UInt32} {t : List UInt8} {args : List Arg} {ps : List Piece}
      (hc : c = 100 ∨ c = 120) (h : Matches Str len r t args ps) :
      Matches Str len (r + 2) (37 :: c :: t) (.word v :: args)
        (.number (radixOf c) v.toNat :: ps)
  /-- `%ld` or `%lx` -/
  | long {r : ℕ} {c : UInt8} {v : UInt64} {t : List UInt8} {args : List Arg} {ps : List Piece}
      (hc : c = 100 ∨ c = 120) (hr : 0 < r ∨ len ≠ 65535) (h : Matches Str len (r - 1) t args ps) :
      Matches Str len (r + 2) (37 :: 108 :: c :: t) (.long v :: args)
        (.number (radixOf c) v.toNat :: ps)
  /-- `%s` -/
  | str {r p : ℕ} {t u : List UInt8} {args : List Arg} {ps : List Piece} (hp : Str p u)
      (h : Matches Str len r t args ps) :
      Matches Str len (r + 2) (37 :: 115 :: t) (.str p :: args) (.string u :: ps)
  /-- `%` before any other character, which prints nothing. -/
  | skip {r : ℕ} {c : UInt8} {t : List UInt8} {args : List Arg} {ps : List Piece}
      (hint : ¬(c = 100 ∨ c = 120)) (hstr : c ≠ 115)
      (hlong : c = 108 → ∀ d ∈ t.head?, ¬(d = 100 ∨ d = 120)) (h : Matches Str len r t args ps) :
      Matches Str len (r + 2) (37 :: c :: t) args ps

/-- The strings only have to stand in memory. -/
theorem Matches.mono {Str Str' : ℕ → List UInt8 → Prop} (hstr : ∀ p t, Str p t → Str' p t) {r : ℕ}
    {t : List UInt8} {args : List Arg} {ps : List Piece} (h : Matches Str len r t args ps) :
    Matches Str' len r t args ps := by
  induction h with
  | done => exact .done
  | char hc hp _ ih => exact .char hc hp ih
  | newline _ ih => exact .newline ih
  | int hc _ ih => exact .int hc ih
  | long hc hr _ ih => exact .long hc hr ih
  | str hp _ ih => exact .str (hstr _ _ hp) ih
  | skip hint hs hl _ ih => exact .skip hint hs hl ih

/-! ### Events -/

namespace PrintkEvent

/-- The event stays inside the buffer, and copies a whole string or a part that is not the length
modulo 256. -/
def InBounds : PrintkEvent → Prop
  | .write idx => idx < 200
  | .copied length count => count = length ∨ count < length ∧ count ≠ length % 256
  | .print _ => True

/-- What is printed. -/
def printed : PrintkEvent → Option (List UInt8)
  | .print str => some str
  | _ => none

/-- The event stays inside the buffer, and prints nothing. -/
def Inner (e : PrintkEvent) : Prop := e.InBounds ∧ e.printed = none

/-- The event does not stay inside the buffer. -/
def Outside (e : PrintkEvent) : Prop := ¬e.InBounds

end PrintkEvent

theorem inner_writes {idx n : ℕ} (h : idx + n ≤ 200) : ∀ e ∈ writes idx n, e.Inner := by
  intro e he
  obtain ⟨j, hj, rfl⟩ := List.mem_map.mp he
  have hj' := List.mem_range.mp hj
  exact ⟨show idx + j < 200 by omega, rfl⟩

theorem outside_writes {idx n : ℕ} (hidx : idx ≤ 200) (h : 200 < idx + n) :
    ∃ e ∈ writes idx n, e.Outside := by
  refine ⟨.write 200, List.mem_map.mpr ⟨200 - idx, List.mem_range.mpr (by omega), ?_⟩,
    lt_irrefl 200⟩
  rw [Nat.add_sub_cancel' hidx]

/-! ### The buffer -/

/-- The string `t` stands at `p`, and the allocator does not touch it. -/
structure Lasting (limit : ℕ) (k : Kernel E) (bs : List Block) (p : ℕ) (t : List UInt8) : Prop where
  /-- The string. -/
  string : CString k.mem p t
  /-- Its bytes are settled. -/
  settled : ∀ x, p ≤ x → x ≤ p + t.length → Settled limit k bs x

namespace Buffered

/-- A lasting string still stands where it stood. -/
theorem string (h : Buffered 200 limit k₀ bs₀ b out k bs) {p : ℕ} {t : List UInt8}
    (ht : Lasting limit k₀ bs₀ p t) : CString k.mem p t :=
  ht.string.congr fun x hlo hhi => (h.settled x (ht.settled x hlo hhi)).1

/-- A lasting string lies on one side of the buffer. -/
theorem string_apart (h : Buffered 200 limit k₀ bs₀ b out k bs) {p : ℕ} {t : List UInt8}
    (ht : Lasting limit k₀ bs₀ p t) : p + t.length < b.addr + 20 ∨ b.stop ≤ p := by
  have hout : ∀ x, p ≤ x → x ≤ p + t.length → x < b.addr + 20 ∨ b.stop ≤ x :=
    fun x hlo hhi => (h.settled x (ht.settled x hlo hhi)).2.2
  by_contra hover
  have hsize := h.size
  unfold Block.stop at hout hover
  by_cases hp : p < b.addr + 20
  · have := hout (b.addr + 20) (by omega) (by omega)
    omega
  · have := hout p le_rfl (Nat.le_add_right _ _)
    omega

/-- Copying a string to the end of what was written stays inside the buffer. -/
theorem copyBytes_eq (h : Buffered 200 limit k₀ bs₀ b out k bs) {p n x : ℕ} {m : Mem}
    (hfits : out.length + n ≤ 200) (hx : x < b.addr + 20 + out.length ∨ b.stop ≤ x) :
    copyBytes m (b.addr + 20 + out.length) p n x = m x := by
  have hlt := h.lt
  have hsize := h.size
  unfold Block.stop at hx
  exact copyBytes_of_notMem (by omega) (by omega)

/-- Copying a string that lies on one side of the buffer. -/
theorem copy (h : Buffered 200 limit k₀ bs₀ b out k bs) {p : ℕ} {t : List UInt8}
    (ht : CString k.mem p t) (hapart : p + t.length < b.addr + 20 ∨ b.stop ≤ p)
    (hfits : out.length + t.length ≤ 200) :
    Buffered 200 limit k₀ bs₀ b (out ++ t)
      { k with mem := copyBytes k.mem (b.addr + 20 + out.length) p t.length } bs := by
  have hlt := h.lt
  have hsize := h.size
  unfold Block.stop at hapart
  exact h.write (fun x hx => h.copyBytes_eq hfits hx)
    (ht.chars.copyBytes (by omega) ht.lt.le (by omega))

end Buffered

/-- The state of the loop when the bytes `out` were written. -/
structure Printing (limit : ℕ) (k₀ : Kernel E) (bs₀ : List Block) (b : Block) (out : List UInt8)
    (s : Printk E) : Prop where
  /-- The heap. -/
  buffered : ∃ bs, Buffered 200 limit k₀ bs₀ b out s.kernel bs ∧ Ready 32 limit s.kernel bs
  /-- The index into the buffer. -/
  bufidx : s.bufidx = out.length
  /-- The buffer is not full. -/
  le : out.length ≤ 200

/-- The loop has written `out` and stands at index `i`, and `args` are left. -/
structure ReachedAt (limit : ℕ) (k₀ : Kernel E) (bs₀ : List Block) (b : Block) (out : List UInt8)
    (i : ℕ) (args : List Arg) (s : Printk E) : Prop where
  /-- The heap and the buffer. -/
  printing : Printing limit k₀ bs₀ b out s
  /-- The index into the format. -/
  index : s.i = i
  /-- The arguments. -/
  args : s.args = args

/-- The character of the format at an index. -/
theorem Printing.char_eq (h : Printing limit k₀ bs₀ b out s) (hfmt : Lasting limit k₀ bs₀ fmt f)
    {j : ℕ} {v : UInt8} {t : List UInt8} (ht : (f ++ [0]).drop (s.i + j) = v :: t) :
    s.char fmt j = v := by
  obtain ⟨bs, hbuf, -⟩ := h.buffered
  have hstr := hbuf.string hfmt
  have hlt := hstr.lt
  have hi : s.i + j < (f ++ [0]).length := by
    have hlen := congrArg List.length ht
    rw [List.length_drop, List.length_cons] at hlen
    omega
  rw [List.drop_eq_getElem_cons hi, List.cons.injEq] at ht
  have hmem := holds_iff.mp hstr.holds (s.i + j) hi
  rw [List.length_append, List.length_singleton] at hi
  rw [Printk.char, add32_of_lt (by omega), hmem, ht.1]

/-! ### The branches -/

/-- The piece fits: the condition under which its branch stays inside the buffer. -/
def Piece.Fits (out : List UInt8) (p : Piece) : Prop :=
  p.Short ∧ out.length + p.bytes.length ≤ 200

/-- A numeral is converted, copied to the buffer, and given back. -/
theorem printkNumber_guarded (mmap : Mmap E) (h : Printing limit k₀ bs₀ b out s)
    (hlimit : limit < 4294967296) (hradix : radix = 10 ∨ radix = 16)
    (hvalue : value < 18446744073709551616) :
    Guarded PrintkEvent.Inner PrintkEvent.Outside ((Piece.number radix value).Fits out)
      (fun n => printkNumber (kernelSpace mmap) n (b.addr + 20) value radix s)
      (ReachedAt limit k₀ bs₀ b (out ++ (Piece.number radix value).bytes) s.i s.args) := by
  obtain ⟨⟨bs, hbuf, hready⟩, hidx, hle⟩ := h
  obtain ⟨k', bs', c, hitoa, hhanded, hstr, hfits⟩ :=
    exists_itoa_handed mmap hbuf.heap hready hlimit hradix hvalue
  have hlt := hbuf.lt
  have hlen := length_itoaText_le (show 10 ≤ radix by omega) hvalue
  have hlen' : ((itoaText radix value).length + 1 - 1) % 256 = (itoaText radix value).length := by
    omega
  have haddr : add32 (b.addr + 20) s.bufidx = b.addr + 20 + out.length := by
    rw [hidx, add32_of_lt (by omega)]
  unfold printkNumber Piece.Fits Piece.bytes Piece.Short
  rw [true_and]
  refine Guarded.ofOption_bind hitoa (Guarded.ofOption_bind hstr.strlen ?_)
  dsimp only
  rw [hlen', haddr, hidx]
  refine Guarded.emit_bind inner_writes (fun hbad => outside_writes hle (Nat.lt_of_not_le hbad))
    fun hok => ?_
  have hapart := hhanded.heap.placed.apart (hhanded.blocks b hbuf.mem hbuf.inUse).1 hhanded.mem
    (hhanded.blocks b hbuf.mem hbuf.inUse).2
  have hbuf' := hbuf.handed hle hhanded
  have hcopy := hbuf'.copy hstr (by unfold Block.stop at hapart hfits ⊢; omega) hok
  obtain ⟨k'', hkfree, hreturned⟩ := hhanded.returned (kernelSpace mmap) hcopy.heap
  refine Guarded.ofOption_bind hkfree (Guarded.ret ⟨⟨⟨_, ?_, hreturned.ready⟩, ?_, ?_⟩, rfl, rfl⟩)
  · exact hbuf.returned (by rw [List.length_append]; exact hok) hcopy hreturned
  · rw [List.length_append, Nat.mod_eq_of_lt (by omega)]
  · rw [List.length_append]
    exact hok

/-- A string is copied to the buffer. -/
theorem printkStr_guarded (h : Printing limit k₀ bs₀ b out s) {p : ℕ} {t : List UInt8}
    {args : List Arg} (hp : Lasting limit k₀ bs₀ p t) (hargs : s.args = .str p :: args)
    (hchar : s.char fmt 0 = 115) :
    Guarded PrintkEvent.Inner PrintkEvent.Outside ((Piece.string t).Fits out)
      (fun n => printkStr n fmt (b.addr + 20) s)
      (ReachedAt limit k₀ bs₀ b (out ++ (Piece.string t).bytes) s.i args) := by
  obtain ⟨⟨bs, hbuf, hready⟩, hidx, hle⟩ := h
  have hlt := hbuf.lt
  have haddr : add32 (b.addr + 20) s.bufidx = b.addr + 20 + out.length := by
    rw [hidx, add32_of_lt (by omega)]
  unfold printkStr Piece.Fits Piece.bytes Piece.Short
  simp only [if_pos hchar, hargs]
  refine Guarded.ofOption_bind (hbuf.string hp).strlen ?_
  rw [haddr, hidx, Nat.add_sub_cancel]
  refine Guarded.emit (fun hok => ?_) fun hbad => ?_
  · have hmod : t.length % 256 = t.length := Nat.mod_eq_of_lt hok.1
    rw [hmod]
    refine ⟨List.forall_mem_cons.mpr ⟨⟨Or.inl rfl, rfl⟩, inner_writes hok.2⟩,
      ⟨⟨bs, hbuf.copy (hbuf.string hp) (hbuf.string_apart hp) hok.2, hready⟩, ?_, ?_⟩, rfl, rfl⟩
    · rw [List.length_append, Nat.mod_eq_of_lt (by omega)]
    · rw [List.length_append]
      exact hok.2
  · by_cases hshort : t.length < 256
    · have hmod : t.length % 256 = t.length := Nat.mod_eq_of_lt hshort
      rw [hmod]
      obtain ⟨e, he, hout⟩ := outside_writes hle
        (Nat.lt_of_not_le fun hfits => hbad ⟨hshort, hfits⟩)
      exact ⟨e, List.mem_cons_of_mem _ he, hout⟩
    · refine ⟨_, List.mem_cons_self, fun hin => ?_⟩
      have hmod := Nat.mod_lt t.length (show 256 > 0 by decide)
      rcases hin with heq | hne
      · omega
      · exact hne.2 rfl

/-- A byte is appended to the buffer, if there is room. -/
theorem Printing.put (h : Printing limit k₀ bs₀ b out s) (v : UInt8) (hfits : out.length < 200) :
    Printing limit k₀ bs₀ b (out ++ [v]) (s.put (b.addr + 20) v) := by
  obtain ⟨⟨bs, hbuf, hready⟩, hidx, hle⟩ := h
  have hlt := hbuf.lt
  have hsize := hbuf.size
  have haddr : add32 (b.addr + 20) s.bufidx = b.addr + 20 + out.length := by
    rw [hidx, add32_of_lt (by omega)]
  unfold Printk.put
  rw [haddr]
  refine ⟨⟨bs, hbuf.write (fun x hx => ?_) ⟨Function.update_self _ _ _, trivial⟩, hready⟩, ?_, ?_⟩
  · unfold Block.stop at hx
    exact Function.update_of_ne (by omega) _ _
  · rw [List.length_append, List.length_singleton]
    dsimp only
    omega
  · rw [List.length_append, List.length_singleton]
    omega

/-- An ordinary character. -/
theorem printkBody_char (space : Space E) (h : Printing limit k₀ bs₀ b out s) {v : UInt8}
    (hchar : s.char fmt 0 = v) (hv : v ≠ 10) (hlast : v = 37 → ¬s.i + 1 < len) :
    Guarded PrintkEvent.Inner PrintkEvent.Outside ((Piece.char v).Fits out)
      (fun n => printkBody space n fmt len (b.addr + 20) s)
      (ReachedAt limit k₀ bs₀ b (out ++ (Piece.char v).bytes) s.i s.args) := by
  have hbody : ∀ n, printkBody space n fmt len (b.addr + 20) s =
      Trace.emit [.write out.length] (s.put (b.addr + 20) v) := by
    intro n
    have hpct : ¬(s.char fmt 0 = 37 ∧ s.i + 1 < len) := by
      rw [hchar]
      exact fun hpct => hlast hpct.1 hpct.2
    rw [printkBody, if_neg hpct, if_neg (hchar ▸ hv), hchar, h.bufidx]
  have hfits : out.length < 200 ↔ (Piece.char v).Fits out := (and_iff_right trivial).symm
  simp only [hbody]
  refine (Guarded.emit (fun hok => ⟨?_, h.put v hok, rfl, rfl⟩) fun hbad => ?_).congr hfits
  · exact fun e he => List.mem_singleton.mp he ▸ ⟨hok, rfl⟩
  · exact ⟨_, List.mem_singleton_self _, hbad⟩

/-- A newline. -/
theorem printkBody_newline (space : Space E) (h : Printing limit k₀ bs₀ b out s)
    (hchar : s.char fmt 0 = 10) :
    Guarded PrintkEvent.Inner PrintkEvent.Outside (Piece.newline.Fits out)
      (fun n => printkBody space n fmt len (b.addr + 20) s)
      (ReachedAt limit k₀ bs₀ b (out ++ Piece.newline.bytes) s.i s.args) := by
  have hle := h.le
  have hbody : ∀ n, printkBody space n fmt len (b.addr + 20) s =
      Trace.emit [.write out.length, .write (out.length + 1)]
        ((s.put (b.addr + 20) 10).put (b.addr + 20) 13) := by
    intro n
    have hpct : ¬(s.char fmt 0 = 37 ∧ s.i + 1 < len) := by
      rw [hchar]
      exact fun hpct => absurd hpct.1 (by decide)
    rw [printkBody, if_neg hpct, if_pos hchar, h.bufidx, Nat.mod_eq_of_lt (by omega)]
  have hfits : out.length + 1 < 200 ↔ Piece.newline.Fits out := (and_iff_right trivial).symm
  have htwo : out.length + 1 < 200 → Printing limit k₀ bs₀ b (out ++ Piece.newline.bytes)
      ((s.put (b.addr + 20) 10).put (b.addr + 20) 13) := by
    intro hok
    have hput := (h.put 10 (Nat.lt_of_succ_lt hok)).put 13 (by
      rw [List.length_append, List.length_singleton]
      exact hok)
    rwa [List.append_assoc] at hput
  simp only [hbody]
  refine (Guarded.emit (fun hok => ⟨fun e he => ?_, htwo hok, rfl, rfl⟩) fun hbad => ?_).congr hfits
  · simp only [List.mem_cons, List.not_mem_nil, or_false] at he
    rcases he with rfl | rfl
    · exact ⟨Nat.lt_of_succ_lt hok, rfl⟩
    · exact ⟨hok, rfl⟩
  · exact ⟨.write (out.length + 1), List.mem_cons_of_mem _ (List.mem_singleton_self _), hbad⟩

/-! ### Conversions -/

theorem printkInt_skip (space : Space E) (n buffer : ℕ)
    (h : ¬(s.char fmt 0 = 100 ∨ s.char fmt 0 = 120)) :
    printkInt space n fmt buffer s = Trace.emit [] s := if_neg h

theorem printkLong_skip (space : Space E) (n buffer : ℕ)
    (h : ¬(s.char fmt 0 = 108 ∧ (s.char fmt 1 = 120 ∨ s.char fmt 1 = 100))) :
    printkLong space n fmt buffer s = Trace.emit [] s := if_neg h

theorem printkStr_skip (n buffer : ℕ) (h : s.char fmt 0 ≠ 115) :
    printkStr n fmt buffer s = Trace.emit [] s := if_neg h

/-- The index may be moved. -/
theorem Printing.advance (h : Printing limit k₀ bs₀ b out s) (i : ℕ) (args : List Arg) :
    Printing limit k₀ bs₀ b out { s with i := i, args := args } := ⟨h.buffered, h.bufidx, h.le⟩

theorem drop_succ_of_eq_cons {l t : List UInt8} {i : ℕ} {v : UInt8} (h : l.drop i = v :: t) :
    l.drop (i + 1) = t := by
  rw [← List.drop_drop, h]
  rfl

theorem radixOf_eq (c : UInt8) : radixOf c = 10 ∨ radixOf c = 16 := by
  unfold radixOf
  split
  · exact Or.inl rfl
  · exact Or.inr rfl

/-- A conversion is handled by the three branches. -/
theorem printkBody_conv (space : Space E) (n buffer : ℕ) (hpct : s.char fmt 0 = 37)
    (hi : s.i + 1 < len) (hlen : len < 65536) :
    printkBody space n fmt len buffer s =
      (printkInt space n fmt buffer { s with i := s.i + 1 }).bind fun s =>
        (printkLong space n fmt buffer s).bind fun s => printkStr n fmt buffer s := by
  rw [printkBody, if_pos ⟨hpct, hi⟩, Nat.mod_eq_of_lt (by omega)]

/-- `%d` and `%x` -/
theorem printkBody_int (mmap : Mmap E) (h : Printing limit k₀ bs₀ b out s)
    (hlimit : limit < 4294967296) (hfmt : Lasting limit k₀ bs₀ fmt f) (hlen : len < 65536)
    (hi : s.i + 1 < len) {v : UInt32} {d : UInt8} {t : List UInt8} {args : List Arg}
    (ht : (f ++ [0]).drop s.i = 37 :: d :: t) (hd : d = 100 ∨ d = 120)
    (hargs : s.args = .word v :: args) :
    Guarded PrintkEvent.Inner PrintkEvent.Outside ((Piece.number (radixOf d) v.toNat).Fits out)
      (fun n => printkBody (kernelSpace mmap) n fmt len (b.addr + 20) s)
      (ReachedAt limit k₀ bs₀ b (out ++ (Piece.number (radixOf d) v.toNat).bytes) (s.i + 1)
        args) := by
  have hchar : Printk.char fmt { s with i := s.i + 1 } 0 = d :=
    (h.advance (s.i + 1) s.args).char_eq hfmt (drop_succ_of_eq_cons ht)
  have hint : ∀ n, printkInt (kernelSpace mmap) n fmt (b.addr + 20) { s with i := s.i + 1 } =
      printkNumber (kernelSpace mmap) n (b.addr + 20) v.toNat (radixOf d)
        { s with i := s.i + 1, args := args } := by
    intro n
    unfold printkInt
    rw [hchar, if_pos hd]
    simp only [hargs]
    rfl
  have hvalue : v.toNat < 18446744073709551616 := v.toNat_lt.trans (by decide)
  simp only [printkBody_conv _ _ _ (h.char_eq hfmt ht) hi hlen, hint]
  refine Guarded.congr (Guarded.bind (printkNumber_guarded mmap (h.advance _ _) hlimit
    (radixOf_eq d) hvalue) fun _ s' hs' => ?_) (and_iff_left trivial)
  -- the other branches look at the same character again
  have hchar' : s'.char fmt 0 = d :=
    hs'.printing.char_eq hfmt (by rw [hs'.index]; exact drop_succ_of_eq_cons ht)
  have hrest : ∀ n, ((printkLong (kernelSpace mmap) n fmt (b.addr + 20) s').bind fun s =>
      printkStr n fmt (b.addr + 20) s) = Trace.emit [] s' := by
    intro n
    rw [printkLong_skip, Trace.emit_nil_bind, printkStr_skip]
    · rw [hchar']
      rcases hd with rfl | rfl <;> decide
    · rw [hchar']
      rcases hd with rfl | rfl <;> exact fun hl => absurd hl.1 (by decide)
  simp only [hrest]
  exact Guarded.ret hs'

/-- `%ld` and `%lx` -/
theorem printkBody_long (mmap : Mmap E) (h : Printing limit k₀ bs₀ b out s)
    (hlimit : limit < 4294967296) (hfmt : Lasting limit k₀ bs₀ fmt f) (hlen : len < 65536)
    (hi : s.i + 1 < len) {v : UInt64} {d : UInt8} {t : List UInt8} {args : List Arg}
    (ht : (f ++ [0]).drop s.i = 37 :: 108 :: d :: t) (hd : d = 100 ∨ d = 120)
    (hargs : s.args = .long v :: args) :
    Guarded PrintkEvent.Inner PrintkEvent.Outside ((Piece.number (radixOf d) v.toNat).Fits out)
      (fun n => printkBody (kernelSpace mmap) n fmt len (b.addr + 20) s)
      (ReachedAt limit k₀ bs₀ b (out ++ (Piece.number (radixOf d) v.toNat).bytes) (s.i + 2)
        args) := by
  have ht₁ := drop_succ_of_eq_cons ht
  have ht₂ : (f ++ [0]).drop (s.i + 2) = d :: t := drop_succ_of_eq_cons ht₁
  have hadv := h.advance (s.i + 1) s.args
  have hchar : Printk.char fmt { s with i := s.i + 1 } 0 = 108 := hadv.char_eq hfmt ht₁
  have hnext : Printk.char fmt { s with i := s.i + 1 } 1 = d := hadv.char_eq hfmt ht₂
  have hchar₂ : ∀ as, Printk.char fmt { s with i := s.i + 1 + 1, args := as } 0 = d :=
    fun as => (h.advance (s.i + 2) as).char_eq hfmt ht₂
  have hint : ∀ n, printkInt (kernelSpace mmap) n fmt (b.addr + 20) { s with i := s.i + 1 } =
      Trace.emit [] { s with i := s.i + 1 } := by
    intro n
    refine printkInt_skip _ _ _ ?_
    rw [hchar]
    decide
  have hlong : ∀ n, printkLong (kernelSpace mmap) n fmt (b.addr + 20) { s with i := s.i + 1 } =
      printkNumber (kernelSpace mmap) n (b.addr + 20) v.toNat (radixOf d)
        { s with i := s.i + 2, args := args } := by
    intro n
    unfold printkLong
    rw [hchar, hnext, if_pos ⟨rfl, hd.symm⟩]
    simp only [Nat.mod_eq_of_lt (show s.i + 1 + 1 < 65536 by omega), hchar₂, hargs]
    rfl
  simp only [printkBody_conv _ _ _ (h.char_eq hfmt ht) hi hlen, hint, Trace.emit_nil_bind, hlong]
  refine Guarded.congr (Guarded.bind (printkNumber_guarded mmap (h.advance _ _) hlimit
    (radixOf_eq d) v.toNat_lt) fun _ s' hs' => ?_) (and_iff_left trivial)
  have hchar' : s'.char fmt 0 = d := hs'.printing.char_eq hfmt (by rw [hs'.index]; exact ht₂)
  have hrest : ∀ n, printkStr n fmt (b.addr + 20) s' = Trace.emit [] s' := by
    intro n
    refine printkStr_skip _ _ ?_
    rw [hchar']
    rcases hd with rfl | rfl <;> decide
  simp only [hrest]
  exact Guarded.ret hs'

/-- `%s` -/
theorem printkBody_str (space : Space E) (h : Printing limit k₀ bs₀ b out s)
    (hfmt : Lasting limit k₀ bs₀ fmt f) (hlen : len < 65536) (hi : s.i + 1 < len) {p : ℕ}
    {t u : List UInt8} {args : List Arg} (hp : Lasting limit k₀ bs₀ p u)
    (ht : (f ++ [0]).drop s.i = 37 :: 115 :: t) (hargs : s.args = .str p :: args) :
    Guarded PrintkEvent.Inner PrintkEvent.Outside ((Piece.string u).Fits out)
      (fun n => printkBody space n fmt len (b.addr + 20) s)
      (ReachedAt limit k₀ bs₀ b (out ++ (Piece.string u).bytes) (s.i + 1) args) := by
  have hadv := h.advance (s.i + 1) s.args
  have hchar : Printk.char fmt { s with i := s.i + 1 } 0 = 115 :=
    hadv.char_eq hfmt (drop_succ_of_eq_cons ht)
  have hbody : ∀ n, printkBody space n fmt len (b.addr + 20) s =
      printkStr n fmt (b.addr + 20) { s with i := s.i + 1 } := by
    intro n
    rw [printkBody_conv _ _ _ (h.char_eq hfmt ht) hi hlen, printkInt_skip, Trace.emit_nil_bind,
      printkLong_skip, Trace.emit_nil_bind]
    · rw [hchar]
      exact fun hl => absurd hl.1 (by decide)
    · rw [hchar]
      decide
  simp only [hbody]
  exact printkStr_guarded hadv hp hargs hchar

/-- `%` before any other character prints nothing. -/
theorem printkBody_skip (space : Space E) (h : Printing limit k₀ bs₀ b out s)
    (hfmt : Lasting limit k₀ bs₀ fmt f) (hlen : len < 65536) (hi : s.i + 1 < len) {d : UInt8}
    {t : List UInt8} (ht : (f ++ [0]).drop s.i = 37 :: d :: t) (hint : ¬(d = 100 ∨ d = 120))
    (hstr : d ≠ 115) (hlong : d = 108 → ∀ e ∈ t.head?, ¬(e = 100 ∨ e = 120)) :
    Guarded PrintkEvent.Inner PrintkEvent.Outside True
      (fun n => printkBody space n fmt len (b.addr + 20) s)
      (ReachedAt limit k₀ bs₀ b out (s.i + 1) s.args) := by
  have ht₁ := drop_succ_of_eq_cons ht
  have hadv := h.advance (s.i + 1) s.args
  have hchar : Printk.char fmt { s with i := s.i + 1 } 0 = d := hadv.char_eq hfmt ht₁
  have hbody : ∀ n, printkBody space n fmt len (b.addr + 20) s =
      Trace.emit [] { s with i := s.i + 1 } := by
    intro n
    rw [printkBody_conv _ _ _ (h.char_eq hfmt ht) hi hlen, printkInt_skip, Trace.emit_nil_bind,
      printkLong_skip, Trace.emit_nil_bind, printkStr_skip]
    · rwa [hchar]
    · rintro ⟨hl, hnext⟩
      rw [hchar] at hl
      cases t with
      | nil =>
        -- the last character of the format is its terminator
        have hlast := List.take_append_drop (s.i + 1) (f ++ [0])
        rw [ht₁] at hlast
        have hzero : d = 0 := List.singleton_inj.mp (List.append_inj' hlast rfl).2
        exact absurd (hzero.symm.trans hl) (by decide)
      | cons e t =>
        rw [hadv.char_eq hfmt (drop_succ_of_eq_cons ht₁)] at hnext
        exact hlong hl e rfl hnext.symm
    · rwa [hchar]
  simp only [hbody]
  exact Guarded.ret ⟨hadv, rfl, rfl⟩

/-! ### The loop -/

/-- The bytes of pieces. -/
def bytesOf (ps : List Piece) : List UInt8 := ps.flatMap Piece.bytes

/-- The pieces fit into the buffer behind `out`, and their strings are short. -/
def AllFit (out : List UInt8) (ps : List Piece) : Prop :=
  (∀ p ∈ ps, p.Short) ∧ out.length + (bytesOf ps).length ≤ 200

theorem bytesOf_cons (p : Piece) (ps : List Piece) : bytesOf (p :: ps) = p.bytes ++ bytesOf ps :=
  List.flatMap_cons

/-- Pieces fit if the first one does and the others fit behind it. -/
theorem allFit_cons {p : Piece} {ps : List Piece} :
    p.Fits out ∧ AllFit (out ++ p.bytes) ps ↔ AllFit out (p :: ps) := by
  unfold Piece.Fits AllFit
  rw [bytesOf_cons, List.length_append, List.length_append, List.forall_mem_cons]
  constructor
  · rintro ⟨⟨hshort, -⟩, hall, hlen⟩
    exact ⟨⟨hshort, hall⟩, by omega⟩
  · rintro ⟨⟨hshort, hall⟩, hlen⟩
    exact ⟨⟨hshort, by omega⟩, hall, by omega⟩

/-- The loop from a state on is its body and then the rest of the loop. -/
theorem printkLoop_step {space : Space E} {ok ok' : Prop} {buffer : ℕ} {mid post : Printk E → Prop}
    (hi : s.i < len)
    (hbody : Guarded PrintkEvent.Inner PrintkEvent.Outside ok
      (fun n => printkBody space n fmt len buffer s) mid)
    (hrest : ∀ s', mid s' → Guarded PrintkEvent.Inner PrintkEvent.Outside ok'
      (fun n => printkLoop space fmt len buffer n { s' with i := (s'.i + 1) % 65536 }) post) :
    Guarded PrintkEvent.Inner PrintkEvent.Outside (ok ∧ ok')
      (fun n => printkLoop space fmt len buffer n s) post := by
  refine (hbody.bind fun _ s' hs' => hrest s' hs').succ rfl fun n => ?_
  rw [printkLoop, if_pos hi]

/-- The body of the loop appends a piece, and the loop goes on. -/
theorem printkLoop_piece {space : Space E} {p : Piece} {ps : List Piece} {i : ℕ} {args : List Arg}
    (hi : s.i < len) (hlt : i + 1 < 65536)
    (hbody : Guarded PrintkEvent.Inner PrintkEvent.Outside (p.Fits out)
      (fun n => printkBody space n fmt len (b.addr + 20) s)
      (ReachedAt limit k₀ bs₀ b (out ++ p.bytes) i args))
    (hrest : ∀ s' : Printk E, Printing limit k₀ bs₀ b (out ++ p.bytes) s' → s'.args = args →
      s'.i = i + 1 →
      Guarded PrintkEvent.Inner PrintkEvent.Outside (AllFit (out ++ p.bytes) ps)
        (fun n => printkLoop space fmt len (b.addr + 20) n s')
        (Printing limit k₀ bs₀ b (out ++ p.bytes ++ bytesOf ps))) :
    Guarded PrintkEvent.Inner PrintkEvent.Outside (AllFit out (p :: ps))
      (fun n => printkLoop space fmt len (b.addr + 20) n s)
      (Printing limit k₀ bs₀ b (out ++ bytesOf (p :: ps))) := by
  rw [bytesOf_cons, ← List.append_assoc]
  refine (printkLoop_step hi hbody fun s' hs' => ?_).congr allFit_cons
  refine hrest _ (hs'.printing.advance _ s'.args) hs'.args ?_
  rw [hs'.index, Nat.mod_eq_of_lt hlt]

/-- **The loop of `printk`.**  The loop appends the pieces of the rest of the format to the buffer
exactly if they fit. -/
theorem printkLoop_guarded (mmap : Mmap E) (hlimit : limit < 4294967296)
    (hfmt : Lasting limit k₀ bs₀ fmt f) (hlen : len < 65536) {r : ℕ} {t : List UInt8}
    {args : List Arg} {ps : List Piece}
    (hm : Matches (Lasting limit k₀ bs₀) len r t args ps) (h : Printing limit k₀ bs₀ b out s)
    (hargs : s.args = args) (ht : (f ++ [0]).drop s.i = t)
    (hr : s.i + r = len ∨ r = 0 ∧ len ≤ s.i) :
    Guarded PrintkEvent.Inner PrintkEvent.Outside (AllFit out ps)
      (fun n => printkLoop (kernelSpace mmap) fmt len (b.addr + 20) n s)
      (Printing limit k₀ bs₀ b (out ++ bytesOf ps)) := by
  induction hm generalizing s out with
  | done =>
    have hend : ¬s.i < len := by omega
    have hfit : True ↔ AllFit out [] :=
      ⟨fun _ => ⟨fun p hp => absurd hp List.not_mem_nil, h.le⟩, fun _ => trivial⟩
    rw [show out ++ bytesOf [] = out from List.append_nil out]
    exact ((Guarded.ret h).succ rfl fun n => by rw [printkLoop, if_neg hend]).congr hfit
  | char hc hp hrest ih =>
    refine printkLoop_piece (by omega) (by omega) (printkBody_char (kernelSpace mmap) h
      (h.char_eq hfmt ht) hc fun hpct hlt => ?_) fun s' h' hargs' hi' => ?_
    · have hlast := hp hpct
      omega
    exact ih h' (hargs'.trans hargs) (hi' ▸ drop_succ_of_eq_cons ht) (by omega)
  | newline hrest ih =>
    refine printkLoop_piece (by omega) (by omega) (printkBody_newline (kernelSpace mmap) h
      (h.char_eq hfmt ht)) fun s' h' hargs' hi' => ?_
    exact ih h' (hargs'.trans hargs) (hi' ▸ drop_succ_of_eq_cons ht) (by omega)
  | int hc hrest ih =>
    have hbody := printkBody_int mmap h hlimit hfmt hlen (by omega) ht hc hargs
    refine printkLoop_piece (by omega) (by omega) hbody fun s' h' hargs' hi' => ?_
    exact ih h' hargs' (hi' ▸ drop_succ_of_eq_cons (drop_succ_of_eq_cons ht)) (by omega)
  | long hc hwrap hrest ih =>
    have hbody := printkBody_long mmap h hlimit hfmt hlen (by omega) ht hc hargs
    refine printkLoop_piece (by omega) (by omega) hbody fun s' h' hargs' hi' => ?_
    have ht' := drop_succ_of_eq_cons (drop_succ_of_eq_cons (drop_succ_of_eq_cons ht))
    exact ih h' hargs' (hi' ▸ ht') (by omega)
  | str hp hrest ih =>
    have hbody := printkBody_str (kernelSpace mmap) h hfmt hlen (by omega) hp ht hargs
    refine printkLoop_piece (by omega) (by omega) hbody fun s' h' hargs' hi' => ?_
    exact ih h' hargs' (hi' ▸ drop_succ_of_eq_cons (drop_succ_of_eq_cons ht)) (by omega)
  | skip hint hstr hlong hrest ih =>
    have hbody := printkBody_skip (kernelSpace mmap) h hfmt hlen (by omega) ht hint hstr hlong
    refine (printkLoop_step (by omega) hbody fun s' hs' => ?_).congr (and_iff_right trivial)
    have hi' : (s'.i + 1) % 65536 = s.i + 1 + 1 := by
      rw [hs'.index, Nat.mod_eq_of_lt (by omega)]
    rw [hi']
    exact ih (hs'.printing.advance _ s'.args) (hs'.args.trans hargs)
      (drop_succ_of_eq_cons (drop_succ_of_eq_cons ht)) (by dsimp only; omega)

end PakOS
