import Mathlib.Data.List.TakeWhile
import PakOS.Klibc.PrintkOutput

/-!
# The reference expansion

A format that is made of directives: ordinary characters, newlines, `%d`, `%x` and `%s`, and perhaps
a lone `%` at its end.  `expansion` is what it stands for.  When that has at most 198 characters,
`printk` hands it to `vga_print`, and nothing else (`printk_prints`).
-/

namespace PakOS

open Machine Coalesce Numeral

variable {E : Type*} {base : HeapBase} {mmap : Mmap E}

/-- A directive of a format, with its argument. -/
inductive Directive
  /-- An ordinary character. -/
  | char (c : UInt8) (hc : c ≠ 0 ∧ c ≠ 10 ∧ c ≠ 37)
  /-- A newline. -/
  | newline
  /-- `%d` -/
  | dec (v : UInt32)
  /-- `%x` -/
  | hex (v : UInt32)
  /-- `%s`, with the string `t` at `p`. -/
  | str (p : ℕ) (t : List UInt8)

namespace Directive

/-- How the directive is written in the format. -/
def format : Directive → List UInt8
  | char c _ => [c]
  | newline => [10]
  | dec _ => [37, 100]
  | hex _ => [37, 120]
  | str _ _ => [37, 115]

/-- The arguments that it takes. -/
def args : Directive → List Arg
  | dec v => [.word v]
  | hex v => [.word v]
  | str p _ => [.str p]
  | _ => []

/-- What it stands for. -/
def expand : Directive → List UInt8
  | char c _ => [c]
  | newline => [10, 13]
  | dec v => numeral 10 v.toNat
  | hex v => numeral 16 v.toNat
  | str _ t => t

/-- The piece that `printk` makes of it. -/
def piece : Directive → Piece
  | char c _ => .char c
  | newline => .newline
  | dec v => .number 10 v.toNat
  | hex v => .number 16 v.toNat
  | str _ t => .string t

end Directive

/-- The format of a list of directives, with a lone `%` at the end if `lone`. -/
def formatOf (ds : List Directive) (lone : Bool) : List UInt8 :=
  ds.flatMap Directive.format ++ if lone then [37] else []

/-- The arguments of a list of directives. -/
def argsOf (ds : List Directive) : List Arg := ds.flatMap Directive.args

/-- The expansion of a list of directives. -/
def expansion (ds : List Directive) : List UInt8 := ds.flatMap Directive.expand

/-- What was handed to `vga_print`. -/
def printed (es : List PrintkEvent) : List (List UInt8) := es.filterMap PrintkEvent.printed

variable {ds : List Directive} {lone : Bool}

/-! ### Directives and pieces -/

/-- The bytes of the piece are the expansion. -/
theorem Directive.bytes_piece (d : Directive) : d.piece.bytes = d.expand := by
  cases d with
  | dec v => exact itoaText_of_lt v.toNat_lt
  | hex v => exact itoaText_of_lt v.toNat_lt
  | char c hc => rfl
  | newline => rfl
  | str p t => rfl

/-- The pieces of a format: those of its directives, and its terminator, if it is not passed
over. -/
def piecesOf (ds : List Directive) (lone : Bool) : List Piece :=
  ds.map Directive.piece ++ if lone then [] else [.char 0]

theorem bytesOf_piecesOf (ds : List Directive) (lone : Bool) :
    bytesOf (piecesOf ds lone) = expansion ds ++ if lone then [] else [0] := by
  unfold piecesOf bytesOf expansion
  rw [List.flatMap_append, List.flatMap_map]
  congr 1
  · exact List.flatMap_congr fun d _ => d.bytes_piece
  · cases lone <;> rfl

/-- `printk` reads the directives, one after the other. -/
theorem matches_append {Str : ℕ → List UInt8 → Prop} {len r : ℕ} {t : List UInt8} {args : List Arg}
    {ps : List Piece} (hstr : ∀ p u, .str p u ∈ ds → Str p u) (h : Matches Str len r t args ps) :
    Matches Str len ((ds.flatMap Directive.format).length + r) (ds.flatMap Directive.format ++ t)
      (argsOf ds ++ args) (ds.map Directive.piece ++ ps) := by
  induction ds with
  | nil => rwa [List.flatMap_nil, List.length_nil, Nat.zero_add]
  | cons d ds ih =>
    have hrest := ih fun p u hd => hstr p u (List.mem_cons_of_mem d hd)
    unfold argsOf
    rw [List.flatMap_cons, List.flatMap_cons, List.map_cons, List.length_append, Nat.add_assoc,
      Nat.add_comm d.format.length]
    cases d with
    | char c hc => exact .char hc.2.1 (fun h37 => absurd h37 hc.2.2) hrest
    | newline => exact .newline hrest
    | dec v => exact .int (Or.inl rfl) hrest
    | hex v => exact .int (Or.inr rfl) hrest
    | str p u => exact .str (hstr p u List.mem_cons_self) hrest

/-- `printk` reads the whole format. -/
theorem matches_formatOf {Str : ℕ → List UInt8 → Prop}
    (hshort : (formatOf ds lone).length < 65535) (hstr : ∀ p u, .str p u ∈ ds → Str p u) :
    Matches Str (((formatOf ds lone).length + 1) % 65536) (((formatOf ds lone).length + 1) % 65536)
      (formatOf ds lone ++ [0]) (argsOf ds) (piecesOf ds lone) := by
  rw [Nat.mod_eq_of_lt (by omega)]
  have hend : ∀ len, Matches Str len (if lone then 2 else 1)
      ((if lone then [37] else []) ++ [0]) [] (if lone then [] else [.char 0]) := by
    intro len
    cases lone with
    | true => exact .skip (by decide) (by decide) (fun h108 => absurd h108 (by decide)) .done
    | false => exact .char (by decide) (fun h37 => absurd h37 (by decide)) .done
  have hlen : (formatOf ds lone).length + 1 =
      (ds.flatMap Directive.format).length + if lone then 2 else 1 := by
    unfold formatOf
    rw [List.length_append]
    cases lone <;> rfl
  rw [hlen, formatOf, List.append_assoc, ← List.append_nil (argsOf ds)]
  exact matches_append hstr (hend _)

/-! ### Expansions -/

/-- An expansion has no terminator in it. -/
theorem zero_notMem_expansion (hstr : ∀ p u, .str p u ∈ ds → 0 ∉ u) : 0 ∉ expansion ds := by
  intro h0
  obtain ⟨d, hd, h0⟩ := List.mem_flatMap.mp h0
  have hnumeral : ∀ radix v : ℕ, 10 ≤ radix → radix ≤ 36 → v < 4294967296 →
      0 ∉ numeral radix v := fun radix v hten h36 hv => by
    rw [← itoaText_of_lt hv]
    exact zero_notMem_itoaText hten h36
  cases d with
  | char c hc => exact hc.1 (List.mem_singleton.mp h0).symm
  | newline => exact absurd h0 (by decide)
  | dec v => exact hnumeral 10 _ (by decide) (by decide) v.toNat_lt h0
  | hex v => exact hnumeral 16 _ (by decide) (by decide) v.toNat_lt h0
  | str p u => exact hstr p u hd h0

/-- A reader meets all characters of an expansion. -/
theorem upToNul_of_notMem {l : List UInt8} (h : 0 ∉ l) :
    upToNul l = l ∧ upToNul (l ++ [0]) = l := by
  have hall : ∀ c ∈ l, decide (c ≠ 0) = true := fun c hc =>
    decide_eq_true fun h0 => h (h0 ▸ hc)
  unfold upToNul
  refine ⟨List.takeWhile_eq_self_iff.mpr hall, ?_⟩
  rw [List.takeWhile_append_of_pos hall]
  exact List.append_nil l

/-- A string is not longer than the expansion that it is a part of. -/
theorem length_le_expansion {p : ℕ} {u : List UInt8} (h : .str p u ∈ ds) :
    u.length ≤ (expansion ds).length := by
  obtain ⟨pre, post, rfl⟩ := List.append_of_mem h
  unfold expansion
  rw [List.flatMap_append, List.flatMap_cons, List.length_append, List.length_append]
  exact (Nat.le_add_right _ _).trans (Nat.le_add_left _ _)

/-- The events before the end print nothing. -/
theorem printed_of_inner {es : List PrintkEvent} (h : ∀ e ∈ es, e.Inner) : printed es = [] := by
  unfold printed
  exact List.filterMap_eq_nil_iff.mpr fun e he => (h e he).2

/-- **The expansion of `printk`.**  On every reachable heap with room for two more pages, for every
format shorter than 65535 characters that is made of directives, with matching arguments and an
expansion of at most 198 characters, `printk` hands exactly the expansion to `vga_print`. -/
theorem printk_prints {s : History E} (hs : Reachable base mmap s)
    (hroom : s.kernel.heapStart + s.kernel.heapSize + 8192 < 4294967296) {fmt : ℕ}
    (hfmt : StringAt s fmt (formatOf ds lone)) (hshort : (formatOf ds lone).length < 65535)
    (hstr : ∀ p u, .str p u ∈ ds → StringAt s p u) (hlen : (expansion ds).length ≤ 198) :
    ∃ N, ∀ n, N ≤ n →
      printed (printk (kernelSpace mmap) n fmt (argsOf ds) s.kernel).events = [expansion ds] := by
  obtain ⟨bs, h⟩ := hs.inv
  have hbytes := bytesOf_piecesOf ds lone
  have hpieces : ∀ p ∈ piecesOf ds lone, p.Short := by
    intro p hp
    rcases List.mem_append.mp hp with hp | hp
    · obtain ⟨d, hd, rfl⟩ := List.mem_map.mp hp
      cases d with
      | str q u => exact (length_le_expansion hd).trans_lt (by omega)
      | char c hc => trivial
      | newline => trivial
      | dec v => trivial
      | hex v => trivial
    · cases lone with
      | true => exact absurd hp List.not_mem_nil
      | false =>
        rw [List.mem_singleton.mp hp]
        trivial
  have hle : (bytesOf (piecesOf ds lone)).length < 200 := by
    rw [hbytes, List.length_append]
    have hone : (if lone then [] else [(0 : UInt8)]).length ≤ 1 := by cases lone <;> decide
    omega
  have hread : upToNul (bytesOf (piecesOf ds lone)) = expansion ds := by
    have hnone : 0 ∉ expansion ds := zero_notMem_expansion fun p u hd => (hstr p u hd).string.notMem
    rw [hbytes]
    cases lone with
    | true => exact (congrArg upToNul (List.append_nil _)).trans (upToNul_of_notMem hnone).1
    | false => exact (upToNul_of_notMem hnone).2
  obtain ⟨es, hes, ⟨N, hN⟩, -⟩ := printk_records mmap h.heap rfl hroom (h.lasting hfmt)
    (matches_formatOf hshort fun p u hd => h.lasting (hstr p u hd)) hpieces hle
  refine ⟨N, fun n hn => ?_⟩
  rw [hN n hn, hread, printed, List.filterMap_append, ← printed, printed_of_inner hes]
  rfl

/-- `mac=%x\n`, with a lone `%` behind it. -/
def macDirectives : List Directive :=
  [.char 109 (by decide), .char 97 (by decide), .char 99 (by decide), .char 61 (by decide),
    .hex 0xbeef, .newline]

theorem printk_prints_macDirectives :
    ∃ N, ∀ n, N ≤ n →
      printed (printk (kernelSpace mapAll) n 4096 (argsOf macDirectives)
        (freshHeap.withBytes 4096 (formatOf macDirectives true ++ [0])).kernel).events =
        [[109, 97, 99, 61, 66, 69, 69, 70, 10, 13]] := by
  have hstart : freshHeap.kernel.heapStart = 0xd0000000 := by decide +kernel
  have hsize : freshHeap.kernel.heapSize = 12288 := by decide +kernel
  have hreach : Reachable kernelHeap mapAll freshHeap := reachable_historyOf _ _ _
  have hfmt := stringAt_withBytes freshHeap (a := 4096) [] (formatOf macDirectives true) []
    (by rw [hstart]; decide) (by rw [hstart]; decide) (by decide)
  have hexp : expansion macDirectives = [109, 97, 99, 61, 66, 69, 69, 70, 10, 13] := by
    decide +kernel
  rw [List.append_nil] at hfmt
  have hprints := printk_prints (hreach.withBytes (by rw [hstart]; decide)) (by
    rw [(freshHeap.heap_withBytes 4096 _).1, (freshHeap.heap_withBytes 4096 _).2, hstart, hsize]
    decide) hfmt (by decide) (fun p u hd => by simp [macDirectives] at hd) (by rw [hexp]; decide)
  rwa [hexp] at hprints

end PakOS
