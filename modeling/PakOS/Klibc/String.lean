import PakOS.Kernel.State
import PakOS.Machine.Trace

/-!
# Strings of the C library

`strlen` of `klibc/kstring.c`, which counts the terminator, and the reading of a string by the
functions that are handed one.  `CString m a s` says that the characters `s` and their terminator
stand in memory from `a` on; it is all that the functions need to know.
-/

namespace PakOS

open Machine

/-- `strlen(str)`, from byte `i` on: `while (str[i++] != 0)`. -/
def strlen (m : Mem) (str : ℕ) : ℕ → ℕ → Option ℕ
  | 0, _ => none
  | fuel + 1, i => if m (add32 str i) ≠ 0 then strlen m str fuel (i + 1) else some (i + 1)

/-- The characters from byte `i` on that a function meets when it reads the string up to its
terminator. -/
def charsFrom (m : Mem) (str : ℕ) : ℕ → ℕ → Option (List UInt8)
  | 0, _ => none
  | fuel + 1, i =>
    if m (add32 str i) ≠ 0 then
      (charsFrom m str fuel (i + 1)).map (m (add32 str i) :: ·)
    else some []

/-- The characters `s` stand in memory from `a` on, with a terminator behind them. -/
structure CString (m : Mem) (a : ℕ) (s : List UInt8) : Prop where
  /-- The characters and the terminator. -/
  holds : Holds m a (s ++ [0])
  /-- No character is the terminator. -/
  notMem : 0 ∉ s
  /-- The terminator has an address. -/
  lt : a + s.length < 4294967296

variable {m m' : Mem} {a : ℕ} {s : List UInt8}

/-- The terminator. -/
theorem CString.terminator (h : CString m a s) : m (a + s.length) = 0 :=
  (holds_append.mp h.holds).2.1

/-- The characters. -/
theorem CString.chars (h : CString m a s) : Holds m a s := (holds_append.mp h.holds).1

/-- A string only depends on its characters and its terminator. -/
theorem CString.congr (h : CString m a s) (hm : ∀ x, a ≤ x → x ≤ a + s.length → m' x = m x) :
    CString m' a s := by
  refine ⟨h.holds.congr fun x hx hlt => hm x hx ?_, h.notMem, h.lt⟩
  rw [List.length_append, List.length_singleton] at hlt
  omega

/-- The character at an index, the terminator behind the last one. -/
theorem CString.getD (h : CString m a s) {i : ℕ} (hi : i ≤ s.length) : m (a + i) = s.getD i 0 := by
  have hlen : i < (s ++ [0]).length := by
    rw [List.length_append]
    exact Nat.lt_succ_of_le hi
  rw [holds_iff.mp h.holds i hlen]
  rcases Nat.lt_or_eq_of_le hi with hlt | rfl
  · rw [List.getElem_append_left hlt, List.getD_eq_getElem s 0 hlt]
  · rw [List.getElem_concat_length rfl, List.getD_eq_default s 0 le_rfl]

/-- A string is read from any of its characters on. -/
theorem CString.yields_from (h : CString m a s) {i : ℕ} {t : List UInt8} (ht : t = s.drop i)
    (hi : i ≤ s.length) :
    Yields (fun n => strlen m a n i) (s.length + 1) ∧ Yields (fun n => charsFrom m a n i) t := by
  have hlt := h.lt
  induction t generalizing i with
  | nil =>
    have hlen : s.length = i := by
      have := congrArg List.length ht
      rw [List.length_drop, List.length_nil] at this
      omega
    subst hlen
    have hterm : ¬m (add32 a s.length) ≠ 0 := by
      rw [add32_of_lt hlt, h.terminator]
      exact fun hne => hne rfl
    constructor
    · exact (Yields.const (s.length + 1)).succ rfl fun n => by rw [strlen, if_neg hterm]
    · exact (Yields.const []).succ rfl fun n => by rw [charsFrom, if_neg hterm]
  | cons c t ih =>
    have hi' : i < s.length := by
      have := congrArg List.length ht
      rw [List.length_drop, List.length_cons] at this
      omega
    rw [List.drop_eq_getElem_cons hi', List.cons.injEq] at ht
    have hchar : m (add32 a i) = c := by
      rw [add32_of_lt (by omega), holds_iff.mp h.chars i hi', ← ht.1]
    have hne : m (add32 a i) ≠ 0 := by
      rw [hchar, ht.1]
      exact fun h0 => h.notMem (h0 ▸ List.getElem_mem hi')
    obtain ⟨hstrlen, hchars⟩ := ih ht.2 hi'
    constructor
    · exact hstrlen.succ rfl fun n => by rw [strlen, if_pos hne]
    · have hmore := hchars.map (c :: ·)
      exact hmore.succ rfl fun n => by rw [charsFrom, if_pos hne, hchar]

/-- `strlen` counts the characters and the terminator. -/
theorem CString.strlen (h : CString m a s) : Yields (fun n => strlen m a n 0) (s.length + 1) :=
  (h.yields_from rfl (Nat.zero_le _)).1

/-- The characters that a reader of the string meets. -/
theorem CString.charsFrom (h : CString m a s) : Yields (fun n => charsFrom m a n 0) s :=
  (h.yields_from rfl (Nat.zero_le _)).2

end PakOS
