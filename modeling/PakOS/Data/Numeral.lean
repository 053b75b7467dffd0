import Mathlib.Data.Nat.Digits.Lemmas

/-!
# Numerals

The numeral of a number in a base up to 36 is a string of digits, the most significant first:
`0`–`9`, then `A`–`Z`.  `Canonical base v s` says that `s` is the numeral of `v`: its characters are
digits of the base, they evaluate to `v`, and there is no leading zero but in the numeral of zero.
There is exactly one such string, `numeral base v`.

Programs produce digits the other way round.  `text l` is the string of the digits `l`, the least
significant first, and `canonical_text_iff` says that it is a numeral when its value is right.
Digits of a fixed width are a numeral once their leading zeros are dropped (`dropZeros_text`).
-/

namespace Numeral

/-- The character of a digit. -/
def digitChar (d : ℕ) : UInt8 := if d < 10 then UInt8.ofNat (d + 48) else UInt8.ofNat (d + 55)

/-- The digit of a character. -/
def digitValue (c : UInt8) : ℕ := if c < 58 then c.toNat - 48 else c.toNat - 55

/-- The value of a string of digits, the most significant first. -/
def evalString (base : ℕ) (s : List UInt8) : ℕ := s.foldl (fun n c => base * n + digitValue c) 0

/-- The string `s` is the numeral of `v`. -/
structure Canonical (base v : ℕ) (s : List UInt8) : Prop where
  /-- The characters are digits of the base. -/
  digits : ∀ c ∈ s, ∃ d < base, c = digitChar d
  /-- The digits evaluate to the number. -/
  eval : evalString base s = v
  /-- There is no leading zero. -/
  head : v ≠ 0 → s.head? ≠ some 48
  /-- The numeral of zero has one digit. -/
  zero : v = 0 → s = [48]

/-- The string of the digits `l`, which come with the least significant first. -/
def text (l : List ℕ) : List UInt8 := l.reverse.map digitChar

/-- The numeral of `v`. -/
def numeral (base v : ℕ) : List UInt8 := if v = 0 then [48] else text (Nat.digits base v)

variable {base v : ℕ} {l : List ℕ} {s : List UInt8}

/-! ### Digits -/

theorem digitValue_digitChar {d : ℕ} (hd : d < 36) : digitValue (digitChar d) = d := by
  have hall : ∀ d < 36, digitValue (digitChar d) = d := by decide
  exact hall d hd

theorem digitChar_inj {d e : ℕ} (hd : d < 36) (he : e < 36) (h : digitChar d = digitChar e) :
    d = e := by
  rw [← digitValue_digitChar hd, h, digitValue_digitChar he]

/-- The character of a digit does not end a string. -/
theorem digitChar_ne_zero {d : ℕ} (hd : d < 36) : digitChar d ≠ 0 := by
  have hall : ∀ d < 36, digitChar d ≠ 0 := by decide
  exact hall d hd

/-- The only digit that is written `0` is zero. -/
theorem digitChar_eq_iff {d : ℕ} (hd : d < 36) : digitChar d = 48 ↔ d = 0 :=
  ⟨fun h => digitChar_inj hd (by decide) h, fun h => by rw [h]; rfl⟩

/-! ### Strings of digits -/

theorem text_cons (d : ℕ) (l : List ℕ) : text (d :: l) = text l ++ [digitChar d] := by
  rw [text, List.reverse_cons, List.map_append]
  rfl

@[simp] theorem length_text (l : List ℕ) : (text l).length = l.length := by
  rw [text, List.length_map, List.length_reverse]

theorem evalString_concat (base : ℕ) (s : List UInt8) (c : UInt8) :
    evalString base (s ++ [c]) = base * evalString base s + digitValue c := by
  rw [evalString, List.foldl_append]
  rfl

/-- The value of a string of digits. -/
theorem evalString_text (hl : ∀ d ∈ l, d < 36) : evalString base (text l) = Nat.ofDigits base l := by
  induction l with
  | nil => rfl
  | cons d l ih =>
    rw [text_cons, evalString_concat, ih fun e he => hl e (List.mem_cons_of_mem d he),
      digitValue_digitChar (hl d List.mem_cons_self), Nat.ofDigits_cons]
    exact Nat.add_comm _ _

/-- The first character is that of the last digit. -/
theorem head_text (hne : l ≠ []) : (text l).head? = some (digitChar (l.getLast hne)) := by
  rw [text, List.head?_map, List.head?_reverse, List.getLast?_eq_some_getLast hne, Option.map_some]

/-- The characters of a string of digits. -/
theorem mem_text {c : UInt8} (hc : c ∈ text l) : ∃ d ∈ l, c = digitChar d := by
  obtain ⟨d, hd, rfl⟩ := List.mem_map.mp hc
  exact ⟨d, List.mem_reverse.mp hd, rfl⟩

/-- A string of digits without leading zeros is the numeral of `v` if its value is `v`. -/
theorem canonical_text_iff (hbase : base ≤ 36) (hl : ∀ d ∈ l, d < base) (hne : l ≠ [])
    (hlast : l.getLast hne ≠ 0) : Canonical base v (text l) ↔ Nat.ofDigits base l = v := by
  have hl' : ∀ d ∈ l, d < 36 := fun d hd => (hl d hd).trans_le hbase
  constructor
  · intro h
    rw [← evalString_text hl', h.eval]
  · intro h
    refine ⟨fun c hc => ?_, (evalString_text hl').trans h, fun _ hhead => ?_, fun h0 => ?_⟩
    · obtain ⟨d, hd, rfl⟩ := mem_text hc
      exact ⟨d, hl d hd, rfl⟩
    · rw [head_text hne, Option.some.injEq,
        digitChar_eq_iff (hl' _ (List.getLast_mem hne))] at hhead
      exact hlast hhead
    · -- the leading digit has a positive place value
      have hpos := (Nat.digits_ofDigits base (by
        have := hl _ (List.getLast_mem hne)
        omega) l hl fun _ => hlast)
      rw [h, h0, Nat.digits_zero] at hpos
      exact absurd hpos.symm hne

/-! ### The numeral -/

theorem length_numeral_pos (base v : ℕ) : 0 < (numeral base v).length := by
  unfold numeral
  split
  · exact Nat.one_pos
  · next hv =>
    rw [length_text]
    exact List.length_pos_of_ne_nil (Nat.digits_ne_nil_iff_ne_zero.mpr hv)

/-- The string that is defined as the numeral is one. -/
theorem canonical_numeral (hb : 1 < base) (hbase : base ≤ 36) (v : ℕ) :
    Canonical base v (numeral base v) := by
  unfold numeral
  by_cases hv : v = 0
  · subst hv
    rw [if_pos rfl]
    refine ⟨fun c hc => ⟨0, by omega, List.mem_singleton.mp hc⟩, ?_, fun h => absurd rfl h,
      fun _ => rfl⟩
    rw [evalString, List.foldl_cons, Nat.mul_zero]
    rfl
  · rw [if_neg hv]
    exact (canonical_text_iff hbase (fun d hd => Nat.digits_lt_base hb hd)
      (Nat.digits_ne_nil_iff_ne_zero.mpr hv) (Nat.getLast_digit_ne_zero base hv)).mpr
      (Nat.ofDigits_digits base v)

/-- A string of characters of digits is the string of its digits. -/
theorem exists_text (hs : ∀ c ∈ s, ∃ d < base, c = digitChar d) :
    ∃ l, s = text l ∧ ∀ d ∈ l, d < base := by
  induction s using List.reverseRecOn with
  | nil => exact ⟨[], rfl, fun d hd => absurd hd List.not_mem_nil⟩
  | append_singleton s c ih =>
    obtain ⟨l, rfl, hl⟩ := ih fun c hc => hs c (List.mem_append_left _ hc)
    obtain ⟨d, hd, rfl⟩ := hs c (List.mem_append_right _ (List.mem_singleton_self c))
    exact ⟨d :: l, (text_cons d l).symm, List.forall_mem_cons.mpr ⟨hd, hl⟩⟩

/-- There is only one numeral. -/
theorem Canonical.eq_numeral (h : Canonical base v s) (hb : 1 < base) (hbase : base ≤ 36) :
    s = numeral base v := by
  unfold numeral
  by_cases hv : v = 0
  · rw [if_pos hv]
    exact h.zero hv
  · rw [if_neg hv]
    obtain ⟨l, rfl, hl⟩ := exists_text h.digits
    have hl' : ∀ d ∈ l, d < 36 := fun d hd => (hl d hd).trans_le hbase
    have hval : Nat.ofDigits base l = v := by rw [← evalString_text hl', h.eval]
    have hdigits := Nat.digits_ofDigits base hb l hl fun hne hlast => h.head hv (by
      rw [head_text hne, hlast]
      rfl)
    rw [← hval, hdigits]

/-! ### Numerals of a fixed width -/

/-- The `n` lowest digits of `v`, the least significant first. -/
def lowDigits (base n v : ℕ) : List ℕ := (List.range n).map fun i => v / base ^ i % base

/-- The string without its leading zeros, of which one is kept if there is nothing else. -/
def dropZeros (s : List UInt8) : List UInt8 :=
  let t := s.dropWhile (· = 48)
  if t = [] then [48] else t

@[simp] theorem length_lowDigits (base n v : ℕ) : (lowDigits base n v).length = n := by
  rw [lowDigits, List.length_map, List.length_range]

theorem lowDigits_lt (hb : 0 < base) (n v : ℕ) : ∀ d ∈ lowDigits base n v, d < base := by
  intro d hd
  obtain ⟨i, -, rfl⟩ := List.mem_map.mp hd
  exact Nat.mod_lt _ hb

/-- The value of the lowest digits. -/
theorem ofDigits_lowDigits (base n v : ℕ) :
    Nat.ofDigits base (lowDigits base n v) = v % base ^ n := by
  induction n generalizing v with
  | zero => simp [lowDigits, Nat.mod_one]
  | succ n ih =>
    have hcons : lowDigits base (n + 1) v = v % base :: lowDigits base n (v / base) := by
      unfold lowDigits
      rw [List.range_succ_eq_map, List.map_cons, List.map_map, Nat.pow_zero, Nat.div_one]
      refine congrArg _ (List.map_congr_left fun i _ => ?_)
      rw [Function.comp_apply, Nat.pow_succ', Nat.div_div_eq_div_mul]
    rw [hcons, Nat.ofDigits_cons, ih, Nat.pow_succ', Nat.mod_mul]

/-- Without its leading zeros a string of digits is the numeral of its value. -/
theorem dropZeros_text (hb : 1 < base) (hbase : base ≤ 36) (hl : ∀ d ∈ l, d < base) :
    dropZeros (text l) = numeral base (Nat.ofDigits base l) := by
  induction l using List.reverseRecOn with
  | nil => rfl
  | append_singleton l d ih =>
    have hd : d < base := hl d (by simp)
    have htext : text (l ++ [d]) = digitChar d :: text l := by simp [text]
    by_cases hd0 : d = 0
    · -- a leading zero is dropped, and has no value
      subst hd0
      rw [Nat.ofDigits_append_zero, ← ih fun e he => hl e (List.mem_append_left _ he), htext]
      rfl
    · have hne : digitChar d ≠ 48 := fun h => hd0 ((digitChar_eq_iff (by omega)).mp h)
      have hkeep : dropZeros (text (l ++ [d])) = text (l ++ [d]) := by
        rw [htext, dropZeros, List.dropWhile_cons_of_neg (by simpa using hne)]
        exact if_neg (List.cons_ne_nil _ _)
      have hcanonical := (canonical_text_iff (v := Nat.ofDigits base (l ++ [d])) hbase hl
        (by simp) (by simpa using hd0)).mpr rfl
      rw [hkeep, hcanonical.eq_numeral hb hbase]

end Numeral
