import PakOS.Driver.Intel8254x
import PakOS.Machine.Word

/-!
# The bounds of the transmit ring

The queue of descriptors lies in a block of `16 + txqueue_n * 16` bytes, from the first multiple of
16 behind the start of the block on.  `txtail` runs through 65 descriptors before it wraps around,
of which 64 lie in the block and 8 are announced to the card.

A run keeps to both bounds if at most seven calls are made, and to the bound of the block if at most
64 are (`tx_bounds_iff`).
-/

namespace PakOS

open Machine

namespace Intel8254x

/-- `sizeof(struct tdesc)` -/
def sizeofTdesc : ℕ := 16

/-- The bytes that `load_driver_eth_intel_8254x` asks `kcalloc` for. -/
def txBlockSize : ℕ := 16 + txqueueN * sizeofTdesc

/-- `txqueue`, in the block at `noalign`. -/
def txqueueAddr (noalign : ℕ) : ℕ := add32 noalign 16 &&& 0xfffffff0

/-- `&txqueue[i]` -/
def tdescAddr (noalign i : ℕ) : ℕ := add32 (txqueueAddr noalign) (mul32 sizeofTdesc i)

/-- Descriptor `i` lies wholly inside the block. -/
def TdescInside (noalign i : ℕ) : Prop :=
  noalign ≤ tdescAddr noalign i ∧ tdescAddr noalign i + sizeofTdesc ≤ noalign + txBlockSize

namespace TxRing

/-- The descriptor that the call in progress is about to write lies in the block. -/
def WritesInside (noalign : ℕ) (s : TxRing) : Prop :=
  ∀ set rest, s.todo = .field set :: rest → TdescInside noalign s.txtail

/-- The bounds of the ring: of the block, and of what was announced to the card. -/
structure InBounds (noalign : ℕ) (s : TxRing) : Prop where
  /-- Descriptors are written inside the block. -/
  desc : WritesInside noalign s
  /-- The tail register names a descriptor that was announced. -/
  tdt : s.tdt < s.size

/-- The guard: the call is one of the first `n`. -/
def AmongFirst (n : ℕ) (s : TxRing) : Prop := s.submitted.length < n

/-- Whatever the alignment of the block, it holds the first 64 descriptors. -/
theorem tdescInside_iff {noalign i : ℕ} (hblock : noalign + txBlockSize ≤ 4294967296) (hi : i ≤ 64) :
    TdescInside noalign i ↔ i < 64 := by
  have hsize : txBlockSize = 1040 := rfl
  have hmask : txqueueAddr noalign = (noalign + 16) / 16 * 16 := by
    rw [txqueueAddr, add32_of_lt (by omega)]
    exact and_highMask (k := 4) (by omega) (by decide)
  -- the address of descriptor 64 may wrap around
  rw [TdescInside, tdescAddr, hmask, hsize, sizeofTdesc, mul32_of_lt (by omega), add32]
  omega

/-! ### Where the tail is -/

/-- How far the call in progress is, and where the tail is: it has gone through one descriptor for
each call, of 65 in a circle. -/
inductive TailPhase (n : ℕ) (s : TxRing) : Prop
  /-- There is no call in progress. -/
  | idle (htodo : s.todo = []) (htail : s.txtail = s.submitted.length % 65)
  /-- It fills the descriptor at the tail. -/
  | filling (fs : List (Tdesc → Tdesc)) (b : ℕ × ℕ)
      (htodo : s.todo = fs.map Assign.field ++ [.next, .wrap, .tdt b])
      (htail : s.txtail = s.submitted.length % 65) (hlt : s.submitted.length < n)
  /-- It has moved the tail. -/
  | moved (b : ℕ × ℕ) (htodo : s.todo = [.wrap, .tdt b])
      (htail : s.txtail = s.submitted.length % 65 + 1) (hlt : s.submitted.length < n)
  /-- The tail has wrapped around if it had to. -/
  | wrapped (b : ℕ × ℕ) (htodo : s.todo = [.tdt b])
      (htail : s.txtail = (s.submitted.length + 1) % 65) (hlt : s.submitted.length < n)

/-- The invariant of a run of at most `n` calls. -/
structure Counted (n : ℕ) (s : TxRing) : Prop where
  /-- The ring has eight descriptors. -/
  tdlen : s.tdlen = 128
  /-- The tail register is where the last call left the tail. -/
  tdt : s.tdt = s.submitted.length % 65
  /-- At most `n` calls were made. -/
  le : s.submitted.length ≤ n
  /-- The call in progress. -/
  phase : TailPhase n s

variable {n noalign : ℕ} {mem : ℕ → Tdesc} {s s' : TxRing}

theorem counted_loadDriver (n : ℕ) (mem : ℕ → Tdesc) : Counted n (loadDriver mem) :=
  ⟨rfl, rfl, Nat.zero_le n, .idle rfl rfl⟩

/-- The card does not touch the tail. -/
theorem Counted.transmit (h : Counted n s) : Counted n s.transmit := by
  refine ⟨h.tdlen, h.tdt, h.le, ?_⟩
  cases h.phase with
  | idle htodo htail => exact .idle htodo htail
  | filling fs b htodo htail hlt => exact .filling fs b htodo htail hlt
  | moved b htodo htail hlt => exact .moved b htodo htail hlt
  | wrapped b htodo htail hlt => exact .wrapped b htodo htail hlt

/-- An assignment of the call in progress. -/
theorem Counted.assign (h : Counted n s) {a : Assign} {rest : List Assign}
    (htodo : s.todo = a :: rest) : Counted n (exec { s with todo := rest } a) := by
  cases h.phase with
  | idle hidle => simp [hidle] at htodo
  | filling fs b hfields htail hlt =>
    rw [hfields] at htodo
    cases fs with
    | nil =>
      obtain ⟨rfl, rfl⟩ := List.cons.inj htodo
      exact ⟨h.tdlen, h.tdt, h.le, .moved b rfl (congrArg (· + 1) htail) hlt⟩
    | cons f fs =>
      obtain ⟨rfl, rfl⟩ := List.cons.inj htodo
      exact ⟨h.tdlen, h.tdt, h.le, .filling fs b rfl htail hlt⟩
  | moved b hmoved htail hlt =>
    rw [hmoved] at htodo
    obtain ⟨rfl, rfl⟩ := List.cons.inj htodo
    refine ⟨h.tdlen, h.tdt, h.le, .wrapped b rfl ?_ hlt⟩
    change (if txqueueN < s.txtail then 0 else s.txtail) = (s.submitted.length + 1) % 65
    unfold txqueueN
    split <;> omega
  | wrapped b hwrapped htail hlt =>
    rw [hwrapped] at htodo
    obtain ⟨rfl, rfl⟩ := List.cons.inj htodo
    have hcount : (s.submitted ++ [b]).length = s.submitted.length + 1 := List.length_append
    refine ⟨h.tdlen, ?_, ?_, .idle rfl ?_⟩
    · change s.txtail = (s.submitted ++ [b]).length % 65
      rw [hcount, htail]
    · change (s.submitted ++ [b]).length ≤ n
      omega
    · change s.txtail = (s.submitted ++ [b]).length % 65
      rw [hcount, htail]

/-- A step keeps the invariant. -/
theorem Counted.step (h : Counted n s) (hstep : Step (AmongFirst n) s s') : Counted n s' := by
  cases hstep with
  | call c hidle _ hg =>
    refine ⟨h.tdlen, h.tdt, h.le, ?_⟩
    cases h.phase with
    | idle _ htail => exact .filling c.fields c.contents rfl htail hg
    | filling fs b htodo => simp [hidle] at htodo
    | moved b htodo => simp [hidle] at htodo
    | wrapped b htodo => simp [hidle] at htodo
  | assign a rest htodo => exact h.assign htodo
  | nic => exact h.transmit

/-- A run of at most `n` calls keeps the invariant. -/
theorem Counted.run (h : Counted n s)
    (hrun : Relation.ReflTransGen (Step (AmongFirst n)) s s') : Counted n s' := by
  induction hrun with
  | refl => exact h
  | tail _ hstep ih => exact ih.step hstep

/-- The descriptor that is about to be written, in a run of at most 64 calls. -/
theorem Counted.writesInside (h : Counted n s) (hn : n ≤ 64)
    (hblock : noalign + txBlockSize ≤ 4294967296) : WritesInside noalign s := by
  intro set rest htodo
  cases h.phase with
  | idle hidle => simp [hidle] at htodo
  | filling fs b _ htail hlt => exact (tdescInside_iff hblock (by omega)).mpr (by omega)
  | moved b hmoved => simp [hmoved] at htodo
  | wrapped b hwrapped => simp [hwrapped] at htodo

/-! ### Calls in a row -/

/-- What a whole call does. -/
theorem call_spec (s : TxRing) (c : TxCall) :
    (s.call c).txtail = (if txqueueN < s.txtail + 1 then 0 else s.txtail + 1) ∧
      (s.call c).submitted = s.submitted ++ [c.contents] ∧
      ∀ i, i ≠ s.txtail → (s.call c).desc i = s.desc i := by
  refine ⟨rfl, rfl, fun i hi => ?_⟩
  change (((((((((s.setDesc s.txtail _).setDesc s.txtail _).setDesc s.txtail _).setDesc s.txtail
    _).setDesc s.txtail _).setDesc s.txtail _).setDesc s.txtail _).setDesc s.txtail _).desc i) = _
  iterate 8 rw [desc_setDesc_of_ne hi]

/-- Up to 64 times the call `c` can be made before the card has done anything. -/
theorem exists_calls (mem : ℕ → Tdesc) (c : TxCall) {j : ℕ} (hj : j ≤ n) (h64 : j ≤ 64) :
    ∃ s, Relation.ReflTransGen (Step (AmongFirst n)) (loadDriver mem) s ∧ s.todo = [] ∧
      s.submitted.length = j ∧ s.txtail = j ∧ ∀ i, j ≤ i → s.desc i = (loadDriver mem).desc i := by
  induction j with
  | zero => exact ⟨_, .refl, rfl, rfl, rfl, fun _ _ => rfl⟩
  | succ j ih =>
    obtain ⟨s, hrun, hidle, hcount, htail, hdesc⟩ := ih (by omega) (by omega)
    have hfree : s.desc s.txtail = .zero := by
      rw [htail, hdesc j le_rfl]
      exact if_pos (show j < txqueueN by unfold txqueueN; omega)
    have hready : s.Ready := Or.inl (by rw [hfree]; rfl)
    have hg : AmongFirst n s := by
      unfold AmongFirst
      omega
    obtain ⟨hcall, hidle'⟩ := run_call hidle hready hg c
    obtain ⟨htail', hsub, hkeep⟩ := call_spec s c
    refine ⟨_, hrun.trans hcall, hidle', ?_, ?_, fun i hi => ?_⟩
    · rw [hsub, List.length_append, List.length_singleton, hcount]
    · rw [htail', htail, if_neg (by unfold txqueueN; omega)]
    · rw [hkeep i (by omega), hdesc i (by omega)]

/-- The eighth call leaves a tail register behind the end of the ring. -/
theorem exists_tdt (mem : ℕ → Tdesc) (c : TxCall) (hn : 8 ≤ n) :
    ∃ s, Relation.ReflTransGen (Step (AmongFirst n)) (loadDriver mem) s ∧ s.tdt = 8 ∧
      s.size = 8 := by
  obtain ⟨s, hrun, -, hcount, -⟩ := exists_calls mem c hn (show 8 ≤ 64 by decide)
  have hinv := (counted_loadDriver n mem).run hrun
  exact ⟨s, hrun, by rw [hinv.tdt, hcount], by rw [size, hinv.tdlen]⟩

/-- The descriptor behind the queue lets a call proceed. -/
def FreeBehind (mem : ℕ → Tdesc) : Prop := (mem 64).buffer = 0 ∨ (mem 64).sta &&& 0x1 ≠ 0

/-- The 65th call writes a descriptor that does not lie in the block. -/
theorem exists_outside (hblock : noalign + txBlockSize ≤ 4294967296) (hfree : FreeBehind mem)
    (c : TxCall) (hn : 65 ≤ n) :
    ∃ s, Relation.ReflTransGen (Step (AmongFirst n)) (loadDriver mem) s ∧ s.txtail = 64 ∧
      ¬WritesInside noalign s := by
  obtain ⟨s, hrun, hidle, hcount, htail, hdesc⟩ := @exists_calls n mem c 64 (by omega) le_rfl
  have hbehind : s.desc s.txtail = mem 64 := by
    rw [htail, hdesc 64 le_rfl]
    rfl
  have hready : s.Ready := by
    unfold Ready
    rw [hbehind]
    exact hfree
  have hg : AmongFirst n s := by
    unfold AmongFirst
    omega
  refine ⟨_, hrun.tail (.call c hidle hready hg), htail, fun hinside => ?_⟩
  have hlast := hinside _ _ rfl
  change TdescInside noalign s.txtail at hlast
  rw [htail, tdescInside_iff hblock le_rfl] at hlast
  exact absurd hlast (by decide)

/-- **The bounds of the transmit ring.**  Whatever the alignment of the block, the runs of at most
`n` calls keep to both bounds exactly if `n` is at most seven.  They write inside the block exactly
if `n` is at most 64, when the descriptor behind the queue lets a call proceed. -/
theorem tx_bounds_iff (hblock : noalign + txBlockSize ≤ 4294967296) (mem : ℕ → Tdesc) (n : ℕ) :
    ((∀ s, Relation.ReflTransGen (Step (AmongFirst n)) (loadDriver mem) s → InBounds noalign s) ↔
      n ≤ 7) ∧
    (FreeBehind mem →
      ((∀ s, Relation.ReflTransGen (Step (AmongFirst n)) (loadDriver mem) s →
        WritesInside noalign s) ↔ n ≤ 64)) := by
  refine ⟨⟨fun h => ?_, fun hn s hrun => ?_⟩, fun hfree => ⟨fun h => ?_, fun hn s hrun => ?_⟩⟩
  · by_contra hn
    obtain ⟨s, hrun, htdt, hsize⟩ := exists_tdt mem ⟨0, 0, 0⟩ (show 8 ≤ n by omega)
    have hlt := (h s hrun).tdt
    omega
  · have hinv := (counted_loadDriver n mem).run hrun
    have hcount := hinv.le
    refine ⟨hinv.writesInside (by omega) hblock, ?_⟩
    rw [size, hinv.tdlen, hinv.tdt]
    omega
  · by_contra hn
    obtain ⟨s, hrun, -, hout⟩ := exists_outside hblock hfree ⟨0, 0, 0⟩ (show 65 ≤ n by omega)
    exact hout (h s hrun)
  · exact ((counted_loadDriver n mem).run hrun).writesInside hn hblock

/-- The three packets that the kernel sends stay within the bounds, in a block at `0xd0000014`. -/
theorem tx_bounds_three :
    0xd0000014 + txBlockSize ≤ 4294967296 ∧
      ∀ s, Relation.ReflTransGen (Step (AmongFirst 3)) bootRing s → InBounds 0xd0000014 s :=
  ⟨by decide, (tx_bounds_iff (show 0xd0000014 + txBlockSize ≤ 4294967296 by decide)
    (fun _ => .zero) 3).1.mpr (by decide)⟩

/-- With eight calls in a row the tail register gets the value 8, of eight descriptors that were
announced; with 65 the descriptor at bytes 1036 to 1051 of a block of 1040 is written. -/
theorem not_inBounds :
    (∃ s, Relation.ReflTransGen (Step (AmongFirst 8)) bootRing s ∧ s.tdt = 8 ∧ s.size = 8 ∧
      ¬InBounds 0xd0000014 s) ∧
    ∃ s, Relation.ReflTransGen (Step (AmongFirst 65)) bootRing s ∧ s.txtail = 64 ∧
      tdescAddr 0xd0000014 64 = 0xd0000014 + 1036 ∧ ¬WritesInside 0xd0000014 s := by
  constructor
  · obtain ⟨s, hrun, htdt, hsize⟩ := exists_tdt (fun _ => .zero) ⟨0x100000, 21, 1⟩ (le_refl 8)
    refine ⟨s, hrun, htdt, hsize, fun h => ?_⟩
    have hlt := h.tdt
    omega
  · obtain ⟨s, hrun, htail, hout⟩ := exists_outside
      (show 0xd0000014 + txBlockSize ≤ 4294967296 by decide)
      (show FreeBehind fun _ => .zero from Or.inl rfl) ⟨0x100000, 21, 1⟩ (le_refl 65)
    exact ⟨s, hrun, htail, by decide, hout⟩

end TxRing

end Intel8254x

end PakOS
