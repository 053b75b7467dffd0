import Mathlib.Tactic.Ring
import Mathlib.Tactic.SplitIfs
import PakOS.Machine.BitField

/-!
# Segment descriptors

`__make_gdt_desc` of `kernel/mm/gdt.c`, and the layout of a segment descriptor as the processor
reads it: base and limit are each in two pieces.  `makeGdtDesc_eq` names the field behind every bit
of the descriptor, and `gdtDesc_roundTrip` says that the processor reads back what went in.
-/

namespace PakOS

open Machine

/-! ### The descriptor -/

/-- `__make_gdt_desc(base, limit, access, flag)`: the operands `access` and `flag` are promoted to a
signed 32-bit number before they are shifted. -/
def makeGdtDesc (base limit : BitVec 32) (access flag : BitVec 8) : BitVec 64 :=
  let desc : BitVec 64 := 0
  let desc := desc ||| ((base &&& 0xff0000) >>> 16).setWidth 64
  let desc := desc ||| (access.setWidth 32 <<< 8).signExtend 64
  let desc := desc ||| (limit &&& 0x000f0000).setWidth 64
  let desc := desc ||| ((flag.setWidth 32 &&& 0xf) <<< 20).signExtend 64
  let desc := desc ||| (base &&& 0xff000000).setWidth 64
  let desc := desc <<< 32
  let desc := desc ||| (limit &&& 0x0000ffff).setWidth 64
  desc ||| ((base &&& 0x0000ffff) <<< 16).setWidth 64

/-- A segment, as the processor sees it. -/
structure Segment where
  /-- The base address. -/
  base : BitVec 32
  /-- The limit. -/
  limit : BitVec 20
  /-- The access byte. -/
  access : BitVec 8
  /-- The flags. -/
  flags : BitVec 4
  deriving DecidableEq

/-- The x86 layout of a segment descriptor. -/
def decodeSegment (desc : BitVec 64) : Segment where
  base := desc.extractLsb' 56 8 ++ desc.extractLsb' 16 24
  limit := desc.extractLsb' 48 4 ++ desc.extractLsb' 0 16
  access := desc.extractLsb' 40 8
  flags := desc.extractLsb' 52 4

/-- `_GDT_AB_DATA0` -/
def gdtAbData0 : BitVec 8 := 1 <<< 7 ||| 0 ||| 1 <<< 4 ||| 0 ||| 0 ||| 1 <<< 1

/-- `_GDT_AB_DATA3` -/
def gdtAbData3 : BitVec 8 := 1 <<< 7 ||| 3 <<< 5 ||| 1 <<< 4 ||| 0 ||| 0 ||| 1 <<< 1

/-- `_GDT_AB_CODE0` -/
def gdtAbCode0 : BitVec 8 := 1 <<< 7 ||| 0 ||| 1 <<< 4 ||| 1 <<< 3 ||| 1 <<< 2 ||| 1 <<< 1

/-- `_GDT_AB_CODE3` -/
def gdtAbCode3 : BitVec 8 := 1 <<< 7 ||| 3 <<< 5 ||| 1 <<< 4 ||| 1 <<< 3 ||| 1 <<< 2 ||| 1 <<< 1

/-- `_GDT_x86FLAG` -/
def gdtX86Flag : BitVec 8 := 1 <<< 3 ||| 1 <<< 2

/-- The table that `init_gdt` writes.  Its code segments are conforming, which those of the values
in the comment of the source are not. -/
def gdtEntries : List (BitVec 64) :=
  [makeGdtDesc 0 0 0 0, makeGdtDesc 0x0 0xffffffff gdtAbCode0 gdtX86Flag,
    makeGdtDesc 0x0 0xffffffff gdtAbData0 gdtX86Flag,
    makeGdtDesc 0x0 0xffffffff gdtAbCode3 gdtX86Flag,
    makeGdtDesc 0x0 0xffffffff gdtAbData3 gdtX86Flag]

variable (base limit base' limit' : BitVec 32) (access flag access' flag' : BitVec 8)

/-! ### Its fields -/

/-- The descriptor as its seven fields. -/
theorem makeGdtDesc_eq : makeGdtDesc base limit access flag =
    place 64 32 (base.extractLsb' 16 8) ||| place 64 40 access |||
      place 64 48 (limit.extractLsb' 16 4) ||| place 64 52 (flag.extractLsb' 0 4) |||
      place 64 56 (base.extractLsb' 24 8) ||| place 64 0 (limit.extractLsb' 0 16) |||
      place 64 16 (base.extractLsb' 0 16) := by
  have hmid : (base &&& 0xff0000) >>> 16 = place 32 0 (base.extractLsb' 16 8) := by
    have hmask : (0xff0000 : BitVec 32) = place 32 16 (BitVec.allOnes 8) := by decide
    rw [hmask, and_place_allOnes, place_ushiftRight _ (by decide) (Nat.le_refl 16)]
  have haccess : access.setWidth 32 <<< 8 = place 32 8 access := rfl
  have hlimit : limit &&& 0x000f0000 = place 32 16 (limit.extractLsb' 16 4) := by
    have hmask : (0x000f0000 : BitVec 32) = place 32 16 (BitVec.allOnes 4) := by decide
    rw [hmask, and_place_allOnes]
  have hflag : (flag.setWidth 32 &&& 0xf) <<< 20 = place 32 20 (flag.extractLsb' 0 4) := by
    have hmask : (0xf : BitVec 32) = place 32 0 (BitVec.allOnes 4) := by decide
    rw [hmask, and_place_allOnes, place_shiftLeft,
      BitVec.extractLsb'_setWidth_of_le (show 0 + 4 ≤ 32 by decide)]
  have hhigh : base &&& 0xff000000 = place 32 24 (base.extractLsb' 24 8) := by
    have hmask : (0xff000000 : BitVec 32) = place 32 24 (BitVec.allOnes 8) := by decide
    rw [hmask, and_place_allOnes]
  have hlow : ∀ x : BitVec 32, x &&& 0x0000ffff = place 32 0 (x.extractLsb' 0 16) := by
    intro x
    have hmask : (0x0000ffff : BitVec 32) = place 32 0 (BitVec.allOnes 16) := by decide
    rw [hmask, and_place_allOnes]
  simp only [makeGdtDesc]
  rw [hmid, haccess, hlimit, hflag, hhigh, hlow, hlow, place_shiftLeft]
  simp only [setWidth_place, signExtend_place, BitVec.shiftLeft_or_distrib, place_shiftLeft,
    Nat.reduceAdd, Nat.reduceLeDiff, Nat.reduceLT]
  rw [BitVec.ofNat_eq_ofNat, BitVec.zero_shiftLeft, BitVec.zero_or]

/-- Where each bit of the descriptor comes from. -/
theorem getLsbD_makeGdtDesc {i : ℕ} (hi : i < 64) :
    (makeGdtDesc base limit access flag).getLsbD i =
      if i < 16 then limit.getLsbD i
      else if i < 40 then base.getLsbD (i - 16)
      else if i < 48 then access.getLsbD (i - 40)
      else if i < 52 then limit.getLsbD (i - 32)
      else if i < 56 then flag.getLsbD (i - 52)
      else base.getLsbD (i - 32) := by
  rw [makeGdtDesc_eq]
  simp only [BitVec.getLsbD_or, getLsbD_place, BitVec.getLsbD_extractLsb']
  grind

/-- The base address that the processor reads. -/
theorem base_decodeSegment :
    (decodeSegment (makeGdtDesc base limit access flag)).base = base := by
  apply BitVec.eq_of_getLsbD_eq
  intro i hi
  rw [decodeSegment, BitVec.getLsbD_append, BitVec.getLsbD_extractLsb', BitVec.getLsbD_extractLsb',
    getLsbD_makeGdtDesc _ _ _ _ (by omega), getLsbD_makeGdtDesc _ _ _ _ (by omega)]
  grind

/-- The limit that the processor reads: the upper twelve bits are lost. -/
theorem limit_decodeSegment :
    (decodeSegment (makeGdtDesc base limit access flag)).limit = limit.setWidth 20 := by
  apply BitVec.eq_of_getLsbD_eq
  intro i hi
  rw [decodeSegment, BitVec.getLsbD_append, BitVec.getLsbD_extractLsb', BitVec.getLsbD_extractLsb',
    getLsbD_makeGdtDesc _ _ _ _ (by omega), getLsbD_makeGdtDesc _ _ _ _ (by omega)]
  grind

/-- The access byte that the processor reads. -/
theorem access_decodeSegment :
    (decodeSegment (makeGdtDesc base limit access flag)).access = access := by
  apply BitVec.eq_of_getLsbD_eq
  intro i hi
  rw [decodeSegment, BitVec.getLsbD_extractLsb', getLsbD_makeGdtDesc _ _ _ _ (by omega)]
  grind

/-- The flags that the processor reads: the upper half of the byte is lost. -/
theorem flags_decodeSegment :
    (decodeSegment (makeGdtDesc base limit access flag)).flags = flag.setWidth 4 := by
  apply BitVec.eq_of_getLsbD_eq
  intro i hi
  rw [decodeSegment, BitVec.getLsbD_extractLsb', getLsbD_makeGdtDesc _ _ _ _ (by omega)]
  grind

variable {base limit base' limit' access flag access' flag'}

/-- Words agree modulo a power of two if their low bits are the same. -/
theorem getLsbD_congr_of_mod {n k i : ℕ} {x y : BitVec n} (h : x.toNat % 2 ^ k = y.toNat % 2 ^ k)
    (hi : i < k) : x.getLsbD i = y.getLsbD i := by
  have hbit : (x.toNat % 2 ^ k).testBit i = (y.toNat % 2 ^ k).testBit i := by rw [h]
  rwa [Nat.testBit_mod_two_pow, Nat.testBit_mod_two_pow, decide_eq_true hi, Bool.true_and,
    Bool.true_and] at hbit

/-- Descriptors are the same exactly if the processor reads the same. -/
theorem makeGdtDesc_inj :
    makeGdtDesc base limit access flag = makeGdtDesc base' limit' access' flag' ↔
      base = base' ∧ limit.toNat % 2 ^ 20 = limit'.toNat % 2 ^ 20 ∧ access = access' ∧
        flag.toNat % 2 ^ 4 = flag'.toNat % 2 ^ 4 := by
  constructor
  · intro h
    refine ⟨?_, ?_, ?_, ?_⟩
    · rw [← base_decodeSegment base limit access flag, h, base_decodeSegment]
    · rw [← BitVec.toNat_setWidth, ← limit_decodeSegment base limit access flag, h,
        limit_decodeSegment, BitVec.toNat_setWidth]
    · rw [← access_decodeSegment base limit access flag, h, access_decodeSegment]
    · rw [← BitVec.toNat_setWidth, ← flags_decodeSegment base limit access flag, h,
        flags_decodeSegment, BitVec.toNat_setWidth]
  · rintro ⟨rfl, hlimit, rfl, hflag⟩
    apply BitVec.eq_of_getLsbD_eq
    intro i hi
    rw [getLsbD_makeGdtDesc _ _ _ _ hi, getLsbD_makeGdtDesc _ _ _ _ hi]
    split_ifs
    · exact getLsbD_congr_of_mod hlimit (by omega)
    · rfl
    · rfl
    · exact getLsbD_congr_of_mod hlimit (by omega)
    · exact getLsbD_congr_of_mod hflag (by omega)
    · rfl

/-- **The round trip of a segment descriptor.**  The processor reads back the base, the limit modulo
`2 ^ 20`, the access byte, and the flags modulo 16; descriptors that differ in one of these are
different; and every bit of a descriptor is a bit of the field that it belongs to. -/
theorem gdtDesc_roundTrip (base limit : BitVec 32) (access flag : BitVec 8) :
    (decodeSegment (makeGdtDesc base limit access flag)).base = base ∧
      (decodeSegment (makeGdtDesc base limit access flag)).limit.toNat = limit.toNat % 2 ^ 20 ∧
      (decodeSegment (makeGdtDesc base limit access flag)).access = access ∧
      (decodeSegment (makeGdtDesc base limit access flag)).flags.toNat = flag.toNat % 16 ∧
      (∀ base' limit' access' flag',
        makeGdtDesc base limit access flag = makeGdtDesc base' limit' access' flag' ↔
          base = base' ∧ limit.toNat % 2 ^ 20 = limit'.toNat % 2 ^ 20 ∧ access = access' ∧
            flag.toNat % 16 = flag'.toNat % 16) ∧
      ∀ i < 64, (makeGdtDesc base limit access flag).getLsbD i =
        if i < 16 then limit.getLsbD i
        else if i < 40 then base.getLsbD (i - 16)
        else if i < 48 then access.getLsbD (i - 40)
        else if i < 52 then limit.getLsbD (i - 32)
        else if i < 56 then flag.getLsbD (i - 52)
        else base.getLsbD (i - 32) := by
  refine ⟨base_decodeSegment _ _ _ _, ?_, access_decodeSegment _ _ _ _, ?_,
    fun _ _ _ _ => makeGdtDesc_inj, fun i hi => getLsbD_makeGdtDesc _ _ _ _ hi⟩
  · rw [limit_decodeSegment, BitVec.toNat_setWidth]
  · rw [flags_decodeSegment, BitVec.toNat_setWidth]

example : gdtEntries = [0, 0x00cf9e000000ffff, 0x00cf92000000ffff, 0x00cffe000000ffff,
    0x00cff2000000ffff] := by decide

end PakOS
