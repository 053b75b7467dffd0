import PakOS.VirtMM.MapSpec

/-!
# `_lpa` and the processor's walk

`physicalAddr s lg` is the physical address that the processor finds for `lg`: the frame that the
walk gives, and the offset in the page.  `_lpa` reads the same entry through the window, but it cuts
entry and offset at bit 10 instead of bit 12, so that bits 10 and 11 of its result come from the
entry.  The two addresses agree exactly when these bits of the entry are those of the offset
(`lpa_eq_physicalAddr_iff`): for entries without flags up there, in the first kilobyte of the page.
-/

namespace PakOS

open Machine

namespace VirtMM

variable {P : Type*} {s : VirtMM P} {lg : ℕ}

/-- The physical address that the processor translates `lg` to. -/
def physicalAddr (s : VirtMM P) (lg : ℕ) : Option ℕ :=
  (s.translate (lg / 4096)).map fun f => 4096 * f + lg % 4096

/-- The entry of `lg` in the table of its region. -/
def entryOf (s : VirtMM P) (lg : ℕ) : ℕ :=
  s.phys (frameOf (s.pde (lg / 4096 / 1024))) (lg / 4096 % 1024)

/-- The mask of `_lpa` clears ten bits. -/
theorem and_fffffc00 {w : ℕ} (hw : w < 4294967296) : w &&& 0xfffffc00 = w / 1024 * 1024 :=
  and_highMask (k := 10) hw (by decide)

/-- The mask that `_lpa` puts on the offset keeps ten bits. -/
theorem and_3ff (w : ℕ) : w &&& 0x3ff = w % 1024 := Nat.and_two_pow_sub_one_eq_mod w 10

/-- The address that `_lpa` computes. -/
theorem lpa_eq (hlast : Present (s.pde 1023)) (hself : frameOf (s.pde 1023) = s.pdeTable)
    (hlg : lg < 4294967296) (htable : Present (s.pde (lg / 4096 / 1024)))
    (hword : s.entryOf lg < 4294967296) :
    s.lpa lg = some (s.entryOf lg / 1024 * 1024 + lg % 1024) := by
  have hload : s.load (add32 (logicalPdeBase ||| lg >>> 22 <<< 12) (4 * (lg >>> 12 &&& 0x3ff))) =
      some (s.entryOf lg) := load_entry hlast hself hlg htable
  rw [lpa, hload, Option.map_some, and_fffffc00 hword, and_3ff, add32_of_lt (by omega)]

/-- The address that the processor computes. -/
theorem physicalAddr_eq (htable : Present (s.pde (lg / 4096 / 1024)))
    (hentry : Present (s.entryOf lg)) :
    s.physicalAddr lg = some (s.entryOf lg / 4096 * 4096 + lg % 4096) := by
  have hwalk : s.translate (lg / 4096) = some (frameOf (s.entryOf lg)) :=
    (pageWalk_of_present htable).trans (decode_of_present hentry)
  rw [physicalAddr, hwalk, Option.map_some, frameOf, Nat.mul_comm]

/-- When the directory's last entry names the directory, and both entries of `lg` are present,
`_lpa` gives the address of the processor's walk exactly if bits 10 and 11 of the entry are those of
the address. -/
theorem lpa_eq_physicalAddr_iff (hlast : Present (s.pde 1023))
    (hself : frameOf (s.pde 1023) = s.pdeTable) (hlg : lg < 4294967296)
    (htable : Present (s.pde (lg / 4096 / 1024))) (hentry : Present (s.entryOf lg))
    (hword : s.entryOf lg < 4294967296) :
    s.lpa lg = s.physicalAddr lg ↔ s.entryOf lg / 1024 % 4 = lg / 1024 % 4 := by
  rw [lpa_eq hlast hself hlg htable hword, physicalAddr_eq htable hentry, Option.some.injEq]
  constructor
  · intro h
    omega
  · intro h
    omega

/-- In the first kilobyte of a page `_lpa` is right. -/
theorem lpa_eq_physicalAddr_firstHeapPage :
    firstHeapPage.lpa 0xd0000004 = firstHeapPage.physicalAddr 0xd0000004 :=
  (lpa_eq_physicalAddr_iff (by decide) (by decide) (by decide) (by decide) (by decide)
    (by decide)).mpr (by decide)

/-- One kilobyte into the page `_lpa` gives the address of the frame's first byte. -/
theorem lpa_ne_physicalAddr :
    Present (firstHeapPage.pde 1023) ∧ frameOf (firstHeapPage.pde 1023) = firstHeapPage.pdeTable ∧
      Present (firstHeapPage.pde (0xd0000400 / 4096 / 1024)) ∧
      firstHeapPage.entryOf 0xd0000400 = 4096 * 256 + 3 ∧
      firstHeapPage.lpa 0xd0000400 = some 0x100000 ∧
      firstHeapPage.physicalAddr 0xd0000400 = some 0x100400 := by
  decide

end VirtMM

end PakOS
