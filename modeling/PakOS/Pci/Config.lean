import Mathlib.Tactic.Cases
import PakOS.Machine.BitField

/-!
# PCI configuration space

`_pci_cfg_rdword`, `_pci_cfg_rword`, `pci_get_vendor` and `pci_get_htype` of `kernel/pci-bus/pci.c`.
An address is written to one port and a dword is read from another; the host bridge takes the
address apart again.  What is read is the dword of the function that was asked for
(`pciCfgRdword_eq`), so that the fields are the bytes of its header.
-/

namespace PakOS

open Machine

/-- Configuration space: the dwords of every function by bus, slot, function and number, all ones
where nothing answers. -/
abbrev CfgSpace : Type := ℕ → ℕ → ℕ → ℕ → BitVec 32

/-! ### Reading -/

/-- The host bridge: what is read from `PCI_CFGDATA` when `cfg` was written to `PCI_CFGADDR`. -/
def CfgSpace.inl (cs : CfgSpace) (cfg : BitVec 32) : BitVec 32 :=
  if cfg.getLsbD 31 then
    cs (cfg.extractLsb' 16 8).toNat (cfg.extractLsb' 11 5).toNat (cfg.extractLsb' 8 3).toNat
      (cfg.extractLsb' 2 6).toNat
  else BitVec.allOnes 32

/-- `cfg`, as `_pci_cfg_rdword(bus, slot, fun, reg_offset)` puts it together. -/
def pciCfgAddr (bus slot fn regOffset : BitVec 8) : BitVec 32 :=
  let cfg : BitVec 32 := 0x80000000
  let cfg := cfg ||| bus.setWidth 32 <<< 16
  let cfg := cfg ||| (slot.setWidth 32 &&& 0x1f) <<< 11
  let cfg := cfg ||| (fn.setWidth 32 &&& 0x7) <<< 8
  cfg ||| (regOffset.setWidth 32 &&& 0xfc)

/-- `_pci_cfg_rdword(bus, slot, fun, reg_offset)` -/
def pciCfgRdword (cs : CfgSpace) (bus slot fn regOffset : ℕ) : BitVec 32 :=
  cs.inl (pciCfgAddr (.ofNat 8 bus) (.ofNat 8 slot) (.ofNat 8 fn) (.ofNat 8 regOffset))

/-- `_pci_cfg_rword(bus, slot, fun, reg_offset)` -/
def pciCfgRword (cs : CfgSpace) (bus slot fn regOffset : ℕ) : BitVec 16 :=
  let dword := pciCfgRdword cs bus slot fn regOffset
  (dword >>> ((regOffset &&& 2) * 8) &&& 0xffff).setWidth 16

/-- `pci_get_vendor(on_bus, on_slot, using_fun)` -/
def pciGetVendor (cs : CfgSpace) (onBus onSlot usingFun : ℕ) : BitVec 16 :=
  pciCfgRword cs onBus onSlot usingFun 0

/-- `pci_get_htype(on_bus, on_slot, using_fun)` -/
def pciGetHtype (cs : CfgSpace) (onBus onSlot usingFun : ℕ) : BitVec 8 :=
  (pciCfgRword cs onBus onSlot usingFun 14).setWidth 8

/-! ### What is read -/

/-- Byte `i` of the header of a function. -/
def CfgSpace.byte (cs : CfgSpace) (bus slot fn i : ℕ) : BitVec 8 :=
  (cs bus slot fn (i / 4)).extractLsb' (8 * (i % 4)) 8

/-- The address as its five fields. -/
theorem pciCfgAddr_eq (bus slot fn regOffset : BitVec 8) : pciCfgAddr bus slot fn regOffset =
    place 32 31 1#1 ||| place 32 16 bus ||| place 32 11 (slot.extractLsb' 0 5) |||
      place 32 8 (fn.extractLsb' 0 3) ||| place 32 2 (regOffset.extractLsb' 2 6) := by
  have henable : (0x80000000 : BitVec 32) = place 32 31 1#1 := by decide
  have hbus : bus.setWidth 32 <<< 16 = place 32 16 bus := rfl
  have hslot : (slot.setWidth 32 &&& 0x1f) <<< 11 = place 32 11 (slot.extractLsb' 0 5) := by
    have hmask : (0x1f : BitVec 32) = place 32 0 (BitVec.allOnes 5) := by decide
    rw [hmask, and_place_allOnes, place_shiftLeft,
      BitVec.extractLsb'_setWidth_of_le (show 0 + 5 ≤ 32 by decide)]
  have hfn : (fn.setWidth 32 &&& 0x7) <<< 8 = place 32 8 (fn.extractLsb' 0 3) := by
    have hmask : (0x7 : BitVec 32) = place 32 0 (BitVec.allOnes 3) := by decide
    rw [hmask, and_place_allOnes, place_shiftLeft,
      BitVec.extractLsb'_setWidth_of_le (show 0 + 3 ≤ 32 by decide)]
  have hoff : regOffset.setWidth 32 &&& 0xfc = place 32 2 (regOffset.extractLsb' 2 6) := by
    have hmask : (0xfc : BitVec 32) = place 32 2 (BitVec.allOnes 6) := by decide
    rw [hmask, and_place_allOnes, BitVec.extractLsb'_setWidth_of_le (show 2 + 6 ≤ 32 by decide)]
  simp only [pciCfgAddr]
  rw [henable, hbus, hslot, hfn, hoff]

/-- The host bridge takes the address apart again. -/
theorem pciCfgAddr_fields (bus slot fn regOffset : BitVec 8) :
    let cfg := pciCfgAddr bus slot fn regOffset
    cfg.getLsbD 31 = true ∧ cfg.extractLsb' 16 8 = bus ∧ cfg.extractLsb' 11 5 = slot.extractLsb' 0 5 ∧
      cfg.extractLsb' 8 3 = fn.extractLsb' 0 3 ∧ cfg.extractLsb' 2 6 = regOffset.extractLsb' 2 6 := by
  have hother : ∀ {n s t m : ℕ} (x : BitVec n), (s + n ≤ t ∨ t + m ≤ s) →
      (place 32 s x).extractLsb' t m = 0#m := fun x h => extract_place_of_disjoint x h
  simp only [pciCfgAddr_eq]
  refine ⟨?_, ?_, ?_, ?_, ?_⟩
  · simp [getLsbD_place]
  · simp only [BitVec.extractLsb'_or]
    rw [hother _ (by decide), extract_place bus (by decide), hother _ (by decide),
      hother _ (by decide), hother _ (by decide)]
    simp only [BitVec.or_zero, BitVec.zero_or]
  · simp only [BitVec.extractLsb'_or]
    rw [hother _ (by decide), hother _ (by decide), extract_place _ (by decide),
      hother _ (by decide), hother _ (by decide)]
    simp only [BitVec.or_zero, BitVec.zero_or]
  · simp only [BitVec.extractLsb'_or]
    rw [hother _ (by decide), hother _ (by decide), hother _ (by decide),
      extract_place _ (by decide), hother _ (by decide)]
    simp only [BitVec.or_zero, BitVec.zero_or]
  · simp only [BitVec.extractLsb'_or]
    rw [hother _ (by decide), hother _ (by decide), hother _ (by decide), hother _ (by decide),
      extract_place _ (by decide)]
    simp only [BitVec.zero_or]

/-- The fields of an address that was put together from numbers in their ranges. -/
theorem pciCfgAddr_toNat {bus slot fn regOffset : ℕ} (hbus : bus < 256) (hslot : slot < 32)
    (hfn : fn < 8) (hoff : regOffset < 256) :
    let cfg := pciCfgAddr (.ofNat 8 bus) (.ofNat 8 slot) (.ofNat 8 fn) (.ofNat 8 regOffset)
    cfg.getLsbD 31 = true ∧ (cfg.extractLsb' 16 8).toNat = bus ∧
      (cfg.extractLsb' 11 5).toNat = slot ∧ (cfg.extractLsb' 8 3).toNat = fn ∧
      (cfg.extractLsb' 2 6).toNat = regOffset / 4 := by
  obtain ⟨henable, hbus', hslot', hfn', hoff'⟩ :=
    pciCfgAddr_fields (.ofNat 8 bus) (.ofNat 8 slot) (.ofNat 8 fn) (.ofNat 8 regOffset)
  simp only [hbus', hslot', hfn', hoff']
  refine ⟨henable, ?_, ?_, ?_, ?_⟩
  · rw [BitVec.toNat_ofNat, Nat.mod_eq_of_lt hbus]
  · rw [BitVec.extractLsb'_toNat, BitVec.toNat_ofNat, Nat.shiftRight_zero]
    omega
  · rw [BitVec.extractLsb'_toNat, BitVec.toNat_ofNat, Nat.shiftRight_zero]
    omega
  · rw [BitVec.extractLsb'_toNat, BitVec.toNat_ofNat, Nat.shiftRight_eq_div_pow]
    omega

variable {bus slot fn : ℕ}

/-- The dword that is read is the one that was asked for. -/
theorem pciCfgRdword_eq (cs : CfgSpace) (hbus : bus < 256) (hslot : slot < 32) (hfn : fn < 8)
    {regOffset : ℕ} (hoff : regOffset < 256) :
    pciCfgRdword cs bus slot fn regOffset = cs bus slot fn (regOffset / 4) := by
  obtain ⟨henable, hbus', hslot', hfn', hoff'⟩ := pciCfgAddr_toNat hbus hslot hfn hoff
  rw [pciCfgRdword, CfgSpace.inl, if_pos henable, hbus', hslot', hfn', hoff']

/-- A word that is read from an even offset is two bytes of the header. -/
theorem pciCfgRword_eq (cs : CfgSpace) (hbus : bus < 256) (hslot : slot < 32) (hfn : fn < 8)
    {regOffset : ℕ} (hoff : regOffset < 256) (heven : regOffset % 2 = 0) :
    pciCfgRword cs bus slot fn regOffset =
      cs.byte bus slot fn (regOffset + 1) ++ cs.byte bus slot fn regOffset := by
  have hshift : ∀ o < 256, o % 2 = 0 → (o &&& 2) * 8 = 8 * (o % 4) := by decide +kernel
  have hmask : (0xffff : BitVec 32) = place 32 0 (BitVec.allOnes 16) := by decide
  have hdword : (regOffset + 1) / 4 = regOffset / 4 := by omega
  have hbyte : 8 * ((regOffset + 1) % 4) = 8 * (regOffset % 4) + 8 := by omega
  simp only [pciCfgRword]
  rw [pciCfgRdword_eq cs hbus hslot hfn hoff, hshift _ hoff heven, hmask, and_place_allOnes,
    setWidth_place _ (by decide), place_zero, extract_ushiftRight, CfgSpace.byte, CfgSpace.byte, hdword,
    hbyte, BitVec.extractLsb'_append_extractLsb'_eq_extractLsb' rfl, Nat.add_zero]

/-- The vendor. -/
theorem pciGetVendor_eq (cs : CfgSpace) (hbus : bus < 256) (hslot : slot < 32) (hfn : fn < 8) :
    pciGetVendor cs bus slot fn = cs.byte bus slot fn 1 ++ cs.byte bus slot fn 0 :=
  pciCfgRword_eq cs hbus hslot hfn (by decide) (by decide)

/-- The header type. -/
theorem pciGetHtype_eq (cs : CfgSpace) (hbus : bus < 256) (hslot : slot < 32) (hfn : fn < 8) :
    pciGetHtype cs bus slot fn = cs.byte bus slot fn 14 := by
  rw [pciGetHtype, pciCfgRword_eq cs hbus hslot hfn (by decide) (by decide), BitVec.setWidth_append]
  simp

/-- The class. -/
theorem pciClass_eq (cs : CfgSpace) (hbus : bus < 256) (hslot : slot < 32) (hfn : fn < 8) :
    pciCfgRdword cs bus slot fn 8 >>> 8 = (cs.byte bus slot fn 11 ++ cs.byte bus slot fn 10 ++
      cs.byte bus slot fn 9).setWidth 32 := by
  have hbytes : cs.byte bus slot fn 11 ++ cs.byte bus slot fn 10 ++ cs.byte bus slot fn 9 =
      (cs bus slot fn 2).extractLsb' 8 24 := by
    have hhigh : cs.byte bus slot fn 11 ++ cs.byte bus slot fn 10 =
        (cs bus slot fn 2).extractLsb' 16 16 :=
      BitVec.extractLsb'_append_extractLsb'_eq_extractLsb' rfl
    rw [hhigh]
    exact BitVec.extractLsb'_append_extractLsb'_eq_extractLsb' rfl
  rw [pciCfgRdword_eq cs hbus hslot hfn (by decide), hbytes]
  apply BitVec.eq_of_getLsbD_eq
  intro i hi
  rw [BitVec.getLsbD_ushiftRight, BitVec.getLsbD_setWidth, BitVec.getLsbD_extractLsb']
  by_cases hin : i < 24
  · simp [hin, hi]
  · have hout : (cs bus slot fn (8 / 4)).getLsbD (8 + i) = false :=
      BitVec.getLsbD_of_ge _ _ (by omega)
    simp [hin, hout]

end PakOS
