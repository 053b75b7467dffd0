import PakOS.Machine.FlatMemory
import PakOS.Pci.Enumerate

/-!
# Access to configuration space

`pci_cfg_rdword`, `pci_cfg_rword` and `pci_cfg_wdword` of `kernel/pci-bus/pci.c` on a host bridge
with configuration mechanism 1: what is written to one port is latched, and the other port reads and
writes the dword that the latch names.  The latch is left behind by every call and put right by the
next, so that the calls read and write a flat memory of dwords (`flatMemory_pciAccess`), of which a
word is half a dword (`pciCfg_flat`).
-/

namespace PakOS

open Machine

/-- `PCI_CFGADDR` -/
def pciCfgaddr : BitVec 16 := 0xcf8

/-- `PCI_CFGDATA` -/
def pciCfgdata : BitVec 16 := 0xcfc

/-- The host bridge: what was latched last, and the configuration space behind it. -/
structure HostBridge where
  /-- The latched address. -/
  latch : BitVec 32
  /-- Configuration space. -/
  cfg : CfgSpace

/-- What a write to `PCI_CFGDATA` makes of configuration space when `cfg` was written to
`PCI_CFGADDR`. -/
def CfgSpace.outl (cs : CfgSpace) (cfg val : BitVec 32) : CfgSpace := fun bus slot fn reg =>
  if cfg.getLsbD 31 ∧ (cfg.extractLsb' 16 8).toNat = bus ∧ (cfg.extractLsb' 11 5).toNat = slot ∧
      (cfg.extractLsb' 8 3).toNat = fn ∧ (cfg.extractLsb' 2 6).toNat = reg then val
  else cs bus slot fn reg

namespace HostBridge

/-- `___outl(port, val)` -/
def outl (port : BitVec 16) (val : BitVec 32) (h : HostBridge) : HostBridge :=
  if port = pciCfgaddr then { h with latch := val }
  else if port = pciCfgdata then { h with cfg := h.cfg.outl h.latch val }
  else h

/-- `___inl(port)`; all ones where nothing answers. -/
def inl (port : BitVec 16) (h : HostBridge) : BitVec 32 :=
  if port = pciCfgaddr then h.latch
  else if port = pciCfgdata then h.cfg.inl h.latch
  else BitVec.allOnes 32

/-- `_pci_cfg_rdword(bus, slot, fun, reg_offset)` -/
def rdword (bus slot fn regOffset : ℕ) (h : HostBridge) : BitVec 32 × HostBridge :=
  let h := h.outl pciCfgaddr
    (pciCfgAddr (.ofNat 8 bus) (.ofNat 8 slot) (.ofNat 8 fn) (.ofNat 8 regOffset))
  (h.inl pciCfgdata, h)

/-- `_pci_cfg_rword(bus, slot, fun, reg_offset)` -/
def rword (bus slot fn regOffset : ℕ) (h : HostBridge) : BitVec 16 × HostBridge :=
  let (dword, h) := h.rdword bus slot fn regOffset
  ((dword >>> ((regOffset &&& 2) * 8) &&& 0xffff).setWidth 16, h)

/-- `pci_cfg_rdword(dev, reg_offset)` -/
def pciCfgRdword (dev : GpciDev) (regOffset : ℕ) (h : HostBridge) : BitVec 32 × HostBridge :=
  h.rdword dev.bus dev.slot dev.func regOffset

/-- `pci_cfg_rword(dev, reg_offset)` -/
def pciCfgRword (dev : GpciDev) (regOffset : ℕ) (h : HostBridge) : BitVec 16 × HostBridge :=
  h.rword dev.bus dev.slot dev.func regOffset

/-- `pci_cfg_wdword(dev, reg_offset, val)` -/
def pciCfgWdword (dev : GpciDev) (regOffset : ℕ) (val : BitVec 32) (h : HostBridge) : HostBridge :=
  let cfg : BitVec 32 := 0x80000000
  let cfg := cfg ||| (BitVec.ofNat 8 dev.bus).setWidth 32 <<< 16
  let cfg := cfg ||| ((BitVec.ofNat 8 dev.slot).setWidth 32 &&& 0x1f) <<< 11
  let cfg := cfg ||| ((BitVec.ofNat 8 dev.func).setWidth 32 &&& 0x7) <<< 8
  let cfg := cfg ||| ((BitVec.ofNat 8 regOffset).setWidth 32 &&& 0xfc)
  (h.outl pciCfgaddr cfg).outl pciCfgdata val

end HostBridge

/-- A call of one of the three functions. -/
inductive PciAccess
  /-- `pci_cfg_rdword(dev, reg_offset)` -/
  | rdword (dev : GpciDev) (regOffset : ℕ)
  /-- `pci_cfg_rword(dev, reg_offset)` -/
  | rword (dev : GpciDev) (regOffset : ℕ)
  /-- `pci_cfg_wdword(dev, reg_offset, val)` -/
  | wdword (dev : GpciDev) (regOffset : ℕ) (val : BitVec 32)

/-- What a call returns. -/
inductive PciAnswer
  | dword (v : BitVec 32)
  | word (v : BitVec 16)
  | done
  deriving DecidableEq

namespace PciAccess

/-- Make the call. -/
def step : PciAccess → HostBridge → PciAnswer × HostBridge
  | rdword dev regOffset, h => ((h.pciCfgRdword dev regOffset).map .dword id)
  | rword dev regOffset, h => ((h.pciCfgRword dev regOffset).map .word id)
  | wdword dev regOffset val, h => (.done, h.pciCfgWdword dev regOffset val)

/-- The device and the offset of a call. -/
def target : PciAccess → GpciDev × ℕ
  | rdword dev regOffset | rword dev regOffset | wdword dev regOffset _ => (dev, regOffset)

/-- The bus and the offset have 8 bits, the slot is below 32 and the function below 8. -/
def Ok (a : PciAccess) : Prop :=
  a.target.1.bus < 256 ∧ a.target.1.slot < 32 ∧ a.target.1.func < 8 ∧ a.target.2 < 256

/-- The dword that a call concerns: a function, and the number of the dword there. -/
def cell (a : PciAccess) : PciFn × ℕ := (a.target.1.fn, a.target.2 / 4)

/-- What a call writes. -/
def wrote : PciAccess → Option (BitVec 32)
  | rdword _ _ | rword _ _ => none
  | wdword _ _ val => some val

/-- What a call returns when the dword is `v`. -/
def answer : PciAccess → BitVec 32 → PciAnswer
  | rdword _ _, v => .dword v
  | rword _ regOffset, v =>
    .word (if regOffset.testBit 1 then v.extractLsb' 16 16 else v.extractLsb' 0 16)
  | wdword _ _ _, _ => .done

end PciAccess

/-- The dwords behind a host bridge. -/
def HostBridge.view (h : HostBridge) (c : PciFn × ℕ) : BitVec 32 :=
  h.cfg c.1.bus c.1.slot c.1.func c.2

/-! ### The calls read and write dwords -/

section Calls

variable {bus slot fn regOffset : ℕ}

/-- `_pci_cfg_rdword` returns the dword that it is asked for, whatever was latched before. -/
theorem HostBridge.rdword_eq (h : HostBridge) (hbus : bus < 256) (hslot : slot < 32) (hfn : fn < 8)
    (hoff : regOffset < 256) :
    (h.rdword bus slot fn regOffset).1 = h.cfg bus slot fn (regOffset / 4) :=
  PakOS.pciCfgRdword_eq h.cfg hbus hslot hfn hoff

/-- Half of a dword, as `_pci_cfg_rword` takes it. -/
theorem half_dword (v : BitVec 32) (regOffset : ℕ) :
    (v >>> ((regOffset &&& 2) * 8) &&& 0xffff).setWidth 16 =
      if regOffset.testBit 1 then v.extractLsb' 16 16 else v.extractLsb' 0 16 := by
  have hmask : (0xffff : BitVec 32) = place 32 0 (BitVec.allOnes 16) := by decide
  have hbit : regOffset &&& 2 = (regOffset.testBit 1).toNat * 2 := Nat.and_two_pow regOffset 1
  rw [hbit, hmask, and_place_allOnes, setWidth_place _ (by decide), place_zero, extract_ushiftRight]
  cases regOffset.testBit 1 <;> rfl

/-- The address that `pci_cfg_wdword` puts together is that of `_pci_cfg_rdword`. -/
theorem HostBridge.pciCfgWdword_eq (h : HostBridge) (dev : GpciDev) (regOffset : ℕ) (val : BitVec 32) :
    (h.pciCfgWdword dev regOffset val).cfg = h.cfg.outl (pciCfgAddr (.ofNat 8 dev.bus)
      (.ofNat 8 dev.slot) (.ofNat 8 dev.func) (.ofNat 8 regOffset)) val := rfl

/-- Writing a dword changes that one and no other. -/
theorem outl_pciCfgAddr (cs : CfgSpace) (hbus : bus < 256) (hslot : slot < 32) (hfn : fn < 8)
    (hoff : regOffset < 256) (val : BitVec 32) (bus' slot' fn' reg' : ℕ) :
    cs.outl (pciCfgAddr (.ofNat 8 bus) (.ofNat 8 slot) (.ofNat 8 fn) (.ofNat 8 regOffset)) val
        bus' slot' fn' reg' =
      if bus = bus' ∧ slot = slot' ∧ fn = fn' ∧ regOffset / 4 = reg' then val
      else cs bus' slot' fn' reg' := by
  obtain ⟨henable, hbus', hslot', hfn', hoff'⟩ := pciCfgAddr_toNat hbus hslot hfn hoff
  rw [CfgSpace.outl, henable, hbus', hslot', hfn', hoff']
  simp only [true_and]

end Calls

/-- The calls read and write a flat memory of dwords. -/
theorem flatMemory_pciAccess : FlatMemory PciAccess.Ok PciAccess.cell PciAccess.wrote
    PciAccess.answer HostBridge.view PciAccess.step where
  answer a h hok := by
    obtain ⟨hbus, hslot, hfn, hoff⟩ := hok
    cases a with
    | rdword dev regOffset =>
      exact congrArg PciAnswer.dword (h.rdword_eq hbus hslot hfn hoff)
    | rword dev regOffset =>
      refine congrArg PciAnswer.word ((half_dword _ regOffset).trans ?_)
      exact congrArg (fun v : BitVec 32 =>
        if regOffset.testBit 1 then v.extractLsb' 16 16 else v.extractLsb' 0 16)
        (h.rdword_eq hbus hslot hfn hoff)
    | wdword dev regOffset val => rfl
  same a h hok := by
    obtain ⟨hbus, hslot, hfn, hoff⟩ := hok
    cases a with
    | rdword dev regOffset => rfl
    | rword dev regOffset => rfl
    | wdword dev regOffset val =>
      refine (outl_pciCfgAddr h.cfg hbus hslot hfn hoff val _ _ _ _).trans ?_
      exact if_pos ⟨rfl, rfl, rfl, rfl⟩
  other a h c hok hne := by
    obtain ⟨hbus, hslot, hfn, hoff⟩ := hok
    cases a with
    | rdword dev regOffset => rfl
    | rword dev regOffset => rfl
    | wdword dev regOffset val =>
      refine (outl_pciCfgAddr h.cfg hbus hslot hfn hoff val _ _ _ _).trans (if_neg ?_)
      rintro ⟨hb, hs, hf, hr⟩
      refine hne (Prod.ext ?_ hr)
      exact (PciFn.mk.injEq _ _ _ _ _ _).mpr ⟨hb, hs, hf⟩

/-- **Configuration space is a flat memory.**  Whatever was latched before, and in every sequence of
calls: a dword is read as it was last written or found, a word is the half of that dword that bit 1
of its offset names; in the end every dword holds what was last written to it or what it held, and
calls that concern other dwords make no difference to it. -/
theorem pciCfg_flat (h : HostBridge) {as : List PciAccess} (has : ∀ a ∈ as, a.Ok) :
    (∀ pre a post, as = pre ++ a :: post →
      (runAll PciAccess.step as h).1[pre.length]? = some (a.answer
        ((lastWritten PciAccess.cell PciAccess.wrote pre a.cell).getD (h.view a.cell)))) ∧
    ∀ c, (runAll PciAccess.step as h).2.view c =
        (lastWritten PciAccess.cell PciAccess.wrote as c).getD (h.view c) ∧
      (runAll PciAccess.step (as.filter fun a => a.cell = c) h).2.view c =
        (runAll PciAccess.step as h).2.view c := by
  refine ⟨fun pre a post heq => ?_, fun c => ⟨?_, ?_⟩⟩
  · subst heq
    exact flatMemory_pciAccess.answer_runAll has h
  · exact flatMemory_pciAccess.view_runAll has h c
  · exact flatMemory_pciAccess.view_filter has h c

/-- A network card in slot 3 of bus 0. -/
def slotThree : GpciDev where
  bus := 0
  slot := 3
  func := 0
  headerTyp := 0
  vendorId := 0x8086
  deviceId := 0x100e
  mainclass := 0x020000

/-- A bridge behind which nothing was written yet. -/
def freshBridge : HostBridge := ⟨0, fun _ _ _ _ => BitVec.allOnes 32⟩

/-- The status of the card is the upper half of its second dword. -/
theorem pciCfg_flat_slotThree :
    (runAll PciAccess.step [.wdword slotThree 4 0x00120006, .wdword slotThree 8 7,
      .rword slotThree 4, .rword slotThree 6] freshBridge).1[3]? = some (.word 0x0012) := by
  refine ((pciCfg_flat freshBridge ?_).1 [.wdword slotThree 4 0x00120006, .wdword slotThree 8 7,
    .rword slotThree 4] (.rword slotThree 6) [] rfl).trans ?_
  · simp [PciAccess.Ok, PciAccess.target, slotThree]
  · decide

end PakOS
