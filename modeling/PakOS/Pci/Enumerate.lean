import Mathlib.Data.Set.Card
import PakOS.Kernel.State
import PakOS.Pci.Config

/-!
# PCI enumeration

`pci_add_dev`, `pci_findall`, `pci_enumerate_devs` and `init_pci` of `kernel/pci-bus/pci.c`.  A
device that answers is appended to a table of 32 pointers; the loops run over the buses, the slots
of a bus and the functions of a slot.

What the loops append is a list (`pciEnumerateDevs_eq`), which is sorted and lists the functions
that a set-level specification asks for, `Found`.  When there are at most 32 of them the table is
this list (`pciEnumerateDevs_lists`), and this is also when no pointer is stored behind its end
(`stores_inside_iff`).
-/

namespace PakOS

/-! ### The loops -/

/-- `PCI_MULTIFUNC` -/
def pciMultifunc : BitVec 8 := 0x80

/-- `struct gpci_dev` -/
structure GpciDev where
  /-- `bus` -/
  bus : ℕ
  /-- `slot` -/
  slot : ℕ
  /-- `func` -/
  func : ℕ
  /-- `header_typ` -/
  headerTyp : BitVec 8
  /-- `vendor_id` -/
  vendorId : BitVec 16
  /-- `device_id` -/
  deviceId : BitVec 16
  /-- `mainclass` -/
  mainclass : BitVec 32
  deriving DecidableEq

/-- The table of devices.  A store behind its end is recorded in `stores`, and lost to the table. -/
structure PciState where
  /-- What the entries of `gpci_devs` point to. -/
  gpciDevs : List (Option GpciDev)
  /-- `gpci_devs_n` -/
  gpciDevsN : ℕ
  /-- The indices that pointers were stored at. -/
  stores : List ℕ
  deriving DecidableEq

/-- `gpci_devs[gpci_devs_n++] = pcidev` -/
def PciState.append (s : PciState) (pcidev : GpciDev) : PciState where
  gpciDevs := s.gpciDevs.set s.gpciDevsN (some pcidev)
  gpciDevsN := s.gpciDevsN + 1
  stores := s.stores ++ [s.gpciDevsN]

/-- The device that `pci_add_dev` puts together. -/
def pciDevAt (cs : CfgSpace) (onBus onSlot usingFun : ℕ) : GpciDev where
  bus := onBus
  slot := onSlot
  func := usingFun
  headerTyp := pciGetHtype cs onBus onSlot usingFun
  vendorId := pciGetVendor cs onBus onSlot usingFun
  deviceId := pciCfgRword cs onBus onSlot usingFun 2
  mainclass := pciCfgRdword cs onBus onSlot usingFun 8 >>> 8

/-- `pci_add_dev(on_bus, on_slot, using_fun)` -/
def pciAddDev (cs : CfgSpace) (onBus onSlot usingFun : ℕ) (s : PciState) :
    Option GpciDev × PciState :=
  if pciGetVendor cs onBus onSlot usingFun ≠ 0xffff then
    (some (pciDevAt cs onBus onSlot usingFun), s.append (pciDevAt cs onBus onSlot usingFun))
  else (none, s)

/-- The body of the loop of `pci_findall`. -/
def pciFindSlot (cs : CfgSpace) (onBus : ℕ) (s : PciState) (slot : ℕ) : PciState :=
  match pciAddDev cs onBus slot 0 s with
  | (some pcidev, s') =>
    if pcidev.headerTyp &&& pciMultifunc ≠ 0 then
      (List.range' 1 7).foldl (fun s func => (pciAddDev cs onBus slot func s).2) s'
    else s'
  | (none, s') => s'

/-- `pci_findall(on_bus)` -/
def pciFindall (cs : CfgSpace) (onBus : ℕ) (s : PciState) : PciState :=
  (List.range 32).foldl (pciFindSlot cs onBus) s

/-- `pci_enumerate_devs()` -/
def pciEnumerateDevs (cs : CfgSpace) (s : PciState) : PciState :=
  if pciGetHtype cs 0 0 0 &&& pciMultifunc ≠ 0 then
    (List.range 8).foldl (fun s func =>
      if pciGetVendor cs 0 0 func ≠ 0xffff then pciFindall cs func s else s) s
  else pciFindall cs 0 s

/-- The table that `init_pci` allocates. -/
def PciState.empty : PciState where
  gpciDevs := List.replicate 32 none
  gpciDevsN := 0
  stores := []

/-- `init_pci()` -/
def initPci (cs : CfgSpace) : Status × PciState :=
  let s := pciEnumerateDevs cs .empty
  if s.gpciDevsN = 0 then (.failedInit, s) else (.ok, s)

/-! ### What is to be found -/

/-- A function, by its bus, its slot and its number. -/
structure PciFn where
  /-- The bus. -/
  bus : ℕ
  /-- The slot. -/
  slot : ℕ
  /-- The function. -/
  func : ℕ
  deriving DecidableEq

/-- The order of functions. -/
def PciFn.Before (f g : PciFn) : Prop :=
  f.bus < g.bus ∨ f.bus = g.bus ∧ (f.slot < g.slot ∨ f.slot = g.slot ∧ f.func < g.func)

namespace CfgSpace

variable (cs : CfgSpace)

/-- A function answers: its vendor is not all ones. -/
def Exists (f : PciFn) : Prop :=
  cs.byte f.bus f.slot f.func 1 ++ cs.byte f.bus f.slot f.func 0 ≠ 0xffff#16

/-- The multifunction bit in the header of a function. -/
def Multifunction (f : PciFn) : Prop := (cs.byte f.bus f.slot f.func 14).getLsbD 7

instance (f : PciFn) : Decidable (cs.Exists f) := inferInstanceAs (Decidable (_ ≠ _))

instance (f : PciFn) : Decidable (cs.Multifunction f) := inferInstanceAs (Decidable (_ = true))

/-- The buses that are looked at: bus 0 if `0:0.0` is a single function, else those whose number is
that of a function of it. -/
def Scanned (bus : ℕ) : Prop :=
  if cs.Multifunction ⟨0, 0, 0⟩ then bus < 8 ∧ cs.Exists ⟨0, 0, bus⟩ else bus = 0

/-- The functions that there are on these buses: a slot has others than function 0 only if that one
exists and says so. -/
structure Found (f : PciFn) : Prop where
  /-- The bus. -/
  bus : cs.Scanned f.bus
  /-- The slot. -/
  slot : f.slot < 32
  /-- The function. -/
  func : f.func < 8
  /-- It answers. -/
  exist : cs.Exists f
  /-- It is function 0 or belongs to a slot with several functions. -/
  multi : f.func = 0 ∨
    cs.Exists ⟨f.bus, f.slot, 0⟩ ∧ cs.Multifunction ⟨f.bus, f.slot, 0⟩

end CfgSpace

/-- The function of a device. -/
def GpciDev.fn (d : GpciDev) : PciFn := ⟨d.bus, d.slot, d.func⟩

/-- The fields of a device are the bytes of its header. -/
structure GpciDev.Describes (d : GpciDev) (cs : CfgSpace) : Prop where
  /-- `vendor_id` -/
  vendorId : d.vendorId = cs.byte d.bus d.slot d.func 1 ++ cs.byte d.bus d.slot d.func 0
  /-- `device_id` -/
  deviceId : d.deviceId = cs.byte d.bus d.slot d.func 3 ++ cs.byte d.bus d.slot d.func 2
  /-- `mainclass` -/
  mainclass : d.mainclass = (cs.byte d.bus d.slot d.func 11 ++ cs.byte d.bus d.slot d.func 10 ++
    cs.byte d.bus d.slot d.func 9).setWidth 32
  /-- `header_typ` -/
  headerTyp : d.headerTyp = cs.byte d.bus d.slot d.func 14

variable (cs : CfgSpace) {bus slot fn : ℕ}

/-- What is read tells whether a function answers. -/
theorem pciGetVendor_ne_iff (hbus : bus < 256) (hslot : slot < 32) (hfn : fn < 8) :
    pciGetVendor cs bus slot fn ≠ 0xffff ↔ cs.Exists ⟨bus, slot, fn⟩ := by
  rw [pciGetVendor_eq cs hbus hslot hfn]
  exact Iff.rfl

/-- A word has a bit in common with a mask of bit 7 exactly if it has that bit. -/
theorem and_pciMultifunc_ne_iff (x : BitVec 8) : x &&& pciMultifunc ≠ 0 ↔ x.getLsbD 7 := by
  revert x
  decide

/-- What is read tells whether a slot has several functions. -/
theorem pciGetHtype_and_ne_iff (hbus : bus < 256) (hslot : slot < 32) (hfn : fn < 8) :
    pciGetHtype cs bus slot fn &&& pciMultifunc ≠ 0 ↔ cs.Multifunction ⟨bus, slot, fn⟩ := by
  rw [pciGetHtype_eq cs hbus hslot hfn]
  exact and_pciMultifunc_ne_iff _

/-- The device that is put together for a function has its fields. -/
theorem describes_pciDevAt (hbus : bus < 256) (hslot : slot < 32) (hfn : fn < 8) :
    (pciDevAt cs bus slot fn).Describes cs where
  vendorId := pciGetVendor_eq cs hbus hslot hfn
  deviceId := pciCfgRword_eq cs hbus hslot hfn (by decide) (by decide)
  mainclass := pciClass_eq cs hbus hslot hfn
  headerTyp := pciGetHtype_eq cs hbus hslot hfn

/-! ### What the loops append -/

/-- Append devices one after the other. -/
def PciState.appendAll (s : PciState) (l : List GpciDev) : PciState := l.foldl PciState.append s

/-- The functions that are found in a slot. -/
def slotFns (bus slot : ℕ) : List ℕ :=
  if cs.Exists ⟨bus, slot, 0⟩ then
    0 :: if cs.Multifunction ⟨bus, slot, 0⟩ then
      (List.range' 1 7).filter fun fn => cs.Exists ⟨bus, slot, fn⟩ else []
  else []

/-- The functions that are found on a bus. -/
def busFns (bus : ℕ) : List PciFn :=
  (List.range 32).flatMap fun slot => (slotFns cs bus slot).map fun fn => ⟨bus, slot, fn⟩

/-- The buses that are looked at. -/
def scannedBuses : List ℕ :=
  if cs.Multifunction ⟨0, 0, 0⟩ then (List.range 8).filter fun bus => cs.Exists ⟨0, 0, bus⟩ else [0]

/-- The functions that are found. -/
def foundFns : List PciFn := (scannedBuses cs).flatMap (busFns cs)

/-- The devices of these functions. -/
def devsOf (fs : List PciFn) : List GpciDev := fs.map fun f => pciDevAt cs f.bus f.slot f.func

theorem PciState.appendAll_append (s : PciState) (l l' : List GpciDev) :
    s.appendAll (l ++ l') = (s.appendAll l).appendAll l' := List.foldl_append

/-- A loop each of whose turns appends a list. -/
theorem foldl_appendAll {α : Type*} {f : PciState → α → PciState} {g : α → List GpciDev}
    {l : List α} (h : ∀ x ∈ l, ∀ s, f s x = s.appendAll (g x)) (s : PciState) :
    l.foldl f s = s.appendAll (l.flatMap g) := by
  induction l generalizing s with
  | nil => rfl
  | cons x l ih =>
    rw [List.foldl_cons, h x List.mem_cons_self, ih fun y hy => h y (List.mem_cons_of_mem x hy),
      List.flatMap_cons, PciState.appendAll_append]

/-- A loop that passes over some of its turns. -/
theorem foldl_filter_of_ite {α : Type*} {f g : PciState → α → PciState} {p : α → Prop}
    [DecidablePred p] {l : List α} (h : ∀ x ∈ l, ∀ s, f s x = if p x then g s x else s)
    (s : PciState) : l.foldl f s = (l.filter fun x => p x).foldl g s := by
  rw [List.foldl_filter]
  apply List.foldl_ext
  intro s x hx
  rw [h x hx]
  simp only [decide_eq_true_eq]

/-- What `pci_add_dev` appends. -/
theorem pciAddDev_snd (hbus : bus < 256) (hslot : slot < 32) (hfn : fn < 8) (s : PciState) :
    (pciAddDev cs bus slot fn s).2 =
      if cs.Exists ⟨bus, slot, fn⟩ then s.append (pciDevAt cs bus slot fn) else s := by
  have hvendor := pciGetVendor_ne_iff cs hbus hslot hfn
  rw [pciAddDev]
  by_cases hex : cs.Exists ⟨bus, slot, fn⟩
  · rw [if_pos (hvendor.mpr hex), if_pos hex]
  · rw [if_neg (mt hvendor.mp hex), if_neg hex]

/-- What is appended for a slot. -/
theorem pciFindSlot_eq (hbus : bus < 256) (hslot : slot < 32) (s : PciState) :
    pciFindSlot cs bus s slot =
      s.appendAll (devsOf cs ((slotFns cs bus slot).map fun fn => ⟨bus, slot, fn⟩)) := by
  have hvendor := pciGetVendor_ne_iff cs hbus hslot (show 0 < 8 by decide)
  have hhtype := pciGetHtype_and_ne_iff cs hbus hslot (show 0 < 8 by decide)
  have hhead : (pciDevAt cs bus slot 0).headerTyp = pciGetHtype cs bus slot 0 := rfl
  rw [pciFindSlot, pciAddDev, slotFns]
  by_cases hex : cs.Exists ⟨bus, slot, 0⟩
  · rw [if_pos (hvendor.mpr hex), if_pos hex]
    simp only [hhead]
    by_cases hmulti : cs.Multifunction ⟨bus, slot, 0⟩
    · have hloop : ∀ fn ∈ List.range' 1 7, ∀ s, (pciAddDev cs bus slot fn s).2 =
          if cs.Exists ⟨bus, slot, fn⟩ then s.append (pciDevAt cs bus slot fn) else s := by
        intro fn hfn s
        rw [List.mem_range'_1] at hfn
        exact pciAddDev_snd cs hbus hslot hfn.2 s
      rw [if_pos (hhtype.mpr hmulti), if_pos hmulti, foldl_filter_of_ite hloop, List.map_cons, devsOf,
        List.map_cons, List.map_map, PciState.appendAll, List.foldl_cons, List.foldl_map]
      rfl
    · rw [if_neg (mt hhtype.mp hmulti), if_neg hmulti]
      rfl
  · rw [if_neg (mt hvendor.mp hex), if_neg hex]
    rfl

/-- What is appended for a bus. -/
theorem pciFindall_eq (hbus : bus < 256) (s : PciState) :
    pciFindall cs bus s = s.appendAll (devsOf cs (busFns cs bus)) := by
  rw [pciFindall, foldl_appendAll fun slot hslot s =>
    pciFindSlot_eq cs hbus (List.mem_range.mp hslot) s, busFns, devsOf, List.map_flatMap]
  rfl

/-- What `pci_enumerate_devs` appends. -/
theorem pciEnumerateDevs_eq (s : PciState) :
    pciEnumerateDevs cs s = s.appendAll (devsOf cs (foundFns cs)) := by
  have hhtype : pciGetHtype cs 0 0 0 &&& pciMultifunc ≠ 0 ↔ cs.Multifunction ⟨0, 0, 0⟩ :=
    pciGetHtype_and_ne_iff cs (by decide) (by decide) (by decide)
  rw [pciEnumerateDevs, foundFns, scannedBuses]
  by_cases hmulti : cs.Multifunction ⟨0, 0, 0⟩
  · have hloop : ∀ bus ∈ List.range 8, ∀ s,
        (if pciGetVendor cs 0 0 bus ≠ 0xffff then pciFindall cs bus s else s) =
          if cs.Exists ⟨0, 0, bus⟩ then pciFindall cs bus s else s := by
      intro bus hbus s
      have hvendor := pciGetVendor_ne_iff cs (show 0 < 256 by decide) (show 0 < 32 by decide)
        (List.mem_range.mp hbus)
      simp only [hvendor]
    have hbuses : ∀ bus ∈ (List.range 8).filter fun bus => cs.Exists ⟨0, 0, bus⟩, ∀ s,
        pciFindall cs bus s = s.appendAll (devsOf cs (busFns cs bus)) := by
      intro bus hbus s
      have hlt := List.mem_range.mp (List.mem_filter.mp hbus).1
      exact pciFindall_eq cs (show bus < 256 by omega) s
    rw [if_pos (hhtype.mpr hmulti), if_pos hmulti, foldl_filter_of_ite hloop,
      foldl_appendAll hbuses, devsOf, List.map_flatMap]
    rfl
  · rw [if_neg (mt hhtype.mp hmulti), if_neg hmulti, pciFindall_eq cs (by decide),
      List.flatMap_singleton]

/-! ### What is found -/

theorem mem_slotFns : fn ∈ slotFns cs bus slot ↔ fn < 8 ∧ cs.Exists ⟨bus, slot, fn⟩ ∧
    (fn = 0 ∨ cs.Exists ⟨bus, slot, 0⟩ ∧ cs.Multifunction ⟨bus, slot, 0⟩) := by
  rw [slotFns]
  by_cases hex : cs.Exists ⟨bus, slot, 0⟩
  · by_cases hmulti : cs.Multifunction ⟨bus, slot, 0⟩
    · rw [if_pos hex, if_pos hmulti, List.mem_cons, List.mem_filter, List.mem_range'_1,
        decide_eq_true_eq]
      constructor
      · rintro (rfl | ⟨hfn, hfnex⟩)
        · exact ⟨by decide, hex, Or.inl rfl⟩
        · exact ⟨hfn.2, hfnex, Or.inr ⟨hex, hmulti⟩⟩
      · rintro ⟨hlt, hfnex, -⟩
        by_cases h0 : fn = 0
        · exact Or.inl h0
        · exact Or.inr ⟨by omega, hfnex⟩
    · rw [if_pos hex, if_neg hmulti, List.mem_singleton]
      constructor
      · rintro rfl
        exact ⟨by decide, hex, Or.inl rfl⟩
      · rintro ⟨-, -, h0 | h⟩
        · exact h0
        · exact absurd h.2 hmulti
  · rw [if_neg hex]
    constructor
    · exact fun h => absurd h List.not_mem_nil
    · rintro ⟨-, hfnex, rfl | h⟩
      · exact absurd hfnex hex
      · exact absurd h.1 hex

theorem mem_scannedBuses : bus ∈ scannedBuses cs ↔ cs.Scanned bus := by
  rw [scannedBuses, CfgSpace.Scanned]
  split
  · rw [List.mem_filter, List.mem_range, decide_eq_true_eq]
  · exact List.mem_singleton

/-- The list has the functions that are to be found. -/
theorem mem_foundFns {f : PciFn} : f ∈ foundFns cs ↔ cs.Found f := by
  simp only [foundFns, busFns, List.mem_flatMap, List.mem_map, List.mem_range, mem_scannedBuses,
    mem_slotFns]
  constructor
  · rintro ⟨bus, hbus, slot, hslot, fn, ⟨hfn, hex, hmulti⟩, rfl⟩
    exact ⟨hbus, hslot, hfn, hex, hmulti⟩
  · intro h
    exact ⟨f.bus, h.bus, f.slot, h.slot, f.func, ⟨h.func, h.exist, h.multi⟩, rfl⟩

/-- The functions of a slot are in order. -/
theorem pairwise_slotFns (bus slot : ℕ) : (slotFns cs bus slot).Pairwise (· < ·) := by
  rw [slotFns]
  split
  · refine List.pairwise_cons.mpr ⟨?_, ?_⟩
    · intro fn hfn
      split at hfn
      · exact (List.mem_range'_1.mp (List.mem_filter.mp hfn).1).1
      · exact absurd hfn List.not_mem_nil
    · split
      · exact (List.pairwise_lt_range' 1).filter _
      · exact .nil
  · exact .nil

/-- The buses are in order. -/
theorem pairwise_scannedBuses : (scannedBuses cs).Pairwise (· < ·) := by
  rw [scannedBuses]
  split
  · exact List.pairwise_lt_range.filter _
  · exact List.pairwise_singleton _ _

/-- The functions are in order. -/
theorem pairwise_foundFns : (foundFns cs).Pairwise PciFn.Before := by
  rw [foundFns, List.pairwise_flatMap]
  constructor
  · intro bus _
    rw [busFns, List.pairwise_flatMap]
    constructor
    · intro slot _
      rw [List.pairwise_map]
      exact (pairwise_slotFns cs bus slot).imp fun h => Or.inr ⟨rfl, Or.inr ⟨rfl, h⟩⟩
    · apply List.pairwise_lt_range.imp
      intro i j hij f hf g hg
      obtain ⟨_, _, rfl⟩ := List.mem_map.mp hf
      obtain ⟨_, _, rfl⟩ := List.mem_map.mp hg
      exact Or.inr ⟨rfl, Or.inl hij⟩
  · apply (pairwise_scannedBuses cs).imp
    intro i j hij f hf g hg
    simp only [busFns, List.mem_flatMap, List.mem_map] at hf hg
    obtain ⟨_, _, _, _, rfl⟩ := hf
    obtain ⟨_, _, _, _, rfl⟩ := hg
    exact Or.inl hij

/-- Their number. -/
theorem ncard_found : {f | cs.Found f}.ncard = (foundFns cs).length := by
  have hset : {f | cs.Found f} = ((foundFns cs).toFinset : Set PciFn) := by
    ext f
    rw [Set.mem_ofPred_eq, Finset.mem_coe, List.mem_toFinset, mem_foundFns]
  have hnodup : (foundFns cs).Nodup := by
    apply (pairwise_foundFns cs).imp
    rintro f _ hlt rfl
    unfold PciFn.Before at hlt
    omega
  rw [hset, Set.ncard_coe_finset, List.toFinset_card_of_nodup hnodup]

/-! ### The table -/

/-- The number of devices, and where their pointers were stored. -/
theorem gpciDevsN_appendAll (s : PciState) (l : List GpciDev) :
    (s.appendAll l).gpciDevsN = s.gpciDevsN + l.length ∧
      (s.appendAll l).stores = s.stores ++ List.range' s.gpciDevsN l.length := by
  induction l generalizing s with
  | nil => exact ⟨rfl, (List.append_nil _).symm⟩
  | cons d l ih =>
    obtain ⟨hn, hstores⟩ := ih (s.append d)
    refine ⟨hn.trans ?_, hstores.trans ?_⟩
    · change s.gpciDevsN + 1 + l.length = s.gpciDevsN + (l.length + 1)
      omega
    · change s.stores ++ [s.gpciDevsN] ++ List.range' (s.gpciDevsN + 1) l.length = _
      rw [List.length_cons, List.range'_succ, List.append_assoc, List.singleton_append]

/-- The table after devices were appended that it has room for. -/
theorem take_appendAll {s : PciState} {l : List GpciDev}
    (hroom : s.gpciDevsN + l.length ≤ s.gpciDevs.length) :
    (s.appendAll l).gpciDevs.take (s.gpciDevsN + l.length) =
      s.gpciDevs.take s.gpciDevsN ++ l.map some := by
  induction l generalizing s with
  | nil => exact (List.append_nil _).symm
  | cons d l ih =>
    rw [List.length_cons] at hroom
    have hlen : (s.gpciDevs.set s.gpciDevsN (some d)).length = s.gpciDevs.length := List.length_set
    have hlt : s.gpciDevsN < (s.gpciDevs.set s.gpciDevsN (some d)).length := by omega
    have hsplit : (s.gpciDevs.set s.gpciDevsN (some d)).take (s.gpciDevsN + 1) =
        s.gpciDevs.take s.gpciDevsN ++ [some d] := by
      rw [List.take_succ_eq_append_getElem hlt, List.take_set_of_le le_rfl, List.getElem_set_self]
    have hn : s.gpciDevsN + (d :: l).length = (s.append d).gpciDevsN + l.length := by
      change s.gpciDevsN + (l.length + 1) = s.gpciDevsN + 1 + l.length
      omega
    rw [hn]
    have hroom' : (s.append d).gpciDevsN + l.length ≤ (s.append d).gpciDevs.length := by
      change s.gpciDevsN + 1 + l.length ≤ (s.gpciDevs.set s.gpciDevsN (some d)).length
      omega
    refine (ih hroom').trans ?_
    change (s.gpciDevs.set s.gpciDevsN (some d)).take (s.gpciDevsN + 1) ++ l.map some = _
    rw [hsplit, List.append_assoc, List.singleton_append, List.map_cons]

/-- The state that `init_pci` leaves behind. -/
theorem initPci_snd : (initPci cs).2 = PciState.empty.appendAll (devsOf cs (foundFns cs)) := by
  rw [← pciEnumerateDevs_eq, initPci]
  split <;> rfl

theorem length_devsOf (fs : List PciFn) : (devsOf cs fs).length = fs.length := List.length_map _

/-- **PCI enumeration.**  When there are at most 32 functions, the table lists each of them once, in
order, with the fields of its header. -/
theorem pciEnumerateDevs_lists (hcount : {f | cs.Found f}.ncard ≤ 32) :
    ∃ devs : List GpciDev, (initPci cs).2.gpciDevsN = devs.length ∧
      (initPci cs).2.gpciDevs.take (initPci cs).2.gpciDevsN = devs.map some ∧
      (devs.map GpciDev.fn).Pairwise PciFn.Before ∧
      (∀ f, f ∈ devs.map GpciDev.fn ↔ cs.Found f) ∧ ∀ d ∈ devs, d.Describes cs := by
  rw [ncard_found] at hcount
  have hkeys : (devsOf cs (foundFns cs)).map GpciDev.fn = foundFns cs := by
    rw [devsOf, List.map_map]
    exact List.map_id _
  have hn : (initPci cs).2.gpciDevsN = (devsOf cs (foundFns cs)).length := by
    rw [initPci_snd, (gpciDevsN_appendAll _ _).1]
    exact Nat.zero_add _
  refine ⟨devsOf cs (foundFns cs), hn, ?_, ?_, ?_, ?_⟩
  · have hroom : PciState.empty.gpciDevsN + (devsOf cs (foundFns cs)).length ≤
        PciState.empty.gpciDevs.length := by
      rw [length_devsOf]
      exact (Nat.zero_add _).trans_le hcount
    have htake := take_appendAll hroom
    rwa [← initPci_snd, show PciState.empty.gpciDevsN = 0 from rfl, Nat.zero_add, ← hn] at htake
  · rw [hkeys]
    exact pairwise_foundFns cs
  · rw [hkeys]
    exact fun f => mem_foundFns cs
  · intro d hd
    obtain ⟨f, hf, rfl⟩ := List.mem_map.mp hd
    have hfound := (mem_foundFns cs).mp hf
    have hbus : f.bus < 8 := by
      have hscan := hfound.bus
      unfold CfgSpace.Scanned at hscan
      split at hscan
      · exact hscan.1
      · omega
    exact describes_pciDevAt cs (by omega) hfound.slot hfound.func

/-- What the host bridge of the emulated machine answers: itself, a bridge with three functions, a
display and a network card, all on bus 0. -/
def pcCfgSpace : CfgSpace := fun bus slot fn dword =>
  match bus, slot, fn, dword with
  | 0, 0, 0, 0 => 0x12378086
  | 0, 0, 0, 2 => 0x06000002
  | 0, 0, 0, 3 => 0
  | 0, 1, 0, 0 => 0x70008086
  | 0, 1, 0, 2 => 0x06010000
  | 0, 1, 0, 3 => 0x00800000
  | 0, 1, 1, 0 => 0x70108086
  | 0, 1, 3, 0 => 0x71138086
  | 0, 2, 0, 0 => 0x11111234
  | 0, 2, 0, 3 => 0
  | 0, 3, 0, 0 => 0x100e8086
  | 0, 3, 0, 2 => 0x02000003
  | 0, 3, 0, 3 => 0
  | _, _, _, _ => 0xffffffff

theorem pciEnumerateDevs_lists_pc :
    (initPci pcCfgSpace).2.gpciDevsN = 6 ∧
    ∃ devs : List GpciDev, (initPci pcCfgSpace).2.gpciDevsN = devs.length ∧
      (initPci pcCfgSpace).2.gpciDevs.take (initPci pcCfgSpace).2.gpciDevsN = devs.map some ∧
      (devs.map GpciDev.fn).Pairwise PciFn.Before ∧
      (∀ f, f ∈ devs.map GpciDev.fn ↔ pcCfgSpace.Found f) ∧ ∀ d ∈ devs, d.Describes pcCfgSpace := by
  have hcount : {f | pcCfgSpace.Found f}.ncard ≤ 32 := by
    rw [ncard_found]
    decide +kernel
  exact ⟨by decide +kernel, pciEnumerateDevs_lists pcCfgSpace hcount⟩

/-- **The bounds of the table.**  No pointer is stored behind the end of the table exactly if there
are at most 32 functions. -/
theorem stores_inside_iff :
    (∀ i ∈ (initPci cs).2.stores, i < 32) ↔ {f | cs.Found f}.ncard ≤ 32 := by
  have hstores : (initPci cs).2.stores = List.range' 0 (foundFns cs).length := by
    rw [initPci_snd, (gpciDevsN_appendAll _ _).2, length_devsOf]
    exact List.nil_append _
  rw [ncard_found, hstores]
  constructor
  · intro h
    by_contra hlt
    exact absurd (h 32 (List.mem_range'_1.mpr (by omega))) (lt_irrefl 32)
  · intro hle i hi
    have hlt := (List.mem_range'_1.mp hi).2
    omega

/-- Five cards with eight functions each. -/
def crowdedCfgSpace : CfgSpace := fun bus slot _ dword =>
  if bus = 0 ∧ slot < 5 then
    match dword with
    | 0 => 0x100e8086
    | 3 => 0x00800000
    | _ => 0
  else 0xffffffff

/-- The 33rd of them is stored behind the end of the table. -/
theorem not_stores_inside :
    (initPci crowdedCfgSpace).2.gpciDevsN = 40 ∧
      ¬∀ i ∈ (initPci crowdedCfgSpace).2.stores, i < 32 := by
  decide +kernel

end PakOS
