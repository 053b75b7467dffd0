import PakOS.Pci.Enumerate

/-!
# Loading drivers

`load_pci_drivers` and `load_intel_devdrv` of `kernel/pci-bus/pci.c`, and what
`load_driver_eth_intel_8254x` of `driver/eth/intel_8254x.c` does to the network card that it
publishes. A pointer is what it points to, or nothing where it is `NULL`; `kmalloc` never returns
`NULL` (`kmalloc_ne_null`), but what it returns has unset fields.  What the driver reads of a card
is a parameter, and a load that ends in `KBREAK` or `kpanic`, or polls for ever, does not return.

Every load replaces the network card before anything can fail.  The one that is published in the end
is that of the last card, and it is usable exactly if this card has a 32-bit register space and an
address (`netcard_usable_iff`).
-/

namespace PakOS

/-! ### The driver -/

/-- `struct mac_addr` -/
structure MacAddr where
  /-- `bytes` -/
  bytes : BitVec 48
  deriving DecidableEq

/-- `struct ip_addr` -/
structure IpAddr where
  /-- `bytes` -/
  bytes : BitVec 32
  deriving DecidableEq

/-- The functions that send a packet. -/
inductive SendFn
  | addTxBuffer
  deriving DecidableEq

/-- A pointer in a block that `kmalloc` returned: whatever the heap held, or what it was set to,
where `NULL` is `none`. -/
inductive DevPtr (α : Type)
  | unset
  | set (p : Option α)
  deriving DecidableEq

/-- The pointer was set, and not to `NULL`. -/
def DevPtr.NonNull {α : Type} (f : DevPtr α) : Prop := ∃ a, f = .set (some a)

/-- `struct netdev` -/
structure Netdev where
  /-- `write_partial_packet` -/
  writePartialPacket : DevPtr SendFn
  /-- `mac_addr` -/
  macAddr : DevPtr MacAddr
  /-- `ip_addr` -/
  ipAddr : DevPtr IpAddr
  deriving DecidableEq

/-- A block of the size of a `struct netdev`. -/
def Netdev.unset : Netdev := ⟨.unset, .unset, .unset⟩

/-- All that is used of a network card was set. -/
structure Netdev.Usable (n : Netdev) : Prop where
  /-- `write_partial_packet` -/
  writePartialPacket : n.writePartialPacket.NonNull
  /-- `mac_addr` -/
  macAddr : n.macAddr.NonNull
  /-- `ip_addr` -/
  ipAddr : n.ipAddr.NonNull

/-- What the driver reads of a card. -/
structure Card where
  /-- `pci_cfg_rdword(pcidev, 0x10)` -/
  bar0 : BitVec 32
  /-- `pci_cfg_rdword(pcidev, 0x4)` -/
  command : BitVec 32
  /-- The same, after it was written to. -/
  commandAfter : BitVec 32 → BitVec 32
  /-- `eeprom_rword(offset)`, if the card answers at all. -/
  eeprom : ℕ → Option (BitVec 16)
  /-- `rreg(REG_STATUS)` -/
  status : BitVec 32
  /-- `_lpa(txqueue)` -/
  tdaddr : BitVec 32

/-- A load of the driver. -/
structure Load where
  /-- `netcard1` before. -/
  before : Option ℕ
  /-- What the driver returned. -/
  status : Status
  /-- `netcard1` after. -/
  after : Option ℕ
  deriving DecidableEq

/-- The variable `netcard1`, as the number of a block, the blocks that were allocated for it, and
the loads of the driver so far. -/
structure Netcards where
  /-- `netcard1` -/
  netcard1 : Option ℕ
  /-- The blocks. -/
  netdevs : List Netdev
  /-- The loads. -/
  loads : List Load
  deriving DecidableEq

namespace Card

/-- `pci_enable_bus_mastering(pcidev)` -/
def pciEnableBusMastering (c : Card) : Option Unit :=
  let cmd := c.command ||| 1#32 <<< 2
  if c.commandAfter cmd &&& 1#32 <<< 2 = 0 then none else some ()

/-- `get_mac_addr()` -/
def getMacAddr (c : Card) : Option MacAddr := do
  let mac21 ← c.eeprom 0x0
  let mac43 ← c.eeprom 0x1
  let mac65 ← c.eeprom 0x2
  return ⟨mac65 ++ mac43 ++ mac21⟩

/-- `get_ipv4_addr(LAN_A)` -/
def getIpv4Addr (c : Card) : Option (Option IpAddr) := do
  let mgmt ← c.eeprom 0x23
  if mgmt &&& 1#16 <<< 6 = 0 then
    return none
  else
    let ip12 ← c.eeprom 0x25
    let ip34 ← c.eeprom 0x26
    return some ⟨ip34.setWidth 32 <<< 16 ||| ip12.setWidth 32⟩

/-- `load_driver_eth_intel_8254x(pcidev, &netcard1)` -/
def loadDriver (c : Card) (s : Netcards) : Option (Status × Netcards) :=
  if c.bar0 &&& 0x2 ≠ 0 then some (.driverError, s)
  else do
    c.pciEnableBusMastering
    let _vendor ← c.eeprom 0xE
    let _mac ← c.getMacAddr
    let ip ← c.getIpv4Addr
    -- the link is down, or transmission is paused, or the queue is not aligned
    guard (c.status &&& 1#32 <<< 1 ≠ 0)
    guard (c.status &&& 1#32 <<< 4 = 0)
    guard (c.tdaddr &&& 0x7 = 0)
    let mac ← c.getMacAddr
    let netdev : Netdev := ⟨.set (some .addTxBuffer), .set (some mac), .set ip⟩
    match s.netcard1 with
    | none => none
    | some i => return (.ok, { s with netdevs := s.netdevs.set i netdev })

end Card

/-- The cards that the driver is for. -/
def deviceIds : List (BitVec 16) :=
  [0x1019, 0x101A, 0x1010, 0x1015, 0x1012, 0x101D, 0x1079, 0x107A, 0x107B, 0x100F, 0x1011, 0x1026,
    0x1027, 0x1028, 0x1107, 0x1112, 0x1013, 0x1018, 0x1076, 0x1077, 0x1078, 0x1017, 0x1016, 0x100E]

/-! ### Loading -/

/-- `netcard1 = kmalloc(sizeof(struct netdev))` -/
def Netcards.alloc (s : Netcards) : Netcards :=
  { s with netcard1 := some s.netdevs.length, netdevs := s.netdevs ++ [.unset] }

/-- `load_intel_devdrv(dev)` -/
def loadIntelDevdrv (dev : GpciDev) (c : Card) (s : Netcards) : Option (Status × Netcards) :=
  if dev.deviceId ∈ deviceIds then
    (c.loadDriver s.alloc).map fun r =>
      (r.1, { r.2 with loads := r.2.loads ++ [⟨s.netcard1, r.1, r.2.netcard1⟩] })
  else some (.noDriver, s)

/-- The body of the loop of `load_pci_drivers`. -/
def loadPciDriver (s : Netcards) (dev : GpciDev × Card) : Option Netcards :=
  if dev.1.vendorId = 0x8086 then (loadIntelDevdrv dev.1 dev.2 s).map Prod.snd
  else some s

/-- `load_pci_drivers()`, for devices that each have the card that the driver would find. -/
def loadPciDrivers (devs : List (GpciDev × Card)) (s : Netcards) : Option (Status × Netcards) :=
  (devs.foldlM loadPciDriver s).map fun s => (.ok, s)

/-- Before any driver is loaded. -/
def Netcards.boot : Netcards := ⟨none, [], []⟩

/-! ### What is published -/

/-- The network card can be relied on: it is usable if there is one, by a load that returned
`STATUS_OK`, and a load that failed has left it alone. -/
structure Netcards.Consistent (s : Netcards) : Prop where
  /-- What is published is usable. -/
  published : ∀ i, s.netcard1 = some i → ∃ n, s.netdevs[i]? = some n ∧ n.Usable ∧
    ∃ l ∈ s.loads, l.status = .ok ∧ l.after = some i
  /-- A load that failed. -/
  failed : ∀ l ∈ s.loads, l.status ≠ .ok → l.after = l.before

/-- The pointers that `kernel_init` and `netd_send_ipv4_arp_packet` follow were set, and are not
`NULL`. -/
def Netcards.Safe (s : Netcards) : Prop :=
  ∃ i n, s.netcard1 = some i ∧ s.netdevs[i]? = some n ∧ n.Usable

/-- The driver is loaded for a device. -/
def GpciDev.IsNic (d : GpciDev) : Prop := d.vendorId = 0x8086 ∧ d.deviceId ∈ deviceIds

instance (d : GpciDev) : Decidable d.IsNic := inferInstanceAs (Decidable (_ ∧ _))

/-- The cards that the driver is loaded for, in order. -/
def nics (devs : List (GpciDev × Card)) : List Card :=
  (devs.filter fun dev => dev.1.IsNic).map Prod.snd

/-- The register space of a card has a 32-bit address. -/
def Card.Bar32 (c : Card) : Prop := c.bar0 &&& 0x2 = 0

/-- The EEPROM of a card holds a valid address. -/
def Card.IpValid (c : Card) : Prop :=
  ∃ mgmt, c.eeprom 0x23 = some mgmt ∧ mgmt &&& 1#16 <<< 6 ≠ 0

variable {c : Card} {s s' : Netcards} {st : Status} {i : ℕ}

/-- The address is `NULL` when that in the EEPROM is not valid. -/
theorem getIpv4Addr_isSome {ip : Option IpAddr} (h : c.getIpv4Addr = some ip) :
    (∃ a, ip = some a) ↔ c.IpValid := by
  obtain ⟨mgmt, hmgmt, h⟩ := Option.bind_eq_some_iff.mp h
  unfold Card.IpValid
  by_cases hvalid : mgmt &&& 1#16 <<< 6 = 0
  · rw [if_pos hvalid] at h
    obtain rfl := Option.some.inj h
    refine iff_of_false (fun ⟨_, ha⟩ => Option.some_ne_none _ ha.symm) ?_
    rintro ⟨w, hw, hbit⟩
    exact hbit (Option.some.inj (hmgmt.symm.trans hw) ▸ hvalid)
  · rw [if_neg hvalid] at h
    obtain ⟨ip12, -, h⟩ := Option.bind_eq_some_iff.mp h
    obtain ⟨ip34, -, h⟩ := Option.bind_eq_some_iff.mp h
    obtain rfl := Option.some.inj h
    exact iff_of_true ⟨_, rfl⟩ ⟨mgmt, hmgmt, hvalid⟩

/-- What a load of the driver does, if it returns. -/
theorem loadDriver_cases (h : c.loadDriver s = some (st, s')) (hi : s.netcard1 = some i) :
    (¬c.Bar32 ∧ st = .driverError ∧ s' = s) ∨
      (c.Bar32 ∧ st = .ok ∧ ∃ n : Netdev, s' = { s with netdevs := s.netdevs.set i n } ∧
        (n.Usable ↔ c.IpValid)) := by
  unfold Card.loadDriver at h
  unfold Card.Bar32
  by_cases hbar : c.bar0 &&& 0x2 = 0
  · rw [if_neg (not_not_intro hbar)] at h
    obtain ⟨_, -, h⟩ := Option.bind_eq_some_iff.mp h
    obtain ⟨_, -, h⟩ := Option.bind_eq_some_iff.mp h
    obtain ⟨_, -, h⟩ := Option.bind_eq_some_iff.mp h
    obtain ⟨ip, hip, h⟩ := Option.bind_eq_some_iff.mp h
    obtain ⟨_, -, h⟩ := Option.bind_eq_some_iff.mp h
    obtain ⟨_, -, h⟩ := Option.bind_eq_some_iff.mp h
    obtain ⟨_, -, h⟩ := Option.bind_eq_some_iff.mp h
    obtain ⟨mac, -, h⟩ := Option.bind_eq_some_iff.mp h
    rw [hi] at h
    obtain ⟨rfl, rfl⟩ := Prod.mk.inj (Option.some.inj h)
    refine Or.inr ⟨hbar, rfl, ⟨.set (some .addTxBuffer), .set (some mac), .set ip⟩, by rw [hi], ?_⟩
    rw [← getIpv4Addr_isSome hip]
    constructor
    · rintro ⟨-, -, a, ha⟩
      exact ⟨a, DevPtr.set.inj ha⟩
    · rintro ⟨a, rfl⟩
      exact ⟨⟨_, rfl⟩, ⟨_, rfl⟩, ⟨a, rfl⟩⟩
  · rw [if_pos hbar] at h
    obtain ⟨rfl, rfl⟩ := Prod.mk.inj (Option.some.inj h)
    exact Or.inl ⟨hbar, rfl, rfl⟩

/-- The cards `cs` were found, and their drivers have returned. -/
structure Loaded (cs : List Card) (s : Netcards) : Prop where
  /-- A block was allocated for each of them. -/
  length : s.netdevs.length = cs.length
  /-- What is published is one of these blocks. -/
  bound : ∀ i, s.netcard1 = some i → i < s.netdevs.length
  /-- It is that of the last card, with what its driver has set. -/
  last : ∀ c, cs.getLast? = some c → ∃ i n, s.netcard1 = some i ∧ s.netdevs[i]? = some n ∧
    (n.Usable ↔ c.Bar32 ∧ c.IpValid) ∧
      (c.Bar32 → ∃ l ∈ s.loads, l.status = .ok ∧ l.after = some i)
  /-- Without a card nothing is published. -/
  none : cs = [] → s.netcard1 = none
  /-- The loads that failed have replaced what was published. -/
  failed : (∀ l ∈ s.loads, l.status ≠ .ok → l.after = l.before) ↔ ∀ c ∈ cs, c.Bar32

theorem not_usable_unset : ¬Netdev.unset.Usable := by
  rintro ⟨⟨_, h⟩, -, -⟩
  cases h

/-- Another card. -/
theorem Loaded.load {cs : List Card} (h : Loaded cs s)
    (hload : c.loadDriver s.alloc = some (st, s')) :
    Loaded (cs ++ [c]) { s' with loads := s'.loads ++ [⟨s.netcard1, st, s'.netcard1⟩] } := by
  have hfresh : some s.netdevs.length ≠ s.netcard1 := by
    intro heq
    exact absurd (h.bound _ heq.symm) (lt_irrefl _)
  have hlast : ∀ d, (cs ++ [c]).getLast? = some d → c = d := by
    intro d hd
    rw [List.getLast?_concat] at hd
    exact Option.some.inj hd
  have hfailed : ∀ l : Load, (∀ l' ∈ s.loads ++ [l], l'.status ≠ .ok → l'.after = l'.before) ↔
      (∀ c ∈ cs, c.Bar32) ∧ (l.status ≠ .ok → l.after = l.before) := by
    intro l
    rw [List.forall_mem_append, List.forall_mem_singleton, h.failed]
  have hlength : (s.netdevs ++ [Netdev.unset]).length = (cs ++ [c]).length := by
    rw [List.length_append, List.length_append, h.length]
    rfl
  have hbound : s.netdevs.length < (s.netdevs ++ [Netdev.unset]).length := by
    rw [List.length_append]
    exact Nat.lt_succ_self _
  have hbars : (∀ d ∈ cs ++ [c], d.Bar32) ↔ (∀ d ∈ cs, d.Bar32) ∧ c.Bar32 := by
    rw [List.forall_mem_append, List.forall_mem_singleton]
  have hnotnil : cs ++ [c] = [] → s.alloc.netcard1 = Option.none :=
    fun hnil => absurd hnil (List.append_ne_nil_of_right_ne_nil _ (List.cons_ne_nil _ _))
  obtain ⟨hbar, rfl, rfl⟩ | ⟨hbar, rfl, n, rfl, husable⟩ := loadDriver_cases hload rfl
  · refine ⟨hlength, ?_, ?_, hnotnil, ?_⟩
    · rintro i ⟨⟩
      exact hbound
    · intro d hd
      obtain rfl := hlast d hd
      refine ⟨s.netdevs.length, .unset, rfl, List.getElem?_concat_length, ?_, fun h32 => absurd h32 hbar⟩
      exact iff_of_false not_usable_unset fun hok => hbar hok.1
    · refine (hfailed _).trans ?_
      rw [hbars]
      refine and_congr_right fun _ => iff_of_false (fun hleft => ?_) hbar
      exact hfresh (hleft (show Status.driverError ≠ Status.ok by decide))
  · refine ⟨?_, ?_, ?_, hnotnil, ?_⟩
    · rw [← hlength]
      exact List.length_set
    · rintro i ⟨⟩
      change _ < ((s.netdevs ++ [Netdev.unset]).set s.netdevs.length n).length
      rw [List.length_set]
      exact hbound
    · intro d hd
      obtain rfl := hlast d hd
      refine ⟨s.netdevs.length, n, rfl, List.getElem?_set_self hbound, ?_, fun _ => ?_⟩
      · rw [husable, and_iff_right hbar]
      · exact ⟨_, List.mem_append_right _ (List.mem_singleton_self _), rfl, rfl⟩
    · refine (hfailed _).trans ?_
      rw [hbars]
      exact and_congr_right fun _ => iff_of_true (fun hne => absurd rfl hne) hbar

/-- A run of the loop. -/
theorem loaded_foldlM {devs : List (GpciDev × Card)}
    (h : devs.foldlM loadPciDriver .boot = some s) : Loaded (nics devs) s := by
  induction devs using List.reverseRecOn generalizing s with
  | nil =>
    obtain rfl := Option.some.inj h
    refine ⟨rfl, fun i hi => ?_, fun c hc => ?_, fun _ => rfl, ?_⟩
    · cases hi
    · cases hc
    · exact iff_of_true (fun l hl => absurd hl List.not_mem_nil)
        fun c hc => absurd hc List.not_mem_nil
  | append_singleton devs dev ih =>
    rw [List.foldlM_append] at h
    obtain ⟨s₁, hrun, h⟩ := Option.bind_eq_some_iff.mp h
    have hloaded := ih hrun
    rw [List.foldlM_cons] at h
    obtain ⟨s₂, hbody, h⟩ := Option.bind_eq_some_iff.mp h
    obtain rfl := Option.some.inj h
    rw [nics, List.filter_append, List.map_append]
    by_cases hnic : dev.1.IsNic
    · rw [List.filter_cons_of_pos (by simpa using hnic)]
      rw [loadPciDriver, if_pos hnic.1, loadIntelDevdrv, if_pos hnic.2] at hbody
      obtain ⟨r, hr, rfl⟩ := Option.map_eq_some_iff.mp hbody
      obtain ⟨q, hload, rfl⟩ := Option.map_eq_some_iff.mp hr
      exact hloaded.load hload
    · rw [List.filter_cons_of_neg (by simpa using hnic)]
      have hskip : loadPciDriver s₁ dev = some s₁ := by
        unfold loadPciDriver loadIntelDevdrv
        split
        · rw [if_neg fun hid => hnic ⟨‹_›, hid⟩]
          rfl
        · rfl
      obtain rfl := Option.some.inj (hskip.symm.trans hbody)
      rw [List.filter_nil, List.map_nil, List.append_nil]
      exact hloaded

/-- **A published network card.**  Whatever the devices and the cards: if `load_pci_drivers`
returns, the network card can be relied on exactly if every card that a driver was loaded for has a
32-bit register space and the last of them, if there is one, a valid address; and the kernel may use
it exactly if there is a last one, and it has both. -/
theorem netcard_usable_iff {devs : List (GpciDev × Card)}
    (hrun : loadPciDrivers devs .boot = some (st, s)) :
    (s.Consistent ↔
      (∀ c ∈ nics devs, c.Bar32) ∧ ∀ c, (nics devs).getLast? = some c → c.IpValid) ∧
    (s.Safe ↔ ∃ c, (nics devs).getLast? = some c ∧ c.Bar32 ∧ c.IpValid) := by
  obtain ⟨s₁, hfold, hs⟩ := Option.map_eq_some_iff.mp hrun
  obtain ⟨rfl, rfl⟩ := Prod.mk.inj hs
  have h := loaded_foldlM hfold
  cases hlast : (nics devs).getLast? with
  | none =>
    have hnil := List.getLast?_eq_none_iff.mp hlast
    have hnull := h.none hnil
    constructor
    · constructor
      · exact fun hok => ⟨h.failed.mp hok.failed, fun c hc => nomatch hc⟩
      · exact fun hok => ⟨fun i hi => (nomatch hnull.symm.trans hi), h.failed.mpr hok.1⟩
    · exact iff_of_false (fun ⟨i, n, hi, _⟩ => nomatch hnull.symm.trans hi)
        fun ⟨c, hc, _⟩ => nomatch hc
  | some c =>
    obtain ⟨i, n, hi, hn, husable, hload⟩ := h.last c hlast
    have hmem : c ∈ nics devs := List.mem_of_getLast? hlast
    have hpublished : ∀ m, s₁.netdevs[i]? = some m → m = n :=
      fun m hm => Option.some.inj (hm.symm.trans hn)
    constructor
    · constructor
      · intro hok
        obtain ⟨m, hm, hmusable, -⟩ := hok.published i hi
        rw [hpublished m hm, husable] at hmusable
        refine ⟨h.failed.mp hok.failed, fun d hd => ?_⟩
        obtain rfl := Option.some.inj hd
        exact hmusable.2
      · rintro ⟨hbars, hip⟩
        have hbar := hbars c hmem
        refine ⟨fun j hj => ?_, h.failed.mpr hbars⟩
        obtain rfl := Option.some.inj (hi.symm.trans hj)
        exact ⟨n, hn, husable.mpr ⟨hbar, hip c rfl⟩, hload hbar⟩
    · constructor
      · rintro ⟨j, m, hj, hm, hmusable⟩
        obtain rfl := Option.some.inj (hi.symm.trans hj)
        rw [hpublished m hm, husable] at hmusable
        exact ⟨c, rfl, hmusable⟩
      · rintro ⟨d, hd, hok⟩
        obtain rfl := Option.some.inj hd
        exact ⟨i, n, hi, hn, husable.mpr hok⟩

/-- The network card of the emulated machine, with register space at `bar0` and the word `mgmt` in
its EEPROM. -/
def pcCard (bar0 : BitVec 32) (mgmt : BitVec 16) : GpciDev × Card :=
  (pciDevAt pcCfgSpace 0 3 0,
    { bar0 := bar0
      command := 0x103
      commandAfter := id
      eeprom := fun offset => some <| match offset with
        | 0x0 => 0x5452
        | 0x1 => 0x1200
        | 0x2 => 0x5634
        | 0x23 => mgmt
        | 0x25 => 0x000a
        | 0x26 => 0x0f02
        | _ => 0
      status := 0x80080783
      tdaddr := 0x110000 })

theorem netcard_usable_pc :
    ∃ st s, loadPciDrivers [pcCard 0xfebc0000 0x40] .boot = some (st, s) ∧ s.Consistent ∧ s.Safe := by
  have hip : (pcCard 0xfebc0000 0x40).2.IpValid := ⟨0x40, rfl, by decide⟩
  have hbar : (pcCard 0xfebc0000 0x40).2.Bar32 := by
    unfold Card.Bar32
    decide
  have hrun : (loadPciDrivers [pcCard 0xfebc0000 0x40] .boot).isSome := by decide +kernel
  obtain ⟨r, hr⟩ := Option.isSome_iff_exists.mp hrun
  have hnics : nics [pcCard 0xfebc0000 0x40] = [(pcCard 0xfebc0000 0x40).2] := rfl
  have h := netcard_usable_iff (show _ = some (r.1, r.2) from hr)
  rw [hnics] at h
  refine ⟨r.1, r.2, hr, h.1.mpr ⟨?_, ?_⟩, h.2.mpr ⟨_, rfl, hbar, hip⟩⟩
  · intro c hc
    obtain rfl := List.mem_singleton.mp hc
    exact hbar
  · rintro c ⟨⟩
    exact hip

/-- With bit 1 of the register space set the driver fails, and what is published is unset; without a
valid address the driver succeeds and `ip_addr` is `NULL`. -/
theorem netcard_not_usable :
    (∃ st s, loadPciDrivers [pcCard 0xfebc0002 0x40] .boot = some (st, s) ∧
      s.netcard1 = some 0 ∧ s.netdevs = [.unset] ∧ ¬s.Consistent ∧ ¬s.Safe) ∧
    ∃ st s, loadPciDrivers [pcCard 0xfebc0000 0] .boot = some (st, s) ∧
      s.netcard1 = some 0 ∧ (∃ n, s.netdevs = [n] ∧ n.ipAddr = .set none) ∧ ¬s.Consistent ∧
        ¬s.Safe := by
  have hunset : loadPciDrivers [pcCard 0xfebc0002 0x40] .boot =
      some (.ok, ⟨some 0, [.unset], [⟨none, .driverError, some 0⟩]⟩) := by
    decide +kernel
  have hnull : loadPciDrivers [pcCard 0xfebc0000 0] .boot =
      some (.ok, ⟨some 0, [⟨.set (some .addTxBuffer), .set (some ⟨0x563412005452⟩), .set none⟩],
        [⟨none, .ok, some 0⟩]⟩) := by
    decide +kernel
  refine ⟨⟨_, _, hunset, rfl, rfl, fun h => ?_, ?_⟩, _, _, hnull, rfl, ⟨_, rfl, rfl⟩, fun h => ?_, ?_⟩
  · obtain ⟨n, hn, husable, -⟩ := h.published 0 rfl
    obtain rfl := Option.some.inj hn
    exact not_usable_unset husable
  · rintro ⟨i, n, ⟨⟩, ⟨⟩, husable⟩
    exact not_usable_unset husable
  · obtain ⟨n, hn, husable, -⟩ := h.published 0 rfl
    obtain rfl := Option.some.inj hn
    obtain ⟨a, ha⟩ := husable.ipAddr
    cases ha
  · rintro ⟨i, n, ⟨⟩, ⟨⟩, husable⟩
    obtain ⟨a, ha⟩ := husable.ipAddr
    cases ha

end PakOS
