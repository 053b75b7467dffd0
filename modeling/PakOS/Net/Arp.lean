import PakOS.Kmalloc.Client
import PakOS.Kmalloc.Integrity
import PakOS.Machine.Record

/-!
# ARP packets

`netd_make_eth2_header` and `netd_send_ipv4_arp_packet` of `kernel/net/netdev.c`, on the heap: a
packet of 42 bytes is built in a new block from structures of the caller.  The fields of two bytes
are swapped, the addresses are copied as they stand.

Read in network byte order, the packet says what was asked for, but for the Ethernet destination of
anything that is not a request: it is what the stack held (`arpPacket_right_iff`).
-/

namespace PakOS

open Machine Coalesce

variable {E : Type*}

/-! ### Sending -/

/-- `ETH_TYPE_ARP` -/
def ethTypeArp : ℕ := 0x0806

/-- `ARP_HTYPE_ETH` -/
def arpHtypeEth : ℕ := 1

/-- `ARP_PTYPE_IPV4` -/
def arpPtypeIpv4 : ℕ := 0x0800

/-- `ARP_OP_REQ` -/
def arpOpReq : ℕ := 1

/-- `sizeof(struct eth_header)` -/
def sizeofEthHeader : ℕ := 14

/-- `sizeof(struct arp_frame)` -/
def sizeofArpFrame : ℕ := 28

/-- `ble16(big)` -/
def ble16 (big : ℕ) : ℕ := (big % 65536) >>> 8 ||| (big <<< 8) % 65536

/-- `dev->mac_addr` -/
def netdevMacAddr (m : Mem) (dev : ℕ) : ℕ := loadLE 4 m (dev + 8)

/-- `dev->ip_addr` -/
def netdevIpAddr (m : Mem) (dev : ℕ) : ℕ := loadLE 4 m (dev + 12)

/-- The fields of `*head`, as `netd_make_eth2_header` assigns to them. -/
def ethHeaderFields (src dst ethType : ℕ) : List (ℕ × (Mem → ℕ)) :=
  [(6, fun _ => dst), (6, fun m => loadLE 6 m src), (2, fun _ => ble16 ethType)]

/-- `netd_make_eth2_header(src, dst, eth_type, payload_size)`, with `dst->bytes` in place of
`dst`. -/
def netdMakeEth2Header (space : Space E) (fuel src dst ethType payloadSize : ℕ) (k : Kernel E) :
    Option (ℕ × Kernel E) :=
  (kmalloc space fuel (sizeofEthHeader + payloadSize) k).map fun r =>
    (r.1, { r.2 with mem := assignFields r.2.mem r.1 (ethHeaderFields src dst ethType) })

/-- The fields of `*frame`, as `netd_send_ipv4_arp_packet` assigns to them. -/
def arpFrameFields (dev macTarget ipTarget operation : ℕ) : List (ℕ × (Mem → ℕ)) :=
  [(2, fun _ => ble16 arpHtypeEth), (2, fun _ => ble16 arpPtypeIpv4), (1, fun _ => 6),
    (1, fun _ => 4), (2, fun _ => ble16 operation),
    (6, fun m => loadLE 6 m (netdevMacAddr m dev)), (4, fun m => loadLE 4 m (netdevIpAddr m dev)),
    (6, fun m => loadLE 6 m macTarget), (4, fun m => loadLE 4 m ipTarget)]

/-- The arguments of a call of `write_partial_packet`. -/
structure PartialPacket where
  /-- `data` -/
  data : ℕ
  /-- `len` -/
  len : ℕ
  /-- `eop` -/
  eop : ℕ

/-- `netd_send_ipv4_arp_packet(dev, mac_target, ip_target, operation)` up to the call of
`write_partial_packet`; `stack` is what `eth_target.bytes` holds before it is assigned to. -/
def netdSendIpv4ArpPacket (space : Space E) (fuel dev macTarget ipTarget operation stack : ℕ)
    (k : Kernel E) : Option (PartialPacket × Kernel E) :=
  let ethTarget := if operation = arpOpReq then 0xffffffffffff else stack
  (netdMakeEth2Header space fuel (netdevMacAddr k.mem dev) ethTarget ethTypeArp sizeofArpFrame
    k).map fun r =>
      (⟨r.1, sizeofEthHeader + sizeofArpFrame, 1⟩,
        { r.2 with mem := assignFields r.2.mem (add32 r.1 sizeofEthHeader)
                            (arpFrameFields dev macTarget ipTarget operation) })

/-! ### What the packet says -/

/-- An ARP packet for Ethernet and IPv4, with its Ethernet header. -/
structure ArpPacket where
  /-- The Ethernet destination. -/
  ethDst : List UInt8
  /-- The Ethernet source. -/
  ethSrc : List UInt8
  /-- The EtherType. -/
  etherType : ℕ
  /-- The hardware type. -/
  htype : ℕ
  /-- The protocol type. -/
  ptype : ℕ
  /-- The length of a hardware address. -/
  hlen : ℕ
  /-- The length of a protocol address. -/
  plen : ℕ
  /-- The operation. -/
  oper : ℕ
  /-- The hardware address of the sender. -/
  sha : List UInt8
  /-- The protocol address of the sender. -/
  spa : List UInt8
  /-- The hardware address of the target. -/
  tha : List UInt8
  /-- The protocol address of the target. -/
  tpa : List UInt8
  deriving DecidableEq

/-- The packet at address `a`, in network byte order. -/
def arpAt (m : Mem) (a : ℕ) : ArpPacket where
  ethDst := bytesAt m a 6
  ethSrc := bytesAt m (a + 6) 6
  etherType := loadBE m (a + 12) 2
  htype := loadBE m (a + 14) 2
  ptype := loadBE m (a + 16) 2
  hlen := loadBE m (a + 18) 1
  plen := loadBE m (a + 19) 1
  oper := loadBE m (a + 20) 2
  sha := bytesAt m (a + 22) 6
  spa := bytesAt m (a + 28) 4
  tha := bytesAt m (a + 32) 6
  tpa := bytesAt m (a + 38) 4

/-- The packet that was asked for, with the Ethernet destination `dst`. -/
def arpAsked (m : Mem) (dev macTarget ipTarget operation : ℕ) (dst : List UInt8) : ArpPacket where
  ethDst := dst
  ethSrc := bytesAt m (netdevMacAddr m dev) 6
  etherType := 0x0806
  htype := 1
  ptype := 0x0800
  hlen := 6
  plen := 4
  oper := operation
  sha := bytesAt m (netdevMacAddr m dev) 6
  spa := bytesAt m (netdevIpAddr m dev) 4
  tha := bytesAt m macTarget 6
  tpa := bytesAt m ipTarget 4

/-- The Ethernet destination that was asked for: everybody for a request, and the target for
anything else. -/
def ethDstAsked (m : Mem) (macTarget operation : ℕ) : List UInt8 :=
  if operation = 1 then List.replicate 6 0xff else bytesAt m macTarget 6

/-- Swapping the bytes of a 16-bit number. -/
theorem ble16_eq {v : ℕ} (hv : v < 65536) : ble16 v = v / 256 + 256 * (v % 256) := by
  have hlow : (v % 65536) >>> 8 = v / 256 := by
    rw [Nat.mod_eq_of_lt hv, Nat.shiftRight_eq_div_pow]
  have hhigh : (v <<< 8) % 65536 = (v % 256) <<< 8 := by
    rw [Nat.shiftLeft_eq, Nat.shiftLeft_eq]
    omega
  have hbound : v / 256 < 2 ^ 8 := by omega
  rw [ble16, hlow, hhigh, Nat.or_comm, ← Nat.shiftLeft_add_eq_or_of_lt hbound, Nat.shiftLeft_eq]
  omega

/-- A swapped number is right in network byte order. -/
theorem loadBE_of_holds_ble16 {m : Mem} {a v : ℕ} (h : Holds m a (bytesLE 2 (ble16 v)))
    (hv : v < 65536) : loadBE m a 2 = v := by
  rw [ble16_eq hv] at h
  obtain ⟨h0, h1, -⟩ := h
  have hdiv : (v / 256 + 256 * (v % 256)) / 256 = v % 256 := by omega
  have hmod : (v / 256 + 256 * (v % 256)) % 256 = v / 256 := by omega
  rw [loadBE, loadBE, loadBE, h0, h1, hdiv, UInt8.toNat_ofNat', UInt8.toNat_ofNat', hmod]
  omega

/-- The fields of a packet, from the Ethernet header on. -/
def arpFields (dst src ethType operation sha spa tha tpa : ℕ) : List (ℕ × ℕ) :=
  [(6, dst), (6, src), (2, ble16 ethType), (2, ble16 arpHtypeEth), (2, ble16 arpPtypeIpv4), (1, 6),
    (1, 4), (2, ble16 operation), (6, sha), (4, spa), (6, tha), (4, tpa)]

/-- What the fields of a packet say. -/
theorem arpAt_of_holds {m : Mem} {a dst src operation sha spa tha tpa : ℕ}
    (h : Holds m a (fieldBytes (arpFields dst src ethTypeArp operation sha spa tha tpa)))
    (hop : operation < 65536) :
    arpAt m a = ⟨bytesLE 6 dst, bytesLE 6 src, 0x0806, 1, 0x0800, 6, 4, operation, bytesLE 6 sha,
      bytesLE 4 spa, bytesLE 6 tha, bytesLE 4 tpa⟩ := by
  have hdst : Holds m a (bytesLE 6 dst) := h.field []
  have hsrc : Holds m (a + 6) (bytesLE 6 src) := h.field [(6, dst)]
  have htype : Holds m (a + 12) (bytesLE 2 (ble16 ethTypeArp)) := h.field [(6, dst), (6, src)]
  have hrest : Holds m (a + 14) (fieldBytes ((arpFields dst src ethTypeArp operation sha spa tha
      tpa).drop 3)) := h.drop [(6, dst), (6, src), (2, ble16 ethTypeArp)]
  have hhtype : Holds m (a + 14) (bytesLE 2 (ble16 arpHtypeEth)) := hrest.field []
  have hptype : Holds m (a + 16) (bytesLE 2 (ble16 arpPtypeIpv4)) := hrest.field [(2, _)]
  have hhlen : Holds m (a + 18) (bytesLE 1 6) := hrest.field [(2, _), (2, _)]
  have hplen : Holds m (a + 19) (bytesLE 1 4) := hrest.field [(2, _), (2, _), (1, _)]
  have hoper : Holds m (a + 20) (bytesLE 2 (ble16 operation)) :=
    hrest.field [(2, _), (2, _), (1, _), (1, _)]
  have haddr : Holds m (a + 22) (fieldBytes [(6, sha), (4, spa), (6, tha), (4, tpa)]) :=
    hrest.drop [(2, _), (2, _), (1, _), (1, _), (2, _)]
  have hsha : Holds m (a + 22) (bytesLE 6 sha) := haddr.field []
  have hspa : Holds m (a + 28) (bytesLE 4 spa) := haddr.field [(6, sha)]
  have htha : Holds m (a + 32) (bytesLE 6 tha) := haddr.field [(6, sha), (4, spa)]
  have htpa : Holds m (a + 38) (bytesLE 4 tpa) := haddr.field [(6, sha), (4, spa), (6, tha)]
  have hone : ∀ {x v : ℕ}, Holds m x (bytesLE 1 v) → v < 256 → loadBE m x 1 = v := by
    intro x v hx hv
    rw [loadBE, loadBE, hx.1, UInt8.toNat_ofNat', pow_zero, Nat.mul_one, Nat.add_zero]
    exact Nat.mod_eq_of_lt hv
  rw [arpAt, hdst.bytesAt_bytesLE, hsrc.bytesAt_bytesLE, hsha.bytesAt_bytesLE, hspa.bytesAt_bytesLE,
    htha.bytesAt_bytesLE, htpa.bytesAt_bytesLE, loadBE_of_holds_ble16 htype (by decide),
    loadBE_of_holds_ble16 hhtype (by decide), loadBE_of_holds_ble16 hptype (by decide),
    hone hhlen (by decide), hone hplen (by decide), loadBE_of_holds_ble16 hoper hop]
  rfl

/-! ### The packet in memory -/

variable {mmap : Mmap E} {k k' : Kernel E} {bs bs' : List Block} {b : Block}
  {dev macTarget ipTarget operation stack fuel : ℕ} {pkt : PartialPacket}

/-- The structures that a packet is made from lie in memory that the caller owns. -/
structure ArpArgs (Own : ℕ → Prop) (m : Mem) (dev macTarget ipTarget : ℕ) : Prop where
  /-- `dev->mac_addr` and `dev->ip_addr` -/
  netdev : ∀ x, dev + 8 ≤ x → x < dev + 16 → Own x
  /-- `dev->mac_addr->bytes` -/
  sender : ∀ x, netdevMacAddr m dev ≤ x → x < netdevMacAddr m dev + 6 → Own x
  /-- `dev->ip_addr->bytes` -/
  senderIp : ∀ x, netdevIpAddr m dev ≤ x → x < netdevIpAddr m dev + 4 → Own x
  /-- `mac_target->bytes` -/
  target : ∀ x, macTarget ≤ x → x < macTarget + 6 → Own x
  /-- `ip_target->bytes` -/
  targetIp : ∀ x, ipTarget ≤ x → x < ipTarget + 4 → Own x

/-- The fields of a packet, as the two functions assign to them. -/
def arpAssigns (src dst dev macTarget ipTarget operation : ℕ) : List (ℕ × (Mem → ℕ)) :=
  ethHeaderFields src dst ethTypeArp ++ arpFrameFields dev macTarget ipTarget operation

/-- What is read while the packet is built, from a memory that agrees with `m` on the structures
that it is made from. -/
theorem arpAssigns_eval {m m' : Mem} {dst : ℕ} (hptrs : ∀ x, dev + 8 ≤ x → x < dev + 16 → m' x = m x)
    (hsender : loadLE 6 m' (netdevMacAddr m dev) = loadLE 6 m (netdevMacAddr m dev))
    (hsenderIp : loadLE 4 m' (netdevIpAddr m dev) = loadLE 4 m (netdevIpAddr m dev))
    (htarget : loadLE 6 m' macTarget = loadLE 6 m macTarget)
    (htargetIp : loadLE 4 m' ipTarget = loadLE 4 m ipTarget) :
    ((arpAssigns (netdevMacAddr m dev) dst dev macTarget ipTarget operation).map fun f =>
      (f.1, f.2 m')) =
      arpFields dst (loadLE 6 m (netdevMacAddr m dev)) ethTypeArp operation
        (loadLE 6 m (netdevMacAddr m dev)) (loadLE 4 m (netdevIpAddr m dev)) (loadLE 6 m macTarget)
        (loadLE 4 m ipTarget) := by
  have hmac : netdevMacAddr m' dev = netdevMacAddr m dev :=
    loadLE_congr fun x hlo hhi => hptrs x hlo (by omega)
  have hip : netdevIpAddr m' dev = netdevIpAddr m dev :=
    loadLE_congr fun x hlo hhi => hptrs x (by omega) hhi
  simp only [arpAssigns, ethHeaderFields, arpFrameFields, arpFields, List.map_cons, List.map_nil,
    List.cons_append, List.nil_append, hmac, hip, hsender, hsenderIp, htarget, htargetIp]

/-- The packet that is handed to `write_partial_packet`. -/
theorem exists_holds_arpFields (h : HeapInv k bs)
    (hargs : ArpArgs (Settled 4294967295 k bs) k.mem dev macTarget ipTarget)
    (hrun : netdSendIpv4ArpPacket (kernelSpace mmap) fuel dev macTarget ipTarget operation stack k =
      some (pkt, k')) (hend : EndOk k k') :
    ∃ head, pkt = ⟨head, 42, 1⟩ ∧
      Holds k'.mem head (fieldBytes (arpFields (if operation = arpOpReq then 0xffffffffffff else stack)
        (loadLE 6 k.mem (netdevMacAddr k.mem dev)) ethTypeArp operation
        (loadLE 6 k.mem (netdevMacAddr k.mem dev)) (loadLE 4 k.mem (netdevIpAddr k.mem dev))
        (loadLE 6 k.mem macTarget) (loadLE 4 k.mem ipTarget))) := by
  obtain ⟨q, hmake, hq⟩ := Option.map_eq_some_iff.mp hrun
  obtain ⟨r, hkmalloc, rfl⟩ := Option.map_eq_some_iff.mp hmake
  obtain ⟨rfl, rfl⟩ := Prod.mk.inj hq
  obtain ⟨p, k₁⟩ := r
  have hlen : SizeOk 42 := by decide
  obtain ⟨bs', b, rfl, hall⟩ := exists_allocated h hkmalloc hlen hend
  obtain ⟨hb, -, hsize⟩ := hall.block hlen
  have hfits : 42 ≤ b.size := hsize
  have hbounds := hall.heap.block_bounds hb
  refine ⟨b.addr + 20, rfl, ?_⟩
  generalize (if operation = arpOpReq then 0xffffffffffff else stack) = dst
  -- what the caller owns is the same in every memory that differs from the old one in the packet only
  have hsame : ∀ {m' : Mem}, (∀ y, y < b.addr + 20 ∨ b.addr + 62 ≤ y → m' y = k₁.mem y) →
      ∀ y, Settled 4294967295 k bs y → m' y = k.mem y := by
    intro m' hm' y hown
    obtain ⟨hmem, -, hout⟩ := hall.settled h hlen hown
    unfold Block.stop at hout
    rw [hm' y (by omega), hmem]
  have heval : ∀ m' : Mem, (∀ y, y < b.addr + 20 ∨ b.addr + 62 ≤ y → m' y = k₁.mem y) → _ :=
    fun m' hm' => @arpAssigns_eval dev macTarget ipTarget operation k.mem m' dst
      (fun x hlo hhi => hsame hm' x (hargs.netdev x hlo hhi))
      (loadLE_congr fun x hlo hhi => hsame hm' x (hargs.sender x hlo hhi))
      (loadLE_congr fun x hlo hhi => hsame hm' x (hargs.senderIp x hlo hhi))
      (loadLE_congr fun x hlo hhi => hsame hm' x (hargs.target x hlo hhi))
      (loadLE_congr fun x hlo hhi => hsame hm' x (hargs.targetIp x hlo hhi))
  have hval : ∀ f ∈ arpAssigns (netdevMacAddr k.mem dev) dst dev macTarget ipTarget operation,
      ∀ m' : Mem, (∀ y, y < b.addr + 20 ∨ b.addr + 62 ≤ y → m' y = k₁.mem y) →
        f.2 m' = f.2 k₁.mem := by
    intro f hf m' hm'
    have hmaps := (heval m' hm').trans (heval k₁.mem fun _ _ => rfl).symm
    exact (Prod.mk.inj (List.map_inj_left.mp hmaps f hf)).2
  have hframe : add32 (b.addr + 20) sizeofEthHeader = b.addr + 20 + 14 := by
    apply add32_of_lt
    change b.addr + 20 + 14 < 4294967296
    omega
  -- the header and the frame are one record, whose values may be computed beforehand
  have hmem : assignFields (assignFields k₁.mem (b.addr + 20)
      (ethHeaderFields (netdevMacAddr k.mem dev) dst ethTypeArp))
      (add32 (b.addr + 20) sizeofEthHeader) (arpFrameFields dev macTarget ipTarget operation) =
      storeFields k₁.mem (b.addr + 20) (arpFields dst (loadLE 6 k.mem (netdevMacAddr k.mem dev))
        ethTypeArp operation (loadLE 6 k.mem (netdevMacAddr k.mem dev))
        (loadLE 4 k.mem (netdevIpAddr k.mem dev)) (loadLE 6 k.mem macTarget)
        (loadLE 4 k.mem ipTarget)) := by
    rw [hframe, ← heval k₁.mem fun _ _ => rfl]
    refine (assignFields_append k₁.mem (b.addr + 20) _ _).symm.trans ?_
    exact assignFields_eq hval (fun _ _ => rfl) le_rfl (le_refl (b.addr + 62))
  change Holds (assignFields (assignFields k₁.mem (b.addr + 20) _) _ _) (b.addr + 20) _
  rw [hmem]
  exact holds_storeFields _ _ _

/-- The packet, with whatever the stack held for anything that is not a request. -/
theorem arpAt_packet {heap : HeapBase} {s : History E} (hs : Reachable heap mmap s)
    (hargs : ArpArgs s.Owns s.kernel.mem dev macTarget ipTarget) (hop : operation < 65536)
    (hrun : netdSendIpv4ArpPacket (kernelSpace mmap) fuel dev macTarget ipTarget operation stack
      s.kernel = some (pkt, k')) (hend : EndOk s.kernel k') :
    pkt.len = 42 ∧ arpAt k'.mem pkt.data =
      arpAsked s.kernel.mem dev macTarget ipTarget operation
        (bytesLE 6 (if operation = arpOpReq then 0xffffffffffff else stack)) := by
  obtain ⟨bs, h⟩ := hs.inv
  have hargs' : ArpArgs (Settled 4294967295 s.kernel bs) s.kernel.mem dev macTarget ipTarget :=
    ⟨fun x hlo hhi => h.settled (hargs.netdev x hlo hhi),
      fun x hlo hhi => h.settled (hargs.sender x hlo hhi),
      fun x hlo hhi => h.settled (hargs.senderIp x hlo hhi),
      fun x hlo hhi => h.settled (hargs.target x hlo hhi),
      fun x hlo hhi => h.settled (hargs.targetIp x hlo hhi)⟩
  obtain ⟨head, rfl, hholds⟩ := exists_holds_arpFields h.heap hargs' hrun hend
  refine ⟨rfl, (arpAt_of_holds hholds hop).trans ?_⟩
  simp only [bytesLE_loadLE, arpAsked]

/-- Every packet is sent when there is a page for it. -/
theorem exists_netdSendIpv4ArpPacket {heap : HeapBase} {s : History E} (mmap : Mmap E)
    (hs : Reachable heap mmap s) (hroom : s.kernel.heapStart + s.kernel.heapSize + 4096 < 4294967296)
    (dev macTarget ipTarget operation stack : ℕ) :
    ∃ fuel pkt k', netdSendIpv4ArpPacket (kernelSpace mmap) fuel dev macTarget ipTarget operation
      stack s.kernel = some (pkt, k') ∧ EndOk s.kernel k' := by
  obtain ⟨bs, h⟩ := hs.inv
  have hready : Ready 48 (s.kernel.heapStart + s.kernel.heapSize + 4096) s.kernel bs :=
    Or.inl (Nat.le_refl _)
  obtain ⟨k', bs', b, hyields, hall⟩ := hready.yields_kmalloc mmap h.heap hroom
    (show 42 + 35 < 4096 by decide) (show align16 42 ≤ 48 by decide)
  obtain ⟨fuel, hkmalloc⟩ := hyields.exists_run
  have hend : EndOk s.kernel k' := hall.endOk hroom
  have hkmalloc' : kmalloc (kernelSpace mmap) fuel (sizeofEthHeader + sizeofArpFrame) s.kernel =
      some (b.addr + 20, k') := hkmalloc
  refine ⟨fuel, ?_⟩
  simp only [netdSendIpv4ArpPacket, netdMakeEth2Header, hkmalloc', Option.map_some]
  exact ⟨_, _, rfl, hend⟩

/-- The heap after boot.  In front of it a device with the addresses `52:54:00:12:34:56` and
`10.0.2.15`, and the addresses `52:55:0a:00:02:02` and `10.0.2.2`. -/
def arpHeap : History Unit :=
  freshHeap.withBytes 4096 [0, 0, 0, 0, 0, 0, 0, 0, 16, 16, 0, 0, 24, 16, 0, 0,
    0x52, 0x54, 0, 0x12, 0x34, 0x56, 0, 0, 10, 0, 2, 15,
    0x52, 0x55, 10, 0, 2, 2, 0, 0, 10, 0, 2, 2]

theorem arpHeap_reachable : Reachable kernelHeap mapAll arpHeap ∧
    arpHeap.kernel.heapStart + arpHeap.kernel.heapSize + 4096 < 4294967296 ∧
    ArpArgs arpHeap.Owns arpHeap.kernel.mem 4096 4124 4132 := by
  have hstart : arpHeap.kernel.heapStart = 0xd0000000 := by decide +kernel
  have hsize : arpHeap.kernel.heapSize = 12288 := by decide +kernel
  have hmac : netdevMacAddr arpHeap.kernel.mem 4096 = 4112 := by decide +kernel
  have hip : netdevIpAddr arpHeap.kernel.mem 4096 = 4120 := by decide +kernel
  have hlow : ∀ x, x < 5000 → arpHeap.Owns x := by
    intro x hx
    refine Or.inl ?_
    rw [hstart]
    omega
  have hfresh : Reachable kernelHeap mapAll freshHeap := reachable_historyOf _ _ _
  refine ⟨hfresh.withBytes (by decide +kernel), by rw [hstart, hsize]; decide, ?_⟩
  refine ⟨fun x _ hx => hlow x (by omega), ?_, ?_, fun x _ hx => hlow x (by omega),
    fun x _ hx => hlow x (by omega)⟩
  · rw [hmac]
    exact fun x _ hx => hlow x (by omega)
  · rw [hip]
    exact fun x _ hx => hlow x (by omega)

end PakOS
