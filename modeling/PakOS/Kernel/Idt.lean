import PakOS.Kmalloc.Client
import PakOS.Machine.Record

/-!
# The interrupt table

`init_idt`, `idt_mapint` and `idt_maptrap` of `kernel/irq/idt.c`, on the heap.  The table has 255
entries and is not cleared; each registration builds its entry in a block of its own and copies it
to the table.

Every run of registrations leaves the table as a map from vectors to the gates registered last
(`IdtRun.inv`).  What was never registered keeps the bytes that the heap had there, and vector 255
lies behind the table (`idt_right_iff`).
-/

namespace PakOS

open Machine Coalesce

variable {E : Type*}

/-! ### The table -/

/-- `_IDT_FLG_TRAPGATE` -/
def idtFlgTrapgate : ℕ := 0x8f

/-- `_IDT_FLG_INTGATE` -/
def idtFlgIntgate : ℕ := 0x8e

/-- `num_entries` of `init_idt` -/
def idtEntries : ℕ := 255

/-- `struct idtr` -/
structure Idtr where
  /-- The number of bytes of the table. -/
  limit : ℕ
  /-- `idt_base` -/
  base : ℕ

/-- `init_idt()`, which always returns `STATUS_OK`. -/
def initIdt (space : Space E) (fuel : ℕ) (k : Kernel E) : Option (Idtr × Kernel E) :=
  (kmalloc space fuel (mul32 8 idtEntries) k).map fun r => (⟨mul32 8 idtEntries, r.1⟩, r.2)

/-- The fields of `*entry`, as `__make_idt_desc` assigns to them. -/
def idtEntryFields (offset type : ℕ) : List (ℕ × ℕ) :=
  [(2, offset), (2, 0x8), (1, 0), (1, type), (2, offset >>> 16)]

/-- `__make_idt_desc(isr, type)` -/
def makeIdtDesc (space : Space E) (fuel isr type : ℕ) (k : Kernel E) : Option (ℕ × Kernel E) :=
  (kmalloc space fuel 8 k).map fun r =>
    (r.1, { r.2 with mem := storeFields r.2.mem r.1 (idtEntryFields isr type) })

/-- `&idt_base[irq]` -/
def idtGate (base : ℕ) (irq : UInt8) : ℕ := add32 base (mul32 8 irq.toNat)

/-- A registration: `idt_maptrap(irq, isr)` or `idt_mapint(irq, isr)`. -/
structure IdtReg where
  /-- The vector. -/
  irq : UInt8
  /-- The handler. -/
  isr : UInt32
  /-- It is a trap. -/
  trap : Bool

/-- The type of the gate. -/
def IdtReg.type (r : IdtReg) : ℕ := if r.trap then idtFlgTrapgate else idtFlgIntgate

/-- `idt_mapint(irq, isr)` and `idt_maptrap(irq, isr)`:
`idt_base[irq] = *__make_idt_desc(isr, type)`. -/
def idtMap (space : Space E) (fuel base : ℕ) (r : IdtReg) (k : Kernel E) : Option (Kernel E) :=
  (makeIdtDesc space fuel r.isr.toNat r.type k).map fun entry =>
    { entry.2 with mem := copyBytes entry.2.mem (idtGate base r.irq) entry.1 8 }

/-- A run of registrations on the table at `base`.  The end of the heap stays an address. -/
inductive IdtRun (mmap : Mmap E) (base : ℕ) (k : Kernel E) : List IdtReg → Kernel E → Prop
  /-- There is none yet. -/
  | nil : IdtRun mmap base k [] k
  /-- One more. -/
  | snoc {regs : List IdtReg} {k₁ k₂ : Kernel E} {r : IdtReg} {fuel : ℕ}
      (hrun : IdtRun mmap base k regs k₁)
      (hmap : idtMap (kernelSpace mmap) fuel base r k₁ = some k₂) (hend : EndOk k₁ k₂) :
      IdtRun mmap base k (regs ++ [r]) k₂

/-! ### The gates -/

/-- A gate, as the processor sees it. -/
structure Gate where
  /-- `offset_2:offset_1` -/
  offset : ℕ
  /-- The selector. -/
  selector : ℕ
  /-- `type_attr` -/
  typeAttr : ℕ
  deriving DecidableEq

/-- The gate at address `a`. -/
def gateAt (m : Mem) (a : ℕ) : Gate where
  offset := loadLE 2 m (a + 6) * 65536 + loadLE 2 m a
  selector := loadLE 2 m (a + 2)
  typeAttr := loadLE 1 m (a + 5)

/-- The last registration for the vector `v`. -/
def lastFor (v : UInt8) (regs : List IdtReg) : Option IdtReg := regs.reverse.find? (·.irq = v)

/-- The table at `base` is the map that the registrations make it. -/
structure IdtRight (base : ℕ) (regs : List IdtReg) (m : Mem) : Prop where
  /-- Every write falls inside the table. -/
  inside : ∀ r ∈ regs, base ≤ idtGate base r.irq ∧ idtGate base r.irq + 8 ≤ base + 8 * idtEntries
  /-- A vector has the gate that was registered last. -/
  registered : ∀ v r, lastFor v regs = some r →
    gateAt m (idtGate base v) = ⟨r.isr.toNat, 0x8, r.type⟩
  /-- A vector that was never registered is not present. -/
  unregistered : ∀ v, lastFor v regs = none → (gateAt m (idtGate base v)).typeAttr &&& 0x80 = 0

/-- The gate of an entry. -/
theorem gateAt_of_holds {m : Mem} {a offset type : ℕ}
    (h : Holds m a (fieldBytes (idtEntryFields offset type))) (hoffset : offset < 4294967296)
    (htype : type < 256) : gateAt m a = ⟨offset, 0x8, type⟩ := by
  have hlow : loadLE 2 m a = offset % 65536 := h.loadLE_field []
  have hsel : loadLE 2 m (a + 2) = 0x8 := h.loadLE_field [(2, offset)]
  have htyp : loadLE 1 m (a + 5) = type % 256 := h.loadLE_field [(2, offset), (2, 0x8), (1, 0)]
  have hhigh : loadLE 2 m (a + 6) = offset >>> 16 % 65536 :=
    h.loadLE_field [(2, offset), (2, 0x8), (1, 0), (1, type)]
  rw [Nat.shiftRight_eq_div_pow] at hhigh
  rw [gateAt, hlow, hsel, htyp, hhigh, Nat.mod_eq_of_lt htype, Gate.mk.injEq]
  omega

/-- The last registration behind another one. -/
theorem lastFor_append (v : UInt8) (regs : List IdtReg) (r : IdtReg) :
    lastFor v (regs ++ [r]) = if r.irq = v then some r else lastFor v regs := by
  rw [lastFor, List.reverse_append, List.reverse_singleton, List.singleton_append, List.find?_cons]
  by_cases hv : r.irq = v
  · simp [hv]
  · simp [hv, lastFor]

/-- A vector is registered last by one of the registrations. -/
theorem lastFor_eq_none_iff {v : UInt8} {regs : List IdtReg} :
    lastFor v regs = none ↔ ∀ r ∈ regs, r.irq ≠ v := by
  simp [lastFor, List.find?_eq_none]

/-! ### Runs -/

/-- After the registrations `regs`: the table is the block `t`, every vector that was registered has
the entry of its last registration, and the others have the bytes of the state `k₀`. -/
structure IdtInv (k₀ : Kernel E) (t : Block) (regs : List IdtReg) (k : Kernel E) (bs : List Block) :
    Prop where
  /-- The heap. -/
  heap : HeapInv k bs
  /-- The table is on the list. -/
  mem : t ∈ bs
  /-- It is in use. -/
  inUse : t.free = false
  /-- The request for 255 entries is rounded up to 256. -/
  size : 2048 ≤ t.size
  /-- The vectors that were registered. -/
  registered : ∀ v r, lastFor v regs = some r →
    Holds k.mem (idtGate (t.addr + 20) v) (fieldBytes (idtEntryFields r.isr.toNat r.type))
  /-- The vectors that were not. -/
  stale : ∀ v, lastFor v regs = none →
    ∀ j < 8, k.mem (idtGate (t.addr + 20) v + j) = k₀.mem (idtGate (t.addr + 20) v + j)

variable {mmap : Mmap E} {k₀ k k' : Kernel E} {bs : List Block} {t : Block} {regs : List IdtReg}
  {r : IdtReg} {fuel base : ℕ}

/-- The gates of a table that lies in the address space. -/
theorem idtGate_eq (hbase : base + 2048 ≤ 4294967296) (v : UInt8) :
    idtGate base v = base + 8 * v.toNat := by
  have hv := v.toNat_lt
  rw [idtGate, mul32_of_lt (by omega), add32_of_lt (by omega)]

/-- What a registration writes, when the entry and the gate are apart: the entry, and its copy. -/
theorem copyBytes_idtEntry (m : Mem) {gate entry : ℕ} (offset type : ℕ)
    (hgate : gate + 8 ≤ 4294967296) (hentry : entry + 8 ≤ 4294967296)
    (hapart : gate + 8 ≤ entry ∨ entry + 8 ≤ gate) :
    Holds (copyBytes (storeFields m entry (idtEntryFields offset type)) gate entry 8) gate
      (fieldBytes (idtEntryFields offset type)) ∧
      ∀ x, (x < gate ∨ gate + 8 ≤ x) → (x < entry ∨ entry + 8 ≤ x) →
        copyBytes (storeFields m entry (idtEntryFields offset type)) gate entry 8 x = m x := by
  have hwidth : (fieldBytes (idtEntryFields offset type)).length = 8 := length_fieldBytes _
  constructor
  · have hcopied := (holds_storeFields m entry (idtEntryFields offset type)).copyBytes
      (show gate + _ ≤ 4294967296 by rw [hwidth]; exact hgate) (by rw [hwidth]; exact hentry)
      (by rw [hwidth]; omega)
    rwa [hwidth] at hcopied
  · intro x hx hx'
    rw [copyBytes_of_notMem hgate hx]
    exact storeFields_of_notMem hx'

/-- A registration. -/
theorem IdtInv.map (h : IdtInv k₀ t regs k bs)
    (hmap : idtMap (kernelSpace mmap) fuel (t.addr + 20) r k = some k') (hend : EndOk k k') :
    ∃ bs', IdtInv k₀ t (regs ++ [r]) k' bs' := by
  obtain ⟨e, hdesc, rfl⟩ := Option.map_eq_some_iff.mp hmap
  obtain ⟨q, hkmalloc, rfl⟩ := Option.map_eq_some_iff.mp hdesc
  obtain ⟨p, k₁⟩ := q
  have hlen : SizeOk 8 := by decide
  obtain ⟨bs', b, rfl, hall⟩ := exists_allocated h.heap hkmalloc hlen hend
  obtain ⟨hb, -, hbsize⟩ := hall.block hlen
  obtain ⟨ht, hapart⟩ := hall.apart h.heap hlen h.mem h.inUse
  have hsize := h.size
  have hbounds := hall.heap.block_bounds hb
  have htbounds := hall.heap.block_bounds ht
  have hgate := fun v => @idtGate_eq (t.addr + 20) (by omega) v
  have hr := r.irq.toNat_lt
  unfold Block.stop at hapart
  obtain ⟨hentry, hother⟩ := copyBytes_idtEntry k₁.mem r.isr.toNat r.type
    (show idtGate (t.addr + 20) r.irq + 8 ≤ 4294967296 by rw [hgate]; omega)
    (show b.addr + 20 + 8 ≤ 4294967296 by omega) (by rw [hgate]; omega)
  -- the other gates keep their bytes
  have hkeep : ∀ v : UInt8, r.irq ≠ v → ∀ x, idtGate (t.addr + 20) v ≤ x →
      x < idtGate (t.addr + 20) v + 8 →
      copyBytes (storeFields k₁.mem (b.addr + 20) (idtEntryFields r.isr.toNat r.type))
        (idtGate (t.addr + 20) r.irq) (b.addr + 20) 8 x = k.mem x := by
    intro v hv x hlo hhi
    have hne : r.irq.toNat ≠ v.toNat := fun h => hv (UInt8.toNat_inj.mp h)
    have hlt := v.toNat_lt
    rw [hgate] at hlo hhi
    rw [hother x (by rw [hgate]; omega) (by omega)]
    exact hall.frame x (hall.heap.offHeaders_payload ht (by omega)
      (show x < t.addr + 20 + t.size by omega))
  refine ⟨bs', ?_, ht, h.inUse, hsize, fun v r' hlast => ?_, fun v hlast j hj => ?_⟩
  · -- both stores are to payloads
    have hheap₁ := hall.heap.write_payload hb fun x hx =>
      storeFields_of_notMem (m := k₁.mem) (show x < b.addr + 20 ∨
        b.addr + 20 + fieldsWidth (idtEntryFields r.isr.toNat r.type) ≤ x from by
          have hwidth : fieldsWidth (idtEntryFields r.isr.toNat r.type) = 8 := rfl
          unfold Block.stop at hx
          omega)
    refine HeapInv.write_payload hheap₁ ht fun x hx => copyBytes_of_notMem ?_ ?_
    · rw [hgate]
      omega
    · unfold Block.stop at hx
      rw [hgate]
      omega
  · rw [lastFor_append] at hlast
    split at hlast
    · next hv =>
      obtain rfl := Option.some.inj hlast
      exact hv ▸ hentry
    · next hv =>
      refine (h.registered v r' hlast).congr fun x hlo hhi => hkeep v hv x hlo ?_
      rwa [length_fieldBytes] at hhi
  · rw [lastFor_append] at hlast
    split at hlast
    · exact absurd hlast (Option.some_ne_none r)
    · next hv =>
      exact (hkeep v hv _ (Nat.le_add_right _ _) (by omega)).trans (h.stale v hlast j hj)

/-- A run of registrations on a table that was just allocated. -/
theorem IdtRun.inv (hrun : IdtRun mmap (t.addr + 20) k regs k') (hk : HeapInv k bs) (ht : t ∈ bs)
    (hfree : t.free = false) (hsize : 2048 ≤ t.size) : ∃ bs', IdtInv k t regs k' bs' := by
  induction hrun with
  | nil => exact ⟨bs, hk, ht, hfree, hsize, (fun _ _ h => nomatch h), fun _ _ _ _ => rfl⟩
  | snoc _ hmap hend ih =>
    obtain ⟨bs₁, h⟩ := ih
    exact h.map hmap hend

/-- Every sequence of registrations has a run when there is a page for each of them. -/
theorem exists_idtRun (mmap : Mmap E) (regs : List IdtReg) (hk : HeapInv k bs) (ht : t ∈ bs)
    (hfree : t.free = false) (hsize : 2048 ≤ t.size)
    (hroom : k.heapStart + k.heapSize + 4096 * regs.length < 4294967296) :
    ∃ k', IdtRun mmap (t.addr + 20) k regs k' ∧
      k'.heapStart + k'.heapSize ≤ k.heapStart + k.heapSize + 4096 * regs.length := by
  induction regs using List.reverseRecOn with
  | nil => exact ⟨k, .nil, Nat.le_add_right _ _⟩
  | append_singleton regs r ih =>
    rw [List.length_append, List.length_singleton] at hroom ⊢
    obtain ⟨k₁, hrun, hle⟩ := ih (by omega)
    obtain ⟨bs₁, hinv⟩ := hrun.inv hk ht hfree hsize
    have hlimit : k₁.heapStart + k₁.heapSize + 4096 < 4294967296 := by
      refine lt_of_le_of_lt ?_ hroom
      omega
    have hready : Ready 16 (k₁.heapStart + k₁.heapSize + 4096) k₁ bs₁ :=
      Or.inl (Nat.le_refl _)
    obtain ⟨k₂, bs₂, b, hyields, hall⟩ := hready.yields_kmalloc mmap hinv.heap hlimit
      (show 8 + 35 < 4096 by decide) (show align16 8 ≤ 16 by decide)
    obtain ⟨fuel, hkmalloc⟩ := hyields.exists_run
    have hend : EndOk k₁ k₂ := hall.endOk hlimit
    have hmap : ∃ k₃, idtMap (kernelSpace mmap) fuel (t.addr + 20) r k₁ = some k₃ ∧
        k₃.heapStart = k₂.heapStart ∧ k₃.heapSize = k₂.heapSize := by
      simp only [idtMap, makeIdtDesc, hkmalloc, Option.map_some]
      exact ⟨_, rfl, rfl, rfl⟩
    obtain ⟨k₃, hmap, hstart, hheap⟩ := hmap
    have hle₂ := hall.le
    refine ⟨k₃, .snoc hrun hmap ?_, by omega⟩
    unfold EndOk at hend ⊢
    omega

/-- What is right about a table after a run. -/
theorem IdtInv.right_iff (h : IdtInv k₀ t regs k bs) :
    IdtRight (t.addr + 20) regs k.mem ↔ (∀ r ∈ regs, r.irq ≠ 255) ∧ ∀ v, (∀ r ∈ regs, r.irq ≠ v) →
      (k₀.mem (t.addr + 20 + 8 * v.toNat + 5)).toNat &&& 0x80 = 0 := by
  have hbounds := h.heap.block_bounds h.mem
  have hsize := h.size
  have hgate := fun v => @idtGate_eq (t.addr + 20) (by omega) v
  have htype : ∀ v, lastFor v regs = none → (gateAt k.mem (idtGate (t.addr + 20) v)).typeAttr =
      (k₀.mem (t.addr + 20 + 8 * v.toNat + 5)).toNat := by
    intro v hv
    have hbyte := h.stale v hv 5 (by decide)
    rw [hgate] at hbyte ⊢
    change loadLE 1 k.mem (t.addr + 20 + 8 * v.toNat + 5) = _
    rw [loadLE, loadLE, hbyte, Nat.mul_zero, Nat.add_zero]
  constructor
  · intro hright
    refine ⟨fun r hr h255 => ?_, fun v hv => ?_⟩
    · have hin := (hright.inside r hr).2
      rw [hgate, h255] at hin
      have h255' : (255 : UInt8).toNat = 255 := rfl
      unfold idtEntries at hin
      omega
    · have hnone := lastFor_eq_none_iff.mpr hv
      rw [← htype v hnone]
      exact hright.unregistered v hnone
  · rintro ⟨h255, hstale⟩
    refine ⟨fun r hr => ?_, fun v r hlast => ?_, fun v hlast => ?_⟩
    · have hlt := r.irq.toNat_lt
      have hne : r.irq.toNat ≠ 255 := fun h => h255 r hr (UInt8.toNat_inj.mp h)
      unfold idtEntries
      rw [hgate]
      omega
    · refine gateAt_of_holds (h.registered v r hlast) r.isr.toNat_lt ?_
      unfold IdtReg.type idtFlgTrapgate idtFlgIntgate
      split <;> decide
    · rw [htype v hlast]
      exact hstale v (lastFor_eq_none_iff.mp hlast)

/-- The table that `init_idt` allocates. -/
theorem exists_table (hk : HeapInv k₀ bs) {idtr : Idtr}
    (hinit : initIdt (kernelSpace mmap) fuel k₀ = some (idtr, k)) (hend : EndOk k₀ k) :
    ∃ bs' t, HeapInv k bs' ∧ t ∈ bs' ∧ t.free = false ∧ 2048 ≤ t.size ∧ idtr.base = t.addr + 20 ∧
      ∀ x, t.addr + 20 ≤ x → x < t.addr + 20 + 2048 → k.mem x = k₀.mem x := by
  obtain ⟨q, hkmalloc, hq⟩ := Option.map_eq_some_iff.mp hinit
  obtain ⟨rfl, rfl⟩ := Prod.mk.inj hq
  obtain ⟨p, k⟩ := q
  have hlen : SizeOk (mul32 8 idtEntries) := by decide
  obtain ⟨bs', t, rfl, hall⟩ := exists_allocated hk hkmalloc hlen hend
  obtain ⟨ht, hfree, -⟩ := hall.block hlen
  have hround : align16 (mul32 8 idtEntries) = 2048 := by decide
  have hsize : 2048 ≤ t.size := hround ▸ hall.step.align16_le hlen
  refine ⟨bs', t, hall.heap, ht, hfree, hsize, rfl, fun x hlo hhi => ?_⟩
  exact hall.frame x (hall.heap.offHeaders_payload ht hlo
    (show x < t.addr + 20 + t.size by omega))

/-- Every sequence of registrations after `init_idt` has a run when there is room for it. -/
theorem exists_idtRun_of_initIdt {heap : HeapBase} {s : History E} (hs : Reachable heap mmap s)
    {idtr : Idtr} (hinit : initIdt (kernelSpace mmap) fuel s.kernel = some (idtr, k))
    (hend : EndOk s.kernel k) (regs : List IdtReg)
    (hroom : k.heapStart + k.heapSize + 4096 * regs.length < 4294967296) :
    ∃ k', IdtRun mmap idtr.base k regs k' := by
  obtain ⟨bs, h⟩ := hs.inv
  obtain ⟨bs', t, hheap, ht, hfree, hsize, hbase, -⟩ := exists_table h.heap hinit hend
  obtain ⟨k', hrun, -⟩ := exists_idtRun mmap regs hheap ht hfree hsize hroom
  exact ⟨k', hbase ▸ hrun⟩

/-- **The interrupt table as a map.**  On every reachable heap, after `init_idt` and any run of
registrations, the table is the map that they make it exactly if vector 255 was not registered and,
for every vector that was not registered, the byte of its type that the heap had there does not have
the present bit. -/
theorem idt_right_iff {heap : HeapBase} {s : History E} (hs : Reachable heap mmap s) {idtr : Idtr}
    (hinit : initIdt (kernelSpace mmap) fuel s.kernel = some (idtr, k)) (hend : EndOk s.kernel k)
    (hrun : IdtRun mmap idtr.base k regs k') :
    IdtRight idtr.base regs k'.mem ↔ (∀ r ∈ regs, r.irq ≠ 255) ∧ ∀ v, (∀ r ∈ regs, r.irq ≠ v) →
      (s.kernel.mem (idtr.base + 8 * v.toNat + 5)).toNat &&& 0x80 = 0 := by
  obtain ⟨bs, h⟩ := hs.inv
  obtain ⟨bs', t, hheap, ht, hfree, hsize, hbase, hsame⟩ := exists_table h.heap hinit hend
  rw [hbase] at hrun ⊢
  obtain ⟨bs'', hinv⟩ := hrun.inv hheap ht hfree hsize
  refine hinv.right_iff.trans (and_congr_right fun _ => forall_congr' fun v => ?_)
  have hv := v.toNat_lt
  rw [hsame _ (by omega) (by omega)]

/-- After boot every sequence of registrations has a run. -/
theorem exists_idtRun_freshHeap (regs : List IdtReg) (hlen : regs.length ≤ 8) :
    ∃ idtr k k', initIdt (kernelSpace mapAll) 3 freshHeap.kernel = some (idtr, k) ∧
      idtr.base = 3489660948 ∧ EndOk freshHeap.kernel k ∧ IdtRun mapAll idtr.base k regs k' := by
  have hreach : Reachable kernelHeap mapAll freshHeap := reachable_historyOf _ _ _
  have hinit : (initIdt (kernelSpace mapAll) 3 freshHeap.kernel).map
      (fun r => (r.1.base, r.2.heapStart, r.2.heapSize)) =
        some (3489660948, 3489660928, 12288) := by
    decide +kernel
  obtain ⟨r, hr, hvalues⟩ := Option.map_eq_some_iff.mp hinit
  simp only [Prod.mk.injEq] at hvalues
  obtain ⟨hbase, hstart, hsize⟩ := hvalues
  have hend : EndOk freshHeap.kernel r.2 := by
    have hsize₀ : freshHeap.kernel.heapSize = 12288 := by decide +kernel
    refine ⟨by rw [hsize, hsize₀], ?_⟩
    rw [hstart, hsize]
    decide
  obtain ⟨k', hrun⟩ := exists_idtRun_of_initIdt hreach hr hend regs (by
    rw [hstart, hsize]
    omega)
  exact ⟨r.1, r.2, k', hr, hbase, hend, hrun⟩

/-- A trap and an interrupt, registered after boot on a heap that holds zeros there. -/
theorem idt_right_freshHeap :
    ∃ idtr k k', initIdt (kernelSpace mapAll) 3 freshHeap.kernel = some (idtr, k) ∧
      IdtRun mapAll idtr.base k [⟨14, 0xc0101234, true⟩, ⟨33, 0xc0105678, false⟩] k' ∧
      IdtRight idtr.base [⟨14, 0xc0101234, true⟩, ⟨33, 0xc0105678, false⟩] k'.mem := by
  obtain ⟨idtr, k, k', hinit, hbase, hend, hrun⟩ := exists_idtRun_freshHeap
    [⟨14, 0xc0101234, true⟩, ⟨33, 0xc0105678, false⟩] (by decide)
  refine ⟨idtr, k, k', hinit, hrun, ?_⟩
  refine (idt_right_iff (reachable_historyOf _ _ _) hinit hend hrun).mpr ⟨by decide, fun v _ => ?_⟩
  have hstale : ∀ v < 256,
      (freshHeap.kernel.mem (3489660948 + 8 * v + 5)).toNat &&& 0x80 = 0 := by
    decide +kernel
  have hv : v.toNat < 256 := v.toNat_lt
  rw [hbase]
  apply hstale
  exact hv

/-- A heap on which a block of the size of the table was used before, and held `0x8e` at byte 5. -/
def staleHeap : History Unit :=
  historyOf mapAll [.kmalloc 2040, .write 3489660948 5 0x8e, .kfree 3489660948] (by decide +kernel)

/-- The gate of vector 255 is written behind the table; and on a heap that was used before vector 0
is present although nothing was registered. -/
theorem not_idtRight :
    (∃ idtr k k', initIdt (kernelSpace mapAll) 3 freshHeap.kernel = some (idtr, k) ∧
      IdtRun mapAll idtr.base k [⟨255, 0xc0101234, false⟩] k' ∧
      ¬IdtRight idtr.base [⟨255, 0xc0101234, false⟩] k'.mem) ∧
    ∃ idtr k, initIdt (kernelSpace mapAll) 3 staleHeap.kernel = some (idtr, k) ∧
      IdtRun mapAll idtr.base k [] k ∧ ¬IdtRight idtr.base [] k.mem := by
  constructor
  · obtain ⟨idtr, k, k', hinit, hbase, -, hrun⟩ := exists_idtRun_freshHeap
      [⟨255, 0xc0101234, false⟩] (by decide)
    refine ⟨idtr, k, k', hinit, hrun, fun hright => ?_⟩
    have hin := (hright.inside _ (List.mem_singleton_self _)).2
    rw [hbase] at hin
    exact absurd hin (by decide)
  · have hinit : (initIdt (kernelSpace mapAll) 3 staleHeap.kernel).map
        (fun r => (r.1.base, r.2.mem 3489660953)) = some (3489660948, 0x8e) := by
      decide +kernel
    obtain ⟨r, hr, hvalues⟩ := Option.map_eq_some_iff.mp hinit
    obtain ⟨hbase, hbyte⟩ := Prod.mk.inj hvalues
    refine ⟨r.1, r.2, hr, .nil, fun hright => ?_⟩
    have hpresent := hright.unregistered 0 rfl
    rw [hbase] at hpresent
    change loadLE 1 r.2.mem 3489660953 &&& 0x80 = 0 at hpresent
    rw [loadLE, loadLE, hbyte] at hpresent
    exact absurd hpresent (by decide)

end PakOS
