import PakOS.Kernel.Gdt
import PakOS.Kernel.Idt
import PakOS.Kernel.Pic
import PakOS.Kmalloc.Payload

/-!
# How interrupts find their handlers

`init_gdt` and `init_idt` put their tables on the heap, `init_cpu_traps` of `kernel/irq/cpu_traps.c`
and the drivers register handlers, and `init_pic` moves the interrupt lines behind the vectors of the
processor.  `dispatch` is what the processor makes of the two tables when a vector is raised: the gate
has to lie in the table, to be present and of a known type, and to select a segment that is code, is
present and reaches as far as the handler.

The tables are allocations like others.  `interrupts_handled` says that they work however the heap is
used afterwards, as long as nobody writes to the two or gives them back.
-/

namespace PakOS

open Machine Coalesce

variable {E : Type*}

/-! ### The segment table -/

/-- `struct gdtr` -/
structure Gdtr where
  /-- The number of bytes of the table. -/
  limit : ℕ
  /-- `gdt_base` -/
  base : ℕ

/-- `num_entries` of `init_gdt` -/
def gdtNumEntries : ℕ := 5

/-- The stores to `gdt_base[0]`, …, `gdt_base[4]`. -/
def gdtFields : List (ℕ × ℕ) := gdtEntries.map fun desc => (8, desc.toNat)

/-- `init_gdt()`, which always returns `STATUS_OK`. -/
def initGdt (space : Space E) (fuel : ℕ) (k : Kernel E) : Option (Gdtr × Kernel E) :=
  (kmalloc space fuel (mul32 8 gdtNumEntries) k).map fun r =>
    (⟨mul32 8 gdtNumEntries, r.1⟩, { r.2 with mem := storeFields r.2.mem r.1 gdtFields })

/-! ### The processor -/

/-- The segment that a selector names, if it is in the table; the first entry is none. -/
def segmentAt (m : Mem) (gdtr : Gdtr) (selector : ℕ) : Option Segment :=
  if 0 < selector / 8 ∧ selector / 4 % 2 = 0 ∧ selector / 8 * 8 + 7 ≤ gdtr.limit then
    some (decodeSegment (.ofNat 64 (loadLE 8 m (gdtr.base + selector / 8 * 8))))
  else none

/-- The segment is present, is code, and is the kernel's. -/
def Segment.isKernelCode (s : Segment) : Bool :=
  s.access.getLsbD 7 && s.access.getLsbD 4 && s.access.getLsbD 3 && s.access.extractLsb' 5 2 = 0

/-- The last offset in the segment: the limit counts bytes or pages. -/
def Segment.lastOffset (s : Segment) : ℕ :=
  if s.flags.getLsbD 3 then s.limit.toNat * 4096 + 4095 else s.limit.toNat

/-- How an interrupt is handled. -/
structure Handling where
  /-- Where the processor goes on. -/
  addr : ℕ
  /-- Interrupts are disabled on the way. -/
  masks : Bool
  deriving DecidableEq

/-- What the processor does when the vector `v` is raised while the kernel runs; `none` is a fault.
The types 14 and 15 are those of the interrupt gate and the trap gate. -/
def dispatch (m : Mem) (gdtr : Gdtr) (idtr : Idtr) (v : ℕ) : Option Handling :=
  if 8 * v + 7 ≤ idtr.limit then
    let gate := gateAt m (idtr.base + 8 * v)
    if 128 ≤ gate.typeAttr ∧ (gate.typeAttr % 32 = 14 ∨ gate.typeAttr % 32 = 15) then
      (segmentAt m gdtr gate.selector).bind fun s =>
        if s.isKernelCode ∧ gate.offset ≤ s.lastOffset then
          some ⟨add32 s.base.toNat gate.offset, gate.typeAttr % 32 = 14⟩
        else none
    else none
  else none

/-! ### The handlers of the processor's own vectors -/

/-- The handlers in `cpu_traps.c`. -/
inductive CpuIsr
  | faultDe | faultDb | intNomask | faultBp | faultOf | faultBr | faultUd | faultNm | abortDf
  | faultTs | faultNp | faultSs | faultGp | faultPf | faultMf | faultAc | abortMc | faultXmxf
  | faultVe | faultSx
  deriving DecidableEq, Repr

/-- The registrations of `init_cpu_traps()`, with the addresses that the handlers are linked at. -/
def cpuTraps (link : CpuIsr → UInt32) : List IdtReg :=
  [⟨0, link .faultDe, true⟩, ⟨1, link .faultDb, true⟩, ⟨2, link .intNomask, false⟩,
    ⟨3, link .faultBp, true⟩, ⟨4, link .faultOf, true⟩, ⟨5, link .faultBr, true⟩,
    ⟨6, link .faultUd, true⟩, ⟨7, link .faultNm, true⟩, ⟨8, link .abortDf, true⟩,
    ⟨10, link .faultTs, true⟩, ⟨11, link .faultNp, true⟩, ⟨12, link .faultSs, true⟩,
    ⟨13, link .faultGp, true⟩, ⟨14, link .faultPf, true⟩, ⟨16, link .faultMf, true⟩,
    ⟨17, link .faultAc, true⟩, ⟨18, link .abortMc, true⟩, ⟨19, link .faultXmxf, true⟩,
    ⟨20, link .faultVe, true⟩, ⟨30, link .faultSx, true⟩]

/-- The vector that the processor raises for each. -/
def CpuIsr.vector : CpuIsr → UInt8
  | faultDe => 0
  | faultDb => 1
  | intNomask => 2
  | faultBp => 3
  | faultOf => 4
  | faultBr => 5
  | faultUd => 6
  | faultNm => 7
  | abortDf => 8
  | faultTs => 10
  | faultNp => 11
  | faultSs => 12
  | faultGp => 13
  | faultPf => 14
  | faultMf => 16
  | faultAc => 17
  | abortMc => 18
  | faultXmxf => 19
  | faultVe => 20
  | faultSx => 30

/-- Each handler is registered for its vector, and only the nonmaskable interrupt masks others. -/
theorem lastFor_cpuTraps (link : CpuIsr → UInt32) (isr : CpuIsr) :
    lastFor isr.vector (cpuTraps link) = some ⟨isr.vector, link isr, isr ≠ .intNomask⟩ := by
  cases isr <;> rfl

theorem CpuIsr.vector_lt (isr : CpuIsr) : isr.vector.toNat < 32 := by
  cases isr <;> decide

/-! ### The two tables -/

variable {mmap : Mmap E} {m : Mem} {gdtr : Gdtr} {idtr : Idtr}

/-- The code segment of the kernel is the whole address space. -/
theorem segmentAt_gdt (hlimit : gdtr.limit = 40) (hgdt : Holds m gdtr.base (fieldBytes gdtFields)) :
    segmentAt m gdtr 0x8 = some ⟨0, 0xfffff, gdtAbCode0, 0xc⟩ := by
  have hdesc : loadLE 8 m (gdtr.base + 8) = _ := hgdt.loadLE_field [(8, 0)]
  have hdecode : decodeSegment (.ofNat 64 ((makeGdtDesc 0x0 0xffffffff gdtAbCode0 gdtX86Flag).toNat
      % 256 ^ 8)) = ⟨0, 0xfffff, gdtAbCode0, 0xc⟩ := by decide
  unfold segmentAt
  rw [if_pos (by rw [hlimit]; decide), hdesc]
  exact congrArg some hdecode

/-- A gate that was registered is dispatched to its handler. -/
theorem dispatch_of_holds (hlimit : gdtr.limit = 40)
    (hgdt : Holds m gdtr.base (fieldBytes gdtFields)) {r : IdtReg} {v : ℕ}
    (hv : 8 * v + 7 ≤ idtr.limit)
    (hgate : Holds m (idtr.base + 8 * v) (fieldBytes (idtEntryFields r.isr.toNat r.type))) :
    dispatch m gdtr idtr v = some ⟨r.isr.toNat, !r.trap⟩ := by
  have hisr : r.isr.toNat < 4294967296 := r.isr.toNat_lt
  have htype : r.type < 256 ∧ 128 ≤ r.type ∧ (r.type % 32 = 14 ∨ r.type % 32 = 15) ∧
      decide (r.type % 32 = 14) = !r.trap := by
    unfold IdtReg.type
    cases r.trap <;> decide
  obtain ⟨hbyte, hpresent, hkind, hmasks⟩ := htype
  have hsegment : (⟨0, 0xfffff, gdtAbCode0, 0xc⟩ : Segment).isKernelCode ∧
      (⟨0, 0xfffff, gdtAbCode0, 0xc⟩ : Segment).lastOffset = 4294967295 := by decide
  unfold dispatch
  rw [if_pos hv, gateAt_of_holds hgate hisr hbyte]
  simp only
  rw [if_pos ⟨hpresent, hkind⟩, segmentAt_gdt hlimit hgdt, Option.bind_some,
    if_pos ⟨hsegment.1, by rw [hsegment.2]; omega⟩, hmasks]
  have haddr : add32 (0 : BitVec 32).toNat r.isr.toNat = r.isr.toNat := by
    rw [add32_of_lt (by simpa using hisr)]
    exact Nat.zero_add _
  rw [haddr]

/-! ### The tables on the heap -/

section Heap

variable {s : History E} {k k' : Kernel E} {bs : List Block} {fuel base : ℕ} {regs : List IdtReg}

/-- `init_gdt` takes a block, and fills it in. -/
theorem initGdt_filled (h : HistoryInv s bs)
    (hinit : initGdt (kernelSpace mmap) fuel s.kernel = some (gdtr, k)) (hend : EndOk s.kernel k) :
    gdtr.limit = 40 ∧ Holds k.mem gdtr.base (fieldBytes gdtFields) ∧
      Filled mmap s 40 gdtr.base (s.handOut gdtr.base k) := by
  obtain ⟨⟨p, k₁⟩, hk, hr⟩ := Option.map_eq_some_iff.mp hinit
  obtain ⟨rfl, rfl⟩ := Prod.mk.inj hr
  have hwidth : fieldsWidth gdtFields = 40 := by decide
  exact ⟨rfl, holds_storeFields _ _ _, h.filled hk (by decide) hend fun x hx =>
    storeFields_of_notMem (by rwa [hwidth])⟩

/-- `init_idt` takes a block. -/
theorem initIdt_filled (h : HistoryInv s bs)
    (hinit : initIdt (kernelSpace mmap) fuel s.kernel = some (idtr, k)) (hend : EndOk s.kernel k) :
    idtr.limit = 2040 ∧ Filled mmap s 2040 idtr.base (s.handOut idtr.base k) := by
  obtain ⟨⟨p, k₁⟩, hk, hr⟩ := Option.map_eq_some_iff.mp hinit
  obtain ⟨rfl, rfl⟩ := Prod.mk.inj hr
  exact ⟨rfl, h.filled hk (by decide) hend fun _ _ => rfl⟩

/-- A registration takes a block for the entry, and writes to the table. -/
theorem idtMap_worksOn {r : IdtReg} (h : HistoryInv s bs) (hbase : base ∈ s.live)
    (hsize : 2048 ≤ recordedSize s.kernel base)
    (hmap : idtMap (kernelSpace mmap) fuel base r s.kernel = some k') (hend : EndOk s.kernel k') :
    ∃ t, t.kernel = k' ∧ WorksOn mmap base s t := by
  obtain ⟨⟨p, k₂⟩, hdesc, rfl⟩ := Option.map_eq_some_iff.mp hmap
  obtain ⟨⟨q, k₁⟩, hk, hr⟩ := Option.map_eq_some_iff.mp hdesc
  obtain ⟨rfl, rfl⟩ := Prod.mk.inj hr
  have hentryMem : ∀ m : Mem, ∀ x, x < q ∨ q + 8 ≤ x →
      storeFields m q (idtEntryFields r.isr.toNat r.type) x = m x := fun m x hx =>
    storeFields_of_notMem hx
  have hentry := h.filled hk (by decide) hend (hentryMem k₁.mem)
  have hworks := WorksOn.of_filled hentry base
  obtain ⟨bs₁, h₁⟩ := hworks.inv h
  have hsize₁ := hworks.size_eq h hbase
  have hbase₁ := hworks.live base hbase
  -- the gate lies in the table
  have hfits : base + 2048 ≤ 4294967296 := by
    obtain ⟨b, hb, -, rfl⟩ := h.exists_block hbase
    have hbounds := h.heap.block_bounds hb
    rw [recordedSize, h.heap.size_eq hb] at hsize
    omega
  have hgate := idtGate_eq hfits r.irq
  have hr := r.irq.toNat_lt
  have hwrite := WorksOn.of_write (m := copyBytes
    (storeFields k₁.mem q (idtEntryFields r.isr.toNat r.type)) (idtGate base r.irq) q 8) mmap h₁
    hbase₁ fun x hx => by
      rw [hsize₁] at hx
      rw [copyBytes_of_notMem (by omega) (by omega), History.handOut_kernel]
  refine ⟨_, ?_, hworks.trans hwrite⟩
  simp only [History.handOut_kernel]

/-- A run of registrations works on the table. -/
theorem IdtRun.worksOn (hrun : IdtRun mmap base s.kernel regs k') (h : HistoryInv s bs)
    (hbase : base ∈ s.live) (hsize : 2048 ≤ recordedSize s.kernel base) :
    ∃ t, t.kernel = k' ∧ WorksOn mmap base s t := by
  induction hrun with
  | nil => exact ⟨s, rfl, .refl mmap base s⟩
  | snoc _ hmap hend ih =>
    obtain ⟨t₁, rfl, hworks⟩ := ih
    obtain ⟨bs₁, h₁⟩ := hworks.inv h
    obtain ⟨t, ht, hstep⟩ := idtMap_worksOn h₁ (hworks.live base hbase)
      (by rwa [hworks.size_eq h hbase]) hmap hend
    exact ⟨t, ht, hworks.trans hstep⟩

/-- What is registered twice is what is registered last. -/
theorem lastFor_append_list (v : UInt8) (regs more : List IdtReg) :
    lastFor v (regs ++ more) = (lastFor v more).or (lastFor v regs) := by
  rw [lastFor, List.reverse_append, List.find?_append]
  rfl

/-- What a run of registrations leaves in the table. -/
theorem IdtRun.holds_gate (hrun : IdtRun mmap base s.kernel regs k') (h : HistoryInv s bs)
    (hbase : base ∈ s.live) (hsize : 2048 ≤ recordedSize s.kernel base) {v : UInt8} {r : IdtReg}
    (hlast : lastFor v regs = some r) :
    Holds k'.mem (base + 8 * v.toNat) (fieldBytes (idtEntryFields r.isr.toNat r.type)) := by
  obtain ⟨b, hb, hfree, rfl⟩ := h.exists_block hbase
  have hbounds := h.heap.block_bounds hb
  rw [recordedSize, h.heap.size_eq hb] at hsize
  obtain ⟨bs', hinv⟩ := hrun.inv h.heap hb hfree hsize
  have hholds := hinv.registered v r hlast
  rwa [idtGate_eq (by omega)] at hholds

/-- Both tables are live, and hold the segments and the registrations. -/
structure TablesAt (gdtr : Gdtr) (idtr : Idtr) (regs : List IdtReg) (t : History E) : Prop where
  /-- The segment table is live. -/
  gdt : gdtr.base ∈ t.live
  /-- The interrupt table is live. -/
  idt : idtr.base ∈ t.live
  /-- The block of the segment table. -/
  gdtSize : 48 ≤ recordedSize t.kernel gdtr.base
  /-- The block of the interrupt table. -/
  idtSize : 2048 ≤ recordedSize t.kernel idtr.base
  /-- The number of bytes of the segment table. -/
  gdtLimit : gdtr.limit = 40
  /-- The number of bytes of the interrupt table. -/
  idtLimit : idtr.limit = 2040
  /-- The segments. -/
  segments : Holds t.kernel.mem gdtr.base (fieldBytes gdtFields)
  /-- The gates. -/
  gates : ∀ v r, lastFor v regs = some r →
    Holds t.kernel.mem (idtr.base + 8 * v.toNat) (fieldBytes (idtEntryFields r.isr.toNat r.type))

/-- Whatever happens to the heap but to the tables, a vector that was registered is dispatched to its
handler. -/
theorem TablesAt.dispatch_eq {t s' : History E} {ops : List (ObjectStore.Op ℕ UInt8)}
    (ht : TablesAt gdtr idtr regs t) (h : HistoryInv t bs) (hrun : ClientRun mmap t ops s')
    (hops : ∀ op ∈ ops, ¬op.Names gdtr.base ∧ ¬op.Names idtr.base) {v : UInt8} {r : IdtReg}
    (hlast : lastFor v regs = some r) (hv : v.toNat < 255) :
    dispatch s'.kernel.mem gdtr idtr v.toNat = some ⟨r.isr.toNat, !r.trap⟩ := by
  have hgdtSize := ht.gdtSize
  have hidtSize := ht.idtSize
  obtain ⟨-, hgdt⟩ := hrun.frame h ht.gdt fun op hop => (hops op hop).1
  obtain ⟨-, hidt⟩ := hrun.frame h ht.idt fun op hop => (hops op hop).2
  have hsegments : Holds s'.kernel.mem gdtr.base (fieldBytes gdtFields) := by
    refine ht.segments.congr fun x hlo hhi => ?_
    have hwidth : (fieldBytes gdtFields).length = 40 := by decide
    obtain ⟨i, rfl⟩ := Nat.exists_eq_add_of_le hlo
    exact hgdt i (by omega)
  have hgate : Holds s'.kernel.mem (idtr.base + 8 * v.toNat)
      (fieldBytes (idtEntryFields r.isr.toNat r.type)) := by
    refine (ht.gates v r hlast).congr fun x hlo hhi => ?_
    have hwidth : (fieldBytes (idtEntryFields r.isr.toNat r.type)).length = 8 := length_fieldBytes _
    obtain ⟨i, rfl⟩ := Nat.exists_eq_add_of_le hlo
    rw [Nat.add_assoc]
    exact hidt _ (by omega)
  exact dispatch_of_holds ht.gdtLimit hsegments (by rw [ht.idtLimit]; omega) hgate

/-- The tables after `init_gdt`, `init_idt` and a run of registrations. -/
theorem exists_tablesAt {k₁ k₂ k₃ : Kernel E} {fuel₁ fuel₂ : ℕ} (h : HistoryInv s bs)
    (hgdt : initGdt (kernelSpace mmap) fuel₁ s.kernel = some (gdtr, k₁)) (hend₁ : EndOk s.kernel k₁)
    (hidt : initIdt (kernelSpace mmap) fuel₂ k₁ = some (idtr, k₂)) (hend₂ : EndOk k₁ k₂)
    (hrun : IdtRun mmap idtr.base k₂ regs k₃) :
    ∃ t, t.kernel = k₃ ∧ WorksOn mmap idtr.base s t ∧ TablesAt gdtr idtr regs t := by
  obtain ⟨hglimit, hsegments, hgfilled⟩ := initGdt_filled h hgdt hend₁
  have hworks₁ := WorksOn.of_filled hgfilled idtr.base
  obtain ⟨s₁, rfl, hs₁⟩ : ∃ s₁ : History E, s₁.kernel = k₁ ∧ s.handOut gdtr.base k₁ = s₁ :=
    ⟨_, History.handOut_kernel s gdtr.base k₁, rfl⟩
  rw [hs₁] at hgfilled hworks₁
  obtain ⟨bs₁, h₁⟩ := hworks₁.inv h
  obtain ⟨hilimit, hifilled⟩ := initIdt_filled h₁ hidt hend₂
  have hworks₂ := WorksOn.of_filled hifilled idtr.base
  obtain ⟨s₂, rfl, hs₂⟩ : ∃ s₂ : History E, s₂.kernel = k₂ ∧ s₁.handOut idtr.base k₂ = s₂ :=
    ⟨_, History.handOut_kernel s₁ idtr.base k₂, rfl⟩
  rw [hs₂] at hifilled hworks₂
  obtain ⟨bs₂, h₂⟩ := hworks₂.inv h₁
  -- both tables are live, and they are different
  have hglive := (hgfilled.live gdtr.base).mpr (Or.inl rfl)
  have hilive := (hifilled.live idtr.base).mpr (Or.inl rfl)
  have hne : gdtr.base ≠ idtr.base := fun heq => hifilled.fresh (heq ▸ hglive)
  have hgsize : 48 ≤ recordedSize s₁.kernel gdtr.base := hgfilled.size
  have hisize : 2048 ≤ recordedSize s₂.kernel idtr.base := hifilled.size
  obtain ⟨t, rfl, hworks₃⟩ := hrun.worksOn h₂ hilive hisize
  have hworks := hworks₂.trans hworks₃
  refine ⟨t, rfl, hworks₁.trans hworks, hworks.live _ hglive, hworks₃.live _ hilive, ?_, ?_, hglimit,
    hilimit, hsegments.congr fun x hlo hhi => ?_, fun v r hlast => hrun.holds_gate h₂ hilive hisize hlast⟩
  · rwa [hworks.size_eq h₁ hglive]
  · rwa [hworks₃.size_eq h₂ hilive]
  · have hwidth : (fieldBytes gdtFields).length = 40 := by decide
    obtain ⟨i, rfl⟩ := Nat.exists_eq_add_of_le hlo
    exact hworks.mem_eq h₁ hglive hne (by omega)

end Heap

/-! ### The interrupts of the kernel -/

/-- **Interrupts are handled.**  On every reachable heap, after `init_gdt`, `init_idt`,
`init_cpu_traps` and any registrations for vectors behind those of the processor, and however the heap
is used from then on, the two tables excepted: each of the processor's vectors is dispatched to its
handler in `cpu_traps.c`, and only the nonmaskable interrupt disables others.  And when the
controllers were initialised and not moved, a line that is heard is never taken for a fault, and is
dispatched to the handler that was registered last for its vector. -/
theorem interrupts_handled {heap : HeapBase} {s : History E} {k₁ k₂ k₃ : Kernel E} {fuel₁ fuel₂ : ℕ}
    (link : CpuIsr → UInt32) {more : List IdtReg} (hs : Reachable heap mmap s)
    (hgdt : initGdt (kernelSpace mmap) fuel₁ s.kernel = some (gdtr, k₁)) (hend₁ : EndOk s.kernel k₁)
    (hidt : initIdt (kernelSpace mmap) fuel₂ k₁ = some (idtr, k₂)) (hend₂ : EndOk k₁ k₂)
    (hrun : IdtRun mmap idtr.base k₂ (cpuTraps link ++ more) k₃)
    (hmore : ∀ r ∈ more, 32 ≤ r.irq.toNat) :
    ∃ t : History E, t.kernel = k₃ ∧ Reachable heap mmap t ∧ (∀ p ∈ s.live, p ∈ t.live) ∧
      ∀ ops s', ClientRun mmap t ops s' →
        (∀ op ∈ ops, ¬op.Names gdtr.base ∧ ¬op.Names idtr.base) →
        (∀ isr : CpuIsr, dispatch s'.kernel.mem gdtr idtr isr.vector.toNat =
          some ⟨(link isr).toNat, isr = .intNomask⟩) ∧
        ∀ (p p' : Pics) (calls : List PicCall) (line v : ℕ),
          (∀ c ∈ calls, c.Defined ∧ ∀ m s, c ≠ .remap m s) → runPic calls p.initPic = some p' →
          p'.vector line = some v → (∀ isr : CpuIsr, isr.vector.toNat ≠ v) ∧
            ∀ r, lastFor (.ofNat v) more = some r →
              dispatch s'.kernel.mem gdtr idtr v = some ⟨r.isr.toNat, !r.trap⟩ := by
  obtain ⟨bs, h⟩ := hs.inv
  obtain ⟨t, rfl, hworks, htables⟩ := exists_tablesAt h hgdt hend₁ hidt hend₂ hrun
  obtain ⟨bs', ht⟩ := hworks.inv h
  obtain ⟨opsInit, hclient, -⟩ := hworks.run
  refine ⟨t, rfl, hclient.reachable hs, hworks.live, fun ops s' hlater hops =>
    ⟨fun isr => ?_, fun p p' calls line v hcalls hpic hvector => ?_⟩⟩
  · have hlt := isr.vector_lt
    have hnone : lastFor isr.vector more = none := lastFor_eq_none_iff.mpr fun r hr heq => by
      have hirq := hmore r hr
      rw [heq] at hirq
      omega
    have hlast : lastFor isr.vector (cpuTraps link ++ more) =
        some ⟨isr.vector, link isr, isr ≠ .intNomask⟩ := by
      rw [lastFor_append_list, hnone, Option.none_or, lastFor_cpuTraps]
    rw [htables.dispatch_eq ht hlater hops hlast (by omega)]
    cases isr <;> rfl
  · obtain ⟨p₁, hrun₁, hinv⟩ := (picInv_initPic p).runPic fun c hc => (hcalls c hc).1
    obtain rfl : p₁ = p' := Option.some.inj (hrun₁.symm.trans hpic)
    rw [hinv.vector_eq] at hvector
    obtain ⟨hline, rfl⟩ := IrqLines.vector_foldl (fun c hc => (hcalls c hc).2) hvector
    refine ⟨fun isr heq => ?_, fun r hr => ?_⟩
    · have hlt := isr.vector_lt
      omega
    · have hnat : (UInt8.ofNat (32 + line)).toNat = 32 + line := by
        rw [UInt8.toNat_ofNat']
        omega
      have hlast : lastFor (.ofNat (32 + line)) (cpuTraps link ++ more) = some r := by
        rw [lastFor_append_list, hr, Option.some_or]
      have hdispatch := htables.dispatch_eq ht hlater hops hlast (by omega)
      rwa [hnat] at hdispatch

/-- After boot, with a handler for the keyboard. -/
theorem interrupts_handled_keyboard : ∃ gdtr idtr, ∃ t : History Unit,
    dispatch t.kernel.mem gdtr idtr 14 = some ⟨0xc0101234, false⟩ ∧
      dispatch t.kernel.mem gdtr idtr 33 = some ⟨0xc0105678, true⟩ := by
  have hreach : Reachable kernelHeap mapAll freshHeap := reachable_historyOf _ _ _
  obtain ⟨bs, h⟩ := hreach.inv
  have hsize₀ : freshHeap.kernel.heapSize = 12288 := by decide +kernel
  have hinit : ((initGdt (kernelSpace mapAll) 3 freshHeap.kernel).bind fun r =>
      (initIdt (kernelSpace mapAll) 3 r.2).map fun q =>
        (r.2.heapStart, r.2.heapSize, q.2.heapStart, q.2.heapSize)) =
      some (3489660928, 12288, 3489660928, 12288) := by decide +kernel
  obtain ⟨⟨gdtr, k₁⟩, hgdt, hidt⟩ := Option.bind_eq_some_iff.mp hinit
  obtain ⟨⟨idtr, k₂⟩, hidt, hvalues⟩ := Option.map_eq_some_iff.mp hidt
  simp only [Prod.mk.injEq] at hvalues
  obtain ⟨hstart₁, hsize₁, hstart₂, hsize₂⟩ := hvalues
  have hend₁ : EndOk freshHeap.kernel k₁ := ⟨by rw [hsize₁, hsize₀], by rw [hstart₁, hsize₁]; decide⟩
  have hend₂ : EndOk k₁ k₂ := ⟨by rw [hsize₂, hsize₁], by rw [hstart₂, hsize₂]; decide⟩
  obtain ⟨-, -, hfilled⟩ := initGdt_filled h hgdt hend₁
  obtain ⟨bs₁, h₁⟩ := (WorksOn.of_filled hfilled 0).inv h
  have hheap₁ := h₁.heap
  rw [History.handOut_kernel] at hheap₁
  obtain ⟨bs₂, b, hheap₂, hb, hfree, hsize, hbase, -⟩ := exists_table hheap₁ hidt hend₂
  let more : List IdtReg := [⟨33, 0xc0105678, false⟩]
  obtain ⟨k₃, hrun, -⟩ := exists_idtRun mapAll (cpuTraps (fun _ => 0xc0101234) ++ more) hheap₂ hb
    hfree hsize (by rw [hstart₂, hsize₂]; decide)
  rw [← hbase] at hrun
  obtain ⟨t, -, -, -, hall⟩ := interrupts_handled (fun _ => 0xc0101234) hreach hgdt hend₁ hidt hend₂
    hrun (by decide)
  obtain ⟨hcpu, hlines⟩ := hall [] t .nil fun op hop => absurd hop List.not_mem_nil
  -- the firmware left the controllers as they come out of a reset
  let c : I8259 := ⟨0, 0, 0, 0, true, false, .mask⟩
  obtain ⟨p', hpic, hvector⟩ : ∃ p', runPic [.yesirq 1] (Pics.initPic ⟨c, c⟩) = some p' ∧
      p'.vector 1 = some 33 := ⟨_, rfl, by decide⟩
  obtain ⟨-, hkeyboard⟩ := hlines ⟨c, c⟩ p' [.yesirq 1] 1 33 (by simp [PicCall.Defined]) hpic hvector
  exact ⟨gdtr, idtr, t, hcpu .faultPf, hkeyboard ⟨33, 0xc0105678, false⟩ rfl⟩

end PakOS
