import PakOS.Data.ObjectStore
import PakOS.Kmalloc.Realloc
import PakOS.Machine.Record

/-!
# The heap is a store of objects

`History.store s` forgets addresses, headers and free blocks: the objects are the live allocations,
and the cells of each are the bytes of its payload.  `ClientStep` is `Step` with what the client does
written down, and every such step is a step of the store (`ClientStep.store`); `heap_store` is the
run theorem.

What a client has stored in an allocation is therefore there until the client itself overwrites it,
frees it or reallocates it, whatever the allocator does for others in the meantime.
-/

namespace PakOS

open Machine Coalesce

variable {E : Type*} {base : HeapBase} {mmap : Mmap E}

/-- The store that a history implements. -/
def History.store (s : History E) : ObjectStore.Store ℕ UInt8 := fun p =>
  if p ∈ s.live then some (bytesAt s.kernel.mem p (recordedSize s.kernel p)) else none

/-- The history in which a client wrote the byte `v` to `a`. -/
def History.written (s : History E) (a : ℕ) (v : UInt8) : History E :=
  { s with kernel := { s.kernel with mem := Function.update s.kernel.mem a v } }

/-- A step of a history, and what the client does in it. -/
inductive ClientStep (mmap : Mmap E) (s : History E) :
    ObjectStore.Op ℕ UInt8 → History E → Prop
  /-- `kmalloc(length)` -/
  | kmalloc {fuel length p : ℕ} {k : Kernel E}
      (hk : PakOS.kmalloc (kernelSpace mmap) fuel length s.kernel = some (p, k))
      (hlen : SizeOk length) (hend : EndOk s.kernel k) :
      ClientStep mmap s (.new length none) (s.handOut p k)
  /-- `kcalloc(nmemb, size)` -/
  | kcalloc {fuel nmemb size p : ℕ} {k : Kernel E}
      (hk : PakOS.kcalloc (kernelSpace mmap) fuel nmemb size s.kernel = some (p, k))
      (hmul : nmemb * size < 4294967296) (hlen : SizeOk (nmemb * size))
      (hend : EndOk s.kernel k) : ClientStep mmap s (.new (nmemb * size) (some 0)) (s.handOut p k)
  /-- `krealloc(NULL, size)` -/
  | kreallocNull {fuel size q : ℕ} {k : Kernel E}
      (hk : PakOS.krealloc (kernelSpace mmap) fuel 0 size s.kernel = some (q, k))
      (hlen : SizeOk size) (hend : EndOk s.kernel k) :
      ClientStep mmap s (.new size none) (s.moved 0 q k)
  /-- `krealloc(ptr, size)` -/
  | krealloc {fuel ptr size q : ℕ} {k : Kernel E} (hptr : ptr ∈ s.live)
      (hk : PakOS.krealloc (kernelSpace mmap) fuel ptr size s.kernel = some (q, k))
      (hlen : SizeOk size)
      (hend : recordedSize s.kernel ptr < size → ∀ p k₁,
        PakOS.kmalloc (kernelSpace mmap) fuel size s.kernel = some (p, k₁) → EndOk s.kernel k₁) :
      ClientStep mmap s (.resize ptr size) (s.moved ptr q k)
  /-- `kfree(NULL)` -/
  | kfreeNull {fuel : ℕ} {st : Status} {k : Kernel E}
      (hk : PakOS.kfree (kernelSpace mmap) fuel 0 s.kernel = some (st, k)) :
      ClientStep mmap s .skip (s.giveBack 0 k)
  /-- `kfree(ptr)` -/
  | kfree {fuel ptr : ℕ} {st : Status} {k : Kernel E} (hptr : ptr ∈ s.live)
      (hk : PakOS.kfree (kernelSpace mmap) fuel ptr s.kernel = some (st, k)) :
      ClientStep mmap s (.drop ptr) (s.giveBack ptr k)
  /-- A client writes a byte of its allocation. -/
  | write {ptr i : ℕ} {v : UInt8} (hptr : ptr ∈ s.live) (hi : i < recordedSize s.kernel ptr) :
      ClientStep mmap s (.put ptr i v) (s.written (ptr + i) v)
  /-- The rest of the kernel runs, without touching the heap. -/
  | other {k : Kernel E} (hk : SameHeap s.kernel k) :
      ClientStep mmap s .skip { s with kernel := k }

/-- A run of such steps. -/
inductive ClientRun (mmap : Mmap E) : History E → List (ObjectStore.Op ℕ UInt8) → History E → Prop
  /-- No step. -/
  | nil {s : History E} : ClientRun mmap s [] s
  /-- A step, and what follows. -/
  | cons {s t u : History E} {op : ObjectStore.Op ℕ UInt8} {ops : List (ObjectStore.Op ℕ UInt8)}
      (hstep : ClientStep mmap s op t) (hrun : ClientRun mmap t ops u) :
      ClientRun mmap s (op :: ops) u

variable {s s' : History E} {bs : List Block} {op : ObjectStore.Op ℕ UInt8}

/-- They are steps. -/
theorem ClientStep.step (h : HistoryInv s bs) (hs : ClientStep mmap s op s') : Step mmap s s' := by
  cases hs with
  | kmalloc hk hlen hend => exact .kmalloc hk hlen hend
  | kcalloc hk hmul hlen hend => exact .kcalloc hk hmul hlen hend
  | @kreallocNull fuel size q k hk hlen hend =>
    refine .krealloc (Or.inl rfl) hk hlen fun _ p k₁ hk₁ => ?_
    have hkm : PakOS.kmalloc (kernelSpace mmap) fuel size s.kernel = some (q, k) := hk
    rw [hkm] at hk₁
    cases hk₁
    exact hend
  | @krealloc fuel ptr size q k hptr hk hlen hend =>
    obtain ⟨b, -, -, rfl⟩ := h.exists_block hptr
    exact .krealloc (Or.inr hptr) hk hlen fun hlt => hend (hlt.resolve_left (by omega))
  | kfreeNull hk => exact .kfree (Or.inl rfl) hk
  | kfree hptr hk => exact .kfree (Or.inr hptr) hk
  | write hptr hi => exact .write hptr hi
  | other hk => exact .other hk

/-! ### The store of a history -/

/-- The cells of an object. -/
theorem History.store_of_mem {p : ℕ} (hp : p ∈ s.live) :
    s.store p = some (bytesAt s.kernel.mem p (recordedSize s.kernel p)) := if_pos hp

theorem History.store_of_notMem {p : ℕ} (hp : p ∉ s.live) : s.store p = none := if_neg hp

/-- An object whose contents are the same in both states. -/
theorem History.store_congr {p : ℕ} (hlive : p ∈ s'.live ↔ p ∈ s.live)
    (hsame : p ∈ s.live → SameContents s.kernel s'.kernel p) : s'.store p = s.store p := by
  by_cases hp : p ∈ s.live
  · obtain ⟨hsize, hbytes⟩ := hsame hp
    rw [store_of_mem hp, store_of_mem (hlive.mpr hp), hsize, bytesAt_congr hbytes]
  · rw [store_of_notMem hp, store_of_notMem fun hp' => hp (hlive.mp hp')]

/-- A history in which only what the address `q` stands for is different. -/
theorem History.store_eq_set {q : ℕ} (hlive : ∀ p, p ≠ q → (p ∈ s'.live ↔ p ∈ s.live))
    (hsame : ∀ p ∈ s.live, p ≠ q → SameContents s.kernel s'.kernel p) :
    s'.store = s.store.set q (s'.store q) := by
  funext p
  by_cases hpq : p = q
  · rw [hpq, ObjectStore.Store.set_same]
  · rw [ObjectStore.Store.set_of_ne _ hpq,
      store_congr (hlive p hpq) fun hp => hsame p hp hpq]

/-! ### New objects -/

/-- A live address is not that of a block that is not in use. -/
theorem KmallocStep.notMem_live {k' : Kernel E} {bs' : List Block} {b : Block} {length : ℕ}
    (hstep : KmallocStep s.kernel bs length k' bs' b) (h : HistoryInv s bs) :
    b.addr + 20 ∉ s.live := by
  intro hp
  obtain ⟨c, hc, hcfree, heq⟩ := h.exists_block hp
  exact (hstep.inUse h.heap).2 c hc hcfree (Nat.add_right_cancel heq).symm

/-- A new block leaves the contents of the others as they are, if what was written behind `kmalloc`
is in its payload. -/
theorem KmallocStep.sameContents {k₁ : Kernel E} {bs' : List Block} {b : Block} {length p : ℕ}
    {m : Mem} (hstep : KmallocStep s.kernel bs length k₁ bs' b) (h : HistoryInv s bs)
    (hinv : HeapInv { k₁ with mem := m } bs') (hinv₁ : HeapInv k₁ bs') (hlen : SizeOk length)
    (hframe : ∀ x, OffHeaders bs' x → k₁.mem x = s.kernel.mem x)
    (hm : ∀ x, x < b.addr + 20 ∨ b.stop ≤ x → m x = k₁.mem x) (hp : p ∈ s.live) :
    SameContents s.kernel { k₁ with mem := m } p := by
  obtain ⟨c, hc, hcfree, rfl⟩ := h.exists_block hp
  obtain ⟨hc', happart⟩ := hstep.apart h.heap hinv₁ hlen hc hcfree
  refine ⟨(hinv.size_eq hc').trans (h.heap.size_eq hc).symm, fun i hi => ?_⟩
  rw [recordedSize, h.heap.size_eq hc] at hi
  refine (hm _ ?_).trans (hframe _ (hinv₁.offHeaders_of_lt_size hc' hi))
  unfold Block.stop at happart ⊢
  omega

/-- `kmalloc`, and writes to the payload that it handed out, make a new object. -/
theorem HistoryInv.store_new {fuel length p : ℕ} {k₁ : Kernel E} {m : Mem} {init : Option UInt8}
    (h : HistoryInv s bs) (hk : kmalloc (kernelSpace mmap) fuel length s.kernel = some (p, k₁))
    (hlen : SizeOk length) (hend : EndOk s.kernel k₁)
    (hm : ∀ x, x < p ∨ p + length ≤ x → m x = k₁.mem x)
    (hinit : ∀ c ∈ init, ∀ i < length, m (p + i) = c) :
    ObjectStore.Step s.store (.new length init) (s.handOut p { k₁ with mem := m }).store := by
  obtain ⟨bs', b, hstep, hinv₁, rfl, hframe⟩ := kmalloc_frame h.heap hk hlen hend
  obtain ⟨hb, -, hsize⟩ := hstep.block hlen
  have hm' : ∀ x, x < b.addr + 20 ∨ b.stop ≤ x → m x = k₁.mem x := fun x hx => hm x <| by
    unfold Block.stop at hx
    omega
  have hinv : HeapInv { k₁ with mem := m } bs' := hinv₁.write_payload hb hm'
  have hlive : ∀ p, p ∈ (s.handOut (b.addr + 20) { k₁ with mem := m }).live ↔
      p = b.addr + 20 ∨ p ∈ s.live := fun p => by
    rw [History.handOut, if_neg (by omega), List.mem_cons]
  have hkernel := History.handOut_kernel s (b.addr + 20) { k₁ with mem := m }
  have hset := History.store_eq_set (s := s) (q := b.addr + 20)
    (fun p hp => (hlive p).trans (or_iff_right hp)) fun p hp _ => by
      rw [hkernel]
      exact hstep.sameContents h hinv hinv₁ hlen hframe hm' hp
  rw [hset, History.store_of_mem ((hlive _).mpr (Or.inl rfl)), hkernel, recordedSize,
    hinv.size_eq hb]
  refine .new (History.store_of_notMem (hstep.notMem_live h)) (by rwa [length_bytesAt])
    fun c hc i hi => ?_
  rw [getElem?_bytesAt (by omega)]
  exact congrArg some (hinit c hc i hi)

/-! ### The other operations -/

/-- The live addresses after a move. -/
theorem History.mem_live_moved {p q r : ℕ} {k : Kernel E} (hnodup : s.live.Nodup) (hp : p ≠ 0)
    (hq : q ≠ 0) (hqp : q ≠ p) (hnew : q ∉ s.live) :
    r ∈ (s.moved p q k).live ↔ r ≠ p ∧ (r = q ∨ r ∈ s.live) := by
  have hnodup' : (q :: s.live).Nodup := List.nodup_cons.mpr ⟨hnew, hnodup⟩
  rw [History.moved, if_neg (by omega), History.giveBack, if_neg hp, History.handOut, if_neg hq,
    hnodup'.mem_erase_iff, List.mem_cons]

/-- `krealloc` of a live address keeps the object or moves it. -/
theorem HistoryInv.store_resize {fuel ptr size q : ℕ} {k : Kernel E} (h : HistoryInv s bs)
    (hptr : ptr ∈ s.live)
    (hk : krealloc (kernelSpace mmap) fuel ptr size s.kernel = some (q, k)) (hlen : SizeOk size)
    (hend : recordedSize s.kernel ptr < size → ∀ p k₁,
      kmalloc (kernelSpace mmap) fuel size s.kernel = some (p, k₁) → EndOk s.kernel k₁) :
    ObjectStore.Step s.store (.resize ptr size) (s.moved ptr q k).store := by
  obtain ⟨bs', hinv', -⟩ := h.of_krealloc hptr hk hlen hend
  obtain ⟨b, hb, hfree, rfl⟩ := h.exists_block hptr
  have hold := History.store_of_mem hptr
  have hbsize : recordedSize s.kernel (b.addr + 20) = b.size := h.heap.size_eq hb
  rw [hbsize] at hend hold
  by_cases hsize : size ≤ b.size
  · rw [h.heap.krealloc_keep hb hsize fuel] at hk
    simp only [Option.some.injEq, Prod.mk.injEq] at hk
    obtain ⟨rfl, rfl⟩ := hk
    rw [History.moved, if_pos (Or.inr rfl)]
    exact .keep hold (by rwa [length_bytesAt])
  have hlt := Nat.lt_of_not_le hsize
  obtain ⟨k₁, bs₁, b₁, -, rfl, hmoves⟩ := krealloc_moves h.heap hb hfree hk hlen hlt (hend hlt)
  have hpres := hmoves.preserves h hinv' hb hfree hlen hsize
  have hnew := hmoves.step.notMem_live h
  have hne : b₁.addr + 20 ≠ b.addr + 20 := fun heq => hnew (heq ▸ hptr)
  have hlive : ∀ r, r ∈ (s.moved (b.addr + 20) (b₁.addr + 20) k).live ↔
      r ≠ b.addr + 20 ∧ (r = b₁.addr + 20 ∨ r ∈ s.live) := fun r =>
    History.mem_live_moved h.nodup (by omega) (by omega) hne hnew
  have hkernel := History.moved_kernel s (b.addr + 20) (b₁.addr + 20) k
  -- the old name is gone, the new one has the cells that were copied, the others keep theirs
  have hstore : (s.moved (b.addr + 20) (b₁.addr + 20) k).store =
      (s.store.set (b₁.addr + 20)
        (some (bytesAt k.mem (b₁.addr + 20) (recordedSize k (b₁.addr + 20))))).set
          (b.addr + 20) none := by
    funext r
    by_cases hrb : r = b.addr + 20
    · rw [hrb, ObjectStore.Store.set_same, History.store_of_notMem fun hr => ((hlive _).mp hr).1 rfl]
    rw [ObjectStore.Store.set_of_ne _ hrb]
    by_cases hrq : r = b₁.addr + 20
    · rw [hrq, ObjectStore.Store.set_same,
        History.store_of_mem ((hlive _).mpr ⟨hne, Or.inl rfl⟩), hkernel]
    · rw [ObjectStore.Store.set_of_ne _ hrq]
      refine History.store_congr ?_ fun hr => ?_
      · rw [hlive, or_iff_right hrq, and_iff_right hrb]
      · rw [hkernel]
        exact (hpres.others r hr hrb).2
  rw [hstore]
  refine .move hold (by rwa [length_bytesAt]) (History.store_of_notMem hnew)
    (by rw [length_bytesAt]; exact hpres.large) ?_
  have hle : b.size ≤ recordedSize k (b₁.addr + 20) := hlt.le.trans hpres.large
  have hcopied : bytesAt k.mem (b₁.addr + 20) b.size =
      bytesAt s.kernel.mem (b.addr + 20) b.size := bytesAt_congr fun i hi => hpres.contents i <| by
    rw [hbsize]
    exact lt_min hi (hi.trans_le hle)
  rw [← hcopied]
  exact bytesAt_prefix hle

/-- `kfree` of a live address drops the object. -/
theorem HistoryInv.store_drop {fuel ptr : ℕ} {st : Status} {k : Kernel E} (h : HistoryInv s bs)
    (hptr : ptr ∈ s.live) (hk : kfree (kernelSpace mmap) fuel ptr s.kernel = some (st, k)) :
    ObjectStore.Step s.store (.drop ptr) (s.giveBack ptr k).store := by
  have hold := History.store_of_mem hptr
  obtain ⟨b, hb, hfree, rfl⟩ := h.exists_block hptr
  obtain ⟨-, rfl, hinv⟩ := kfree_step h.heap hb hk
  have hlive : ∀ r, r ∈ (s.giveBack (b.addr + 20)
      { s.kernel with mem := kfreeBlock s.kernel.mem b.addr }).live ↔
        r ≠ b.addr + 20 ∧ r ∈ s.live := fun r => by
    rw [History.giveBack, if_neg (by omega), h.nodup.mem_erase_iff]
  have hset := History.store_eq_set (s := s) (q := b.addr + 20)
    (fun r hr => (hlive r).trans (and_iff_right hr)) fun r hr hrb => by
      rw [History.giveBack_kernel]
      obtain ⟨c, hc, hcfree, rfl⟩ := h.exists_block hr
      have hc' := (mem_releaseBlock hcfree).mpr ⟨hc, fun hcb => hrb (by rw [hcb])⟩
      refine ⟨(hinv.size_eq hc').trans (h.heap.size_eq hc).symm, fun i hi => ?_⟩
      rw [recordedSize, h.heap.size_eq hc] at hi
      exact h.heap.kfreeBlock_of_offHeaders hb (h.heap.offHeaders_of_lt_size hc hi)
  rw [hset, History.store_of_notMem fun hr => ((hlive _).mp hr).1 rfl]
  exact .drop hold

/-- A write to a payload writes a cell. -/
theorem HistoryInv.store_put {ptr i : ℕ} {v : UInt8} (h : HistoryInv s bs) (hptr : ptr ∈ s.live)
    (hi : i < recordedSize s.kernel ptr) :
    ObjectStore.Step s.store (.put ptr i v) (s.written (ptr + i) v).store := by
  have hold := History.store_of_mem hptr
  have hlive : ptr ∈ (s.written (ptr + i) v).live := hptr
  obtain ⟨b, hb, hfree, rfl⟩ := h.exists_block hptr
  have hbsize : recordedSize s.kernel (b.addr + 20) = b.size := h.heap.size_eq hb
  rw [hbsize] at hi hold
  have hinv : HeapInv (s.written (b.addr + 20 + i) v).kernel bs :=
    h.heap.write_payload hb fun x hx => Function.update_of_ne (by unfold Block.stop at hx; omega) _ _
  have hset : (s.written (b.addr + 20 + i) v).store =
      s.store.set (b.addr + 20) ((s.written (b.addr + 20 + i) v).store (b.addr + 20)) :=
    History.store_eq_set (fun _ _ => Iff.rfl) fun r hr hrb => by
      obtain ⟨c, hc, hcfree, rfl⟩ := h.exists_block hr
      refine ⟨(hinv.size_eq hc).trans (h.heap.size_eq hc).symm, fun j hj => ?_⟩
      rw [recordedSize, h.heap.size_eq hc] at hj
      have happart := h.heap.placed.apart hb hc fun hbc => hrb (by rw [hbc])
      unfold Block.stop at happart
      exact Function.update_of_ne (by omega) _ _
  have hcells : bytesAt (s.written (b.addr + 20 + i) v).kernel.mem (b.addr + 20) b.size =
      (bytesAt s.kernel.mem (b.addr + 20) b.size).set i v := bytesAt_update hi
  rw [hset, History.store_of_mem hlive, recordedSize, hinv.size_eq hb, hcells]
  exact .put hold (by rwa [length_bytesAt])

/-- Nothing happens to the store when the heap stays as it is. -/
theorem HistoryInv.store_other {k : Kernel E} (h : HistoryInv s bs) (hk : SameHeap s.kernel k) :
    History.store { s with kernel := k } = s.store := by
  funext p
  refine History.store_congr Iff.rfl fun hp => ?_
  obtain ⟨b, hb, hfree, rfl⟩ := h.exists_block hp
  refine ⟨((h.heap.of_sameHeap hk).size_eq hb).trans (h.heap.size_eq hb).symm, fun i hi => ?_⟩
  rw [recordedSize, h.heap.size_eq hb] at hi
  have hplace := h.heap.placed.mem hb
  unfold Block.stop at hplace
  exact hk.mem _ (by omega) (by omega)

/-! ### The step lemma and the run lemma -/

/-- Every step of a history is a step of the store. -/
theorem ClientStep.store (h : HistoryInv s bs) (hs : ClientStep mmap s op s') :
    ObjectStore.Step s.store op s'.store := by
  cases hs with
  | @kmalloc fuel length p k hk hlen hend =>
    exact h.store_new hk hlen hend (fun _ _ => rfl) fun _ hc => absurd hc (Option.not_mem_none _)
  | @kcalloc fuel nmemb size p k hk hmul hlen hend =>
    obtain ⟨k₁, hkm, rfl⟩ := kcalloc_eq_some_iff.mp hk
    rw [mul32_of_lt hmul] at hkm ⊢
    have hfits : p + nmemb * size < 4294967296 := by
      obtain ⟨bs', b, hstep, hinv, rfl⟩ := kmalloc_step h.heap hkm hlen hend
      obtain ⟨hb, -, hsize⟩ := hstep.block hlen
      have hbounds := hinv.block_bounds hb
      omega
    refine h.store_new hkm hlen hend (fun x hx => fillBytes_of_notMem hfits.le hx) ?_
    rintro _ ⟨⟩ i hi
    have hcell : fillBytes k₁.mem p 0 (nmemb * size) (add32 p i) = 0 := fillBytes_of_mem hi
    rwa [add32_of_lt (by omega)] at hcell
  | @kreallocNull fuel size q k hk hlen hend =>
    have hne : q ≠ 0 := kmalloc_ne_null h.heap hk
    have hmoved : s.moved 0 q k = s.handOut q k := by
      simp [History.moved, History.giveBack, History.handOut, hne]
    rw [hmoved]
    exact h.store_new hk hlen hend (fun _ _ => rfl) fun _ hc => absurd hc (Option.not_mem_none _)
  | krealloc hptr hk hlen hend => exact h.store_resize hptr hk hlen hend
  | kfreeNull hk =>
    obtain ⟨-, rfl⟩ := kfree_null hk
    exact .skip
  | kfree hptr hk => exact h.store_drop hptr hk
  | write hptr hi => exact h.store_put hptr hi
  | other hk =>
    rw [h.store_other hk]
    exact .skip

/-- A run of the heap is a run of the store. -/
theorem ClientRun.store {ops : List (ObjectStore.Op ℕ UInt8)} (h : HistoryInv s bs)
    (hrun : ClientRun mmap s ops s') : ObjectStore.Run s.store ops s'.store := by
  induction hrun generalizing bs with
  | nil => exact .nil
  | cons hstep _ ih =>
    obtain ⟨bs', h', -⟩ := (hstep.step h).refines h
    exact .cons (hstep.store h) (ih h')

/-- Over a run that neither frees nor reallocates it, an allocation holds what the writes to it
leave. -/
theorem ClientRun.cells {ops : List (ObjectStore.Op ℕ UInt8)} (h : HistoryInv s bs)
    (hrun : ClientRun mmap s ops s') {p : ℕ} (hp : p ∈ s.live) (hends : ∀ op ∈ ops, ¬op.Ends p) :
    p ∈ s'.live ∧ recordedSize s'.kernel p = recordedSize s.kernel p ∧
      bytesAt s'.kernel.mem p (recordedSize s.kernel p) =
        ops.foldl (ObjectStore.Op.effect p) (bytesAt s.kernel.mem p (recordedSize s.kernel p)) := by
  have hcells := (hrun.store h).effect hends (History.store_of_mem hp)
  by_cases hp' : p ∈ s'.live
  · rw [History.store_of_mem hp'] at hcells
    have hbytes := Option.some.inj hcells
    have hsize := congrArg List.length hbytes
    rw [ObjectStore.length_foldl_effect, length_bytesAt, length_bytesAt] at hsize
    rw [hsize] at hbytes
    exact ⟨hp', hsize, hbytes⟩
  · rw [History.store_of_notMem hp'] at hcells
    cases hcells

/-- **The heap is a store of objects.**  Every run of calls and writes on a reachable heap, in any
order, is a run of the store of objects; and an allocation that the run neither frees nor reallocates
is still live at the end, as large as it was, and holds byte for byte what the writes to it left. -/
theorem heap_store {ops : List (ObjectStore.Op ℕ UInt8)} (hs : Reachable base mmap s)
    (hrun : ClientRun mmap s ops s') :
    ObjectStore.Run s.store ops s'.store ∧
      ∀ p ∈ s.live, (∀ op ∈ ops, ¬op.Ends p) →
        p ∈ s'.live ∧ recordedSize s'.kernel p = recordedSize s.kernel p ∧
          bytesAt s'.kernel.mem p (recordedSize s.kernel p) =
            ops.foldl (ObjectStore.Op.effect p)
              (bytesAt s.kernel.mem p (recordedSize s.kernel p)) := by
  obtain ⟨bs, h⟩ := hs.inv
  exact ⟨hrun.store h, fun p hp hends => hrun.cells h hp hends⟩

/-- A byte is written to the first of three allocations, and another one is made behind it. -/
theorem heap_store_threeLive : ∃ s', ClientRun mapAll threeLive
    [.put 0xd0000014 3 7, .new 50 none] s' ∧ s'.kernel.mem 0xd0000017 = 7 := by
  let t : History Unit := threeLive.written (0xd0000014 + 3) 7
  have hcall : ((kmalloc (kernelSpace mapAll) 8 50 t.kernel).map fun r =>
      decide (EndOk t.kernel r.2)) = some true := by decide +kernel
  obtain ⟨⟨p, k⟩, hk, hend⟩ := Option.map_eq_some_iff.mp hcall
  have hrun : ClientRun mapAll threeLive [.put 0xd0000014 3 7, .new 50 none] (t.handOut p k) :=
    .cons (.write (by decide +kernel) (by decide +kernel))
      (.cons (.kmalloc hk (by decide) (of_decide_eq_true hend)) .nil)
  have hends : ∀ op ∈ ([.put 0xd0000014 3 7, .new 50 none] : List (ObjectStore.Op ℕ UInt8)),
      ¬op.Ends 0xd0000014 := by
    simp [ObjectStore.Op.Ends]
  have hreach : Reachable kernelHeap mapAll threeLive := reachable_historyOf _ _ _
  obtain ⟨-, hframe⟩ := heap_store hreach hrun
  obtain ⟨-, -, hbytes⟩ := hframe 0xd0000014 (by decide +kernel) hends
  have heffect : ∀ cs : List UInt8, ([.put 0xd0000014 3 7, .new 50 none] :
      List (ObjectStore.Op ℕ UInt8)).foldl (ObjectStore.Op.effect 0xd0000014) cs = cs.set 3 7 :=
    fun cs => by simp [ObjectStore.Op.effect]
  have hsize : 3 < recordedSize threeLive.kernel 0xd0000014 := by decide +kernel
  refine ⟨_, hrun, ?_⟩
  rw [heffect] at hbytes
  revert hbytes
  generalize recordedSize threeLive.kernel 0xd0000014 = n at hsize
  intro hbytes
  have hbyte : (bytesAt (t.handOut p k).kernel.mem 0xd0000014 n)[3]? = some 7 := by
    rw [hbytes, List.getElem?_set_self (by rwa [length_bytesAt])]
  rw [getElem?_bytesAt hsize] at hbyte
  exact Option.some.inj hbyte

end PakOS
