import Mathlib.Data.List.Perm.Basic
import Mathlib.Logic.Relation
import PakOS.Kmalloc.Init

/-!
# Runs of the allocator

A heap history is the kernel state together with two lists of addresses that no variable of the
kernel holds: those handed out and not yet given back (`live`), and those given back and not handed
out again (`stale`).  `Step` is one call by a well-behaved client, or a change of memory that is
none of the allocator's business; `Reachable` are the histories after `init_kmalloc`.  `HistoryInv`
ties the live addresses to the blocks in use.

`Layout` is the abstract allocator: a block list in a range, and three steps that take, append and
release a block, without memory, headers or links.  `Step.refines` is the step lemma, every step of
a history keeps the invariant and is a run of layout steps; `Reachable.refines` is the run lemma
that everything about reachable heaps is read off from.
-/

namespace PakOS

open Machine Coalesce

variable {E : Type*}

/-- A kernel state and what its clients know about it. -/
structure History (E : Type*) where
  /-- The kernel state. -/
  kernel : Kernel E
  /-- The addresses handed out and not given back. -/
  live : List ℕ
  /-- The addresses given back and not handed out again. -/
  stale : List ℕ

/-- The history after `p` was handed out; `NULL` hands out nothing. -/
def History.handOut (s : History E) (p : ℕ) (k : Kernel E) : History E :=
  if p = 0 then { s with kernel := k }
  else { kernel := k, live := p :: s.live, stale := s.stale.filter (· ≠ p) }

/-- The history after `p` was given back; `NULL` gives back nothing. -/
def History.giveBack (s : History E) (p : ℕ) (k : Kernel E) : History E :=
  if p = 0 then { s with kernel := k }
  else { kernel := k, live := s.live.erase p, stale := p :: s.stale }

/-- The history after `krealloc(p, ·)` returned `q`. -/
def History.moved (s : History E) (p q : ℕ) (k : Kernel E) : History E :=
  if q = 0 ∨ q = p then { s with kernel := k } else (s.handOut q k).giveBack p k

@[simp] theorem History.handOut_kernel (s : History E) (p : ℕ) (k : Kernel E) :
    (s.handOut p k).kernel = k := by
  unfold History.handOut
  split <;> rfl

@[simp] theorem History.giveBack_kernel (s : History E) (p : ℕ) (k : Kernel E) :
    (s.giveBack p k).kernel = k := by
  unfold History.giveBack
  split <;> rfl

@[simp] theorem History.moved_kernel (s : History E) (p q : ℕ) (k : Kernel E) :
    (s.moved p q k).kernel = k := by
  unfold History.moved
  split
  · rfl
  · exact History.giveBack_kernel _ p k

/-- The variables of the allocator, and the bytes of the heap, are the same in both states. -/
structure SameHeap (k k' : Kernel E) : Prop where
  /-- `_first_blk` -/
  first : k'.firstBlk = k.firstBlk
  /-- `_heap_start` -/
  start : k'.heapStart = k.heapStart
  /-- `_heap_size` -/
  size : k'.heapSize = k.heapSize
  /-- The bytes of the heap. -/
  mem : ∀ x, k.heapStart ≤ x → x < k.heapStart + k.heapSize → k'.mem x = k.mem x

/-- One step of a history.  Clients free and reallocate only what they were handed, and ask for
sizes whose arithmetic stays in 32 bits; the end of the heap stays an address. -/
inductive Step (mmap : Mmap E) (s : History E) : History E → Prop
  /-- `kmalloc(length)` -/
  | kmalloc {fuel length p : ℕ} {k : Kernel E}
      (hk : PakOS.kmalloc (kernelSpace mmap) fuel length s.kernel = some (p, k))
      (hlen : SizeOk length) (hend : EndOk s.kernel k) : Step mmap s (s.handOut p k)
  /-- `kcalloc(nmemb, size)` -/
  | kcalloc {fuel nmemb size p : ℕ} {k : Kernel E}
      (hk : PakOS.kcalloc (kernelSpace mmap) fuel nmemb size s.kernel = some (p, k))
      (hmul : nmemb * size < 4294967296) (hlen : SizeOk (nmemb * size))
      (hend : EndOk s.kernel k) : Step mmap s (s.handOut p k)
  /-- `krealloc(ptr, size)`; the end of the heap is watched where a new block is allocated. -/
  | krealloc {fuel ptr size q : ℕ} {k : Kernel E} (hptr : ptr = 0 ∨ ptr ∈ s.live)
      (hk : PakOS.krealloc (kernelSpace mmap) fuel ptr size s.kernel = some (q, k))
      (hlen : SizeOk size)
      (hend : ptr = 0 ∨ getField s.kernel.mem (headerOf ptr) .size < size → ∀ p k₁,
        PakOS.kmalloc (kernelSpace mmap) fuel size s.kernel = some (p, k₁) → EndOk s.kernel k₁) :
      Step mmap s (s.moved ptr q k)
  /-- `kfree(ptr)` -/
  | kfree {fuel ptr : ℕ} {st : Status} {k : Kernel E} (hptr : ptr = 0 ∨ ptr ∈ s.live)
      (hk : PakOS.kfree (kernelSpace mmap) fuel ptr s.kernel = some (st, k)) :
      Step mmap s (s.giveBack ptr k)
  /-- A client writes a byte of its allocation. -/
  | write {ptr i : ℕ} {v : UInt8} (hptr : ptr ∈ s.live)
      (hi : i < getField s.kernel.mem (headerOf ptr) .size) :
      Step mmap s
        { s with kernel := { s.kernel with mem := Function.update s.kernel.mem (ptr + i) v } }
  /-- The rest of the kernel runs, without touching the heap. -/
  | other {k : Kernel E} (hk : SameHeap s.kernel k) : Step mmap s { s with kernel := k }

/-- The history that `init_kmalloc` begins: the address of its own test allocation is stale. -/
def HeapBase.history (base : HeapBase) (k : Kernel E) : History E :=
  { kernel := k, live := [], stale := [base.start + 20] }

/-- The histories that begin with `init_kmalloc` on a kernel that has not allocated yet. -/
def Reachable (base : HeapBase) (mmap : Mmap E) (s : History E) : Prop :=
  ∃ k₀ k fuel st, k₀.firstBlk = 0 ∧
    initKmalloc (kernelSpace mmap) fuel base.start base.minSize k₀ = some (st, k) ∧
    Relation.ReflTransGen (Step mmap) (base.history k) s

/-! ### The live addresses -/

/-- The live addresses are the payloads of the blocks in use, each of them once. -/
structure LiveBlocks (live : List ℕ) (bs : List Block) : Prop where
  /-- No address is live twice. -/
  nodup : live.Nodup
  /-- The live addresses are those of the blocks in use. -/
  mem : ∀ p, p ∈ live ↔ ∃ b ∈ bs, b.free = false ∧ p = b.addr + 20

/-- Handing out a block that was not in use. -/
theorem LiveBlocks.handOut {s : History E} {k : Kernel E} {bs bs' : List Block} {b : Block}
    (h : LiveBlocks s.live bs) (hfree : b.free = false)
    (hmem : ∀ c : Block, c.free = false → (c ∈ bs' ↔ c = b ∨ c ∈ bs))
    (hne : ∀ c ∈ bs, c.free = false → c.addr ≠ b.addr) :
    LiveBlocks (s.handOut (b.addr + 20) k).live bs' := by
  rw [History.handOut, if_neg (by omega)]
  refine ⟨List.nodup_cons.mpr ⟨fun hlive => ?_, h.nodup⟩, fun p => ?_⟩
  · obtain ⟨c, hc, hcfree, hcb⟩ := (h.mem _).mp hlive
    exact hne c hc hcfree (by omega)
  · rw [List.mem_cons, h.mem]
    constructor
    · rintro (rfl | ⟨c, hc, hcfree, rfl⟩)
      · exact ⟨b, (hmem b hfree).mpr (Or.inl rfl), hfree, rfl⟩
      · exact ⟨c, (hmem c hcfree).mpr (Or.inr hc), hcfree, rfl⟩
    · rintro ⟨c, hc, hcfree, rfl⟩
      rcases (hmem c hcfree).mp hc with rfl | hc
      · exact Or.inl rfl
      · exact Or.inr ⟨c, hc, hcfree, rfl⟩

/-- Giving back a block. -/
theorem LiveBlocks.giveBack {s : History E} {k : Kernel E} {bs : List Block} {b : Block}
    (h : LiveBlocks s.live bs) :
    LiveBlocks (s.giveBack (b.addr + 20) k).live (releaseBlock b.addr bs) := by
  rw [History.giveBack, if_neg (by omega)]
  refine ⟨h.nodup.erase _, fun p => ?_⟩
  rw [h.nodup.mem_erase_iff, h.mem]
  constructor
  · rintro ⟨hne, c, hc, hcfree, rfl⟩
    exact ⟨c, (mem_releaseBlock hcfree).mpr ⟨hc, fun hcb => hne (by rw [hcb])⟩, hcfree, rfl⟩
  · rintro ⟨c, hc, hcfree, rfl⟩
    obtain ⟨hc, hcb⟩ := (mem_releaseBlock hcfree).mp hc
    exact ⟨fun heq => hcb (by omega), c, hc, hcfree, rfl⟩

/-! ### The invariant -/

/-- The heap of a history is the list `bs`, and its live addresses are the payloads in use. -/
structure HistoryInv (s : History E) (bs : List Block) : Prop where
  /-- The heap invariant. -/
  heap : HeapInv s.kernel bs
  /-- No address is live twice. -/
  nodup : s.live.Nodup
  /-- The live addresses are those of the blocks in use. -/
  live : ∀ p, p ∈ s.live ↔ ∃ b ∈ bs, b.free = false ∧ p = b.addr + 20

/-- The block of a live address. -/
theorem HistoryInv.exists_block {s : History E} {bs : List Block} (h : HistoryInv s bs) {p : ℕ}
    (hp : p ∈ s.live) : ∃ b ∈ bs, b.free = false ∧ p = b.addr + 20 :=
  (h.live p).mp hp

/-- Changes outside the heap keep it. -/
theorem HeapInv.of_sameHeap {k k' : Kernel E} {bs : List Block} (h : HeapInv k bs)
    (hk : SameHeap k k') : HeapInv k' bs := by
  obtain ⟨hfirst, hstart, hsize, hmem⟩ := hk
  refine ⟨hfirst.trans h.first, h.ne_nil, h.rep.congr fun b hb f => ?_, ?_, hstart ▸ h.pos,
    hstart ▸ h.aligned, hsize ▸ h.size_aligned, ?_, h.coalesced⟩
  · have hb' := h.placed.mem hb
    unfold Block.stop at hb'
    exact getField_congr fun x hx hlt => hmem x (by omega) (by omega)
  · rw [hstart, hsize]
    exact h.placed
  · rw [hstart, hsize]
    exact h.end_lt

/-- Handing out a block keeps the invariant. -/
theorem HistoryInv.handOut {s : History E} {k₁ k : Kernel E} {bs bs' : List Block} {b : Block}
    {length : ℕ} (h : HistoryInv s bs) (hstep : KmallocStep s.kernel bs length k₁ bs' b)
    (hlen : SizeOk length) (hinv : HeapInv k bs') : HistoryInv (s.handOut (b.addr + 20) k) bs' := by
  obtain ⟨-, hbfree, -⟩ := hstep.block hlen
  obtain ⟨hmem, hne⟩ := hstep.inUse h.heap
  have hlive : LiveBlocks s.live bs := ⟨h.nodup, h.live⟩
  obtain ⟨hnodup, hmem'⟩ := hlive.handOut (k := k) hbfree hmem hne
  exact ⟨(History.handOut_kernel s _ k).symm ▸ hinv, hnodup, hmem'⟩

/-- Giving back a block keeps the invariant. -/
theorem HistoryInv.giveBack {s : History E} {k : Kernel E} {bs : List Block} {b : Block}
    (h : HistoryInv s bs) (hinv : HeapInv k (releaseBlock b.addr bs)) :
    HistoryInv (s.giveBack (b.addr + 20) k) (releaseBlock b.addr bs) := by
  have hlive : LiveBlocks s.live bs := ⟨h.nodup, h.live⟩
  obtain ⟨hnodup, hmem⟩ := hlive.giveBack (b := b) (k := k)
  exact ⟨(History.giveBack_kernel s _ k).symm ▸ hinv, hnodup, hmem⟩

/-- Changing the memory of a history without changing its heap keeps the invariant. -/
theorem HistoryInv.kernel {s : History E} {bs : List Block} {k : Kernel E} (h : HistoryInv s bs)
    (hinv : HeapInv k bs) : HistoryInv { s with kernel := k } bs :=
  ⟨hinv, h.nodup, h.live⟩

/-! ### The abstract allocator -/

/-- A heap without its memory: where it lies, and its blocks. -/
structure Layout where
  /-- The start of the heap. -/
  start : ℕ
  /-- The size of the heap. -/
  size : ℕ
  /-- The blocks, in address order. -/
  blocks : List Block

/-- The layout of a kernel heap with the given blocks. -/
def Kernel.layout (k : Kernel E) (bs : List Block) : Layout := ⟨k.heapStart, k.heapSize, bs⟩

/-- What an allocator may do to a layout. -/
inductive Layout.Step : Layout → Layout → Prop
  /-- A free block is taken, and what is left of it split off. -/
  | take {start size length : ℕ} {pre post : List Block} {b : Block} (hb : Fits length b) :
      Layout.Step ⟨start, size, pre ++ b :: post⟩ ⟨start, size, pre ++ takeBlock length b ++ post⟩
  /-- The heap grows by a block in use. -/
  | grow {start size nbytes : ℕ} {bs : List Block} (hn : 20 < nbytes) :
      Layout.Step ⟨start, size, bs⟩
        ⟨start, size + nbytes, bs ++ [⟨start + size, nbytes - 20, false⟩]⟩
  /-- A block in use is released. -/
  | release {start size : ℕ} {bs : List Block} {b : Block} (hb : b ∈ bs) (hfree : b.free = false) :
      Layout.Step ⟨start, size, bs⟩ ⟨start, size, releaseBlock b.addr bs⟩

/-- A run of the abstract allocator. -/
abbrev Layout.Run : Layout → Layout → Prop := Relation.ReflTransGen Layout.Step

/-- `kmalloc` is one layout step. -/
theorem KmallocStep.layout {k k' : Kernel E} {bs bs' : List Block} {b : Block} {length : ℕ}
    (h : KmallocStep k bs length k' bs' b) (hlen : SizeOk length) :
    Layout.Step (k.layout bs) (k'.layout bs') := by
  cases h with
  | reuse hbs _ hb hk =>
    subst hbs hk
    exact .take hb
  | grow _ hstart hsize =>
    have hgrow := growBytes_bounds hlen.2
    unfold Kernel.layout
    rw [hstart, hsize]
    exact .grow (by omega)

/-! ### The step lemma and the run lemma -/

/-- `krealloc` of a live address keeps the invariant: the block stays, or another one is taken and
the block is freed. -/
theorem HistoryInv.of_krealloc {mmap : Mmap E} {s : History E} {bs : List Block} (h : HistoryInv s bs)
    {fuel ptr size q : ℕ} {k : Kernel E} (hptr : ptr ∈ s.live)
    (hk : PakOS.krealloc (kernelSpace mmap) fuel ptr size s.kernel = some (q, k))
    (hlen : SizeOk size)
    (hend : getField s.kernel.mem (headerOf ptr) .size < size → ∀ p k₁,
      PakOS.kmalloc (kernelSpace mmap) fuel size s.kernel = some (p, k₁) → EndOk s.kernel k₁) :
    ∃ bs', HistoryInv (s.moved ptr q k) bs' ∧
      Layout.Run (s.kernel.layout bs) ((s.moved ptr q k).kernel.layout bs') := by
  obtain ⟨b, hb, hfree, rfl⟩ := h.exists_block hptr
  rw [h.heap.headerOf_eq hb, (h.heap.rep.nodes b hb).size] at hend
  obtain ⟨bs', hstep, hinv, -⟩ := krealloc_step h.heap hb hfree hk hlen hend
  cases hstep with
  | keep _ hkeep =>
    subst hkeep
    rw [History.moved, if_pos (Or.inr rfl)]
    exact ⟨bs, h, .refl⟩
  | @move k₁ bs₁ b₁ _ hstep hinv₁ hb₁ hstart hheap =>
    have hne := (hstep.inUse h.heap).2 b hb hfree
    have hmoved : s.moved (b.addr + 20) (b₁.addr + 20) k =
        (s.handOut (b₁.addr + 20) k₁).giveBack (b.addr + 20) k := by
      rw [History.moved, if_neg (by omega)]
      simp [History.handOut, History.giveBack]
    have hrun : Layout.Step ⟨k₁.heapStart, k₁.heapSize, bs₁⟩ _ := .release hb₁ hfree
    rw [hmoved]
    refine ⟨_, (h.handOut hstep hlen hinv₁).giveBack hinv, .tail (.single (hstep.layout hlen)) ?_⟩
    rw [History.giveBack_kernel]
    unfold Kernel.layout
    rwa [hstart, hheap]

/-- Every step of a history keeps the invariant and is a run of the abstract allocator. -/
theorem Step.refines {mmap : Mmap E} {s s' : History E} {bs : List Block} (h : HistoryInv s bs)
    (hs : Step mmap s s') :
    ∃ bs', HistoryInv s' bs' ∧ Layout.Run (s.kernel.layout bs) (s'.kernel.layout bs') := by
  cases hs with
  | @kmalloc fuel length p k hk hlen hend =>
    obtain ⟨bs', b, hstep, hinv, rfl⟩ := kmalloc_step h.heap hk hlen hend
    refine ⟨bs', h.handOut hstep hlen hinv, ?_⟩
    rw [History.handOut_kernel]
    exact .single (hstep.layout hlen)
  | @kcalloc fuel nmemb size p k hk hmul hlen hend =>
    obtain ⟨k₁, bs', b, hstep, hinv, rfl, rfl⟩ := kcalloc_step h.heap hk hmul hlen hend
    refine ⟨bs', h.handOut hstep hlen hinv, ?_⟩
    rw [History.handOut_kernel]
    exact .single (hstep.layout hlen)
  | @krealloc fuel ptr size q k hptr hk hlen hend =>
    rcases hptr with rfl | hptr
    · obtain ⟨bs', b, hstep, hinv, rfl⟩ := kmalloc_step h.heap hk hlen (hend (Or.inl rfl) _ _ hk)
      have hmoved : s.moved 0 (b.addr + 20) k = s.handOut (b.addr + 20) k := by
        simp [History.moved, History.giveBack, History.handOut]
      rw [hmoved, History.handOut_kernel]
      exact ⟨bs', h.handOut hstep hlen hinv, .single (hstep.layout hlen)⟩
    · exact h.of_krealloc hptr hk hlen fun hsize => hend (Or.inr hsize)
  | @kfree fuel ptr st k hptr hk =>
    rcases hptr with rfl | hptr
    · obtain ⟨-, rfl⟩ := kfree_null hk
      exact ⟨bs, h, .refl⟩
    · obtain ⟨b, hb, hfree, rfl⟩ := h.exists_block hptr
      obtain ⟨-, rfl, hinv⟩ := kfree_step h.heap hb hk
      refine ⟨_, h.giveBack hinv, ?_⟩
      rw [History.giveBack_kernel]
      exact .single (.release hb hfree)
  | @write ptr i v hptr hi =>
    obtain ⟨b, hb, -, rfl⟩ := h.exists_block hptr
    rw [h.heap.headerOf_eq hb, (h.heap.rep.nodes b hb).size] at hi
    refine ⟨bs, h.kernel (h.heap.write_payload hb fun x hx => ?_), .refl⟩
    unfold Block.stop at hx
    exact Function.update_of_ne (by omega) _ _
  | other hk =>
    refine ⟨bs, h.kernel (h.heap.of_sameHeap hk), ?_⟩
    unfold Kernel.layout
    rw [hk.start, hk.size]

/-- Every reachable history has the invariant, and its heap is what a run of the abstract allocator
makes of the one free block that `init_kmalloc` leaves. -/
theorem Reachable.refines {base : HeapBase} {mmap : Mmap E} {s : History E}
    (hs : Reachable base mmap s) :
    ∃ bs, HistoryInv s bs ∧
      Layout.Run ⟨base.start, base.grow, [⟨base.start, base.grow - 40, true⟩]⟩
        (s.kernel.layout bs) := by
  obtain ⟨k₀, k, fuel, st, hfirst, hinit, hrun⟩ := hs
  obtain ⟨-, hstart, hsize, -, hinv⟩ := initKmalloc_spec hfirst hinit
  induction hrun with
  | refl =>
    refine ⟨_, ⟨hinv, List.nodup_nil, fun p => ?_⟩, ?_⟩
    · simp [HeapBase.history]
    · unfold Kernel.layout HeapBase.history
      rw [hstart, hsize]
  | tail _ hstep ih =>
    obtain ⟨bs, hbs, hlayout⟩ := ih
    obtain ⟨bs', hbs', hmore⟩ := hstep.refines hbs
    exact ⟨bs', hbs', hlayout.trans hmore⟩

/-- Every reachable history has the invariant. -/
theorem Reachable.inv {base : HeapBase} {mmap : Mmap E} {s : History E}
    (hs : Reachable base mmap s) : ∃ bs, HistoryInv s bs :=
  hs.refines.imp fun _ h => h.1

/-- A step leads from a reachable history to a reachable history. -/
theorem Reachable.tail {base : HeapBase} {mmap : Mmap E} {s s' : History E}
    (hs : Reachable base mmap s) (hstep : Step mmap s s') : Reachable base mmap s' := by
  obtain ⟨k₀, k, fuel, st, hfirst, hinit, hrun⟩ := hs
  exact ⟨k₀, k, fuel, st, hfirst, hinit, hrun.tail hstep⟩

/-! ### Histories that compute -/

/-- A call of a client, or a write into an allocation. -/
inductive Call
  | kmalloc (length : ℕ)
  | kfree (ptr : ℕ)
  | write (ptr i : ℕ) (v : UInt8)
  deriving DecidableEq, Repr

instance (k k' : Kernel E) : Decidable (EndOk k k') := by
  unfold EndOk
  infer_instance

/-- Make a call that is a step; `none` when it is not, or the fuel does not suffice. -/
def Call.run (mmap : Mmap E) (fuel : ℕ) (s : History E) : Call → Option (History E)
  | .kmalloc length =>
    match PakOS.kmalloc (kernelSpace mmap) fuel length s.kernel with
    | none => none
    | some (p, k) => if SizeOk length ∧ EndOk s.kernel k then some (s.handOut p k) else none
  | .kfree ptr =>
    match PakOS.kfree (kernelSpace mmap) fuel ptr s.kernel with
    | none => none
    | some (_, k) => if ptr = 0 ∨ ptr ∈ s.live then some (s.giveBack ptr k) else none
  | .write ptr i v =>
    if ptr ∈ s.live ∧ i < getField s.kernel.mem (headerOf ptr) .size then
      some { s with kernel := { s.kernel with mem := Function.update s.kernel.mem (ptr + i) v } }
    else none

/-- Make calls one after the other. -/
def runCalls (mmap : Mmap E) (fuel : ℕ) : List Call → History E → Option (History E)
  | [], s => some s
  | c :: cs, s =>
    match c.run mmap fuel s with
    | none => none
    | some s => runCalls mmap fuel cs s

/-- A call that can be made is a step. -/
theorem Call.step_of_run {mmap : Mmap E} {fuel : ℕ} {s s' : History E} {c : Call}
    (h : c.run mmap fuel s = some s') : Step mmap s s' := by
  cases c with
  | kmalloc length =>
    cases hk : PakOS.kmalloc (kernelSpace mmap) fuel length s.kernel with
    | none => simp [Call.run, hk] at h
    | some r =>
      simp only [Call.run, hk, Option.ite_none_right_eq_some, Option.some.injEq] at h
      obtain ⟨⟨hlen, hend⟩, rfl⟩ := h
      exact .kmalloc hk hlen hend
  | kfree ptr =>
    cases hk : PakOS.kfree (kernelSpace mmap) fuel ptr s.kernel with
    | none => simp [Call.run, hk] at h
    | some r =>
      simp only [Call.run, hk, Option.ite_none_right_eq_some, Option.some.injEq] at h
      obtain ⟨hptr, rfl⟩ := h
      exact .kfree hptr hk
  | write ptr i v =>
    simp only [Call.run, Option.ite_none_right_eq_some, Option.some.injEq] at h
    obtain ⟨⟨hptr, hi⟩, rfl⟩ := h
    exact .write hptr hi

/-- Calls lead from reachable histories to reachable histories. -/
theorem Reachable.runCalls {base : HeapBase} {mmap : Mmap E} {fuel : ℕ} {cs : List Call}
    {s s' : History E} (hs : Reachable base mmap s) (h : runCalls mmap fuel cs s = some s') :
    Reachable base mmap s' := by
  induction cs generalizing s with
  | nil =>
    simp only [PakOS.runCalls, Option.some.injEq] at h
    exact h ▸ hs
  | cons c cs ih =>
    cases hc : c.run mmap fuel s with
    | none => simp [PakOS.runCalls, hc] at h
    | some s₁ =>
      simp only [PakOS.runCalls, hc] at h
      exact ih (hs.tail (Call.step_of_run hc)) h

/-- The history in which bytes were stored elsewhere. -/
def History.withBytes (s : History E) (a : ℕ) (l : List UInt8) : History E :=
  { s with kernel := { s.kernel with mem := storeBytes s.kernel.mem a l } }

theorem History.heap_withBytes (s : History E) (a : ℕ) (l : List UInt8) :
    (s.withBytes a l).kernel.heapStart = s.kernel.heapStart ∧
      (s.withBytes a l).kernel.heapSize = s.kernel.heapSize := ⟨rfl, rfl⟩

theorem Reachable.withBytes {base : HeapBase} {mmap : Mmap E} {s : History E}
    (hs : Reachable base mmap s) {a : ℕ} {l : List UInt8} (ha : a + l.length ≤ s.kernel.heapStart) :
    Reachable base mmap (s.withBytes a l) :=
  hs.tail (.other ⟨rfl, rfl, rfl, fun _ hx _ => storeBytes_of_notMem (Or.inr (ha.trans hx))⟩)

/-- A provider of memory that backs every request. -/
def mapAll : Mmap Unit := fun _ _ os => (.ok, os)

/-- A kernel that has not allocated yet, with cleared memory and screen cursor. -/
def bootKernel : Kernel Unit where
  mem := fun _ => 0
  firstBlk := 0
  heapStart := 0
  heapSize := 0
  minHeapSize := 0
  vgaCursorR := 0
  vgaCursorC := 0
  serial := []
  os := ()

/-- The calls `cs`, made after the kernel has booted. -/
def afterBoot (mmap : Mmap Unit) (cs : List Call) : Option (History Unit) :=
  (initKmalloc (kernelSpace mmap) 3 kernelHeap.start kernelHeap.minSize bootKernel).bind
    fun r => runCalls mmap 8 cs (kernelHeap.history r.2)

/-- What the calls after boot lead to is reachable. -/
theorem reachable_afterBoot {mmap : Mmap Unit} {cs : List Call} {s : History Unit}
    (h : afterBoot mmap cs = some s) : Reachable kernelHeap mmap s := by
  obtain ⟨r, hinit, hrun⟩ := Option.bind_eq_some_iff.mp h
  have hboot : Reachable kernelHeap mmap (kernelHeap.history r.2) :=
    ⟨bootKernel, r.2, 3, r.1, rfl, hinit, .refl⟩
  exact hboot.runCalls hrun

/-- The history after the calls `cs`, made after the kernel has booted. -/
def historyOf (mmap : Mmap Unit) (cs : List Call) (h : (afterBoot mmap cs).isSome) :
    History Unit := (afterBoot mmap cs).get h

theorem reachable_historyOf (mmap : Mmap Unit) (cs : List Call) (h : (afterBoot mmap cs).isSome) :
    Reachable kernelHeap mmap (historyOf mmap cs h) :=
  reachable_afterBoot (Option.some_get h).symm

end PakOS
