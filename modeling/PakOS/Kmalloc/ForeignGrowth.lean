import PakOS.Kmalloc.Integrity
import PakOS.Kmalloc.Sbrk

/-!
# Foreign heap growth

Between two calls of the library allocator anybody may move the program break.  `LinuxStep` is a
step of such an interleaving, and `LinuxRun` a run from a program that has not allocated yet; both
take the condition under which `kfree` may be called.

`kfree` merges neighbours on the list.  It never asks whether they are neighbours in memory, so
freeing a block merges it with a free block on the other side of foreign memory
(`strayFree_not_obtained`).  Every block stays in memory that `__new_blockspace` obtained as long as
no block is freed across a foreign move of the break (`foreign_growth`).
-/

namespace PakOS

open Machine Coalesce

/-! ### Interleavings -/

/-- One step of a program that uses the library allocator.  `ok` says which live allocations it
frees; requests stay in 32 bits, and so does the break. -/
inductive LinuxStep (ok : Kernel Sbrk → ℕ → Prop) (s : History Sbrk) : History Sbrk → Prop
  /-- `kmalloc(length)` -/
  | kmalloc {fuel length p : ℕ} {k : Kernel Sbrk}
      (hk : PakOS.kmalloc linuxSpace fuel length s.kernel = some (p, k)) (hlen : SizeOk length)
      (hend : k.os = s.kernel.os ∨
        s.kernel.os.brk + growBytes (align16 length) < 4294967296) :
      LinuxStep ok s (s.handOut p k)
  /-- `kfree(ptr)` -/
  | kfree {fuel ptr : ℕ} {st : Status} {k : Kernel Sbrk} (hptr : ptr ∈ s.live)
      (hok : ok s.kernel ptr) (hk : PakOS.kfree linuxSpace fuel ptr s.kernel = some (st, k)) :
      LinuxStep ok s (s.giveBack ptr k)
  /-- Somebody else moves the break upwards. -/
  | move {n : ℕ} (hn : 0 < n) (hend : s.kernel.os.brk + n < 4294967296) :
      LinuxStep ok s { s with kernel := { s.kernel with os := s.kernel.os.move n } }
  /-- A client writes a byte of its allocation. -/
  | write {ptr i : ℕ} {v : UInt8} (hptr : ptr ∈ s.live)
      (hi : i < getField s.kernel.mem (headerOf ptr) .size) :
      LinuxStep ok s
        { s with kernel := { s.kernel with mem := Function.update s.kernel.mem (ptr + i) v } }
  /-- Somebody writes to memory that the allocator did not obtain. -/
  | other {m : Mem} (hm : ∀ x, s.kernel.os.Obtained x → m x = s.kernel.mem x) :
      LinuxStep ok s { s with kernel := { s.kernel with mem := m } }

/-- A program that has not allocated yet. -/
structure LinuxStart (s : History Sbrk) : Prop where
  /-- There is no block. -/
  first : s.kernel.firstBlk = 0
  /-- `_min_heap_size` has its initial value. -/
  min : s.kernel.minHeapSize = 0
  /-- Nothing was obtained. -/
  obtained : s.kernel.os.obtained = []
  /-- Nobody moved the break. -/
  foreign : s.kernel.os.foreign = []
  /-- The break lies behind the first page. -/
  page_le : 4096 ≤ s.kernel.os.brk
  /-- The break is an address. -/
  brk_lt : s.kernel.os.brk < 4294967296
  /-- Nothing was handed out. -/
  live : s.live = []

/-- What a program can come to whose frees are all `ok`. -/
def LinuxRun (ok : Kernel Sbrk → ℕ → Prop) (s : History Sbrk) : Prop :=
  ∃ s₀, LinuxStart s₀ ∧ Relation.ReflTransGen (LinuxStep ok) s₀ s

/-! ### What is asked of it -/

/-- The two blocks of each merge that `kfree(ptr)` makes are related by `R`, the lower one first. -/
def MergedBlocks (m : Mem) (R : ℕ → ℕ → Prop) (ptr : ℕ) : Prop :=
  let block := headerOf ptr
  let next := getField m block .nextBlock
  let prev := getField m block .prevBlock
  (next ≠ 0 → getField m next .free = mblkFree → R block next) ∧
    (prev ≠ 0 → getField m prev .free = mblkFree → R prev block)

/-- The two blocks are adjacent in memory: between the end of one and the header of the other there
is no byte that the allocator did not obtain. -/
def AdjacentInMemory (k : Kernel Sbrk) (b c : ℕ) : Prop :=
  ∀ x, (readHeader k.mem b).stop ≤ x → x < c → k.os.Obtained x

/-- Nobody else moved the break while it was between the two blocks. -/
def Unbroken (k : Kernel Sbrk) (b c : ℕ) : Prop := ∀ f ∈ k.os.foreign, ¬(b < f ∧ f < c)

/-- `kfree(ptr)` merges blocks only if they are adjacent in memory. -/
def MergesAdjacent (k : Kernel Sbrk) (ptr : ℕ) : Prop := MergedBlocks k.mem (AdjacentInMemory k) ptr

/-- No foreign move of the break separates the block from a free neighbour on the list. -/
def FreesUnbroken (k : Kernel Sbrk) (ptr : ℕ) : Prop := MergedBlocks k.mem (Unbroken k) ptr

/-- The byte ranges of all blocks consist of bytes that `__new_blockspace` obtained. -/
def BlocksObtained (k : Kernel Sbrk) : Prop :=
  ∃ fuel hs, walk k.mem fuel k.firstBlk = some hs ∧
    ∀ h ∈ hs, ∀ x, h.addr ≤ x → x < h.stop → k.os.Obtained x

/-- `kfree(ptr)` succeeds and leaves every block in memory that was obtained. -/
def KfreeKeepsObtained (k : Kernel Sbrk) (ptr : ℕ) : Prop :=
  ∃ fuel k', kfree linuxSpace fuel ptr k = some (.ok, k') ∧ BlocksObtained k'

/-! ### Programs that compute -/

/-- A call of the library allocator, or of `sbrk` by somebody else. -/
inductive LinuxCall
  | kmalloc (length : ℕ)
  | kfree (ptr : ℕ)
  | move (n : ℕ)
  deriving DecidableEq, Repr

variable {ok : Kernel Sbrk → ℕ → Prop} {s s' : History Sbrk}

section Calls

variable [∀ k ptr, Decidable (ok k ptr)]

variable (ok) in
/-- Make a call that is a step; `none` when it is not, or the fuel does not suffice. -/
def LinuxCall.run (fuel : ℕ) (s : History Sbrk) : LinuxCall → Option (History Sbrk)
  | .kmalloc length =>
    match PakOS.kmalloc linuxSpace fuel length s.kernel with
    | none => none
    | some (p, k) =>
      if SizeOk length ∧ s.kernel.os.brk + growBytes (align16 length) < 4294967296 then
        some (s.handOut p k)
      else none
  | .kfree ptr =>
    match PakOS.kfree linuxSpace fuel ptr s.kernel with
    | none => none
    | some (_, k) => if ptr ∈ s.live ∧ ok s.kernel ptr then some (s.giveBack ptr k) else none
  | .move n =>
    if 0 < n ∧ s.kernel.os.brk + n < 4294967296 then
      some { s with kernel := { s.kernel with os := s.kernel.os.move n } }
    else none

/-- A call that can be made is a step. -/
theorem LinuxCall.step_of_run {fuel : ℕ} {c : LinuxCall} (h : c.run ok fuel s = some s') :
    LinuxStep ok s s' := by
  cases c with
  | kmalloc length =>
    cases hk : PakOS.kmalloc linuxSpace fuel length s.kernel with
    | none => simp [LinuxCall.run, hk] at h
    | some r =>
      simp only [LinuxCall.run, hk, Option.ite_none_right_eq_some, Option.some.injEq] at h
      obtain ⟨⟨hlen, hend⟩, rfl⟩ := h
      exact .kmalloc hk hlen (Or.inr hend)
  | kfree ptr =>
    cases hk : PakOS.kfree linuxSpace fuel ptr s.kernel with
    | none => simp [LinuxCall.run, hk] at h
    | some r =>
      simp only [LinuxCall.run, hk, Option.ite_none_right_eq_some, Option.some.injEq] at h
      obtain ⟨⟨hptr, hok⟩, rfl⟩ := h
      exact .kfree hptr hok hk
  | move n =>
    simp only [LinuxCall.run, Option.ite_none_right_eq_some, Option.some.injEq] at h
    obtain ⟨⟨hn, hend⟩, rfl⟩ := h
    exact .move hn hend

variable (ok) in
/-- Make calls one after the other. -/
def runLinux (fuel : ℕ) : List LinuxCall → History Sbrk → Option (History Sbrk)
  | [], s => some s
  | c :: cs, s =>
    match c.run ok fuel s with
    | none => none
    | some s => runLinux fuel cs s

/-- Calls lead from runs to runs. -/
theorem LinuxRun.runLinux {fuel : ℕ} {cs : List LinuxCall} (hs : LinuxRun ok s)
    (h : runLinux ok fuel cs s = some s') : LinuxRun ok s' := by
  induction cs generalizing s with
  | nil =>
    simp only [PakOS.runLinux, Option.some.injEq] at h
    exact h ▸ hs
  | cons c cs ih =>
    cases hc : c.run ok fuel s with
    | none => simp [PakOS.runLinux, hc] at h
    | some s₁ =>
      simp only [PakOS.runLinux, hc] at h
      obtain ⟨s₀, hstart, hrun⟩ := hs
      exact ih ⟨s₀, hstart, hrun.tail (LinuxCall.step_of_run hc)⟩ h

/-- A program that has not allocated yet, with cleared memory. -/
def linuxProgram : History Sbrk where
  kernel :=
    { mem := fun _ => 0
      firstBlk := 0
      heapStart := 0
      heapSize := 0
      minHeapSize := 0
      vgaCursorR := 0
      vgaCursorC := 0
      serial := []
      os := { brk := 0x08050000, obtained := [], foreign := [] } }
  live := []
  stale := []

variable (ok) in
/-- The program after the calls `cs`. -/
def afterCalls (cs : List LinuxCall) (h : (runLinux ok 8 cs linuxProgram).isSome) : History Sbrk :=
  (runLinux ok 8 cs linuxProgram).get h

theorem linuxRun_afterCalls (cs : List LinuxCall) (h : (runLinux ok 8 cs linuxProgram).isSome) :
    LinuxRun ok (afterCalls ok cs h) :=
  LinuxRun.runLinux ⟨linuxProgram, ⟨rfl, rfl, rfl, rfl, by decide, by decide, rfl⟩, .refl⟩
    (Option.some_get h).symm

end Calls

instance (m : Mem) (R : ℕ → ℕ → Prop) [DecidableRel R] (ptr : ℕ) :
    Decidable (MergedBlocks m R ptr) := by
  unfold MergedBlocks
  infer_instance

instance (k : Kernel Sbrk) : DecidableRel (Unbroken k) := fun b c => by
  unfold Unbroken
  infer_instance

instance (k : Kernel Sbrk) (ptr : ℕ) : Decidable (FreesUnbroken k ptr) := by
  unfold FreesUnbroken
  infer_instance

/-! ### Blocks that are merged -/

variable {lo : ℕ} {k : Kernel Sbrk} {bs pre post : List Block} {b : Block}

/-- The merges that `kfree` makes, on the block list. -/
theorem HeapIn.mergedBlocks_iff {first hi : ℕ} {m : Mem} {R : ℕ → ℕ → Prop}
    (h : HeapIn first m lo hi (pre ++ b :: post)) :
    MergedBlocks m R (b.addr + 20) ↔ (∀ c ∈ post.head?, c.free = true → R b.addr c.addr) ∧
      ∀ c ∈ pre.getLast?, c.free = true → R c.addr b.addr := by
  have hb : b ∈ pre ++ b :: post := by simp
  obtain ⟨hprev, hnext⟩ := h.rep.link_mid (h.block_bounds hb).1.ne'
  have hflag : ∀ c ∈ pre ++ b :: post, getField m c.addr .free = mblkFree ↔ c.free = true := by
    intro c hc
    rw [(h.rep.nodes c hc).free, Block.flag]
    cases c.free <;> decide
  unfold MergedBlocks
  simp only [h.headerOf_eq hb, hprev, hnext]
  refine and_congr ?_ ?_
  · cases post with
    | nil => simp
    | cons c post =>
      have hc := (h.block_bounds (b := c) (by simp)).1.ne'
      simp [hflag c (by simp), hc]
  · induction pre using List.reverseRecOn with
    | nil => simp
    | append_singleton pre c _ =>
      have hc := (h.block_bounds (b := c) (by simp)).1.ne'
      simp [hflag c (by simp), hc]

/-- Relations that agree on the blocks of the list agree on those that `kfree` merges. -/
theorem HeapIn.mergedBlocks_congr {first hi : ℕ} {m : Mem} {R R' : ℕ → ℕ → Prop}
    (h : HeapIn first m lo hi bs) (hb : b ∈ bs)
    (hR : ∀ c ∈ bs, ∀ d ∈ bs, R c.addr d.addr ↔ R' c.addr d.addr) :
    MergedBlocks m R (b.addr + 20) ↔ MergedBlocks m R' (b.addr + 20) := by
  obtain ⟨pre, post, rfl⟩ := List.append_of_mem hb
  rw [h.mergedBlocks_iff, h.mergedBlocks_iff]
  refine and_congr (forall₂_congr fun c hc => ?_) (forall₂_congr fun c hc => ?_)
  · have hmem := List.mem_of_mem_head? hc
    rw [hR b hb c (by simp [hmem])]
  · have hmem := List.mem_of_getLast? hc
    rw [hR c (by simp [hmem]) b hb]

/-- A list with a block in it is not the one before the first block. -/
theorem LinuxHeap.heapIn (h : LinuxHeap lo k bs) (hb : b ∈ bs) :
    HeapIn k.firstBlk k.mem lo k.os.brk bs := by
  refine h.heap.resolve_left fun hnone => ?_
  rw [hnone.1] at hb
  exact absurd hb List.not_mem_nil

/-- Two blocks have nothing foreign between them if and only if nobody else moved the break
there. -/
theorem LinuxHeap.joins_iff_unbroken {c : Block} (h : LinuxHeap lo k bs) (hb : b ∈ bs) (hc : c ∈ bs) :
    k.os.Joins b c ↔ Unbroken k b.addr c.addr := by
  constructor
  · rintro hjoins f hf ⟨hbf, hfc⟩
    refine (h.books.foreign f hf).2 ?_
    rcases Nat.lt_or_ge f b.stop with hlt | hge
    · exact h.owned b hb f hbf.le hlt
    · exact hjoins f hge hfc
  · intro hunbroken x hx hxc
    have hplaceb := (h.heapIn hb).placed.mem hb
    have hplacec := (h.heapIn hb).placed.mem hc
    unfold Block.stop at hx hplaceb hplacec
    by_contra hnot
    obtain ⟨f, hf, hfx, hfrom⟩ := h.books.gap x (by omega) (by omega) hnot
    refine hunbroken f hf ⟨?_, by omega⟩
    -- the header of the lower block was obtained, so the gap begins behind it
    by_contra hle
    exact hfrom b.addr (by omega) (by omega) (h.owned b hb _ le_rfl (by unfold Block.stop; omega))

/-- What `kfree` merges is adjacent in memory if and only if nobody else moved the break between. -/
theorem LinuxHeap.mergesAdjacent_iff (h : LinuxHeap lo k bs) (hb : b ∈ bs) :
    MergesAdjacent k (b.addr + 20) ↔ FreesUnbroken k (b.addr + 20) := by
  refine (h.heapIn hb).mergedBlocks_congr hb fun c hc d hd => ?_
  rw [← h.joins_iff_unbroken hc hd]
  unfold AdjacentInMemory Sbrk.Joins Header.stop readHeader sizeofMallocH Block.stop
  rw [((h.heapIn hb).rep.nodes c hc).size]

/-- All blocks of the heap were obtained. -/
theorem LinuxHeap.blocksObtained (h : LinuxHeap lo k bs) : BlocksObtained k := by
  rcases h.heap with ⟨rfl, hfirst, -⟩ | hin
  · refine ⟨1, [], ?_, fun c hc => absurd hc List.not_mem_nil⟩
    rw [hfirst]
    rfl
  · have hpos : ∀ b ∈ bs, b.addr ≠ 0 := fun b hb => (hin.block_bounds hb).1.ne'
    have hwalk := hin.rep.walk_eq hpos (Nat.lt_succ_self _)
    rw [← hin.first] at hwalk
    refine ⟨_, _, hwalk, fun c hc x hx hlt => ?_⟩
    obtain ⟨b, hb, ha, -, hsize⟩ := exists_mem_of_mem_headersFrom hc
    unfold Header.stop sizeofMallocH at hlt
    exact h.owned b hb x (ha ▸ hx) (by unfold Block.stop; omega)

/-- `kfree` keeps the heap when nobody else moved the break between the blocks that it merges. -/
theorem LinuxHeap.of_kfree (h : LinuxHeap lo k bs) (hb : b ∈ bs)
    (hok : FreesUnbroken k (b.addr + 20)) :
    LinuxHeap lo { k with mem := kfreeBlock k.mem b.addr } (releaseBlock b.addr bs) := by
  have hin := h.heapIn hb
  refine ⟨h.books, Or.inr (hin.kfree_of_mem linuxSpace hb 0).2, ?_⟩
  obtain ⟨pre, post, rfl⟩ := List.append_of_mem hb
  obtain ⟨hnext, hprev⟩ := hin.mergedBlocks_iff.mp hok
  refine Sbrk.owns_releaseBlock hin.placed hin.coalesced h.owned (fun c hc hfree => ?_)
    fun c hc hfree => ?_
  · have hmem := List.mem_of_getLast? hc
    exact (h.joins_iff_unbroken (by simp [hmem]) hb).mpr (hprev c hc hfree)
  · have hmem := List.mem_of_mem_head? hc
    exact (h.joins_iff_unbroken hb (by simp [hmem])).mpr (hnext c hc hfree)

/-! ### The step lemma and the run lemma -/

/-- The heap of the program is the list `bs`, and its live addresses are the payloads in use. -/
structure LinuxInv (lo : ℕ) (s : History Sbrk) (bs : List Block) : Prop where
  /-- The heap. -/
  heap : LinuxHeap lo s.kernel bs
  /-- The live addresses. -/
  live : LiveBlocks s.live bs

/-- Others moving the break change no block. -/
theorem LinuxHeap.of_move {n : ℕ} (h : LinuxHeap lo k bs) (hn : 0 < n)
    (hend : k.os.brk + n < 4294967296) : LinuxHeap lo { k with os := k.os.move n } bs := by
  have hbrk : (k.os.move n).brk = k.os.brk + n := add32_of_lt hend
  have hle : k.os.brk ≤ (k.os.move n).brk := by omega
  have hlt : (k.os.move n).brk < 4294967296 := by omega
  refine ⟨h.books.move hn hend, h.heap.imp_right fun hin => ?_, h.owned⟩
  exact ⟨hin.first, hin.ne_nil, hin.rep, hin.placed.mono le_rfl hle, hin.page_le, hlt, hin.coalesced⟩

/-- Writes that spare the headers change no block. -/
theorem LinuxHeap.write_offHeaders {m : Mem} (h : LinuxHeap lo k bs)
    (hm : ∀ x, ¬OffHeaders bs x → m x = k.mem x) : LinuxHeap lo { k with mem := m } bs :=
  ⟨h.books, h.heap.imp_right fun hin => hin.write_offHeaders hm, h.owned⟩

/-- Every header lies in memory that was obtained. -/
theorem LinuxHeap.obtained_of_header {x : ℕ} (h : LinuxHeap lo k bs) (hx : ¬OffHeaders bs x) :
    k.os.Obtained x := by
  unfold OffHeaders at hx
  push Not at hx
  obtain ⟨c, hc, hlo, hhi⟩ := hx
  exact h.owned c hc x hlo (by unfold Block.stop; omega)

/-- Every step keeps the invariant when blocks are not freed across a foreign move of the break. -/
theorem LinuxStep.inv (hok : ∀ k ptr, ok k ptr → FreesUnbroken k ptr) (hs : LinuxStep ok s s')
    (h : LinuxInv lo s bs) : ∃ bs', LinuxInv lo s' bs' := by
  cases hs with
  | @kmalloc fuel length p k hk hlen hend =>
    obtain ⟨bs', b, htaken⟩ := h.heap.of_kmalloc hk hlen hend
    refine ⟨bs', (History.handOut_kernel s p k).symm ▸ htaken.heap, ?_⟩
    rw [htaken.addr]
    exact h.live.handOut htaken.inUse htaken.mem htaken.fresh
  | @kfree fuel ptr st k hptr hfree hk =>
    obtain ⟨b, hb, -, rfl⟩ := (h.live.mem ptr).mp hptr
    cases fuel with
    | zero => simp [PakOS.kfree] at hk
    | succ n =>
      rw [((h.heap.heapIn hb).kfree_of_mem linuxSpace hb n).1] at hk
      simp only [Option.some.injEq, Prod.mk.injEq] at hk
      obtain ⟨-, rfl⟩ := hk
      exact ⟨_, (History.giveBack_kernel s _ _).symm ▸ h.heap.of_kfree hb (hok _ _ hfree),
        h.live.giveBack⟩
  | move hn hend => exact ⟨bs, h.heap.of_move hn hend, h.live⟩
  | @write ptr i v hptr hi =>
    obtain ⟨b, hb, -, rfl⟩ := (h.live.mem ptr).mp hptr
    have hin := h.heap.heapIn hb
    rw [hin.headerOf_eq hb, (hin.rep.nodes b hb).size] at hi
    refine ⟨bs, h.heap.write_offHeaders fun x hx => Function.update_of_ne ?_ _ _, h.live⟩
    rintro rfl
    exact hx (hin.offHeaders_payload hb (by omega) (by unfold Block.stop; omega))
  | other hm =>
    exact ⟨bs, h.heap.write_offHeaders fun x hx => hm x (h.heap.obtained_of_header hx), h.live⟩

/-- A program that has not allocated yet has the invariant. -/
theorem LinuxStart.inv (h : LinuxStart s) : LinuxInv s.kernel.os.brk s [] := by
  obtain ⟨hfirst, hmin, hobtained, hforeign, hpage, hbrk, hlive⟩ := h
  refine ⟨⟨⟨hpage, le_rfl, hbrk, ?_, ?_, fun x hlo hlt => by omega⟩, Or.inl ⟨rfl, hfirst, hmin⟩,
    fun c hc => absurd hc List.not_mem_nil⟩, ?_, ?_⟩
  · simp [Sbrk.Obtained, hobtained]
  · simp [hforeign]
  · simp [hlive]
  · simp [hlive]

/-- Every run that does not free blocks across a foreign move of the break has the invariant. -/
theorem LinuxRun.inv (hs : LinuxRun FreesUnbroken s) : ∃ lo bs, LinuxInv lo s bs := by
  obtain ⟨s₀, hstart, hrun⟩ := hs
  refine ⟨s₀.kernel.os.brk, ?_⟩
  induction hrun with
  | refl => exact ⟨[], hstart.inv⟩
  | tail _ hstep ih =>
    obtain ⟨bs, hbs⟩ := ih
    exact hstep.inv (fun _ _ hok => hok) hbs

/-- **Foreign heap growth.**  In every run that frees no block across a foreign move of the break,
all blocks lie in memory that `__new_blockspace` obtained; and the next call of `kfree` merges only
blocks that are adjacent in memory, and leaves all blocks in such memory, exactly when it keeps to
the same rule. -/
theorem foreign_growth (hs : LinuxRun FreesUnbroken s) :
    BlocksObtained s.kernel ∧ ∀ ptr ∈ s.live,
      (MergesAdjacent s.kernel ptr ∧ KfreeKeepsObtained s.kernel ptr ↔
        FreesUnbroken s.kernel ptr) := by
  obtain ⟨lo, bs, hinv⟩ := hs.inv
  refine ⟨hinv.heap.blocksObtained, fun ptr hptr => ?_⟩
  obtain ⟨b, hb, -, rfl⟩ := (hinv.live.mem ptr).mp hptr
  rw [hinv.heap.mergesAdjacent_iff hb, and_iff_left_iff_imp]
  intro hfree
  exact ⟨1, _, ((hinv.heap.heapIn hb).kfree_of_mem linuxSpace hb 0).1,
    (hinv.heap.of_kfree hb hfree).blocksObtained⟩

/-- An allocation, a foreign move of the break, and an allocation behind it. -/
def splitHeap : History Sbrk :=
  afterCalls FreesUnbroken [.kmalloc 16, .move 4096, .kmalloc 4080] (by decide +kernel)

/-- Freeing the first allocation merges it with the free block behind it, inside the same
stretch. -/
theorem foreign_growth_splitHeap :
    MergesAdjacent splitHeap.kernel 0x08050014 ∧ KfreeKeepsObtained splitHeap.kernel 0x08050014 :=
  ((foreign_growth (linuxRun_afterCalls _ _)).2 0x08050014 (by decide +kernel)).mpr (by decide +kernel)

/-- The second allocation was freed: the free block in front of the foreign memory absorbed it. -/
def strayFree : History Sbrk :=
  afterCalls (fun _ _ => True) [.kmalloc 16, .move 4096, .kmalloc 4080, .kfree 0x08052014]
    (by decide +kernel)

/-- A block may reach across memory that the allocator never obtained. -/
theorem strayFree_not_obtained :
    LinuxRun (fun _ _ => True) strayFree ∧ ¬BlocksObtained strayFree.kernel := by
  refine ⟨linuxRun_afterCalls _ _, ?_⟩
  rintro ⟨fuel, hs, hwalk, hall⟩
  have hblocks : walk strayFree.kernel.mem 3 strayFree.kernel.firstBlk =
      some [⟨0x08050000, 0, 0x08050024, 0, 16⟩, ⟨0x08050024, 1, 0, 0x08050000, 12212⟩] := by
    decide +kernel
  obtain rfl := eq_of_walk hwalk hblocks
  have hforeign := hall ⟨0x08050024, 1, 0, 0x08050000, 12212⟩ (by simp) 0x08051000 (by decide)
    (by decide)
  have hnot : ¬∃ r ∈ strayFree.kernel.os.obtained, r.1 ≤ 0x08051000 ∧ 0x08051000 < r.1 + r.2 := by
    decide +kernel
  exact hnot hforeign

end PakOS
