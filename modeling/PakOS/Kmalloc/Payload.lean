import PakOS.Kmalloc.Store

/-!
# Functions of the kernel as clients of the heap

A function that takes a block and fills it in is a run of client steps: the `kmalloc`, and the bytes
one after the other (`HistoryInv.filled`); so is one that writes to a block which it was given
(`HistoryInv.exists_clientRun_puts`).  What such runs leave alone is `ClientRun.frame`: an object
that no step names has the same bytes at the end.
-/

namespace PakOS

open Machine Coalesce

variable {E : Type*} {base : HeapBase} {mmap : Mmap E} {s s' s'' : History E} {bs : List Block}
  {ops ops' : List (ObjectStore.Op ℕ UInt8)}

namespace ClientRun

/-- Two runs, one after the other. -/
theorem trans (h : ClientRun mmap s ops s') (h' : ClientRun mmap s' ops' s'') :
    ClientRun mmap s (ops ++ ops') s'' := by
  induction h with
  | nil => exact h'
  | cons hstep _ ih => exact .cons hstep (ih h')

/-- A step behind a run. -/
theorem snoc {op : ObjectStore.Op ℕ UInt8} (h : ClientRun mmap s ops s')
    (hstep : ClientStep mmap s' op s'') : ClientRun mmap s (ops ++ [op]) s'' :=
  h.trans (.cons hstep .nil)

/-- A run keeps the invariant. -/
theorem inv (h : HistoryInv s bs) (hrun : ClientRun mmap s ops s') : ∃ bs', HistoryInv s' bs' := by
  induction hrun generalizing bs with
  | nil => exact ⟨bs, h⟩
  | cons hstep _ ih =>
    obtain ⟨bs', h', -⟩ := (hstep.step h).refines h
    exact ih h'

/-- A run leads from a reachable history to a reachable history. -/
theorem reachable (hs : Reachable base mmap s) (hrun : ClientRun mmap s ops s') :
    Reachable base mmap s' := by
  induction hrun with
  | nil => exact hs
  | cons hstep _ ih =>
    obtain ⟨bs, h⟩ := hs.inv
    exact ih (hs.tail (hstep.step h))

/-- An allocation that no step names stays as it is. -/
theorem frame {p : ℕ} (h : HistoryInv s bs) (hrun : ClientRun mmap s ops s') (hp : p ∈ s.live)
    (hnames : ∀ op ∈ ops, ¬op.Names p) :
    p ∈ s'.live ∧ ∀ i < recordedSize s.kernel p, s'.kernel.mem (p + i) = s.kernel.mem (p + i) := by
  obtain ⟨hp', -, hbytes⟩ := hrun.cells h hp fun op hop hends => hnames op hop (Or.inl hends)
  refine ⟨hp', fun i hi => ?_⟩
  rw [ObjectStore.foldl_effect_of_not_names hnames] at hbytes
  have hbyte := getElem?_bytesAt (m := s.kernel.mem) (a := p) hi
  rw [← hbytes, getElem?_bytesAt hi] at hbyte
  exact Option.some.inj hbyte

/-- Its contents stay the same. -/
theorem sameContents {p : ℕ} (h : HistoryInv s bs) (hrun : ClientRun mmap s ops s')
    (hp : p ∈ s.live) (hnames : ∀ op ∈ ops, ¬op.Names p) :
    SameContents s.kernel s'.kernel p :=
  ⟨(hrun.cells h hp fun op hop hends => hnames op hop (Or.inl hends)).2.1,
    (hrun.frame h hp hnames).2⟩

end ClientRun

/-! ### Filling in a block -/

/-- The memory in which the bytes of `m'` stand from `p` on, `n` of them. -/
def splice (m m' : Mem) (p n : ℕ) : Mem := fun x => if p ≤ x ∧ x < p + n then m' x else m x

theorem splice_succ (m m' : Mem) (p n : ℕ) :
    splice m m' p (n + 1) = Function.update (splice m m' p n) (p + n) (m' (p + n)) := by
  funext x
  rw [Function.update_apply]
  unfold splice
  by_cases hx : x = p + n
  · rw [if_pos hx, if_pos (by omega), hx]
  · rw [if_neg hx]
    exact if_congr (by omega) rfl rfl

/-- Writing to an allocation that is live is a run of writes. -/
theorem HistoryInv.exists_clientRun_puts {p n : ℕ} {m : Mem} (mmap : Mmap E) (h : HistoryInv s bs)
    (hp : p ∈ s.live) (hn : n ≤ recordedSize s.kernel p)
    (hm : ∀ x, x < p ∨ p + n ≤ x → m x = s.kernel.mem x) :
    ∃ ops, ClientRun mmap s ops { s with kernel := { s.kernel with mem := m } } ∧
      ∀ op ∈ ops, ∃ i v, op = .put p i v := by
  obtain ⟨b, hb, -, rfl⟩ := h.exists_block hp
  have hsize : recordedSize s.kernel (b.addr + 20) = b.size := h.heap.size_eq hb
  -- the first `j` bytes are written
  have hrun : ∀ j ≤ n, ∃ ops, ClientRun mmap s ops
      { s with kernel := { s.kernel with mem := splice s.kernel.mem m (b.addr + 20) j } } ∧
        ∀ op ∈ ops, ∃ i v, op = .put (b.addr + 20) i v := by
    intro j
    induction j with
    | zero =>
      intro _
      have hnone : splice s.kernel.mem m (b.addr + 20) 0 = s.kernel.mem := by
        funext x
        exact if_neg (by omega)
      rw [hnone]
      exact ⟨[], .nil, fun op hop => absurd hop List.not_mem_nil⟩
    | succ j ih =>
      intro hj
      obtain ⟨ops, hrun, hops⟩ := ih (by omega)
      have hinv : HeapInv { s.kernel with mem := splice s.kernel.mem m (b.addr + 20) j } bs :=
        h.heap.write_payload hb fun x hx => if_neg (by unfold Block.stop at hx; omega)
      have hj' : j < recordedSize
          { s.kernel with mem := splice s.kernel.mem m (b.addr + 20) j } (b.addr + 20) := by
        rw [recordedSize, hinv.size_eq hb]
        omega
      rw [splice_succ]
      refine ⟨_, hrun.snoc (.write (v := m (b.addr + 20 + j)) hp hj'), fun op hop => ?_⟩
      rcases List.mem_append.mp hop with hop | hop
      · exact hops op hop
      · exact ⟨_, _, List.mem_singleton.mp hop⟩
  obtain ⟨ops, hrun, hops⟩ := hrun n (Nat.le_refl n)
  have hall : splice s.kernel.mem m (b.addr + 20) n = m := by
    funext x
    unfold splice
    split
    · rfl
    · exact (hm x (by omega)).symm
  rw [hall] at hrun
  exact ⟨ops, hrun, hops⟩

/-- The history `t` is what `s` becomes when a block of `length` bytes is taken and filled in. -/
structure Filled (mmap : Mmap E) (s : History E) (length p : ℕ) (t : History E) : Prop where
  /-- It is a run: the `kmalloc`, and the writes. -/
  run : ∃ ops, ClientRun mmap s ops t ∧
    ∀ op ∈ ops, op = .new length none ∨ ∃ i v, op = .put p i v
  /-- The block was not live before. -/
  fresh : p ∉ s.live
  /-- What was live still is, and the block is live as well. -/
  live : ∀ q, q ∈ t.live ↔ q = p ∨ q ∈ s.live
  /-- The block is large enough. -/
  size : align16 length ≤ recordedSize t.kernel p

/-- The writes are to no other object. -/
theorem Filled.not_names {length p : ℕ} {t : History E} (h : Filled mmap s length p t) :
    ∃ ops, ClientRun mmap s ops t ∧ ∀ q ∈ s.live, ∀ op ∈ ops, ¬op.Names q := by
  obtain ⟨ops, hrun, hops⟩ := h.run
  refine ⟨ops, hrun, fun q hq op hop => ?_⟩
  rcases hops op hop with rfl | ⟨i, v, rfl⟩
  · exact ObjectStore.Op.not_names_new q length none
  · rw [ObjectStore.Op.names_put]
    rintro rfl
    exact h.fresh hq

/-- Taking a block and filling it in. -/
theorem HistoryInv.filled {fuel length p : ℕ} {k₁ : Kernel E} {m : Mem}
    (h : HistoryInv s bs) (hk : kmalloc (kernelSpace mmap) fuel length s.kernel = some (p, k₁))
    (hlen : SizeOk length) (hend : EndOk s.kernel k₁)
    (hm : ∀ x, x < p ∨ p + length ≤ x → m x = k₁.mem x) :
    Filled mmap s length p (s.handOut p { k₁ with mem := m }) := by
  have hstep : ClientStep mmap s (.new length none) (s.handOut p k₁) := .kmalloc hk hlen hend
  obtain ⟨bs', b, hkstep, hinv₁, rfl, -⟩ := kmalloc_frame h.heap hk hlen hend
  obtain ⟨hb, -, hsize⟩ := hkstep.block hlen
  have h₁ : HistoryInv (s.handOut (b.addr + 20) k₁) bs' := h.handOut hkstep hlen hinv₁
  have hhandOut : ∀ k, s.handOut (b.addr + 20) k =
      { kernel := k, live := (b.addr + 20) :: s.live,
        stale := s.stale.filter (· ≠ b.addr + 20) } := fun k => if_neg (by omega)
  have hlive : b.addr + 20 ∈ (s.handOut (b.addr + 20) k₁).live := by
    rw [hhandOut]
    exact List.mem_cons_self
  have hle : length ≤ recordedSize (s.handOut (b.addr + 20) k₁).kernel (b.addr + 20) := by
    rw [History.handOut_kernel, recordedSize, hinv₁.size_eq hb]
    exact hsize
  have hinv : HeapInv { k₁ with mem := m } bs' := hinv₁.write_payload hb fun x hx => hm x <| by
    unfold Block.stop at hx
    omega
  obtain ⟨ops, hrun, hops⟩ := h₁.exists_clientRun_puts mmap hlive hle (m := m) fun x hx => by
    rw [History.handOut_kernel]
    exact hm x hx
  rw [hhandOut] at hrun hstep ⊢
  refine ⟨⟨_ :: ops, .cons hstep hrun, fun op hop => ?_⟩, hkstep.notMem_live h,
    fun q => List.mem_cons, ?_⟩
  · rcases List.mem_cons.mp hop with rfl | hop
    · exact Or.inl rfl
    · exact Or.inr (hops op hop)
  · rw [recordedSize, hinv.size_eq hb]
    exact hkstep.align16_le hlen

/-! ### Working on a block -/

/-- The history `t` is reached from `s` by a run that gives back nothing of what is live in `s`, and
writes to none of it but `base`. -/
structure WorksOn (mmap : Mmap E) (base : ℕ) (s t : History E) : Prop where
  /-- The run. -/
  run : ∃ ops, ClientRun mmap s ops t ∧
    ∀ p ∈ s.live, ∀ op ∈ ops, ¬op.Ends p ∧ (p ≠ base → ¬op.Names p)
  /-- What was live still is. -/
  live : ∀ p ∈ s.live, p ∈ t.live

namespace WorksOn

variable {t u : History E} {a p : ℕ}

theorem refl (mmap : Mmap E) (a : ℕ) (s : History E) : WorksOn mmap a s s :=
  ⟨⟨[], .nil, fun _ _ _ hop => absurd hop List.not_mem_nil⟩, fun _ hp => hp⟩

theorem trans (h : WorksOn mmap a s t) (h' : WorksOn mmap a t u) : WorksOn mmap a s u := by
  obtain ⟨ops, hrun, hops⟩ := h.run
  obtain ⟨ops', hrun', hops'⟩ := h'.run
  refine ⟨⟨ops ++ ops', hrun.trans hrun', fun p hp op hop => ?_⟩, fun p hp => h'.live p (h.live p hp)⟩
  rcases List.mem_append.mp hop with hop | hop
  · exact hops p hp op hop
  · exact hops' p (h.live p hp) op hop

/-- Taking a block and filling it in. -/
theorem of_filled {length q : ℕ} (h : Filled mmap s length q t) (a : ℕ) : WorksOn mmap a s t := by
  obtain ⟨ops, hrun, hops⟩ := h.not_names
  exact ⟨⟨ops, hrun, fun p hp op hop =>
    ⟨fun hends => hops p hp op hop (Or.inl hends), fun _ => hops p hp op hop⟩⟩,
    fun p hp => (h.live p).mpr (Or.inr hp)⟩

/-- Writing to the block. -/
theorem of_write {m : Mem} (mmap : Mmap E) (h : HistoryInv s bs) (ha : a ∈ s.live)
    (hm : ∀ x, x < a ∨ a + recordedSize s.kernel a ≤ x → m x = s.kernel.mem x) :
    WorksOn mmap a s { s with kernel := { s.kernel with mem := m } } := by
  obtain ⟨ops, hrun, hops⟩ := h.exists_clientRun_puts mmap ha (Nat.le_refl _) hm
  refine ⟨⟨ops, hrun, fun p _ op hop => ?_⟩, fun _ hp => hp⟩
  obtain ⟨i, v, rfl⟩ := hops op hop
  refine ⟨ObjectStore.Op.not_ends_put p a i v, fun hne => ?_⟩
  rw [ObjectStore.Op.names_put]
  exact hne.symm

theorem inv (hw : WorksOn mmap a s t) (h : HistoryInv s bs) : ∃ bs', HistoryInv t bs' := by
  obtain ⟨ops, hrun, -⟩ := hw.run
  exact hrun.inv h

/-- What was live has its size. -/
theorem size_eq (hw : WorksOn mmap a s t) (h : HistoryInv s bs) (hp : p ∈ s.live) :
    recordedSize t.kernel p = recordedSize s.kernel p := by
  obtain ⟨ops, hrun, hops⟩ := hw.run
  exact (hrun.cells h hp fun op hop => (hops p hp op hop).1).2.1

/-- What was live, other than the block, has its bytes. -/
theorem mem_eq (hw : WorksOn mmap a s t) (h : HistoryInv s bs) (hp : p ∈ s.live) (hne : p ≠ a)
    {i : ℕ} (hi : i < recordedSize s.kernel p) : t.kernel.mem (p + i) = s.kernel.mem (p + i) := by
  obtain ⟨ops, hrun, hops⟩ := hw.run
  exact (hrun.frame h hp fun op hop => (hops p hp op hop).2 hne).2 i hi

end WorksOn

end PakOS
