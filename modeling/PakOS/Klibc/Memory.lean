import PakOS.Kmalloc.Client
import PakOS.Kmalloc.Payload

/-!
# Moving bytes

`memcpy` and `memmove` of `klibc/kstring.c`.  `memcpy` copies from the first byte on, so that a
destination that begins inside the source is filled with a pattern (`memcpy_eq`).  `memmove` copies
by way of a buffer from the kernel heap: `memmove_moves` says that it moves the bytes however source
and destination overlap, and that nothing else which belongs to somebody changes.
-/

namespace PakOS

open Machine Coalesce

variable {E : Type*} {base : HeapBase} {mmap : Mmap E} {s : History E} {bs : List Block}

/-! ### `memcpy` -/

/-- `memcpy(dest, src, n)` -/
def memcpy (dest src n : ℕ) (m : Mem) : Mem := copyBytes m dest src n

/-- A destination that begins `k` bytes behind the source is filled with its first `k` bytes. -/
theorem copyBytes_of_behind {m : Mem} {a k n i : ℕ} (hk : 0 < k) (hn : a + k + n ≤ 4294967296)
    (hi : i < n) : copyBytes m (a + k) a n (a + k + i) = m (a + i % k) := by
  induction n generalizing i with
  | zero => omega
  | succ n ih =>
    rw [copyBytes, add32_of_lt (by omega), add32_of_lt (by omega)]
    by_cases hin : i = n
    · subst hin
      rw [Function.update_self]
      rcases Nat.lt_or_ge i k with hlt | hge
      · rw [copyBytes_of_notMem (by omega) (by omega), Nat.mod_eq_of_lt hlt]
      · -- the byte that is read was written before
        obtain ⟨j, rfl⟩ := Nat.exists_eq_add_of_le hge
        have hread := ih (by omega) (show j < k + j by omega)
        rw [← Nat.add_assoc, hread, Nat.add_mod_left]
    · rw [Function.update_of_ne (by omega), ih (by omega) (by omega)]

/-- **What `memcpy` does**, for every way in which the source and the destination may overlap: it
copies, unless the destination begins inside the source; then it repeats the bytes in front. -/
theorem memcpy_eq {dest src n : ℕ} (m : Mem) (hdest : dest + n ≤ 4294967296)
    (hsrc : src + n ≤ 4294967296) :
    (∀ i < n, memcpy dest src n m (dest + i) =
      m (src + if src < dest ∧ dest < src + n then i % (dest - src) else i)) ∧
    ∀ x, x < dest ∨ dest + n ≤ x → memcpy dest src n m x = m x := by
  refine ⟨fun i hi => ?_, fun x hx => copyBytes_of_notMem hdest hx⟩
  split
  · next hover =>
    obtain ⟨k, rfl⟩ := Nat.exists_eq_add_of_lt hover.1
    rw [Nat.add_assoc, Nat.add_sub_cancel_left]
    exact copyBytes_of_behind (Nat.succ_pos k) (by omega) hi
  · next hapart => exact copyBytes_of_mem hdest hsrc (by omega) hi

/-- Five bytes, moved up by two, become a pattern. -/
theorem memcpy_eq_pattern : memcpy 0x1002 0x1000 5 (fun x => UInt8.ofNat x) 0x1006 = 0 := by
  obtain ⟨hcopied, -⟩ := memcpy_eq (fun x => UInt8.ofNat x)
    (show 0x1002 + 5 ≤ 4294967296 by decide) (show 0x1000 + 5 ≤ 4294967296 by decide)
  exact (hcopied 4 (by decide)).trans (by decide)

/-! ### `memmove` -/

/-- The `n` bytes from `a` on are somebody's: they lie in front of the heap, or in one allocation
that is live. -/
def History.Region (s : History E) (a n : ℕ) : Prop :=
  a + n ≤ s.kernel.heapStart ∨ ∃ p ∈ s.live, p ≤ a ∧ a + n ≤ p + recordedSize s.kernel p

/-- The cursor and what went to the serial port are the same in both states. -/
structure SameConsole (k k' : Kernel E) : Prop where
  /-- `vga_cursor_r` -/
  row : k'.vgaCursorR = k.vgaCursorR
  /-- `vga_cursor_c` -/
  col : k'.vgaCursorC = k.vgaCursorC
  /-- The serial port. -/
  serial : k'.serial = k.serial

/-- The history `t` is what `s` becomes when `n` bytes are moved from `src` to `dest`. -/
structure Moved (mmap : Mmap E) (s : History E) (dest src n : ℕ) (t : History E) : Prop where
  /-- The bytes. -/
  copied : ∀ i < n, t.kernel.mem (dest + i) = s.kernel.mem (src + i)
  /-- Nothing else that is somebody's changes. -/
  others : ∀ x, s.Owns x → (x < dest ∨ dest + n ≤ x) → t.kernel.mem x = s.kernel.mem x
  /-- The buffer was given back. -/
  live : t.live = s.live
  /-- The heap was used as it should be. -/
  run : ∃ ops, ClientRun mmap s ops t
  /-- Nothing was printed. -/
  console : SameConsole s.kernel t.kernel

/-- `kmalloc` prints nothing. -/
theorem kmalloc_sameConsole {k k' : Kernel E} {fuel length p : ℕ} (h : HeapInv k bs)
    (hk : kmalloc (kernelSpace mmap) fuel length k = some (p, k')) : SameConsole k k' := by
  rcases fits_cases (align16 length) bs with ⟨pre, b, post, rfl, hpre, hb⟩ | hnone
  · obtain ⟨-, ⟨m, rfl⟩, -⟩ := eq_of_kmalloc_of_fits h hpre hb hk
    exact ⟨rfl, rfl, rfl⟩
  · obtain ⟨-, rfl⟩ := eq_of_kmalloc_of_not_fits h hnone hk
    exact ⟨rfl, rfl, rfl⟩

/-- What is settled belongs to no header. -/
theorem HeapInv.offHeaders_of_settled {k : Kernel E} {limit x : ℕ} (h : HeapInv k bs)
    (hle : k.heapStart + k.heapSize ≤ limit) (hx : Settled limit k bs x) : OffHeaders bs x := by
  rcases hx with hlow | hhigh | ⟨c, hc, -, hlo, hhi⟩
  · exact h.offHeaders_of_lt hlow
  · intro c hc
    have hplace := (h.placed.mem hc).2
    unfold Block.stop at hplace
    omega
  · exact h.offHeaders_payload hc hlo hhi

/-- The bytes of a region are somebody's. -/
theorem History.Region.owns {a n x : ℕ} (h : s.Region a n) (hlo : a ≤ x) (hhi : x < a + n) :
    s.Owns x := by
  rcases h with hlow | ⟨p, hp, hpa, hpn⟩
  · exact Or.inl (by omega)
  · exact Or.inr ⟨p, hp, by omega, hhi.trans_le hpn⟩

/-- A block that is handed out lies on one side of every region. -/
theorem Allocated.region_apart {k' : Kernel E} {bs' : List Block} {b : Block}
    {limit length a n : ℕ} (hall : Allocated limit s.kernel bs length k' bs' b)
    (h : HistoryInv s bs) (hlen : SizeOk length) (hregion : s.Region a n) :
    a + n ≤ b.addr + 20 ∨ b.stop ≤ a := by
  rcases hregion with hlow | ⟨p, hp, hpa, hpn⟩
  · obtain ⟨hb, -, -⟩ := hall.block hlen
    have hplace := (hall.heap.placed.mem hb).1
    rw [hall.start] at hplace
    omega
  · obtain ⟨c, hc, hcfree, rfl⟩ := h.exists_block hp
    obtain ⟨-, happart⟩ := hall.apart h.heap hlen hc hcfree
    rw [recordedSize, h.heap.size_eq hc] at hpn
    unfold Block.stop at happart ⊢
    omega

/-- Writing to a region is a run: the kernel's own writes, or a client's. -/
theorem HistoryInv.exists_clientRun_write {a n : ℕ} {m : Mem} (mmap : Mmap E)
    (h : HistoryInv s bs) (hregion : s.Region a n)
    (hm : ∀ x, x < a ∨ a + n ≤ x → m x = s.kernel.mem x) :
    ∃ ops, ClientRun mmap s ops { s with kernel := { s.kernel with mem := m } } := by
  rcases hregion with hlow | ⟨p, hp, hpa, hpn⟩
  · have hsame : SameHeap s.kernel { s.kernel with mem := m } :=
      ⟨rfl, rfl, rfl, fun x hx _ => hm x (by omega)⟩
    exact ⟨_, .cons (.other hsame) .nil⟩
  · obtain ⟨ops, hrun, -⟩ := h.exists_clientRun_puts mmap hp (Nat.le_refl _) (m := m)
      fun x hx => hm x (by unfold recordedSize at hpn hx; omega)
    exact ⟨ops, hrun⟩

/-- A region stays one when a block is handed out. -/
theorem Allocated.region {k' : Kernel E} {bs' : List Block} {b : Block} {limit length a n : ℕ}
    {m : Mem} (hall : Allocated limit s.kernel bs length k' bs' b) (h : HistoryInv s bs)
    (hinv : HeapInv { k' with mem := m } bs') (hregion : s.Region a n) :
    (s.handOut (b.addr + 20) { k' with mem := m }).Region a n := by
  rw [History.handOut, if_neg (by omega)]
  rcases hregion with hlow | ⟨p, hp, hpa, hpn⟩
  · exact Or.inl (by rw [← hall.start] at hlow; exact hlow)
  · obtain ⟨c, hc, hcfree, rfl⟩ := h.exists_block hp
    obtain ⟨hc', -⟩ := hall.mem_of_mem h.heap hc hcfree
    refine Or.inr ⟨_, List.mem_cons_of_mem _ hp, hpa, hpn.trans_eq ?_⟩
    rw [recordedSize, recordedSize, hinv.size_eq hc', h.heap.size_eq hc]

/-- `memmove` is `kmalloc`, the two copies and `kfree`. -/
theorem memmove_eq_bind (space : Space E) (kfree : Kfree E) (fuel dest src n : ℕ) (k : Kernel E) :
    memmove space kfree fuel dest src n k = (kmalloc space fuel n k).bind fun r =>
      (kfree r.1 { r.2 with mem := memcpy dest r.1 n (memcpy r.1 src n r.2.mem) }).map Prod.snd := by
  unfold memmove memcpy
  cases kmalloc space fuel n k <;> rfl

/-- `memmove` with the buffer that `kmalloc` hands out: what it moves, and the heap behind it. -/
theorem HistoryInv.moved_of_allocated {dest src n limit : ℕ} {k₁ : Kernel E} {bs₁ : List Block}
    {b : Block} (h : HistoryInv s bs) (hlen : SizeOk n) (hlimit : limit < 4294967296)
    (hyields : Yields (fun n' => kmalloc (kernelSpace mmap) n' n s.kernel) (b.addr + 20, k₁))
    (hall : Allocated limit s.kernel bs n k₁ bs₁ b) (hsrc : s.Region src n)
    (hdest : s.Region dest n) (hsrc32 : src + n ≤ 4294967296) (hdest32 : dest + n ≤ 4294967296) :
    ∃ t, Yields (fun fuel => memmove (kernelSpace mmap) (kfree (kernelSpace mmap) fuel) fuel dest src
        n s.kernel) t.kernel ∧ Moved mmap s dest src n t ∧
      HistoryInv t (releaseBlock b.addr bs₁) ∧ Ready n limit t.kernel (releaseBlock b.addr bs₁) ∧
      t.kernel.heapStart = s.kernel.heapStart ∧
      ∀ p ∈ s.live, recordedSize t.kernel p = recordedSize s.kernel p := by
  obtain ⟨fuel₀, hk⟩ := hyields.exists_run
  obtain ⟨hb, hbfree, hsize⟩ := hall.block hlen
  have hbounds := hall.heap.block_bounds hb
  have hsrcApart := hall.region_apart h hlen hsrc
  have hdestApart := hall.region_apart h hlen hdest
  have hsettled : ∀ x, s.Owns x → k₁.mem x = s.kernel.mem x ∧ Settled limit k₁ bs₁ x ∧
      (x < b.addr + 20 ∨ b.stop ≤ x) := fun x hx => hall.settled h.heap hlen (h.settled hx)
  unfold Block.stop at hsrcApart hdestApart
  -- the buffer is filled, and then the destination is
  let m₁ := memcpy (b.addr + 20) src n k₁.mem
  let m₂ := memcpy dest (b.addr + 20) n m₁
  have hm₁ : ∀ x, x < b.addr + 20 ∨ b.addr + 20 + n ≤ x → m₁ x = k₁.mem x := fun x hx =>
    copyBytes_of_notMem (by omega) hx
  have hm₂ : ∀ x, x < dest ∨ dest + n ≤ x → m₂ x = m₁ x := fun x hx =>
    copyBytes_of_notMem hdest32 hx
  have hmoved : ∀ i < n, m₂ (dest + i) = s.kernel.mem (src + i) := by
    intro i hi
    calc m₂ (dest + i) = m₁ (b.addr + 20 + i) :=
          copyBytes_of_mem hdest32 (by omega) (by omega) hi
      _ = k₁.mem (src + i) := copyBytes_of_mem (by omega) hsrc32 (by omega) hi
      _ = s.kernel.mem (src + i) := (hsettled _ (hsrc.owns (by omega) (by omega))).1
  have hinv₁ : HeapInv { k₁ with mem := m₁ } bs₁ := hall.heap.write_payload hb fun x hx =>
    hm₁ x (by unfold Block.stop at hx; omega)
  have hfilled := h.filled hk hlen (hall.endOk hlimit) hm₁
  have hregion := hall.region h hinv₁ hdest
  have hinv₂ : HeapInv { k₁ with mem := m₂ } bs₁ := hinv₁.write_offHeaders fun x hx =>
    hm₂ x <| by
      by_contra hin
      have hown : s.Owns x := hdest.owns (by omega) (by omega)
      exact hx (hall.heap.offHeaders_of_settled hall.le (hsettled x hown).2.1)
  have h₁ : HistoryInv (s.handOut (b.addr + 20) { k₁ with mem := m₁ }) bs₁ :=
    h.handOut hall.step hlen hinv₁
  have h₂ : HistoryInv (s.handOut (b.addr + 20) { k₁ with mem := m₂ }) bs₁ :=
    h.handOut hall.step hlen hinv₂
  rw [History.handOut, if_neg (by omega)] at hfilled hregion h₁ h₂
  obtain ⟨ops, hrun, -⟩ := hfilled.run
  obtain ⟨ops', hrun'⟩ := h₁.exists_clientRun_write mmap hregion hm₂
  -- the buffer is given back
  obtain ⟨k₃, hkfree, hfreed⟩ := hinv₂.yields_kfree (kernelSpace mmap) hb
  have hkept : ∀ x, s.Owns x → k₃.mem x = m₂ x := fun x hx =>
    (hfreed.settled hinv₂ hall.le hb (hsettled x hx).2.1 (hsettled x hx).2.2).1
  obtain ⟨fuel₃, hk₃⟩ := hkfree.exists_run
  obtain ⟨-, hk₃eq, -⟩ := kfree_step hinv₂ hb hk₃
  refine ⟨_, ?_, ⟨fun i hi => ?_, fun x hx hout => ?_, ?_, ⟨_, (hrun.trans hrun').snoc
    (.kfree List.mem_cons_self hk₃)⟩, ?_⟩, h₂.giveBack hfreed.heap, ?_, ?_, fun p hp => ?_⟩
  · have hall := hyields.bind (g := fun r fuel => (kfree (kernelSpace mmap) fuel r.1
      { r.2 with mem := memcpy dest r.1 n (memcpy r.1 src n r.2.mem) }).map Prod.snd)
      (hkfree.map Prod.snd)
    simpa only [memmove_eq_bind, History.giveBack_kernel] using hall
  · rw [History.giveBack_kernel, hkept _ (hdest.owns (by omega) (by omega)), hmoved i hi]
  · obtain ⟨hmem, -, hapart⟩ := hsettled x hx
    unfold Block.stop at hapart
    rw [History.giveBack_kernel, hkept x hx, hm₂ x hout, hm₁ x (by omega), hmem]
  · rw [History.giveBack, if_neg (by omega), List.erase_cons_head]
  · have hconsole := kmalloc_sameConsole h.heap hk
    rw [History.giveBack_kernel, hk₃eq]
    exact ⟨hconsole.row, hconsole.col, hconsole.serial⟩
  · rw [History.giveBack_kernel]
    exact hfreed.ready hall.le hb (Or.inr hsize)
  · rw [History.giveBack_kernel, hfreed.start]
    exact hall.start
  · obtain ⟨c, hc, hcfree, rfl⟩ := h.exists_block hp
    obtain ⟨hc', hne⟩ := hall.mem_of_mem h.heap hc hcfree
    rw [History.giveBack_kernel, recordedSize, recordedSize, h.heap.size_eq hc]
    exact hfreed.heap.size_eq ((mem_releaseBlock hcfree).mpr ⟨hc', hne⟩)

/-- **`memmove` moves.**  On a reachable heap, from and to memory that is in front of the heap or in
an allocation, `memmove` always returns, and the bytes are moved however the two overlap.  The
buffer that it takes is given back; nothing else that is somebody's is changed. -/
theorem memmove_moves {dest src n : ℕ} (hs : Reachable base mmap s) (hlen : SizeOk n)
    (hend : ∀ fuel p k₁, kmalloc (kernelSpace mmap) fuel n s.kernel = some (p, k₁) →
      EndOk s.kernel k₁) (hsrc : s.Region src n) (hdest : s.Region dest n)
    (hsrc32 : src + n ≤ 4294967296) (hdest32 : dest + n ≤ 4294967296) :
    ∃ t, Yields (fun fuel => memmove (kernelSpace mmap) (kfree (kernelSpace mmap) fuel) fuel dest src
      n s.kernel) t.kernel ∧ Moved mmap s dest src n t := by
  obtain ⟨bs, h⟩ := hs.inv
  obtain ⟨fuel₀, p, k₁, hk⟩ := exists_kmalloc mmap h.heap n
  have hyields : Yields (fun n' => kmalloc (kernelSpace mmap) n' n s.kernel) (p, k₁) :=
    Yields.of_mono (fun _ _ _ hn hle => kmalloc_mono hn hle) hk
  obtain ⟨bs₁, b, rfl, hall⟩ := exists_allocated h.heap hk hlen (hend _ _ _ hk)
  obtain ⟨t, hreturns, hmoved, -⟩ :=
    h.moved_of_allocated hlen (by omega) hyields hall hsrc hdest hsrc32 hdest32
  exact ⟨t, hreturns, hmoved⟩

/-- Eight bytes of the first of three allocations are moved up by four. -/
theorem memmove_moves_threeLive :
    ∃ t, Yields (fun fuel => memmove (kernelSpace mapAll) (kfree (kernelSpace mapAll) fuel) fuel
      0xd0000018 0xd0000014 8 threeLive.kernel) t.kernel ∧
        Moved mapAll threeLive 0xd0000018 0xd0000014 8 t := by
  have hcall : ((kmalloc (kernelSpace mapAll) 8 8 threeLive.kernel).map fun r =>
      decide (EndOk threeLive.kernel r.2)) = some true := by decide +kernel
  obtain ⟨⟨p, k⟩, hk, hend⟩ := Option.map_eq_some_iff.mp hcall
  have hlive : 0xd0000014 ∈ threeLive.live := by decide +kernel
  have hsize : 12 ≤ recordedSize threeLive.kernel 0xd0000014 := by decide +kernel
  have hregion : ∀ i, i ≤ 4 → threeLive.Region (0xd0000014 + i) 8 := fun i hi =>
    Or.inr ⟨_, hlive, Nat.le_add_right _ _, by omega⟩
  have hreach : Reachable kernelHeap mapAll threeLive := reachable_historyOf _ _ _
  exact memmove_moves hreach (by decide) (endOk_of_kmalloc hk (of_decide_eq_true hend))
    (hregion 0 (by omega)) (hregion 4 (by omega)) (by decide) (by decide)

end PakOS
