import PakOS.Kmalloc.Payload

/-!
# Blocks that nobody gives back

A block may be in use although no client of the heap holds its address: a function keeps it, or it
is lost.  Such blocks make no difference to the clients: what they do is what they do when these
blocks are live as well (`ClientStep.withLost`), and it is a step of the store of their own objects
(`ClientStep.store_of_lost`).
-/

namespace PakOS

open Machine Coalesce

variable {E : Type*} {mmap : Mmap E} {s t : History E} {lost : List ℕ} {bs : List Block}
  {op : ObjectStore.Op ℕ UInt8} {p : ℕ}

/-- The history in which the addresses `lost` are live, too. -/
def History.withLost (s : History E) (lost : List ℕ) : History E :=
  { s with live := s.live ++ lost }

theorem History.handOut_withLost (s : History E) (p : ℕ) (k : Kernel E) (lost : List ℕ) :
    (s.withLost lost).handOut p k = (s.handOut p k).withLost lost := by
  unfold handOut
  split <;> rfl

theorem History.giveBack_withLost (hp : p = 0 ∨ p ∈ s.live) (k : Kernel E) (lost : List ℕ) :
    (s.withLost lost).giveBack p k = (s.giveBack p k).withLost lost := by
  unfold giveBack
  split
  · rfl
  · next hne =>
    simp only [withLost, List.erase_append_left lost (hp.resolve_left hne)]

theorem History.moved_withLost (hp : p = 0 ∨ p ∈ s.live) (q : ℕ) (k : Kernel E) (lost : List ℕ) :
    (s.withLost lost).moved p q k = (s.moved p q k).withLost lost := by
  have hp' : p = 0 ∨ p ∈ (s.handOut q k).live := by
    refine hp.imp_right fun hp => ?_
    unfold handOut
    split
    · exact hp
    · exact List.mem_cons_of_mem q hp
  unfold moved
  rw [handOut_withLost, giveBack_withLost hp']
  split <;> rfl

/-- What a client does, it does in the same way when more blocks are in use. -/
theorem ClientStep.withLost (hs : ClientStep mmap s op t) (lost : List ℕ) :
    ClientStep mmap (s.withLost lost) op (t.withLost lost) := by
  have hlive : ∀ p ∈ s.live, p ∈ (s.withLost lost).live := fun p hp => List.mem_append_left lost hp
  cases hs with
  | kmalloc hk hlen hend =>
    rw [← History.handOut_withLost]
    exact .kmalloc hk hlen hend
  | kcalloc hk hmul hlen hend =>
    rw [← History.handOut_withLost]
    exact .kcalloc hk hmul hlen hend
  | kreallocNull hk hlen hend =>
    rw [← History.moved_withLost (Or.inl rfl)]
    exact .kreallocNull hk hlen hend
  | krealloc hptr hk hlen hend =>
    rw [← History.moved_withLost (Or.inr hptr)]
    exact .krealloc (hlive _ hptr) hk hlen hend
  | kfreeNull hk =>
    rw [← History.giveBack_withLost (Or.inl rfl)]
    exact .kfreeNull hk
  | kfree hptr hk =>
    rw [← History.giveBack_withLost (Or.inr hptr)]
    exact .kfree (hlive _ hptr) hk
  | write hptr hi => exact .write (hlive _ hptr) hi
  | other hk => exact .other hk

/-- A client names only what it holds. -/
theorem ClientStep.mem_of_names (hs : ClientStep mmap s op t) (hp : op.Names p) : p ∈ s.live := by
  cases hs with
  | krealloc hptr => exact ObjectStore.Op.names_resize.mp hp ▸ hptr
  | kfree hptr => exact ObjectStore.Op.names_drop.mp hp ▸ hptr
  | write hptr => exact ObjectStore.Op.names_put.mp hp ▸ hptr
  | kmalloc | kcalloc | kreallocNull => exact absurd hp (ObjectStore.Op.not_names_new _ _ _)
  | kfreeNull | other => exact absurd hp (ObjectStore.Op.not_names_skip p)

/-- The store of the clients is the store of all objects without those that are lost. -/
theorem History.store_eq_without (s : History E) (hnodup : (s.withLost lost).live.Nodup) :
    s.store = (s.withLost lost).store.without lost := by
  have hapart := (List.nodup_append.mp hnodup).2.2
  funext p
  by_cases hp : p ∈ lost
  · have hnot : p ∉ s.live := fun hlive => hapart p hlive p hp rfl
    exact (store_of_notMem hnot).trans (if_pos hp).symm
  · have hlive : p ∈ s.live ↔ p ∈ (s.withLost lost).live :=
      (List.mem_append.trans (or_iff_left hp)).symm
    exact (store_congr hlive fun _ => ⟨rfl, fun _ _ => rfl⟩).trans (if_neg hp).symm

/-- A client's step is a step of its store. -/
theorem ClientStep.store_of_lost (h : HistoryInv (s.withLost lost) bs)
    (hs : ClientStep mmap s op t) : ObjectStore.Step s.store op t.store := by
  have hs' := hs.withLost lost
  obtain ⟨bs', h'⟩ := ClientRun.inv h (.cons hs' .nil)
  have hapart := (List.nodup_append.mp h.nodup).2.2
  rw [s.store_eq_without h.nodup, t.store_eq_without h'.nodup]
  refine (hs'.store h).without (fun p hp hnames => ?_) fun p hp => ?_
  · exact hapart p (hs.mem_of_names hnames) p hp rfl
  · rw [History.store_of_mem (List.mem_append_right s.live hp)]
    exact Option.some_ne_none _

/-- So is a whole run, in which no step names what is lost. -/
theorem ClientRun.withLost {ops : List (ObjectStore.Op ℕ UInt8)}
    (h : HistoryInv (s.withLost lost) bs) (hrun : ClientRun mmap s ops t) :
    ClientRun mmap (s.withLost lost) ops (t.withLost lost) ∧
      ∀ p ∈ lost, ∀ op ∈ ops, ¬op.Names p := by
  induction hrun generalizing bs with
  | nil => exact ⟨.nil, fun _ _ _ hop => absurd hop List.not_mem_nil⟩
  | cons hstep _ ih =>
    have hstep' := hstep.withLost lost
    obtain ⟨bs', h'⟩ := ClientRun.inv h (.cons hstep' .nil)
    obtain ⟨hrun', hnames⟩ := ih h'
    refine ⟨.cons hstep' hrun', fun p hp op hop hname => ?_⟩
    rcases List.mem_cons.mp hop with rfl | hop
    · exact (List.nodup_append.mp h.nodup).2.2 p (hstep.mem_of_names hname) p hp rfl
    · exact hnames p hp op hop hname

/-- On any heap in which what the clients hold is in use, the other blocks in use are lost. -/
theorem HeapInv.exists_lost (h : HeapInv s.kernel bs) (hnodup : s.live.Nodup)
    (hlive : ∀ p ∈ s.live, ∃ b ∈ bs, b.free = false ∧ p = b.addr + 20) :
    ∃ lost, HistoryInv (s.withLost lost) bs := by
  let inUse := (bs.filter (!·.free)).map (·.addr + 20)
  have hmem : ∀ p, p ∈ inUse ↔ ∃ b ∈ bs, b.free = false ∧ p = b.addr + 20 := by
    intro p
    simp only [inUse, List.mem_map, List.mem_filter, Bool.not_eq_true']
    constructor
    · rintro ⟨b, ⟨hb, hfree⟩, rfl⟩
      exact ⟨b, hb, hfree, rfl⟩
    · rintro ⟨b, hb, hfree, rfl⟩
      exact ⟨b, ⟨hb, hfree⟩, rfl⟩
  have hinUse : inUse.Nodup := by
    have hall : (bs.map (·.addr + 20)).Nodup := by
      have hmap := h.placed.nodup.map (add_left_injective 20)
      rwa [addrs, List.map_map] at hmap
    exact hall.sublist (List.filter_sublist.map _)
  refine ⟨inUse.filter (· ∉ s.live), h, ?_, fun p => ?_⟩
  · refine List.nodup_append.mpr ⟨hnodup, hinUse.filter _, ?_⟩
    rintro p hp _ hq rfl
    exact of_decide_eq_true (List.mem_filter.mp hq).2 hp
  · rw [History.withLost, List.mem_append, List.mem_filter, decide_eq_true_eq, hmem]
    constructor
    · rintro (hp | ⟨hp, -⟩)
      · exact hlive p hp
      · exact hp
    · intro hp
      by_cases hp' : p ∈ s.live
      · exact Or.inl hp'
      · exact Or.inr ⟨hp, hp'⟩

/-- What is lost stays lost: whatever the clients do, what is in use is what they hold, and what was
in use before without being held; that keeps its size. -/
theorem HeapInv.inUseAt_of_run {ops : List (ObjectStore.Op ℕ UInt8)} (h : HeapInv s.kernel bs)
    (hnodup : s.live.Nodup) (hlive : ∀ p ∈ s.live, InUseAt s.kernel p)
    (hrun : ClientRun mmap s ops t) :
    (∀ p, InUseAt t.kernel p ↔ p ∈ t.live ∨ InUseAt s.kernel p ∧ p ∉ s.live) ∧
      ∀ p, InUseAt s.kernel p → p ∉ s.live →
        p ∉ t.live ∧ recordedSize t.kernel p = recordedSize s.kernel p := by
  obtain ⟨lost, hs⟩ := h.exists_lost hnodup fun p hp => h.inUseAt_iff.mp (hlive p hp)
  obtain ⟨hrun', hnames⟩ := hrun.withLost hs
  obtain ⟨bs', ht⟩ := hrun'.inv hs
  have hlost : ∀ p, p ∈ lost ↔ InUseAt s.kernel p ∧ p ∉ s.live := by
    intro p
    have hmem : p ∈ s.live ++ lost ↔ InUseAt s.kernel p := hs.mem_live_iff
    rw [← hmem, List.mem_append]
    constructor
    · intro hp
      exact ⟨Or.inr hp, fun hp' => (List.nodup_append.mp hs.nodup).2.2 p hp' p hp rfl⟩
    · rintro ⟨hp, hnot⟩
      exact hp.resolve_left hnot
  refine ⟨fun p => ?_, fun p hp hnot => ?_⟩
  · rw [← hlost]
    exact ht.mem_live_iff.symm.trans List.mem_append
  · have hp' := (hlost p).mpr ⟨hp, hnot⟩
    refine ⟨fun hlive' => (List.nodup_append.mp ht.nodup).2.2 p hlive' p hp' rfl, ?_⟩
    exact (hrun'.sameContents hs (List.mem_append_right s.live hp') (hnames p hp')).1

end PakOS
