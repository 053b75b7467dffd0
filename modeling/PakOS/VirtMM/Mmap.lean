import PakOS.VirtMM.MapLoop

/-!
# Mapping fresh memory

`mmap` ignores what `hwpalloc` returns, for the range as well as for the page tables, hands the
number of pages to a parameter of 16 bits, and returns `STATUS_OK` whatever happened.
`mmap_honoured` says when it does what it should: when fewer than 65536 pages are asked for and the
frame allocator has the frames.  A range whose own page tables are shown by pages of the range is
the exception.

That 65536 pages or more can never be backed is a matter of counting: a call marks no more frames
than the 16 bits say, and one for each page table that it creates (`Grown`).
-/

namespace PakOS

open Machine

namespace VirtMM

variable {P : Type*} {F : FramePool P} {s s' : VirtMM P}

/-- The number of pages that `length` bytes take. -/
def pageCount (length : ℕ) : ℕ := (length + 4095) / 4096

/-- Every one of the `k` pages from `page` on is translated to a frame of its own that was free in
the state `s` and is in use in the state `s'`. -/
def Backed (F : FramePool P) (page k : ℕ) (s s' : VirtMM P) : Prop :=
  ∃ frame : ℕ → ℕ, (∀ i < k, s'.translate ((page + i) % 1048576) = some (frame i) ∧
    F.inUse s.pool (frame i) = false ∧ F.inUse s'.pool (frame i) = true) ∧
    ∀ i < k, ∀ j < k, frame i = frame j → i = j

/-- The frame allocator supplies the `k` frames, of which its parameter sees 16 bits, and a frame
for every page table that the range lacks. -/
def Supplied (F : FramePool P) (page k : ℕ) (s : VirtMM P) : Prop :=
  ∃ q p', F.hwpalloc (k % 65536) s.pool = some (q, p') ∧ q ≠ 0 ∧
    F.Singles (s.missingTables page k) p'

/-- The entries of the directory and of the page tables are the same in both states. -/
def SameEntries (s s' : VirtMM P) : Prop :=
  ∀ d ≤ 1023, s'.pde d = s.pde d ∧
    ∀ i ≤ 1023, s'.phys (frameOf (s.pde d)) i = s.phys (frameOf (s.pde d)) i

/-- What `mmap(addr, length)` should do: back the range, or return another status than `STATUS_OK`
and leave the page tables alone; the latter whenever the frames cannot be supplied. -/
def MmapHonoured (F : FramePool P) (addr length : ℕ) (s : VirtMM P) : Prop :=
  ∃ st s', mmap F addr length s = some (st, s') ∧
    (st = .ok → Backed F (addr / 4096) (pageCount length) s s') ∧
    (¬Supplied F (addr / 4096) (pageCount length) s → st ≠ .ok) ∧
    (st ≠ .ok → SameEntries s s')

/-! ### Counting frames -/

/-- The directory entries that name no table. -/
def absent (s : VirtMM P) : Finset ℕ := (Finset.range 1024).filter fun d => ¬Present (s.pde d)

/-- From `s` to `s'` frames were marked in exchange for page tables that appeared. -/
def Grown (F : FramePool P) (s s' : VirtMM P) : Prop :=
  ∃ T : Finset ℕ, (∀ f, F.inUse s'.pool f = true → F.inUse s.pool f = true ∨ f ∈ T) ∧
    T.card + (absent s').card ≤ (absent s).card

theorem Grown.trans {s₁ s₂ s₃ : VirtMM P} (h : Grown F s₁ s₂) (h' : Grown F s₂ s₃) :
    Grown F s₁ s₃ := by
  obtain ⟨T, hT, hcard⟩ := h
  obtain ⟨T', hT', hcard'⟩ := h'
  refine ⟨T ∪ T', fun f hf => ?_, ?_⟩
  · rw [Finset.mem_union]
    rcases hT' f hf with hf | hf
    · exact (hT f hf).imp_right Or.inl
    · exact Or.inr (Or.inr hf)
  · have := Finset.card_union_le T T'
    omega

/-- Storing a present entry, whatever the frame, loses no table, and fills the entry of the
directory that it goes to. -/
theorem not_mem_absent {f i v d : ℕ} (hv : Present v) (hphys : s'.phys = setWord s.phys f i v)
    (htable : s'.pdeTable = s.pdeTable) (hd : d ∈ absent s') :
    d ∈ absent s ∧ ¬(s.pdeTable = f ∧ d = i) := by
  obtain ⟨hd, habs⟩ := Finset.mem_filter.mp hd
  rw [pde, hphys, htable, setWord_apply] at habs
  split at habs
  · exact absurd hv habs
  · next hne => exact ⟨Finset.mem_filter.mpr ⟨hd, habs⟩, hne⟩

/-- Storing a present entry marks no frame. -/
theorem grown_of_present {f i v : ℕ} (hv : Present v) (hphys : s'.phys = setWord s.phys f i v)
    (htable : s'.pdeTable = s.pdeTable) (hpool : s'.pool = s.pool) : Grown F s s' := by
  refine ⟨∅, fun f hf => Or.inl (hpool ▸ hf), ?_⟩
  rw [Finset.card_empty, Nat.zero_add]
  exact Finset.card_le_card fun d hd => (not_mem_absent hv hphys htable hd).1

/-- A call of a lawful `hwpalloc` marks at most as many frames as it is asked for. -/
theorem exists_marked (hF : F.Lawful) {n q : ℕ} {p p' : P} (hn : n < 65536)
    (hk : F.hwpalloc n p = some (q, p')) :
    ∃ T : Finset ℕ, (∀ f, F.inUse p' f = true → F.inUse p f = true ∨ f ∈ T) ∧ T.card ≤ n := by
  obtain ⟨q₁, p₁, hk₁, hlaw⟩ := hF n hn p
  obtain ⟨rfl, rfl⟩ : q = q₁ ∧ p' = p₁ := by simpa using hk.symm.trans hk₁
  rcases hlaw with ⟨-, rfl⟩ | ⟨a, -, htakes⟩
  · exact ⟨∅, fun _ h => Or.inl h, Nat.zero_le n⟩
  · refine ⟨Finset.Ico a (a + n), fun f hf => ?_, by rw [Nat.card_Ico]; omega⟩
    rw [htakes.marked] at hf
    split at hf
    · next hfa => exact Or.inr (Finset.mem_Ico.mpr hfa)
    · exact Or.inl hf

/-- A table that is created costs a frame at most. -/
theorem grown_createTable (hF : F.Lawful) {d pteTable : ℕ} (hd : d ≤ 1023)
    (hk : createTable F d pteTable s = some s') : Grown F s s' := by
  unfold createTable at hk
  split at hk
  · next habs =>
    obtain ⟨⟨q, p'⟩, hcall, heq⟩ := Option.map_eq_some_iff.mp hk
    have hphys : s'.phys = setWord s.phys s.pdeTable d (q ||| 0x3) := by rw [← heq]; rfl
    have htable : s'.pdeTable = s.pdeTable := by rw [← heq]; rfl
    have hpool : s'.pool = p' := by rw [← heq]; rfl
    obtain ⟨T, hT, hcard⟩ := exists_marked hF (by decide) hcall
    refine ⟨T, fun f hf => hT f (hpool ▸ hf), ?_⟩
    have hmem : d ∈ absent s :=
      Finset.mem_filter.mpr ⟨Finset.mem_range.mpr (by omega), and_one_eq_zero_iff.mp habs⟩
    have hsub : absent s' ⊆ (absent s).erase d := by
      intro e he
      obtain ⟨he, hne⟩ := not_mem_absent (present_or_three q) hphys htable he
      exact Finset.mem_erase.mpr ⟨fun hed => hne ⟨rfl, hed⟩, he⟩
    calc T.card + (absent s').card ≤ 1 + ((absent s).erase d).card :=
          Nat.add_le_add hcard (Finset.card_le_card hsub)
      _ = (absent s).card := by rw [Nat.add_comm, Finset.card_erase_add_one hmem]
  · obtain rfl := Option.some.inj hk
    exact ⟨∅, fun _ h => Or.inl h, by rw [Finset.card_empty, Nat.zero_add]⟩

/-- The loop that maps pages marks frames only in exchange for page tables, whatever state it runs
on. -/
theorem grown_mapPages (hF : F.Lawful) {hw lg n i : ℕ}
    (hk : mapPages F hw lg n i s = some s') : Grown F s s' := by
  induction n generalizing i s with
  | zero =>
    obtain rfl := Option.some.inj hk
    exact ⟨∅, fun _ h => Or.inl h, by rw [Finset.card_empty, Nat.zero_add]⟩
  | succ n ih =>
    obtain ⟨s₁, hmapfr, hk⟩ := Option.bind_eq_some_iff.mp hk
    obtain ⟨s₂, hcreate, hedit⟩ := Option.bind_eq_some_iff.mp hmapfr
    obtain ⟨s₃, hstore, rfl⟩ := Option.map_eq_some_iff.mp hedit
    obtain ⟨f, -, rfl⟩ := Option.map_eq_some_iff.mp hstore
    have hindex : add32 lg (mul32 4096 i) >>> 22 ≤ 1023 := by
      have := add32_lt lg (mul32 4096 i)
      rw [shiftRight_22]
      omega
    refine ((grown_createTable hF hindex hcreate).trans ?_).trans (ih hk)
    exact grown_of_present (present_or_three _) rfl rfl rfl

/-- A range of 65536 pages or more is never backed: the parameter of `hwpalloc` has 16 bits. -/
theorem pageCount_lt_of_backed (hF : F.Lawful) {addr length : ℕ} {st : Status}
    (hlen : length < 4294967296) (hk : mmap F addr length s = some (st, s'))
    (hbacked : Backed F (addr / 4096) (pageCount length) s s') : pageCount length < 65536 := by
  obtain ⟨⟨q, p'⟩, hcall, hk⟩ := Option.bind_eq_some_iff.mp hk
  obtain ⟨s₁, hloop, heq⟩ := Option.map_eq_some_iff.mp hk
  obtain ⟨-, rfl⟩ : Status.ok = st ∧ s₁ = s' := by simpa using heq
  obtain ⟨T, hT, hcard⟩ := exists_marked hF (Nat.mod_lt _ (by decide)) hcall
  obtain ⟨T', hT', hcard'⟩ := grown_mapPages hF hloop
  obtain ⟨frame, hframe, hinj⟩ := hbacked
  -- the frames of the range are among those that the call marked
  have hsub : (Finset.range (pageCount length)).image frame ⊆ T ∪ T' := by
    intro f hf
    obtain ⟨i, hi, rfl⟩ := Finset.mem_image.mp hf
    obtain ⟨-, hfree, huse⟩ := hframe i (Finset.mem_range.mp hi)
    rw [Finset.mem_union]
    rcases hT' _ huse with huse | hmem
    · rcases hT _ huse with huse | hmem
      · exact Bool.noConfusion (hfree.symm.trans huse)
      · exact Or.inl hmem
    · exact Or.inr hmem
  have hpages : ((Finset.range (pageCount length)).image frame).card = pageCount length := by
    rw [Finset.card_image_of_injOn, Finset.card_range]
    intro i hi j hj hij
    exact hinj i (Finset.mem_range.mp hi) j (Finset.mem_range.mp hj) hij
  have habsent : (absent { s with pool := p' }).card ≤ 1024 :=
    (Finset.card_filter_le _ _).trans (Finset.card_range 1024).le
  have hle := Finset.card_le_card hsub
  have hunion := Finset.card_union_le T T'
  rw [hpages] at hle
  unfold pageCount add32 at *
  omega

/-! ### When `mmap` does what it should -/

/-- `mmap` never reports a failure. -/
theorem mmap_status {addr length : ℕ} {st : Status} (hk : mmap F addr length s = some (st, s')) :
    st = .ok := by
  obtain ⟨⟨q, p'⟩, -, hk⟩ := Option.bind_eq_some_iff.mp hk
  obtain ⟨s₁, -, heq⟩ := Option.map_eq_some_iff.mp hk
  exact (Prod.mk.inj heq).1.symm

/-- `mmap` backs a range of fewer than 65536 pages whose frames are supplied and that does not map
its own tables. -/
theorem Sound.mmap_spec (hs : Sound F s) (hF : F.Lawful) {addr length : ℕ} (haddr : 4096 ∣ addr)
    (haddr' : addr < 4294967296) (hlen : length < 4294967296)
    (hk : pageCount length < 65536) (hsup : Supplied F (addr / 4096) (pageCount length) s)
    (hn : NoOwnWindow (addr / 4096) (pageCount length)) :
    ∃ s', mmap F addr length s = some (.ok, s') ∧ Sound F s' ∧
      Backed F (addr / 4096) (pageCount length) s s' := by
  obtain ⟨page, rfl⟩ := haddr
  have hpage : 4096 * page / 4096 = page := Nat.mul_div_cancel_left page (by decide)
  rw [hpage] at hsup hn ⊢
  obtain ⟨q, p', hcall, hq, hsingles⟩ := hsup
  have hpages : add32 length 4095 / 4096 = pageCount length := by
    unfold pageCount add32 at *
    omega
  rw [Nat.mod_eq_of_lt hk] at hcall
  obtain ⟨a, rfl, htakes⟩ := hF.takes hk hcall hq
  have hle := htakes.le
  have hmono : ∀ j, F.inUse s.pool j = true → F.inUse p' j = true := fun _ => htakes.inUse_mono
  have huse : ∀ i < pageCount length, F.inUse p' (a + i) = true := by
    intro i hi
    rw [htakes.marked, if_pos (by omega)]
  have hfree : ∀ i < pageCount length, F.inUse s.pool (a + i) = false :=
    fun i hi => htakes.free _ (Nat.le_add_right _ _) (by omega)
  -- the new frames are no page tables: those were in use before
  have htables : ∀ j, 0 ≤ j → j < 0 + pageCount length → 1047552 ≤ page + j →
      F.inUse p' ((a + j) % 1048576) = true ∧
        ∀ e ≤ 1023, Present (s.pde e) → frameOf (s.pde e) ≠ (a + j) % 1048576 := by
    intro j _ hj _
    rw [Nat.zero_add] at hj
    rw [Nat.mod_eq_of_lt (by omega)]
    refine ⟨huse j hj, fun e he hpres heq => ?_⟩
    have hused := hs.inUse e he hpres
    rw [heq, hfree j hj] at hused
    exact Bool.noConfusion hused
  obtain ⟨s', hloop, hs', hmap, -, hmono'⟩ :=
    (hs.of_inUse hmono).mapPages_spec hF (by omega)
      (show NoOwnWindow (page + 0) (pageCount length) from hn) htables hsingles
  refine ⟨s', ?_, hs', fun i => a + i, fun i hi => ?_, fun i _ j _ hij => Nat.add_left_cancel hij⟩
  · rw [mmap, hpages, Nat.mod_eq_of_lt hk, hcall, Option.bind_some]
    exact congrArg (Option.map fun s => (Status.ok, s)) hloop
  · have hlt := hn.lt (by omega) hi
    rw [Nat.mod_eq_of_lt (by omega), hmap i (Nat.zero_le i) (by omega),
      Nat.mod_eq_of_lt (by omega)]
    exact ⟨rfl, hfree i hi, hmono' _ (huse i hi)⟩

/-- **When `mmap` is all or nothing.**  It does what it should only if fewer than 65536 pages are
asked for and the frame allocator supplies the frames; and then it does, unless a page of the range
is the window onto a table of the range, whose entry it would replace. -/
theorem mmap_honoured (hF : F.Lawful) (hs : Sound F s) {addr length : ℕ} (haddr : 4096 ∣ addr)
    (haddr' : addr < 4294967296) (hlen : length < 4294967296) :
    (MmapHonoured F addr length s → pageCount length < 65536 ∧
      Supplied F (addr / 4096) (pageCount length) s) ∧
    (pageCount length < 65536 → Supplied F (addr / 4096) (pageCount length) s →
      NoOwnWindow (addr / 4096) (pageCount length) → MmapHonoured F addr length s) := by
  constructor
  · rintro ⟨st, s', hk, hok, hrefused, -⟩
    have hst := mmap_status hk
    refine ⟨pageCount_lt_of_backed hF hlen hk (hok hst), ?_⟩
    by_contra hsup
    exact hrefused hsup hst
  · intro hk hsup hn
    obtain ⟨s', hmmap, -, hbacked⟩ := hs.mmap_spec hF haddr haddr' hlen hk hsup hn
    exact ⟨.ok, s', hmmap, fun _ => hbacked, fun h => absurd hsup h, fun h => absurd rfl h⟩

/-- Two pages of the heap, from eight free frames. -/
theorem mmap_honoured_oneTable : MmapHonoured eightFrames 0xd0000000 8192 oneTable := by
  have hmissing : oneTable.missingTables 0xd0000 2 = 0 := by decide +kernel
  refine (mmap_honoured eightFrames_lawful oneTable_sound (by decide) (by decide) (by decide)).2
    (by decide) ⟨4096 * 256, _, rfl, by decide, ?_⟩ (by decide)
  exact hmissing ▸ trivial

/-- Nine pages, from eight free frames: `hwpalloc` returns `NULL`, and `mmap` maps the range to the
frames from the physical address 0 on and returns `STATUS_OK`. -/
theorem mmap_not_honoured : eightFrames.Lawful ∧ Sound eightFrames oneTable ∧
    (mmap eightFrames 0xd0000000 36864 oneTable).map (fun r => (r.1, r.2.translate 0xd0000)) =
      some (.ok, some 0) ∧
    ¬MmapHonoured eightFrames 0xd0000000 36864 oneTable := by
  refine ⟨eightFrames_lawful, oneTable_sound, by decide +kernel, ?_⟩
  rintro ⟨st, s', hk, -, hrefused, -⟩
  refine hrefused ?_ (mmap_status hk)
  rintro ⟨q, p', hcall, hq, -⟩
  have hnull : eightFrames.hwpalloc 9 oneTable.pool = some (0, oneTable.pool) := rfl
  have heq := hnull.symm.trans hcall
  exact hq (Prod.mk.inj (Option.some.inj heq)).1.symm

end VirtMM

end PakOS
