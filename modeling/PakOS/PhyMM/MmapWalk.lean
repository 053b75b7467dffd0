import PakOS.Machine.Record
import PakOS.Machine.Trace
import PakOS.PhyMM.Init

/-!
# The walk over the memory map

The `do` loop of `init_phymm` again, as a run that records the entries that it reads (`initWalk`).
What the boot loader left behind is a list of entries, each of which says how long it is: `Entry`
are those that lie in the buffer, up to the first one that can be used.

The walk does what it is meant to do (`WalkRight`) exactly if it comes to a usable entry, or to an
entry that says that the next one would begin behind the end of the buffer (`mmap_walk_iff`).  A map
whose entries fill the buffer exactly does not say so (`mmap_walk_tiled_iff`).
-/

namespace PakOS

open Machine

namespace PhyMM

/-! ### The walk -/

/-- `entry_size` of the entry at `p` -/
def entrySize (m : Mem) (p : ℕ) : ℕ := loadLE 4 m p

/-- `base_addr` -/
def entryBase (m : Mem) (p : ℕ) : ℕ := loadLE 8 m (p + 4)

/-- `length` -/
def entryLength (m : Mem) (p : ℕ) : ℕ := loadLE 8 m (p + 12)

/-- `type` -/
def entryType (m : Mem) (p : ℕ) : ℕ := loadLE 4 m (p + 20)

/-- `sizeof(struct bios_mmap_entry)` -/
def sizeofMmapEntry : ℕ := 24

/-- The entry describes memory from 1M on that can be used. -/
def Usable (m : Mem) (p : ℕ) : Prop := entryBase m p ≥ 0x100000 ∧ entryType m p = 1

instance (m : Mem) (p : ℕ) : Decidable (Usable m p) := inferInstanceAs (Decidable (_ ∧ _))

/-- The `do` loop of `init_phymm`, from the entry at `ptr`; each entry that is read is recorded. -/
def initWalk (kernelEnd mmapAddr mmapLen : ℕ) : ℕ → ℕ → PhyMM → Trace ℕ (Status × PhyMM)
  | 0, _, _ => ⟨[], none⟩
  | fuel + 1, ptr, s =>
    (Trace.emit [ptr] ()).bind fun _ =>
      if Usable s.mem ptr then
        Trace.emit [] (.ok, usePool kernelEnd (entryBase s.mem ptr) (entryLength s.mem ptr) s)
      else
        let ptr := add32 ptr (add32 (entrySize s.mem ptr) 4)
        if ptr ≤ add32 mmapAddr mmapLen then initWalk kernelEnd mmapAddr mmapLen fuel ptr s
        else Trace.emit [] (.failedInit, s)

/-- The variables of the frame allocator when `init_phymm` is called. -/
def beforeInit (kernelEnd : ℕ) (m : Mem) : PhyMM where
  mem := m
  hwaMmstart := 0
  hwaInuBitmap := 0
  hwasBp := kernelEnd
  hwasSp := 0
  hwasSsize := 0
  phymmEnd := 0

variable {kernelEnd addr len p : ℕ} {m : Mem} {s : PhyMM}

/-- The walk is the loop of `init_phymm`. -/
theorem initWalk_result (kernelEnd addr len fuel p : ℕ) (s : PhyMM) :
    (initWalk kernelEnd addr len fuel p s).result = initLoop kernelEnd addr len fuel p s := by
  induction fuel generalizing p with
  | zero => rfl
  | succ fuel ih =>
    rw [initWalk, initLoop]
    by_cases hp : Usable s.mem p
    · have hp' : loadLE 8 s.mem (p + 4) ≥ 0x100000 ∧ loadLE 4 s.mem (p + 20) = 1 := hp
      simp only [if_pos hp, if_pos hp']
      rfl
    · have hp' : ¬(loadLE 8 s.mem (p + 4) ≥ 0x100000 ∧ loadLE 4 s.mem (p + 20) = 1) := hp
      simp only [if_neg hp, if_neg hp', Trace.bind, Trace.emit]
      rw [← entrySize]
      split
      · exact ih _
      · rfl

/-! ### The entries of a map -/

/-- The entries of the map of `len` bytes at `addr` that lie wholly inside, up to the first one that
can be used. -/
inductive Entry (m : Mem) (addr len : ℕ) : ℕ → Prop
  /-- The first entry. -/
  | first (hlen : sizeofMmapEntry ≤ len) : Entry m addr len addr
  /-- The entry behind one that cannot be used. -/
  | next {p : ℕ} (h : Entry m addr len p) (hp : ¬Usable m p)
      (hinside : p + (entrySize m p + 4) + sizeofMmapEntry ≤ addr + len) :
      Entry m addr len (p + (entrySize m p + 4))

/-- What the walk is meant to do: it ends, reads entries inside the buffer only, and uses the first
one that can be used; if there is none it fails and changes nothing. -/
structure WalkRight (kernelEnd addr len : ℕ) (m : Mem) : Prop where
  /-- The walk ends. -/
  exists_run : ∃ fuel r, initPhymm kernelEnd addr len fuel m = some r
  /-- What it reads. -/
  reads : ∀ fuel, ∀ p ∈ (initWalk kernelEnd addr len fuel addr (beforeInit kernelEnd m)).events,
    Entry m addr len p
  /-- What it returns. -/
  result : ∀ fuel st s, initPhymm kernelEnd addr len fuel m = some (st, s) →
    (∃ p, Entry m addr len p ∧ Usable m p ∧ st = .ok ∧
      s = usePool kernelEnd (entryBase m p) (entryLength m p) (beforeInit kernelEnd m)) ∨
    (∀ p, Entry m addr len p → ¬Usable m p) ∧ st = .failedInit ∧ s = beforeInit kernelEnd m

/-- The walk comes to an end at the entry at `p`: it can be used, or the next entry would begin
behind the end of the buffer, in the address space. -/
def EndsAt (m : Mem) (addr len p : ℕ) : Prop :=
  Usable m p ∨ addr + len < p + (entrySize m p + 4) ∧ p + (entrySize m p + 4) < 4294967296

/-- Entries lie wholly inside the buffer. -/
theorem Entry.inside (h : Entry m addr len p) : addr ≤ p ∧ p + sizeofMmapEntry ≤ addr + len := by
  induction h with
  | first hlen => exact ⟨le_rfl, Nat.add_le_add_left hlen addr⟩
  | next _ _ hinside ih => exact ⟨ih.1.trans (Nat.le_add_right _ _), hinside⟩

/-- The pointer to the next entry, when it is an address. -/
theorem next_of_lt (hnext : p + (entrySize m p + 4) < 4294967296) :
    add32 p (add32 (entrySize m p) 4) = p + (entrySize m p + 4) := by
  rw [add32_of_lt (show entrySize m p + 4 < 4294967296 by omega), add32_of_lt hnext]

/-- The pointer to the next entry, when it is not: it wraps around, to no more than three
bytes on. -/
theorem next_of_le (hp : p < 4294967296) (hnext : 4294967296 ≤ p + (entrySize m p + 4)) :
    add32 p (add32 (entrySize m p) 4) ≤ p + 3 := by
  have hsize : entrySize m p < 4294967296 := loadLE_lt 4 m p
  unfold add32
  omega

/-! ### One turn -/

/-- A turn at an entry that can be used. -/
theorem completes_usable (hp : Usable s.mem p) :
    Completes (fun n => initWalk kernelEnd addr len n p s) [p]
      (.ok, usePool kernelEnd (entryBase s.mem p) (entryLength s.mem p) s) := by
  refine (Completes.emit [p] _).succ rfl fun n => ?_
  rw [initWalk, if_pos hp]
  rfl

/-- A turn at an entry behind which the buffer ends. -/
theorem completes_last (hp : ¬Usable s.mem p)
    (hnext : add32 addr len < add32 p (add32 (entrySize s.mem p) 4)) :
    Completes (fun n => initWalk kernelEnd addr len n p s) [p] (.failedInit, s) := by
  refine (Completes.emit [p] _).succ rfl fun n => ?_
  rw [initWalk, if_neg hp]
  simp only [if_neg (Nat.not_le.mpr hnext)]
  rfl

/-- A turn at any other entry. -/
theorem initWalk_next (hp : ¬Usable s.mem p)
    (hnext : add32 p (add32 (entrySize s.mem p) 4) ≤ add32 addr len) (fuel : ℕ) :
    initWalk kernelEnd addr len (fuel + 1) p s = (Trace.emit [p] ()).bind fun _ =>
      initWalk kernelEnd addr len fuel (add32 p (add32 (entrySize s.mem p) 4)) s := by
  rw [initWalk, if_neg hp]
  simp only [if_pos hnext]

/-- The walk goes on from such an entry. -/
theorem completes_next {es : List ℕ} {r : Status × PhyMM} (hp : ¬Usable s.mem p)
    (hnext : add32 p (add32 (entrySize s.mem p) 4) ≤ add32 addr len)
    (h : Completes (fun n => initWalk kernelEnd addr len n (add32 p (add32 (entrySize s.mem p) 4)) s)
      es r) :
    Completes (fun n => initWalk kernelEnd addr len n p s) (p :: es) r := by
  have hrest : Completes (fun n => (Trace.emit [p] ()).bind fun _ =>
      initWalk kernelEnd addr len n (add32 p (add32 (entrySize s.mem p) 4)) s) ([p] ++ es) r :=
    (Completes.emit [p] ()).bind h
  exact hrest.succ rfl fun n => initWalk_next hp hnext n

/-! ### The whole walk -/

/-- A walk that completes from an entry of the map completes from the first one. -/
theorem Entry.completes (haddr : addr + len < 4294967296) (h : Entry s.mem addr len p) {es : List ℕ}
    {r : Status × PhyMM} (hes : ∀ q ∈ es, Entry s.mem addr len q)
    (hp : Completes (fun n => initWalk kernelEnd addr len n p s) es r) :
    ∃ es', Completes (fun n => initWalk kernelEnd addr len n addr s) es' r ∧
      ∀ q ∈ es', Entry s.mem addr len q := by
  induction h generalizing es with
  | first _ => exact ⟨es, hp, hes⟩
  | @next p hentry hunusable hinside ih =>
    unfold sizeofMmapEntry at hinside
    have hnext := @next_of_lt p s.mem (by omega)
    have hle : add32 p (add32 (entrySize s.mem p) 4) ≤ add32 addr len := by
      rw [hnext, add32_of_lt haddr]
      omega
    rw [← hnext] at hp
    refine ih (fun q hq => ?_) (completes_next hunusable hle hp)
    rcases List.mem_cons.mp hq with rfl | hq
    · exact hentry
    · exact hes q hq

/-- A walk that comes to a usable entry. -/
theorem Entry.completes_usable (haddr : addr + len < 4294967296) (h : Entry s.mem addr len p)
    (hp : Usable s.mem p) :
    ∃ es, Completes (fun n => initWalk kernelEnd addr len n addr s) es
      (.ok, usePool kernelEnd (entryBase s.mem p) (entryLength s.mem p) s) ∧
        ∀ q ∈ es, Entry s.mem addr len q := by
  refine h.completes haddr (fun q hq => ?_) (PhyMM.completes_usable hp)
  rw [List.mem_singleton.mp hq]
  exact h

/-- A walk that comes to an entry that says that it is the last one. -/
theorem Entry.completes_last (haddr : addr + len < 4294967296) (h : Entry s.mem addr len p)
    (hp : ¬Usable s.mem p) (hbehind : addr + len < p + (entrySize s.mem p + 4))
    (hlt : p + (entrySize s.mem p + 4) < 4294967296) :
    ∃ es, Completes (fun n => initWalk kernelEnd addr len n addr s) es (.failedInit, s) ∧
      ∀ q ∈ es, Entry s.mem addr len q := by
  refine h.completes haddr (fun q hq => ?_) (PhyMM.completes_last hp ?_)
  · rw [List.mem_singleton.mp hq]
    exact h
  · rw [next_of_lt hlt, add32_of_lt haddr]
    exact hbehind

/-- A walk that completes with the right result is right. -/
theorem walkRight_of_completes {es : List ℕ} {st : Status}
    (h : Completes (fun n => initWalk kernelEnd addr len n addr (beforeInit kernelEnd m)) es (st, s))
    (hes : ∀ q ∈ es, Entry m addr len q)
    (hres : (∃ p, Entry m addr len p ∧ Usable m p ∧ st = .ok ∧
      s = usePool kernelEnd (entryBase m p) (entryLength m p) (beforeInit kernelEnd m)) ∨
      (∀ p, Entry m addr len p → ¬Usable m p) ∧ st = .failedInit ∧ s = beforeInit kernelEnd m) :
    WalkRight kernelEnd addr len m := by
  have hyields := h.yields
  simp only [initWalk_result] at hyields
  refine ⟨?_, fun fuel q hq => hes q ((h.isPrefix fuel).subset hq), fun fuel st' s' hrun => ?_⟩
  · obtain ⟨fuel, hfuel⟩ := hyields.exists_run
    exact ⟨fuel, _, hfuel⟩
  · obtain ⟨rfl, rfl⟩ := Prod.mk.inj (hyields.unique fuel _ hrun)
    exact hres

/-- The entry that a walk begins at is read. -/
theorem mem_events_initWalk (kernelEnd addr len fuel p : ℕ) (s : PhyMM) :
    p ∈ (initWalk kernelEnd addr len (fuel + 1) p s).events := by
  rw [initWalk, Trace.bind_of_some (show Trace.emit [p] () = ⟨[p], some ()⟩ from rfl)]
  exact List.mem_append_left _ (List.mem_singleton_self p)

/-- A map with no entry that the walk could end at is read for ever, or beyond its end. -/
theorem initWalk_result_none (haddr : addr + len < 4294967296)
    (hends : ∀ p, Entry s.mem addr len p → ¬EndsAt s.mem addr len p) {fuel : ℕ}
    (h : Entry s.mem addr len p)
    (hreads : ∀ q ∈ (initWalk kernelEnd addr len fuel p s).events, Entry s.mem addr len q) :
    (initWalk kernelEnd addr len fuel p s).result = none := by
  induction fuel generalizing p with
  | zero => rfl
  | succ fuel ih =>
    obtain ⟨hunusable, hbehind⟩ := not_or.mp (hends p h)
    have hinside := h.inside.2
    unfold sizeofMmapEntry at hinside
    have hle : add32 p (add32 (entrySize s.mem p) 4) ≤ add32 addr len := by
      rw [add32_of_lt haddr]
      by_cases hlt : p + (entrySize s.mem p + 4) < 4294967296
      · rw [next_of_lt hlt]
        omega
      · have hwrap := @next_of_le p s.mem (by omega) (Nat.le_of_not_lt hlt)
        omega
    rw [initWalk_next hunusable hle,
      Trace.bind_of_some (show Trace.emit [p] () = ⟨[p], some ()⟩ from rfl)] at hreads ⊢
    dsimp only at hreads ⊢
    generalize add32 p (add32 (entrySize s.mem p) 4) = q at hreads ⊢
    cases fuel with
    | zero => rfl
    | succ fuel =>
      have hrest : ∀ q' ∈ (initWalk kernelEnd addr len (fuel + 1) q s).events,
          Entry s.mem addr len q' := fun q' hq' => hreads q' (List.mem_append_right [p] hq')
      exact ih (hrest q (mem_events_initWalk kernelEnd addr len fuel q s)) hrest

/-- An entry that leads back to itself is read for ever. -/
theorem initWalk_result_self (hp : ¬Usable s.mem p)
    (hself : add32 p (add32 (entrySize s.mem p) 4) = p) (hle : p ≤ add32 addr len) (fuel : ℕ) :
    (initWalk kernelEnd addr len fuel p s).result = none := by
  induction fuel with
  | zero => rfl
  | succ fuel ih =>
    rw [initWalk_next hp (hself.trans_le hle), hself]
    exact ih

/-- A walk that is right has an entry that it ends at. -/
theorem WalkRight.exists_endsAt (haddr : addr + len < 4294967296)
    (h : WalkRight kernelEnd addr len m) : ∃ p, Entry m addr len p ∧ EndsAt m addr len p := by
  by_contra hno
  obtain ⟨fuel, r, hrun⟩ := h.exists_run
  have hfirst : Entry m addr len addr := by
    cases fuel with
    | zero => exact absurd hrun (by simp [initPhymm, initLoop])
    | succ fuel => exact h.reads (fuel + 1) addr (mem_events_initWalk _ _ _ _ _ _)
  have hnone := @initWalk_result_none kernelEnd addr len addr (beforeInit kernelEnd m) haddr
    (fun p hp hends => hno ⟨p, hp, hends⟩) fuel hfirst (h.reads fuel)
  rw [initWalk_result] at hnone
  exact absurd (hnone.symm.trans hrun) (Option.some_ne_none r).symm

/-- A walk that has an entry that it ends at is right. -/
theorem Entry.walkRight (kernelEnd : ℕ) (haddr : addr + len < 4294967296) (hp : Entry m addr len p)
    (hends : EndsAt m addr len p) : WalkRight kernelEnd addr len m := by
  by_cases husable : Usable m p
  · obtain ⟨es, hcomp, hes⟩ :=
      @Entry.completes_usable kernelEnd addr len p (beforeInit kernelEnd m) haddr hp husable
    exact walkRight_of_completes hcomp hes (Or.inl ⟨p, hp, husable, rfl, rfl⟩)
  · obtain ⟨hbehind, hlt⟩ := hends.resolve_left husable
    obtain ⟨es, hcomp, hes⟩ := @Entry.completes_last kernelEnd addr len p (beforeInit kernelEnd m)
      haddr hp husable hbehind hlt
    refine walkRight_of_completes hcomp hes (Or.inr ⟨fun q hq hqusable => ?_, rfl, rfl⟩)
    -- the walk would have ended there
    obtain ⟨es', hcomp', -⟩ :=
      @Entry.completes_usable kernelEnd addr len q (beforeInit kernelEnd m) haddr hq hqusable
    obtain ⟨fuel, hfuel⟩ := hcomp'.yields.exists_run
    have hsame := congrArg Prod.fst (hcomp.yields.unique fuel _ hfuel)
    exact absurd hsame (show Status.ok ≠ Status.failedInit by decide)

/-- A map whose entries fill the buffer exactly, as far as they are looked at. -/
structure Tiled (m : Mem) (addr len : ℕ) : Prop where
  /-- There is an entry. -/
  first : sizeofMmapEntry ≤ len
  /-- Behind each there is another one, or the end of the buffer. -/
  next : ∀ p, Entry m addr len p → p + (entrySize m p + 4) = addr + len ∨
    p + (entrySize m p + 4) + sizeofMmapEntry ≤ addr + len

/-- On a map whose entries fill the buffer the walk is right exactly if there is an entry that can
be used. -/
theorem mmap_walk_tiled_iff (kernelEnd : ℕ) (haddr : addr + len < 4294967296)
    (ht : Tiled m addr len) :
    WalkRight kernelEnd addr len m ↔ ∃ p, Entry m addr len p ∧ Usable m p := by
  constructor
  · intro h
    obtain ⟨p, hp, husable | ⟨hbehind, -⟩⟩ := h.exists_endsAt haddr
    · exact ⟨p, hp, husable⟩
    · rcases ht.next p hp with hnext | hnext <;> omega
  · rintro ⟨p, hp, husable⟩
    exact hp.walkRight kernelEnd haddr (Or.inl husable)

/-- **The walk over the memory map.**  For every content of a buffer in the address space, the walk
is right exactly if it comes to an entry that can be used, or to one behind which the next would
begin behind the end of the buffer. -/
theorem mmap_walk_iff (kernelEnd : ℕ) (m : Mem) (haddr : addr + len < 4294967296) :
    WalkRight kernelEnd addr len m ↔ ∃ p, Entry m addr len p ∧ EndsAt m addr len p :=
  ⟨fun h => h.exists_endsAt haddr, fun ⟨_, hp, hends⟩ => hp.walkRight kernelEnd haddr hends⟩

/-- The memory map of `entries`, each with its size, base, length and type, at 64K. -/
def mmapOf (entries : List (ℕ × ℕ × ℕ × ℕ)) : Mem :=
  storeFields (fun _ => 0) 0x10000 <| entries.flatMap fun (size, base, length, type) =>
    [(4, size), (8, base), (8, length), (4, type)]

/-- Conventional memory, and memory from 1M on. -/
def pcMmap : Mem := mmapOf [(20, 0, 0x9fc00, 1), (20, 0x100000, 0x7ee0000, 1)]

theorem mmap_walk_pc : 0x10000 + 48 < 4294967296 ∧ WalkRight 0xc0105000 0x10000 48 pcMmap := by
  have hfirst : ¬Usable pcMmap 0x10000 := by decide +kernel
  have hsize : entrySize pcMmap 0x10000 = 20 := by decide +kernel
  have hsecond : Usable pcMmap (0x10000 + (20 + 4)) := by decide +kernel
  refine ⟨by decide, (mmap_walk_iff _ _ (by decide)).mpr ⟨0x10000 + (20 + 4), ?_, Or.inl hsecond⟩⟩
  have hentry := Entry.next (.first (show sizeofMmapEntry ≤ 48 by decide)) hfirst
    (by rw [hsize]; decide)
  rwa [hsize] at hentry

/-- A map with an entry that cannot be used is read beyond its end; one with an entry of size
`0xfffffffc` is read for ever. -/
theorem mmap_walk_wrong :
    (0x10018 ∈ (initWalk 0xc0105000 0x10000 24 2 0x10000
      (beforeInit 0xc0105000 (mmapOf [(20, 0, 0x9fc00, 1)]))).events ∧
      ¬WalkRight 0xc0105000 0x10000 24 (mmapOf [(20, 0, 0x9fc00, 1)])) ∧
    (∀ fuel, initPhymm 0xc0105000 0x10000 24 fuel (mmapOf [(0xfffffffc, 0, 0x9fc00, 1)]) = none) ∧
      ¬WalkRight 0xc0105000 0x10000 24 (mmapOf [(0xfffffffc, 0, 0x9fc00, 1)]) := by
  have hread : 0x10018 ∈ (initWalk 0xc0105000 0x10000 24 2 0x10000
      (beforeInit 0xc0105000 (mmapOf [(20, 0, 0x9fc00, 1)]))).events := by
    decide +kernel
  have hloop : ∀ fuel,
      initPhymm 0xc0105000 0x10000 24 fuel (mmapOf [(0xfffffffc, 0, 0x9fc00, 1)]) = none := by
    intro fuel
    refine (initWalk_result _ _ _ _ _ _).symm.trans (initWalk_result_self ?_ ?_ (by decide) fuel)
    · change ¬Usable (mmapOf [(0xfffffffc, 0, 0x9fc00, 1)]) 0x10000
      decide +kernel
    · change add32 0x10000 (add32 (entrySize (mmapOf [(0xfffffffc, 0, 0x9fc00, 1)]) 0x10000) 4) = _
      decide +kernel
  refine ⟨⟨hread, fun h => ?_⟩, hloop, fun h => ?_⟩
  · have hinside := (h.reads 2 0x10018 hread).inside.2
    unfold sizeofMmapEntry at hinside
    omega
  · obtain ⟨fuel, r, hrun⟩ := h.exists_run
    exact absurd ((hloop fuel).symm.trans hrun) (Option.some_ne_none r).symm

/-! ### The entry that is chosen -/

/-- The entry at `p` is the one that `init_phymm` uses: it was read, and can be used. -/
def Chosen (kernelEnd addr len fuel : ℕ) (m : Mem) (p : ℕ) : Prop :=
  p ∈ (initWalk kernelEnd addr len fuel addr (beforeInit kernelEnd m)).events ∧ Usable m p

instance (kernelEnd addr len fuel : ℕ) (m : Mem) (p : ℕ) :
    Decidable (Chosen kernelEnd addr len fuel m p) := inferInstanceAs (Decidable (_ ∧ _))

/-- What a turn of the walk can be. -/
theorem initWalk_cases (kernelEnd addr len fuel p : ℕ) (s : PhyMM) :
    (Usable s.mem p ∧ initWalk kernelEnd addr len (fuel + 1) p s =
      ⟨[p], some (.ok, usePool kernelEnd (entryBase s.mem p) (entryLength s.mem p) s)⟩) ∨
    (¬Usable s.mem p ∧ initWalk kernelEnd addr len (fuel + 1) p s =
      ⟨[p], some (.failedInit, s)⟩) ∨
    ¬Usable s.mem p ∧ ∃ q, initWalk kernelEnd addr len (fuel + 1) p s =
      ⟨p :: (initWalk kernelEnd addr len fuel q s).events,
        (initWalk kernelEnd addr len fuel q s).result⟩ := by
  by_cases hp : Usable s.mem p
  · refine Or.inl ⟨hp, ?_⟩
    rw [initWalk, if_pos hp]
    rfl
  · refine Or.inr ?_
    by_cases hnext : add32 p (add32 (entrySize s.mem p) 4) ≤ add32 addr len
    · exact Or.inr ⟨hp, _, initWalk_next hp hnext fuel⟩
    · refine Or.inl ⟨hp, ?_⟩
      rw [initWalk, if_neg hp]
      simp only [if_neg hnext]
      rfl

/-- A usable entry that is read is the one that is used. -/
theorem initWalk_of_usable {fuel q : ℕ} (hp : Usable s.mem p)
    (hread : p ∈ (initWalk kernelEnd addr len fuel q s).events) :
    (initWalk kernelEnd addr len fuel q s).result =
      some (.ok, usePool kernelEnd (entryBase s.mem p) (entryLength s.mem p) s) := by
  induction fuel generalizing q with
  | zero => exact absurd hread List.not_mem_nil
  | succ fuel ih =>
    obtain ⟨_, hturn⟩ | ⟨hq, hturn⟩ | ⟨hq, q', hturn⟩ :=
      initWalk_cases kernelEnd addr len fuel q s
    · rw [hturn] at hread ⊢
      rw [List.mem_singleton.mp hread]
    · rw [hturn] at hread
      exact absurd (List.mem_singleton.mp hread ▸ hp) hq
    · rw [hturn] at hread ⊢
      rcases List.mem_cons.mp hread with rfl | hread
      · exact absurd hp hq
      · exact ih hread

/-- A successful walk has read a usable entry. -/
theorem exists_usable_of_ok {fuel q : ℕ} {s' : PhyMM}
    (h : (initWalk kernelEnd addr len fuel q s).result = some (.ok, s')) :
    ∃ p ∈ (initWalk kernelEnd addr len fuel q s).events, Usable s.mem p := by
  induction fuel generalizing q with
  | zero => exact absurd h (Option.some_ne_none _).symm
  | succ fuel ih =>
    obtain ⟨hq, hturn⟩ | ⟨_, hturn⟩ | ⟨_, q', hturn⟩ :=
      initWalk_cases kernelEnd addr len fuel q s
    · rw [hturn]
      exact ⟨q, List.mem_singleton_self q, hq⟩
    · rw [hturn] at h
      exact absurd (congrArg Prod.fst (Option.some.inj h)) (show Status.failedInit ≠ .ok by decide)
    · rw [hturn] at h ⊢
      obtain ⟨p, hp, husable⟩ := ih h
      exact ⟨p, List.mem_cons_of_mem q hp, husable⟩

/-- What `init_phymm` makes of the entry that it chooses. -/
theorem Chosen.initPhymm_eq {fuel : ℕ} (h : Chosen kernelEnd addr len fuel m p) :
    initPhymm kernelEnd addr len fuel m = some (.ok,
      usePool kernelEnd (entryBase m p) (entryLength m p) (beforeInit kernelEnd m)) := by
  refine (initWalk_result kernelEnd addr len fuel addr (beforeInit kernelEnd m)).symm.trans ?_
  exact initWalk_of_usable h.2 h.1

/-- A successful `init_phymm` has chosen an entry. -/
theorem exists_chosen {fuel : ℕ} (h : initPhymm kernelEnd addr len fuel m = some (.ok, s)) :
    ∃ p, Chosen kernelEnd addr len fuel m p :=
  exists_usable_of_ok
    ((initWalk_result kernelEnd addr len fuel addr (beforeInit kernelEnd m)).trans h)

end PhyMM

end PakOS
