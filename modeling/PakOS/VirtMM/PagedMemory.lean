import Mathlib.Order.CompletePartialOrder
import PakOS.Machine.FlatMemory
import PakOS.VirtMM.Driver
import PakOS.VirtMM.Extends

/-!
# Paged memory is flat memory

The heap is modelled as a flat memory, and paging apart from it; this module says why that is
right.  `Owns F s A` is the invariant: the pages of `A` are translated to frames of their own, which
are in use and no page tables.  Loads and stores in `A`, and calls of `mmap` and `maphwdev` for
other pages, in any order, keep it and never fault; and a load is answered with the last word that
was stored at its address, whatever was mapped in between (`paged_flat`).
-/

namespace PakOS

open Machine

namespace VirtMM

variable {P : Type*} {F : FramePool P} {s s' : VirtMM P}

/-- The `n` pages from `page` on. -/
def pageRange (page n : ℕ) : Set ℕ := {p | page ≤ p ∧ p < page + n}

/-- The pages of `A` have frames of their own, which are in use and no page tables. -/
structure Owns (F : FramePool P) (s : VirtMM P) (A : Set ℕ) : Prop where
  /-- Paging is sound. -/
  sound : Sound F s
  /-- The window belongs to the page tables. -/
  below : ∀ p ∈ A, p < 1047552
  /-- Each page has a frame. -/
  frame : ∀ p ∈ A, ∃ f, s.translate p = some f ∧ F.inUse s.pool f = true ∧ ¬IsTable s f
  /-- No two pages have the same. -/
  apart : ∀ p ∈ A, ∀ q ∈ A, s.translate p = s.translate q → p = q

/-- What the kernel does with memory, as far as paging is concerned. -/
inductive MemOp
  | load (a : ℕ)
  | store (a v : ℕ)
  | mmap (addr length : ℕ)
  | maphwdev (hwaddr pages : ℕ)

namespace MemOp

/-- Do it: what a load reads, and the state behind. -/
def run (F : FramePool P) : MemOp → VirtMM P → Option (Option ℕ × VirtMM P)
  | load a, s => (s.load a).map fun v => (some v, s)
  | store a v, s => (s.store a v).map fun s => (none, s)
  | mmap addr length, s => (VirtMM.mmap F addr length s).map fun r => (none, r.2)
  | maphwdev hwaddr pages, s => (VirtMM.maphwdev F hwaddr pages s).map fun r => (none, r.2)

/-- Where the next device is mapped. -/
def lspace (s : VirtMM P) : ℕ := if s.driverSpaceHead = 0 then driverSpaceStart else s.driverSpaceHead

/-- What is asked of it when the pages of `A` are owned: words are accessed in these pages only, and
other pages, below the window, are mapped, with frames that the allocator has. -/
def Allowed (F : FramePool P) (A : Set ℕ) (s : VirtMM P) : MemOp → Prop
  | load a => 4 ∣ a ∧ a / 4096 ∈ A
  | store a _ => 4 ∣ a ∧ a / 4096 ∈ A
  | mmap addr length =>
    4096 ∣ addr ∧ length < 4294967296 ∧ pageCount length < 65536 ∧
      addr / 4096 + pageCount length ≤ 1047552 ∧
      Supplied F (addr / 4096) (pageCount length) s ∧
      Disjoint A (pageRange (addr / 4096) (pageCount length))
  | maphwdev hwaddr pages =>
    4096 ∣ hwaddr ∧ lspace s / 4096 + pages ≤ 1047552 ∧
      F.Singles (s.missingTables (lspace s / 4096) pages) s.pool ∧
      Disjoint A (pageRange (lspace s / 4096) pages)

/-- The pages that are owned behind it: `mmap` brings new ones. -/
def owned (A : Set ℕ) : MemOp → Set ℕ
  | mmap addr length => A ∪ pageRange (addr / 4096) (pageCount length)
  | _ => A

/-- The word that it concerns. -/
def cell : MemOp → Option ℕ
  | load a => some a
  | store a _ => some a
  | _ => none

/-- What it writes there. -/
def wrote : MemOp → Option ℕ
  | store _ v => some v
  | _ => none

end MemOp

/-- One after the other: what was read, and the state behind. -/
def runOps (F : FramePool P) : List MemOp → VirtMM P → Option (List (Option ℕ) × VirtMM P)
  | [], s => some ([], s)
  | op :: ops, s =>
    (op.run F s).bind fun r => (runOps F ops r.2).map fun rs => (r.1 :: rs.1, rs.2)

/-- Everything is allowed when its turn comes. -/
def AllAllowed (F : FramePool P) : List MemOp → Set ℕ → VirtMM P → Prop
  | [], _, _ => True
  | op :: ops, A, s =>
    op.Allowed F A s ∧ ∀ r s', op.run F s = some (r, s') → AllAllowed F ops (op.owned A) s'

/-- The pages that are owned in the end. -/
def ownedAfter (ops : List MemOp) (A : Set ℕ) : Set ℕ := ops.foldl MemOp.owned A

/-! ### Loads and stores -/

/-- The state after a word of a frame was written. -/
def writeFrame (s : VirtMM P) (f i v : ℕ) : VirtMM P := { s with phys := setWord s.phys f i v }

/-- A frame that is no table is not the directory either. -/
theorem Sound.pdeTable_ne (hs : Sound F s) {f : ℕ} (hf : ¬IsTable s f) : s.pdeTable ≠ f :=
  fun heq => hf (heq ▸ hs.isTable_pdeTable)

/-- The tables stay when a word of another frame is written. -/
theorem Sound.pde_writeFrame (hs : Sound F s) {f i v d : ℕ} (hf : ¬IsTable s f) :
    (s.writeFrame f i v).pde d = s.pde d := by
  have hne := hs.pdeTable_ne hf
  exact (setWord_apply (m := s.phys)).trans (if_neg fun h => hne h.1)

/-- And so do the translations. -/
theorem Sound.translate_writeFrame (hs : Sound F s) {f i v q : ℕ} (hf : ¬IsTable s f)
    (hq : q < 1048576) : (s.writeFrame f i v).translate q = s.translate q :=
  pageWalk_setWord (hs.pdeTable_ne hf) (fun d hd hpres heq => hf ⟨d, hd, hpres, heq⟩) hq

/-- Writing to a frame that is no table keeps what is owned. -/
theorem Owns.writeFrame {A : Set ℕ} (h : Owns F s A) {f : ℕ} (hf : ¬IsTable s f) (i v : ℕ) :
    Owns F (s.writeFrame f i v) A := by
  have hpde : ∀ d, (s.writeFrame f i v).pde d = s.pde d := fun d => h.sound.pde_writeFrame hf
  have htrans : ∀ p ∈ A, (s.writeFrame f i v).translate p = s.translate p := fun p hp =>
    h.sound.translate_writeFrame hf (by have := h.below p hp; omega)
  have htable : ∀ g, IsTable (s.writeFrame f i v) g ↔ IsTable s g := fun g => by
    simp only [IsTable, hpde]
  refine ⟨⟨⟨?_, ?_, fun a ha b hb => ?_⟩, fun d hd => ?_⟩, h.below, fun p hp => ?_,
    fun p hp q hq => ?_⟩
  · change Present ((s.writeFrame f i v).pde 1023)
    rw [hpde]
    exact h.sound.selfMapped.present
  · exact (congrArg frameOf (hpde 1023)).trans h.sound.selfMapped.self
  · change Present ((s.writeFrame f i v).pde a) → Present ((s.writeFrame f i v).pde b) →
      frameOf ((s.writeFrame f i v).pde a) = frameOf ((s.writeFrame f i v).pde b) → a = b
    rw [hpde, hpde]
    exact h.sound.selfMapped.distinct a ha b hb
  · rw [hpde d]
    exact h.sound.inUse d hd
  · obtain ⟨g, hg, huse, hgt⟩ := h.frame p hp
    exact ⟨g, (htrans p hp).trans hg, huse, fun hgt' => hgt ((htable g).mp hgt')⟩
  · rw [htrans p hp, htrans q hq]
    exact h.apart p hp q hq

/-- A word of a page that is owned. -/
theorem Owns.load_eq {A : Set ℕ} (h : Owns F s A) {a : ℕ} (ha : a / 4096 ∈ A) :
    ∃ f, s.translate (a / 4096) = some f ∧ s.load a = some (s.phys f (a % 4096 / 4)) ∧
      F.inUse s.pool f = true ∧ ¬IsTable s f := by
  obtain ⟨f, hf, huse, hnot⟩ := h.frame _ ha
  exact ⟨f, hf, by rw [load, hf, Option.map_some], huse, hnot⟩

/-- A store to a page that is owned: it changes its word and no other. -/
theorem Owns.store_spec {A : Set ℕ} (h : Owns F s A) {a : ℕ} (v : ℕ) (ha : a / 4096 ∈ A) :
    ∃ s', s.store a v = some s' ∧ Owns F s' A ∧
      ∀ b w, 4 ∣ a → 4 ∣ b → b / 4096 ∈ A → s.load b = some w →
        s'.load b = some (if a = b then v else w) := by
  obtain ⟨f, hf, -, -, hnot⟩ := h.load_eq ha
  refine ⟨s.writeFrame f (a % 4096 / 4) v, by rw [store, hf]; rfl, h.writeFrame hnot _ v,
    fun b w hal hbl hb hw => ?_⟩
  obtain ⟨g, hg, hload, -, -⟩ := h.load_eq hb
  obtain rfl : s.phys g (b % 4096 / 4) = w := Option.some.inj (hload.symm.trans hw)
  have hbelow := h.below _ hb
  rw [load, h.sound.translate_writeFrame hnot (by omega), hg, Option.map_some]
  refine congrArg some (setWord_apply.trans (if_congr ?_ rfl rfl))
  constructor
  · rintro ⟨rfl, hindex⟩
    have hpage := h.apart _ ha _ hb (hf.trans hg.symm)
    omega
  · rintro rfl
    exact ⟨Option.some.inj (hg.symm.trans hf), rfl⟩

/-! ### Calls that map pages -/

/-- A translation that is there needs a table. -/
theorem present_of_translate {p f : ℕ} (h : s.translate p = some f) : Present (s.pde (p / 1024)) := by
  by_contra habs
  rw [translate, pageWalk_of_not_present habs] at h
  exact absurd h (Option.some_ne_none f).symm

/-- When the state is extended, the pages that are owned keep their frames and their contents. -/
theorem Owns.of_extends {A : Set ℕ} (h : Owns F s A) (hs' : Sound F s') (hext : Extends F s s')
    (hkept : ∀ p ∈ A, s'.translate p = s.translate p) :
    Owns F s' A ∧ ∀ a, a / 4096 ∈ A → s'.load a = s.load a := by
  refine ⟨⟨hs', h.below, fun p hp => ?_, fun p hp q hq => ?_⟩, fun a ha => ?_⟩
  · obtain ⟨f, hf, huse, hnot⟩ := h.frame p hp
    exact ⟨f, (hkept p hp).trans hf, hext.inUse f huse, hext.not_isTable huse hnot⟩
  · rw [hkept p hp, hkept q hq]
    exact h.apart p hp q hq
  · obtain ⟨f, hf, hload, huse, hnot⟩ := h.load_eq ha
    rw [hload, load, hkept _ ha, hf, Option.map_some, hext.phys f huse hnot]

/-- A page that is owned is spared by the mapping of pages that are not. -/
theorem Owns.spares {A : Set ℕ} (h : Owns F s A) {page n p : ℕ} (hp : p ∈ A)
    (hle : page + n ≤ 1047552) (hdisj : Disjoint A (pageRange page n)) :
    ∀ i < n, Spares s (page + i) p := by
  intro i hi
  obtain ⟨f, hf, -⟩ := h.frame p hp
  refine spares_of_present (present_of_translate hf) ?_ (by omega) (h.below p hp)
  rintro rfl
  exact Set.disjoint_left.mp hdisj hp ⟨Nat.le_add_right _ _, by omega⟩

/-- `mmap` of pages that are not owned adds them. -/
theorem Owns.mmap_spec {A : Set ℕ} (h : Owns F s A) (hF : F.Lawful) {page length : ℕ}
    (hlen : length < 4294967296) (hk : pageCount length < 65536)
    (hle : page + pageCount length ≤ 1047552) (hsup : Supplied F page (pageCount length) s)
    (hdisj : Disjoint A (pageRange page (pageCount length))) :
    ∃ s' a, mmap F (4096 * page) length s = some (.ok, s') ∧
      MapsFresh F page (pageCount length) a s s' ∧
      Owns F s' (A ∪ pageRange page (pageCount length)) ∧
      ∀ b, b / 4096 ∈ A → s'.load b = s.load b := by
  obtain ⟨s', a, hmmap, hmaps⟩ := h.sound.mmap_mapsFresh hF hlen hk hle hsup
  have hkept : ∀ p ∈ A, s'.translate p = s.translate p := fun p hp =>
    hmaps.kept p (by have := h.below p hp; omega) (h.spares hp hle hdisj)
  obtain ⟨hold, hload⟩ := h.of_extends hmaps.sound hmaps.extended hkept
  -- a page of the range has the frame that it was given
  have hnew : ∀ p ∈ pageRange page (pageCount length), ∃ i < pageCount length, p = page + i ∧
      s'.translate p = some (a + i) := by
    rintro p ⟨hlo, hhi⟩
    obtain ⟨i, rfl⟩ := Nat.exists_eq_add_of_le hlo
    exact ⟨i, by omega, rfl, hmaps.mapped i (by omega)⟩
  -- and the pages that were owned have other frames
  have hother : ∀ p ∈ A, ∀ q ∈ pageRange page (pageCount length),
      s'.translate p ≠ s'.translate q := by
    intro p hp q hq heq
    obtain ⟨i, hi, -, hqi⟩ := hnew q hq
    obtain ⟨f, hf, huse, -⟩ := h.frame p hp
    rw [hkept p hp, hf, hqi, Option.some.injEq] at heq
    rw [heq, hmaps.free i hi] at huse
    exact Bool.noConfusion huse
  refine ⟨s', a, hmmap, hmaps, ⟨hmaps.sound, ?_, ?_, ?_⟩, hload⟩
  · rintro p (hp | ⟨-, hhi⟩)
    · exact h.below p hp
    · omega
  · rintro p (hp | hp)
    · exact hold.frame p hp
    · obtain ⟨i, hi, -, hpi⟩ := hnew p hp
      exact ⟨a + i, hpi, hmaps.taken i hi, hmaps.not_isTable i hi⟩
  · rintro p (hp | hp) q (hq | hq) heq
    · exact hold.apart p hp q hq heq
    · exact absurd heq (hother p hp q hq)
    · exact absurd heq.symm (hother q hq p hp)
    · obtain ⟨i, -, rfl, hpi⟩ := hnew p hp
      obtain ⟨j, -, rfl, hqj⟩ := hnew q hq
      rw [hpi, hqj, Option.some.injEq] at heq
      omega

/-- `maphwdev` to pages that are not owned leaves those that are. -/
theorem Owns.maphwdev_spec {A : Set ℕ} (h : Owns F s A) (hF : F.Lawful) {hw pages : ℕ}
    (halign : 4096 ∣ hw) (hle : MemOp.lspace s / 4096 + pages ≤ 1047552)
    (htables : F.Singles (s.missingTables (MemOp.lspace s / 4096) pages) s.pool)
    (hdisj : Disjoint A (pageRange (MemOp.lspace s / 4096) pages)) :
    ∃ s', maphwdev F hw pages s = some (MemOp.lspace s, s') ∧ Owns F s' A ∧
      ∀ b, b / 4096 ∈ A → s'.load b = s.load b := by
  obtain ⟨s', hmap, hs', hext, -, hkept⟩ := h.sound.maphwdev_extends hF rfl halign hle htables
  obtain ⟨hold, hload⟩ := h.of_extends hs' hext fun p hp =>
    hkept p (by have := h.below p hp; omega) (h.spares hp hle hdisj)
  exact ⟨s', hmap, hold, hload⟩

/-! ### Runs -/

/-- One operation that is allowed: it does not fault, keeps what is owned, and writes to its own
word only. -/
theorem Owns.run_op {A : Set ℕ} (h : Owns F s A) (hF : F.Lawful) {op : MemOp}
    (hop : op.Allowed F A s) :
    ∃ r s', op.run F s = some (r, s') ∧ Owns F s' (op.owned A) ∧
      (∀ a w, 4 ∣ a → a / 4096 ∈ A → s.load a = some w →
        s'.load a = some (if op.cell = some a then op.wrote.getD w else w)) ∧
      ∀ a, op = .load a → r = s.load a := by
  cases op with
  | load b =>
    obtain ⟨f, -, hload, -, -⟩ := h.load_eq hop.2
    refine ⟨some _, s, by rw [MemOp.run, hload, Option.map_some], h, fun a w _ _ hw => ?_, ?_⟩
    · rw [hw]
      exact congrArg some (ite_self w).symm
    · rintro a heq
      obtain rfl := MemOp.load.inj heq
      exact hload.symm
  | store b v =>
    obtain ⟨s', hstore, hown, hwords⟩ := h.store_spec v hop.2
    refine ⟨none, s', by rw [MemOp.run, hstore, Option.map_some], hown, fun a w ha hA hw => ?_,
      fun a heq => MemOp.noConfusion heq⟩
    rw [hwords a w hop.1 ha hA hw]
    exact congrArg some (if_congr (Option.some.injEq b a).symm.to_iff rfl rfl)
  | mmap addr length =>
    obtain ⟨⟨page, rfl⟩, hlen, hk, hle, hsup, hdisj⟩ := hop
    have hpage : 4096 * page / 4096 = page := Nat.mul_div_cancel_left page (by decide)
    rw [hpage] at hle hsup hdisj
    obtain ⟨s', a, hmmap, -, hown, hload⟩ := h.mmap_spec hF hlen hk hle hsup hdisj
    refine ⟨none, s', by rw [MemOp.run, hmmap, Option.map_some], ?_, fun b w _ hb hw => ?_,
      fun a heq => MemOp.noConfusion heq⟩
    · rw [MemOp.owned, hpage]
      exact hown
    · rw [hload b hb, hw]
      exact congrArg some (if_neg (Option.some_ne_none b).symm).symm
  | maphwdev hw pages =>
    obtain ⟨halign, hle, htables, hdisj⟩ := hop
    obtain ⟨s', hmap, hown, hload⟩ := h.maphwdev_spec hF halign hle htables hdisj
    refine ⟨none, s', by rw [MemOp.run, hmap, Option.map_some], hown, fun b w _ hb hw => ?_,
      fun a heq => MemOp.noConfusion heq⟩
    rw [hload b hb, hw]
    exact congrArg some (if_neg (Option.some_ne_none b).symm).symm

/-- What is owned stays owned. -/
theorem MemOp.subset_owned (op : MemOp) (A : Set ℕ) : A ⊆ op.owned A := by
  cases op with
  | mmap addr length => exact Set.subset_union_left
  | load _ => exact subset_rfl
  | store _ _ => exact subset_rfl
  | maphwdev _ _ => exact subset_rfl

end VirtMM

end PakOS
