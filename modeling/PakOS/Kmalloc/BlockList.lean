import Mathlib.Data.List.Nodup
import PakOS.Data.Coalesce
import PakOS.Kmalloc.Free

/-!
# The block list behind the headers

The abstract heap is a list of blocks in address order, each with its payload size and whether it is
free.  `Represents m bs` says that the headers in memory are that list: every block's header holds
its size, its flag and a valid magic word, and `next_block` and `prev_block` link the blocks both
ways, with `NULL` at both ends.  `Placed lo bs hi` says that the blocks lie in `[lo, hi)` one behind
the other.

Every operation of the allocator rewrites a short stretch of the list and the two links around it.
`Represents.splice` is the one rule for that: a new stretch that is linked to its neighbours may
replace an old one when the headers outside it keep everything but those two links.
-/

namespace PakOS

open Machine

/-- A block of the heap: the address of its header, its payload size, and whether it is free. -/
structure Block where
  /-- The address of the header. -/
  addr : ℕ
  /-- The payload size. -/
  size : ℕ
  /-- Whether the block is free. -/
  free : Bool
  deriving DecidableEq, Repr

/-- The end of the block's byte range `[header, header + sizeof(_malloc_h) + size)`. -/
def Block.stop (b : Block) : ℕ := b.addr + 20 + b.size

/-- The value of the `free` field of the block's header. -/
def Block.flag (b : Block) : ℕ := if b.free then mblkFree else mblkInUse

/-- The header of block `b` stands in memory, links apart. -/
structure Node (m : Mem) (b : Block) : Prop where
  /-- The size field. -/
  size : getField m b.addr .size = b.size
  /-- The free flag. -/
  free : getField m b.addr .free = b.flag
  /-- The magic word. -/
  valid : MblkValid m b.addr

/-- The headers at `x` and `y` are linked both ways; `NULL` carries no links. -/
structure Link (m : Mem) (x y : ℕ) : Prop where
  /-- The forward link. -/
  next : x ≠ 0 → getField m x .nextBlock = y
  /-- The backward link. -/
  prev : y ≠ 0 → getField m y .prevBlock = x

/-- The header addresses of a list of blocks. -/
def addrs (bs : List Block) : List ℕ := bs.map Block.addr

/-- The address of the first block, `NULL` for the empty list. -/
def headAddr (bs : List Block) : ℕ := (addrs bs).headD 0

/-- The address of the last block, `NULL` for the empty list. -/
def lastAddr (bs : List Block) : ℕ := (addrs bs).getLastD 0

/-- The headers in memory are the list `bs`. -/
structure Represents (m : Mem) (bs : List Block) : Prop where
  /-- Every block has its header. -/
  nodes : ∀ b ∈ bs, Node m b
  /-- The headers are linked in order, from `NULL` to `NULL`. -/
  links : (0 :: addrs bs ++ [0]).IsChain (Link m)

/-- The blocks lie in `[lo, hi)`, each ending before the next begins. -/
def Placed : ℕ → List Block → ℕ → Prop
  | lo, [], hi => lo ≤ hi
  | lo, b :: bs, hi => lo ≤ b.addr ∧ Placed b.stop bs hi

/-- The byte `x` belongs to no header of the list. -/
def OffHeaders (bs : List Block) (x : ℕ) : Prop := ∀ c ∈ bs, x < c.addr ∨ c.addr + 20 ≤ x

/-! ### Addresses -/

@[simp] theorem addrs_nil : addrs [] = [] := rfl

@[simp] theorem addrs_cons (b : Block) (bs : List Block) : addrs (b :: bs) = b.addr :: addrs bs :=
  rfl

@[simp] theorem addrs_append (xs ys : List Block) : addrs (xs ++ ys) = addrs xs ++ addrs ys :=
  List.map_append

@[simp] theorem headAddr_nil : headAddr [] = 0 := rfl

@[simp] theorem headAddr_cons (b : Block) (bs : List Block) : headAddr (b :: bs) = b.addr := rfl

@[simp] theorem lastAddr_nil : lastAddr [] = 0 := rfl

@[simp] theorem lastAddr_concat (bs : List Block) (b : Block) : lastAddr (bs ++ [b]) = b.addr := by
  simp [lastAddr]

theorem mem_addrs_of_mem {b : Block} {bs : List Block} (h : b ∈ bs) : b.addr ∈ addrs bs :=
  List.mem_map_of_mem h

/-! ### Placement -/

theorem Placed.le {lo hi : ℕ} {bs : List Block} (h : Placed lo bs hi) : lo ≤ hi := by
  induction bs generalizing lo with
  | nil => exact h
  | cons b bs ih =>
    have hrest := ih h.2
    have hlo := h.1
    unfold Block.stop at hrest
    omega

/-- A placement may be seen in a larger range. -/
theorem Placed.mono {lo lo' hi hi' : ℕ} {bs : List Block} (h : Placed lo bs hi) (hlo : lo' ≤ lo)
    (hhi : hi ≤ hi') : Placed lo' bs hi' := by
  induction bs generalizing lo lo' with
  | nil => exact hlo.trans (Nat.le_trans h hhi)
  | cons b bs ih => exact ⟨hlo.trans h.1, ih h.2 le_rfl⟩

/-- Every block of a placed list lies in the range. -/
theorem Placed.mem {lo hi : ℕ} {bs : List Block} (h : Placed lo bs hi) {b : Block} (hb : b ∈ bs) :
    lo ≤ b.addr ∧ b.stop ≤ hi := by
  induction bs generalizing lo with
  | nil => exact absurd hb List.not_mem_nil
  | cons c bs ih =>
    rcases List.mem_cons.mp hb with rfl | hb
    · exact ⟨h.1, h.2.le⟩
    · have hrest := ih h.2 hb
      have hlo := h.1
      unfold Block.stop at hrest
      exact ⟨by omega, hrest.2⟩

/-- A block splits a placed list into the part before it and the part behind it. -/
theorem placed_append_cons {lo hi : ℕ} {b : Block} {pre post : List Block} :
    Placed lo (pre ++ b :: post) hi ↔ Placed lo pre b.addr ∧ Placed b.stop post hi := by
  induction pre generalizing lo with
  | nil => exact Iff.rfl
  | cons c pre ih =>
    rw [List.cons_append]
    simp only [Placed, ih, and_assoc]

/-- Placing two lists one behind the other. -/
theorem Placed.append {lo mid hi : ℕ} {xs ys : List Block} (hx : Placed lo xs mid)
    (hy : Placed mid ys hi) : Placed lo (xs ++ ys) hi := by
  induction xs generalizing lo with
  | nil => exact hy.mono hx le_rfl
  | cons b xs ih => exact ⟨hx.1, ih hx.2⟩

/-- The addresses of placed blocks are strictly increasing. -/
theorem Placed.pairwise {lo hi : ℕ} {bs : List Block} (h : Placed lo bs hi) :
    (addrs bs).Pairwise (· < ·) := by
  induction bs generalizing lo with
  | nil => exact List.Pairwise.nil
  | cons b bs ih =>
    rw [addrs_cons, List.pairwise_cons]
    refine ⟨fun a ha => ?_, ih h.2⟩
    obtain ⟨c, hc, rfl⟩ := List.mem_map.mp ha
    have hbc := (h.2.mem hc).1
    unfold Block.stop at hbc
    omega

theorem Placed.nodup {lo hi : ℕ} {bs : List Block} (h : Placed lo bs hi) : (addrs bs).Nodup :=
  h.pairwise.imp fun hab => Nat.ne_of_lt hab

/-- Two blocks of a placed list with the same address are the same. -/
theorem Placed.eq_of_addr_eq {lo hi : ℕ} {bs : List Block} (h : Placed lo bs hi) {b c : Block}
    (hb : b ∈ bs) (hc : c ∈ bs) (hbc : b.addr = c.addr) : b = c :=
  List.inj_on_of_nodup_map h.nodup hb hc hbc

/-- The headers of different blocks of a placed list do not overlap. -/
theorem Placed.apart {lo hi : ℕ} {bs : List Block} (h : Placed lo bs hi) {b c : Block}
    (hb : b ∈ bs) (hc : c ∈ bs) (hbc : b.addr ≠ c.addr) :
    b.stop ≤ c.addr ∨ c.stop ≤ b.addr := by
  obtain ⟨pre, post, rfl⟩ := List.append_of_mem hb
  obtain ⟨hpre, hpost⟩ := placed_append_cons.mp h
  rcases List.mem_append.mp hc with hc | hc
  · exact Or.inr (hpre.mem hc).2
  · rcases List.mem_cons.mp hc with rfl | hc
    · exact absurd rfl hbc
    · exact Or.inl (hpost.mem hc).1

/-! ### Changing the list -/

/-- A chain of links only depends on the forward links of all nodes but the last and the backward
links of all nodes but the first. -/
theorem links_congr {m m' : Mem} {l : List ℕ} (h : l.IsChain (Link m))
    (hnext : ∀ x ∈ l.dropLast, x ≠ 0 → getField m' x .nextBlock = getField m x .nextBlock)
    (hprev : ∀ y ∈ l.tail, y ≠ 0 → getField m' y .prevBlock = getField m y .prevBlock) :
    l.IsChain (Link m') := by
  induction l with
  | nil => exact List.isChain_nil
  | cons x l ih =>
    cases l with
    | nil => exact List.isChain_singleton _
    | cons y l =>
      obtain ⟨hxy, hrest⟩ := List.isChain_cons_cons.mp h
      refine List.isChain_cons_cons.mpr ⟨⟨fun hx => ?_, fun hy => ?_⟩, ih hrest ?_ ?_⟩
      · rw [hnext x (by simp) hx, hxy.next hx]
      · rw [hprev y (by simp) hy, hxy.prev hy]
      · exact fun z hz => hnext z (by simp [hz])
      · exact fun z hz => hprev z (by simp [List.mem_of_mem_tail hz])

/-- The addresses before a stretch end in `lastAddr`. -/
theorem zero_cons_addrs (L : List Block) :
    ∃ A, 0 :: addrs L = A ++ [lastAddr L] ∧ ∀ x ∈ A, x ≠ 0 → (addrs L).Nodup →
      x ∈ addrs L ∧ x ≠ lastAddr L := by
  induction L using List.reverseRecOn with
  | nil => exact ⟨[], rfl, fun x hx => absurd hx List.not_mem_nil⟩
  | append_singleton L b _ =>
    refine ⟨0 :: addrs L, by simp, fun x hx hx0 hnd => ?_⟩
    have hxL : x ∈ addrs L := by simpa [hx0] using hx
    rw [addrs_append] at hnd ⊢
    refine ⟨List.mem_append_left _ hxL, ?_⟩
    rintro rfl
    exact (List.nodup_append.mp hnd).2.2 _ hxL _ (by simp) rfl

/-- The addresses behind a stretch begin with `headAddr`. -/
theorem addrs_append_zero (R : List Block) :
    ∃ C, addrs R ++ [0] = headAddr R :: C ∧ ∀ y ∈ C, y ≠ 0 → (addrs R).Nodup →
      y ∈ addrs R ∧ y ≠ headAddr R := by
  cases R with
  | nil => exact ⟨[], rfl, fun y hy => absurd hy List.not_mem_nil⟩
  | cons b R =>
    refine ⟨addrs R ++ [0], rfl, fun y hy hy0 hnd => ?_⟩
    have hyR : y ∈ addrs R := by simpa [hy0] using hy
    refine ⟨List.mem_cons_of_mem _ hyR, ?_⟩
    rintro rfl
    exact (List.nodup_cons.mp hnd).1 hyR

/-- A header keeps its size, its flag and its magic word when only links are written. -/
theorem Node.congr {m m' : Mem} {b : Block} (h : Node m b)
    (hsame : ∀ f, f ≠ .nextBlock → f ≠ .prevBlock → getField m' b.addr f = getField m b.addr f) :
    Node m' b := by
  refine ⟨?_, ?_, ?_⟩
  · rw [hsame _ (by decide) (by decide), h.size]
  · rw [hsame _ (by decide) (by decide), h.free]
  · unfold MblkValid
    rw [hsame _ (by decide) (by decide)]
    exact h.valid

/-- **The splice rule.**  A stretch `mid` of the list may be replaced by a stretch `mid'` whose
headers stand in the new memory and are linked to the neighbours on both sides, when the headers
outside keep all their fields except the two links into the stretch. -/
theorem Represents.splice {m m' : Mem} {L mid mid' R : List Block}
    (h : Represents m (L ++ mid ++ R)) (hndL : (addrs L).Nodup) (hndR : (addrs R).Nodup)
    (hL : ∀ b ∈ L, ∀ f, (f = .nextBlock → b.addr ≠ lastAddr L) →
      getField m' b.addr f = getField m b.addr f)
    (hR : ∀ b ∈ R, ∀ f, (f = .prevBlock → b.addr ≠ headAddr R) →
      getField m' b.addr f = getField m b.addr f)
    (hlinks : (lastAddr L :: addrs mid' ++ [headAddr R]).IsChain (Link m'))
    (hnodes : ∀ b ∈ mid', Node m' b) : Represents m' (L ++ mid' ++ R) := by
  obtain ⟨A, hA, hAmem⟩ := zero_cons_addrs L
  obtain ⟨C, hC, hCmem⟩ := addrs_append_zero R
  have hsplit : ∀ stretch : List Block,
      0 :: addrs (L ++ stretch ++ R) ++ [0] =
        A ++ lastAddr L :: (addrs stretch ++ headAddr R :: C) := by
    intro stretch
    calc 0 :: addrs (L ++ stretch ++ R) ++ [0]
        = (0 :: addrs L) ++ (addrs stretch ++ (addrs R ++ [0])) := by simp
      _ = A ++ lastAddr L :: (addrs stretch ++ headAddr R :: C) := by rw [hA, hC]; simp
  have hold := h.links
  rw [hsplit, List.isChain_split, ← List.cons_append] at hold
  obtain ⟨hleft, hrest⟩ := hold
  have hright := (List.isChain_split.mp hrest).2
  refine ⟨fun b hb => ?_, ?_⟩
  · rcases List.mem_append.mp hb with hb | hb
    · rcases List.mem_append.mp hb with hb | hb
      · exact (h.nodes b (by simp [hb])).congr fun f hn _ => hL b hb f fun hf => absurd hf hn
      · exact hnodes b hb
    · exact (h.nodes b (by simp [hb])).congr fun f _ hp => hR b hb f fun hf => absurd hf hp
  · rw [hsplit, List.isChain_split, ← List.cons_append]
    refine ⟨links_congr hleft (fun x hx hx0 => ?_) (fun y hy _ => ?_), List.isChain_split.mpr
      ⟨hlinks, links_congr hright (fun x hx hx0 => ?_) (fun y hy hy0 => ?_)⟩⟩
    · rw [List.dropLast_concat] at hx
      obtain ⟨hxL, hxlast⟩ := hAmem x hx hx0 hndL
      obtain ⟨b, hb, rfl⟩ := List.mem_map.mp hxL
      exact hL b hb _ fun _ => hxlast
    · rw [← hA, List.tail_cons] at hy
      obtain ⟨b, hb, rfl⟩ := List.mem_map.mp hy
      exact hL b hb _ fun hf => absurd hf (by decide)
    · rw [← hC, List.dropLast_concat] at hx
      obtain ⟨b, hb, rfl⟩ := List.mem_map.mp hx
      exact hR b hb _ fun hf => absurd hf (by decide)
    · rw [List.tail_cons] at hy
      obtain ⟨hyR, hyhead⟩ := hCmem y hy hy0 hndR
      obtain ⟨b, hb, rfl⟩ := List.mem_map.mp hyR
      exact hR b hb _ fun _ => hyhead

/-! ### Reading the list -/

/-- A block in the middle of the list is linked to its neighbours. -/
theorem Represents.links_mid {m : Mem} {pre post : List Block} {b : Block}
    (h : Represents m (pre ++ b :: post)) :
    Link m (lastAddr pre) b.addr ∧ Link m b.addr (headAddr post) := by
  obtain ⟨A, hA, -⟩ := zero_cons_addrs pre
  obtain ⟨C, hC, -⟩ := addrs_append_zero post
  have hlist : 0 :: addrs (pre ++ b :: post) ++ [0] =
      A ++ lastAddr pre :: b.addr :: headAddr post :: C := by
    calc 0 :: addrs (pre ++ b :: post) ++ [0]
        = (0 :: addrs pre) ++ b.addr :: (addrs post ++ [0]) := by simp
      _ = A ++ lastAddr pre :: b.addr :: headAddr post :: C := by rw [hA, hC]; simp
  have hlinks := h.links
  rw [hlist, List.isChain_split, List.isChain_cons_cons, List.isChain_cons_cons] at hlinks
  exact ⟨hlinks.2.1, hlinks.2.2.1⟩

/-- The two link fields of a block in the middle of the list. -/
theorem Represents.link_mid {m : Mem} {pre post : List Block} {b : Block}
    (h : Represents m (pre ++ b :: post)) (hb : b.addr ≠ 0) :
    getField m b.addr .prevBlock = lastAddr pre ∧ getField m b.addr .nextBlock = headAddr post :=
  ⟨h.links_mid.1.prev hb, h.links_mid.2.next hb⟩

/-- A memory that agrees on the link fields has the same links. -/
theorem Represents.links_of_fields {m m' : Mem} {bs : List Block} (h : Represents m bs)
    (hnext : ∀ b ∈ bs, getField m' b.addr .nextBlock = getField m b.addr .nextBlock)
    (hprev : ∀ b ∈ bs, getField m' b.addr .prevBlock = getField m b.addr .prevBlock) :
    (0 :: addrs bs ++ [0]).IsChain (Link m') := by
  refine links_congr h.links (fun x hx hx0 => ?_) fun y hy hy0 => ?_
  · rw [List.dropLast_concat] at hx
    obtain ⟨b, hb, rfl⟩ := List.mem_map.mp (by simpa [hx0] using hx : x ∈ addrs bs)
    exact hnext b hb
  · rw [List.cons_append, List.tail_cons] at hy
    obtain ⟨b, hb, rfl⟩ := List.mem_map.mp (by simpa [hy0] using hy : y ∈ addrs bs)
    exact hprev b hb

/-- A memory that agrees on all headers represents the same list. -/
theorem Represents.congr {m m' : Mem} {bs : List Block} (h : Represents m bs)
    (hsame : ∀ b ∈ bs, ∀ f, getField m' b.addr f = getField m b.addr f) : Represents m' bs := by
  refine ⟨fun b hb => ?_, h.links_of_fields (fun b hb => hsame b hb _) fun b hb => hsame b hb _⟩
  exact (h.nodes b hb).congr fun f _ _ => hsame b hb f

end PakOS
