import PakOS.Kernel.State

/-!
# Block headers in memory

`struct _malloc_h` on the i386 kernel build: five 32-bit fields, 20 bytes.  `getField` and
`setField` are the accesses `blk->f` and `blk->f = v`.  A store to one field is seen by a read of
that field and by no other: not by the other fields of the same header, and not by a header that
does not overlap it.
-/

namespace PakOS

open Machine

/-- The fields of `struct _malloc_h`, in order. -/
inductive MallocH
  | free
  | magic
  | nextBlock
  | prevBlock
  | size
  deriving DecidableEq, Repr

/-- The byte offset of a field in the header. -/
def MallocH.offset : MallocH → ℕ
  | .free => 0
  | .magic => 4
  | .nextBlock => 8
  | .prevBlock => 12
  | .size => 16

/-- `sizeof(struct _malloc_h)` -/
def sizeofMallocH : ℕ := 20

/-- `_MBLKFREE` -/
def mblkFree : ℕ := 1

/-- `_MBLKINUSE` -/
def mblkInUse : ℕ := 0

/-- `blk->f` -/
def getField (m : Mem) (blk : ℕ) (f : MallocH) : ℕ := loadLE 4 m (blk + f.offset)

/-- `blk->f = v` -/
def setField (m : Mem) (blk : ℕ) (f : MallocH) (v : ℕ) : Mem := storeLE 4 m (blk + f.offset) v

/-- `_mblk_valid(blk)`: the magic word is one of the two the allocator writes. -/
def MblkValid (m : Mem) (blk : ℕ) : Prop :=
  getField m blk .magic = 0xdeadbeef ∨ getField m blk .magic = 0xb00bbabe

instance (m : Mem) (blk : ℕ) : Decidable (MblkValid m blk) := by
  unfold MblkValid
  infer_instance

/-- `block + 1`: the payload behind a header. -/
def payload (blk : ℕ) : ℕ := add32 blk sizeofMallocH

/-- `((struct _malloc_h*) ptr) - 1`: the header in front of a payload. -/
def headerOf (ptr : ℕ) : ℕ := sub32 ptr sizeofMallocH

/-- Fields stand in the header one after the other. -/
theorem MallocH.offset_le (f : MallocH) : f.offset + 4 ≤ 20 := by
  cases f <;> decide

/-- Different fields do not overlap. -/
theorem MallocH.offset_disjoint {f g : MallocH} (h : f ≠ g) :
    f.offset + 4 ≤ g.offset ∨ g.offset + 4 ≤ f.offset := by
  cases f <;> cases g <;> simp_all [MallocH.offset]

theorem getField_lt (m : Mem) (blk : ℕ) (f : MallocH) : getField m blk f < 4294967296 :=
  loadLE_lt 4 m _

/-- A field just written is read back. -/
theorem getField_setField_same {m : Mem} {blk v : ℕ} {f : MallocH} (hv : v < 4294967296) :
    getField (setField m blk f v) blk f = v :=
  loadLE_storeLE_same hv

/-- A store to one field does not change the other fields of the header. -/
theorem getField_setField_ne {m : Mem} {blk v : ℕ} {f g : MallocH} (h : g ≠ f) :
    getField (setField m blk f v) blk g = getField m blk g := by
  have := MallocH.offset_disjoint h
  exact loadLE_storeLE_disjoint (by omega)

/-- A store to a header is not seen by a header it does not overlap. -/
theorem getField_setField_apart {m : Mem} {a b v : ℕ} {f g : MallocH}
    (h : b + 20 ≤ a ∨ a + 20 ≤ b) :
    getField (setField m a f v) b g = getField m b g := by
  have hf := f.offset_le
  have hg := g.offset_le
  exact loadLE_storeLE_disjoint (by omega)

/-- A store to a header leaves the bytes outside the header alone. -/
theorem setField_of_notMem {m : Mem} {blk v x : ℕ} {f : MallocH} (h : x < blk ∨ blk + 20 ≤ x) :
    setField m blk f v x = m x := by
  have hf := f.offset_le
  exact storeLE_of_notMem (by omega)

/-- A header only depends on its 20 bytes. -/
theorem getField_congr {m m' : Mem} {blk : ℕ} {f : MallocH}
    (h : ∀ x, blk ≤ x → x < blk + 20 → m' x = m x) : getField m' blk f = getField m blk f := by
  have hf := f.offset_le
  exact loadLE_congr fun x hx hlt => h x (by omega) (by omega)

end PakOS
