import PakOS.Machine.Memory

/-!
# Records in memory

A record without padding is a list of fields, each a number of bytes and a value.  `storeFields`
assigns to the fields one after the other; what it writes is `fieldBytes`, and each field is read
back from these bytes wherever they stand (`Holds.loadLE_field`).
-/

namespace Machine

/-- The `n` low bytes of `v`, lowest first. -/
def bytesLE : ℕ → ℕ → List UInt8
  | 0, _ => []
  | n + 1, v => UInt8.ofNat v :: bytesLE n (v / 256)

/-- Assign to the fields of the record at `a`: each has a number of bytes and gets a value. -/
def storeFields (m : Mem) (a : ℕ) : List (ℕ × ℕ) → Mem
  | [] => m
  | f :: fs => storeFields (storeLE f.1 m a f.2) (a + f.1) fs

/-- The bytes of a record. -/
def fieldBytes (fs : List (ℕ × ℕ)) : List UInt8 := fs.flatMap fun f => bytesLE f.1 f.2

/-- The number of bytes of a record. -/
def fieldsWidth (fs : List (ℕ × ℕ)) : ℕ := (fs.map Prod.fst).sum

@[simp] theorem length_bytesLE (n v : ℕ) : (bytesLE n v).length = n := by
  induction n generalizing v with
  | zero => rfl
  | succ n ih => rw [bytesLE, List.length_cons, ih]

@[simp] theorem length_fieldBytes (fs : List (ℕ × ℕ)) : (fieldBytes fs).length = fieldsWidth fs := by
  simp [fieldBytes, fieldsWidth, List.length_flatMap]

theorem fieldBytes_append (fs gs : List (ℕ × ℕ)) :
    fieldBytes (fs ++ gs) = fieldBytes fs ++ fieldBytes gs := List.flatMap_append

theorem fieldBytes_cons (n v : ℕ) (fs : List (ℕ × ℕ)) :
    fieldBytes ((n, v) :: fs) = bytesLE n v ++ fieldBytes fs := List.flatMap_cons

/-- The bytes of a number that was stored. -/
theorem holds_storeLE (n : ℕ) (m : Mem) (a v : ℕ) : Holds (storeLE n m a v) a (bytesLE n v) := by
  induction n generalizing m a v with
  | zero => trivial
  | succ n ih =>
    refine ⟨?_, ih _ (a + 1) (v / 256)⟩
    rw [storeLE, storeLE_of_notMem (Or.inl (Nat.lt_succ_self a)), Function.update_self]

/-- A number is read back from its bytes. -/
theorem Holds.loadLE_bytesLE {n : ℕ} {m : Mem} {a v : ℕ} (h : Holds m a (bytesLE n v)) :
    Machine.loadLE n m a = v % 256 ^ n := by
  induction n generalizing a v with
  | zero => rw [Machine.loadLE, pow_zero, Nat.mod_one]
  | succ n ih =>
    rw [Machine.loadLE, h.1, ih h.2, pow_succ, Nat.mul_comm (256 ^ n) 256, Nat.mod_mul,
      UInt8.toNat_ofNat']

/-- Assigning to the fields leaves the other bytes alone. -/
theorem storeFields_of_notMem {m : Mem} {a x : ℕ} {fs : List (ℕ × ℕ)}
    (h : x < a ∨ a + fieldsWidth fs ≤ x) : storeFields m a fs x = m x := by
  induction fs generalizing m a with
  | nil => rfl
  | cons f fs ih =>
    have hwidth : fieldsWidth (f :: fs) = f.1 + fieldsWidth fs := List.sum_cons
    rw [storeFields, ih (by omega), storeLE_of_notMem (by omega)]

/-- The bytes of a record whose fields were assigned. -/
theorem holds_storeFields (m : Mem) (a : ℕ) (fs : List (ℕ × ℕ)) :
    Holds (storeFields m a fs) a (fieldBytes fs) := by
  induction fs generalizing m a with
  | nil => trivial
  | cons f fs ih =>
    rw [storeFields, fieldBytes_cons, holds_append, length_bytesLE]
    refine ⟨(holds_storeLE f.1 m a f.2).congr fun x _ hx => ?_, ih _ _⟩
    rw [length_bytesLE] at hx
    exact storeFields_of_notMem (Or.inl hx)

/-- The bytes of a record behind its first fields. -/
theorem Holds.drop {m : Mem} {a : ℕ} (fs : List (ℕ × ℕ)) {gs : List (ℕ × ℕ)}
    (h : Holds m a (fieldBytes (fs ++ gs))) : Holds m (a + fieldsWidth fs) (fieldBytes gs) := by
  rw [fieldBytes_append, holds_append, length_fieldBytes] at h
  exact h.2

/-- The bytes of a field in those of its record. -/
theorem Holds.field {m : Mem} {a n v : ℕ} (fs : List (ℕ × ℕ)) {gs : List (ℕ × ℕ)}
    (h : Holds m a (fieldBytes (fs ++ (n, v) :: gs))) : Holds m (a + fieldsWidth fs) (bytesLE n v) := by
  have hrest := h.drop fs
  rw [fieldBytes_cons, holds_append] at hrest
  exact hrest.1

/-- A field is read back from the bytes of its record. -/
theorem Holds.loadLE_field {m : Mem} {a n v : ℕ} (fs : List (ℕ × ℕ)) {gs : List (ℕ × ℕ)}
    (h : Holds m a (fieldBytes (fs ++ (n, v) :: gs))) :
    Machine.loadLE n m (a + fieldsWidth fs) = v % 256 ^ n := (h.field fs).loadLE_bytesLE

/-! ### Values that are computed from memory -/

/-- Assign to the fields of the record at `a`, where the value of each field is computed from memory
as it is then. -/
def assignFields (m : Mem) (a : ℕ) : List (ℕ × (Mem → ℕ)) → Mem
  | [] => m
  | f :: fs => assignFields (storeLE f.1 m a (f.2 m)) (a + f.1) fs

theorem assignFields_append (m : Mem) (a : ℕ) (fs gs : List (ℕ × (Mem → ℕ))) :
    assignFields m a (fs ++ gs) =
      assignFields (assignFields m a fs) (a + (fs.map Prod.fst).sum) gs := by
  induction fs generalizing m a with
  | nil => rfl
  | cons f fs ih =>
    rw [List.cons_append, assignFields, ih, assignFields, List.map_cons, List.sum_cons,
      Nat.add_assoc]

/-- The values may be computed beforehand, from a memory `m₀` that is the same outside of the
record, if they do not depend on the record. -/
theorem assignFields_eq {m m₀ : Mem} {lo hi a : ℕ} {fs : List (ℕ × (Mem → ℕ))}
    (hval : ∀ f ∈ fs, ∀ m' : Mem, (∀ x, x < lo ∨ hi ≤ x → m' x = m₀ x) → f.2 m' = f.2 m₀)
    (hm : ∀ x, x < lo ∨ hi ≤ x → m x = m₀ x) (hlo : lo ≤ a) (hhi : a + (fs.map Prod.fst).sum ≤ hi) :
    assignFields m a fs = storeFields m a (fs.map fun f => (f.1, f.2 m₀)) := by
  induction fs generalizing m a with
  | nil => rfl
  | cons f fs ih =>
    rw [List.map_cons, List.sum_cons] at hhi
    rw [assignFields, List.map_cons, storeFields, hval f List.mem_cons_self m hm]
    refine ih (fun g hg => hval g (List.mem_cons_of_mem f hg)) (fun x hx => ?_) (by omega) (by omega)
    rw [storeLE_of_notMem (by omega), hm x hx]

/-! ### Bytes as they stand -/

/-- The `n` bytes from `a` on. -/
def bytesAt (m : Mem) : ℕ → ℕ → List UInt8
  | _, 0 => []
  | a, n + 1 => m a :: bytesAt m (a + 1) n

/-- The number whose `n` bytes, highest first, stand from `a` on. -/
def loadBE (m : Mem) : ℕ → ℕ → ℕ
  | _, 0 => 0
  | a, n + 1 => (m a).toNat * 256 ^ n + loadBE m (a + 1) n

/-- The bytes of a string. -/
theorem Holds.bytesAt_eq {m : Mem} {a : ℕ} {l : List UInt8} (h : Holds m a l) :
    bytesAt m a l.length = l := by
  induction l generalizing a with
  | nil => rfl
  | cons c l ih => rw [List.length_cons, bytesAt, h.1, ih h.2]

/-- The bytes of a number. -/
theorem Holds.bytesAt_bytesLE {n : ℕ} {m : Mem} {a v : ℕ} (h : Holds m a (bytesLE n v)) :
    bytesAt m a n = bytesLE n v := by
  have heq := h.bytesAt_eq
  rwa [length_bytesLE] at heq

/-- A number that is read has the bytes that stand there. -/
theorem bytesLE_loadLE (n : ℕ) (m : Mem) (a : ℕ) : bytesLE n (loadLE n m a) = bytesAt m a n := by
  induction n generalizing a with
  | zero => rfl
  | succ n ih =>
    have hbyte := (m a).toNat_lt
    have hfirst : UInt8.ofNat ((m a).toNat + 256 * loadLE n m (a + 1)) = m a := by
      apply UInt8.toNat_inj.mp
      rw [UInt8.toNat_ofNat']
      omega
    have hrest : ((m a).toNat + 256 * loadLE n m (a + 1)) / 256 = loadLE n m (a + 1) := by omega
    rw [loadLE, bytesLE, bytesAt, hfirst, hrest, ih]

@[simp] theorem length_bytesAt (m : Mem) (a n : ℕ) : (bytesAt m a n).length = n := by
  induction n generalizing a with
  | zero => rfl
  | succ n ih => rw [bytesAt, List.length_cons, ih]

/-- The bytes one by one. -/
theorem getElem?_bytesAt {m : Mem} {a n i : ℕ} (hi : i < n) : (bytesAt m a n)[i]? = some (m (a + i)) := by
  induction n generalizing a i with
  | zero => omega
  | succ n ih =>
    cases i with
    | zero => rfl
    | succ i =>
      rw [bytesAt, List.getElem?_cons_succ, ih (by omega), Nat.add_right_comm]
      rfl

/-- The same bytes elsewhere, or in another memory. -/
theorem bytesAt_congr {m m' : Mem} {a b n : ℕ} (h : ∀ i < n, m' (b + i) = m (a + i)) :
    bytesAt m' b n = bytesAt m a n := by
  refine List.ext_getElem? fun i => ?_
  rcases Nat.lt_or_ge i n with hi | hi
  · rw [getElem?_bytesAt hi, getElem?_bytesAt hi, h i hi]
  · rw [List.getElem?_eq_none (by rwa [length_bytesAt]), List.getElem?_eq_none (by rwa [length_bytesAt])]

/-- More bytes begin with fewer. -/
theorem bytesAt_prefix {m : Mem} {a n n' : ℕ} (h : n ≤ n') : bytesAt m a n <+: bytesAt m a n' := by
  induction n generalizing a n' with
  | zero => exact List.nil_prefix
  | succ n ih =>
    obtain ⟨n', rfl⟩ := Nat.exists_eq_add_one.mpr (Nat.zero_lt_of_lt h)
    exact List.cons_prefix_cons.mpr ⟨rfl, ih (Nat.le_of_succ_le_succ h)⟩

/-- One byte is written. -/
theorem bytesAt_update {m : Mem} {a n i : ℕ} {v : UInt8} (hi : i < n) :
    bytesAt (Function.update m (a + i) v) a n = (bytesAt m a n).set i v := by
  refine List.ext_getElem? fun j => ?_
  rcases Nat.lt_or_ge j n with hj | hj
  · rw [getElem?_bytesAt hj, List.getElem?_set, getElem?_bytesAt hj, length_bytesAt]
    by_cases hij : i = j
    · subst hij
      rw [if_pos rfl, if_pos hi, Function.update_self]
    · rw [if_neg hij, Function.update_of_ne (by omega)]
  · rw [List.getElem?_eq_none (by rwa [length_bytesAt]),
      List.getElem?_eq_none (by rwa [List.length_set, length_bytesAt])]

end Machine
