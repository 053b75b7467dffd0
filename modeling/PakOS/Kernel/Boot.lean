import PakOS.Machine.Trace
import PakOS.PhyMM.Frames

/-!
# The boot copy of the memory map

The loop `copy_meminfo` of `_start` in `kernel/asm/boot.s`, as a trace of the addresses of its
stores.  It counts to the length of the map in bytes, and copies four bytes each time: `L` bytes
become `L` dwords, and none becomes one.  So all of the map is copied, but the copy stays in the
1024 bytes of `meminfo_struct` only if the map has no more than 256 (`copyMeminfo_iff`).
-/

namespace PakOS

open Machine

/-- The loop `copy_meminfo`, from the value `eax` of its counter on: the map is at `ecx`, its length
is `esi`, and `edx` is `meminfo_struct`. -/
def copyMeminfo (ecx edx esi : ℕ) : ℕ → ℕ → Mem → Trace ℕ Mem
  | 0, _, _ => ⟨[], none⟩
  | fuel + 1, eax, m =>
    let ebx := loadLE 4 m (add32 ecx (mul32 eax 4))
    let a := add32 edx (mul32 eax 4)
    (Trace.emit [a] (storeLE 4 m a ebx)).bind fun m =>
      let eax := add32 eax 1
      -- `cmp` and `jl`: a signed comparison with the number of bytes
      if toSigned eax < toSigned esi then copyMeminfo ecx edx esi fuel eax m
      else Trace.emit [] m

/-- `meminfo_struct` has room for 1024 bytes. -/
def meminfoCapacity : ℕ := 1024

/-- What the loop is there for: the first `len` bytes of `meminfo_struct` are those of the map, and
every dword that was stored lies inside. -/
structure MapCopied (src dst len : ℕ) (m : Mem) (log : List ℕ) (m' : Mem) : Prop where
  /-- The bytes are those of the map. -/
  copied : ∀ j < len, m' (dst + j) = m (src + j)
  /-- The stores are inside. -/
  inside : ∀ a ∈ log, dst ≤ a ∧ a + 4 ≤ dst + meminfoCapacity

variable {src dst len n i : ℕ} {m : Mem}

/-! ### The loop -/

/-- One round of the loop. -/
def copyDword (src dst : ℕ) (m : Mem) (i : ℕ) : Mem :=
  storeLE 4 m (add32 dst (mul32 i 4)) (loadLE 4 m (add32 src (mul32 i 4)))

/-- The signed comparison of numbers that are not negative. -/
theorem toSigned_lt_toSigned {a b : ℕ} (ha : a < 2147483648) (hb : b < 2147483648) :
    toSigned a < toSigned b ↔ a < b := by
  rw [toSigned, toSigned, if_pos ha, if_pos hb, Int.ofNat_lt]

/-- The loop goes on as long as there are bytes that it did not count. -/
theorem copyMeminfo_succ (hlen : len ≤ meminfoCapacity) (hi : i < meminfoCapacity) (fuel : ℕ) :
    copyMeminfo src dst len (fuel + 1) i m =
      (Trace.emit [add32 dst (mul32 i 4)] (copyDword src dst m i)).bind fun m =>
        if i + 1 < len then copyMeminfo src dst len fuel (i + 1) m else Trace.emit [] m := by
  unfold meminfoCapacity at hlen hi
  have hnext : add32 i 1 = i + 1 := add32_of_lt (by omega)
  have hjl : toSigned (i + 1) < toSigned len ↔ i + 1 < len :=
    toSigned_lt_toSigned (by omega) (by omega)
  simp only [copyMeminfo, copyDword, hnext, hjl]

/-- The loop makes as many rounds as the map has bytes, and at least one. -/
theorem copyMeminfo_completes (hn : n = max len 1) (hlen : len ≤ meminfoCapacity) (hi : i < n) :
    Completes (fun fuel => copyMeminfo src dst len fuel i m)
      ((List.range' i (n - i)).map fun i => add32 dst (mul32 i 4))
      ((List.range' i (n - i)).foldl (copyDword src dst) m) := by
  have hcap : i < meminfoCapacity := by
    unfold meminfoCapacity at hlen ⊢
    omega
  obtain ⟨rest, hrest⟩ := Nat.exists_eq_add_of_lt hi
  have hleft : n - i = rest + 1 := by omega
  rw [hleft, List.range'_succ, List.map_cons, List.foldl_cons]
  -- the rounds that are left behind this one
  induction rest generalizing i m with
  | zero =>
    have hlast : ¬i + 1 < len := by omega
    have hrun := (Completes.emit [add32 dst (mul32 i 4)] (copyDword src dst m i)).bind
      (g := fun m _ => Trace.emit [] m) (.emit [] _)
    refine hrun.succ rfl fun fuel => ?_
    simp only [copyMeminfo_succ hlen hcap, if_neg hlast]
  | succ rest ih =>
    have hmore : i + 1 < len := by omega
    have hnext := ih (i := i + 1) (m := copyDword src dst m i) (by omega)
      (by unfold meminfoCapacity at hlen ⊢; omega) (by omega) (by omega)
    rw [List.range'_succ, List.map_cons, List.foldl_cons]
    refine (Completes.bind (.emit [add32 dst (mul32 i 4)] (copyDword src dst m i))
      (g := fun m fuel => copyMeminfo src dst len fuel (i + 1) m) hnext).succ rfl fun fuel => ?_
    simp only [copyMeminfo_succ hlen hcap, if_pos hmore]

/-! ### What is copied -/

/-- What `k` rounds leave behind: the dwords up to there are those of the map, as far as it goes,
and nothing else changed. -/
structure Copied (src dst len k : ℕ) (m m' : Mem) : Prop where
  /-- The bytes that were copied. -/
  copied : ∀ j < 4 * k, j < len → m' (dst + j) = m (src + j)
  /-- The others. -/
  kept : ∀ x, x < dst ∨ dst + 4 * k ≤ x → m' x = m x

/-- One round copies one more dword; the bytes of the map that it reads were not overwritten. -/
theorem Copied.round {k : ℕ} {m' : Mem} (h : Copied src dst len k m m') (hk : k < 256)
    (hdst : dst + meminfoCapacity ≤ 4294967296) (hsrc : src + len ≤ 4294967296)
    (happart : dst ≤ src ∨ src + len ≤ dst) :
    Copied src dst len (k + 1) m (copyDword src dst m' k) := by
  unfold meminfoCapacity at hdst
  have hoff : mul32 k 4 = k * 4 := mul32_of_lt (by omega)
  have hto : add32 dst (k * 4) = dst + k * 4 := add32_of_lt (by omega)
  constructor
  · intro j hj hjlen
    rw [copyDword, hoff, hto]
    by_cases hold : j < 4 * k
    · rw [storeLE_of_notMem (Or.inl (by omega)), h.copied j hold hjlen]
    · obtain ⟨b, rfl⟩ := Nat.exists_eq_add_of_le (Nat.le_of_not_lt hold)
      have hfrom : add32 src (k * 4) = src + k * 4 := add32_of_lt (by omega)
      have hword : storeLE 4 m' (dst + k * 4) (loadLE 4 m' (src + k * 4)) (dst + k * 4 + b) =
          m' (src + k * 4 + b) := storeLE_loadLE (by omega)
      have hread : m' (src + k * 4 + b) = m (src + k * 4 + b) := h.kept _ (by omega)
      rw [hfrom, Nat.mul_comm 4, ← Nat.add_assoc, ← Nat.add_assoc, hword, hread]
  · intro x hx
    rw [copyDword, hoff, hto, storeLE_of_notMem (by omega), h.kept x (by omega)]

/-- The rounds of the loop. -/
theorem copied_rounds {k : ℕ} (hk : k ≤ 256) (hdst : dst + meminfoCapacity ≤ 4294967296)
    (hsrc : src + len ≤ 4294967296) (happart : dst ≤ src ∨ src + len ≤ dst) :
    Copied src dst len k m ((List.range k).foldl (copyDword src dst) m) := by
  induction k with
  | zero => exact ⟨fun _ hj _ => absurd hj (Nat.not_lt_zero _), fun _ _ => rfl⟩
  | succ k ih =>
    rw [List.range_succ, List.foldl_append, List.foldl_cons, List.foldl_nil]
    exact (ih (Nat.le_of_succ_le hk)).round hk hdst hsrc happart

/-! ### When the map is copied -/

/-- The loop that begins at the first dword. -/
theorem copyMeminfo_run (src dst : ℕ) (m : Mem) (hlen : len ≤ meminfoCapacity) :
    Completes (fun fuel => copyMeminfo src dst len fuel 0 m)
      ((List.range (max len 1)).map fun i => add32 dst (mul32 i 4))
      ((List.range (max len 1)).foldl (copyDword src dst) m) := by
  rw [List.range_eq_range']
  exact copyMeminfo_completes (n := max len 1) (i := 0) rfl hlen (by omega)

/-- A longer map does not stay inside: round 256 stores behind the last byte. -/
theorem not_mapCopied {log : List ℕ} {m' : Mem} (hlen : len ≤ meminfoCapacity) (hlong : 256 < len)
    (h : Completes (fun fuel => copyMeminfo src dst len fuel 0 m) log m') :
    ¬MapCopied src dst len m log m' := by
  intro hmap
  obtain ⟨rfl, -⟩ := h.eq (copyMeminfo_run src dst m hlen)
  have hround : 256 ∈ List.range (max len 1) := List.mem_range.mpr (by omega)
  have hin := hmap.inside _ (List.mem_map_of_mem hround)
  unfold meminfoCapacity at hin
  unfold mul32 add32 at hin
  omega

/-- A map of at most 256 bytes is copied, and its copy stays inside. -/
theorem mapCopied_of_le (m : Mem) (hdst : dst + meminfoCapacity ≤ 4294967296)
    (hsrc : src + len ≤ 4294967296) (happart : dst ≤ src ∨ src + len ≤ dst) (hshort : len ≤ 256) :
    MapCopied src dst len m ((List.range (max len 1)).map fun i => add32 dst (mul32 i 4))
      ((List.range (max len 1)).foldl (copyDword src dst) m) := by
  constructor
  · intro j hj
    exact (copied_rounds (by omega) hdst hsrc happart).copied j (by omega) hj
  · intro a ha
    obtain ⟨i, hi, rfl⟩ := List.mem_map.mp ha
    have hround : i < max len 1 := List.mem_range.mp hi
    have hoff : mul32 i 4 = i * 4 := mul32_of_lt (by omega)
    unfold meminfoCapacity at *
    rw [hoff, add32_of_lt (by omega)]
    omega

/-- The copy loop ends for every length up to the capacity of `meminfo_struct`; it copies the map
and stays inside `meminfo_struct` if and only if the map has at most 256 bytes. -/
theorem copyMeminfo_iff (m : Mem) (hlen : len ≤ meminfoCapacity)
    (hdst : dst + meminfoCapacity ≤ 4294967296) (hsrc : src + len ≤ 4294967296)
    (happart : dst ≤ src ∨ src + len ≤ dst) :
    ∃ log m', Completes (fun fuel => copyMeminfo src dst len fuel 0 m) log m' ∧
      (MapCopied src dst len m log m' ↔ len ≤ 256) := by
  have hrun := copyMeminfo_run src dst m hlen
  refine ⟨_, _, hrun, fun hmap => ?_, mapCopied_of_le m hdst hsrc happart⟩
  by_contra hlong
  exact not_mapCopied hlen (Nat.lt_of_not_le hlong) hrun hmap

/-- Six regions of 24 bytes, left by the boot loader at `0x9500`. -/
theorem copyMeminfo_iff_sixRegions :
    ∃ log m', Completes (fun n => copyMeminfo 0x9500 0x10a000 144 n 0 fun x => .ofNat x) log m' ∧
      MapCopied 0x9500 0x10a000 144 (fun x => .ofNat x) log m' := by
  obtain ⟨log, m', hrun, hiff⟩ : ∃ log m',
      Completes (fun n => copyMeminfo 0x9500 0x10a000 144 n 0 fun x => .ofNat x) log m' ∧
        (MapCopied 0x9500 0x10a000 144 (fun x => .ofNat x) log m' ↔ 144 ≤ 256) :=
    copyMeminfo_iff (fun x => .ofNat x) (by decide) (by decide) (by decide) (by decide)
  exact ⟨log, m', hrun, hiff.mpr (by decide)⟩

/-- Eleven regions have 264 bytes, and the copy writes behind `meminfo_struct`. -/
theorem elevenRegions_not_mapCopied :
    ¬∃ log m', Completes (fun n => copyMeminfo 0x9500 0x10a000 264 n 0 fun x => .ofNat x) log m' ∧
      MapCopied 0x9500 0x10a000 264 (fun x => .ofNat x) log m' := by
  rintro ⟨log, m', hrun, hmap⟩
  exact not_mapCopied (by decide) (by decide) hrun hmap

end PakOS
