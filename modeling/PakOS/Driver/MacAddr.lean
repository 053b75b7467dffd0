import PakOS.Driver.Eeprom
import PakOS.Klibc.ItoaNumeral

/-!
# `get_mac_addr`

`get_mac_addr` of `driver/eth/intel_8254x.c`, as a trace of the indices at which the text is stored
to `str`.  Three words of the EEPROM give the six bytes, and `itoa` gives the two characters of each
of them: of a byte below 16 the numeral has one digit, and the second character is its terminator.
-/

namespace PakOS

open Machine Coalesce Numeral

namespace Intel8254x

variable {E : Type*}

/-- The six bytes that `get_mac_addr` stores to `mac`, from the words of the EEPROM. -/
def macBytes (mac21 mac43 mac65 : ℕ) : List UInt8 :=
  [UInt8.ofNat (mac21 &&& 0xff), UInt8.ofNat (mac21 >>> 8), UInt8.ofNat (mac43 &&& 0xff),
    UInt8.ofNat (mac43 >>> 8), UInt8.ofNat (mac65 &&& 0xff), UInt8.ofNat (mac65 >>> 8)]

/-- The blocks that `get_mac_addr` has taken before it writes the text. -/
structure MacBlocks (E : Type*) where
  /-- `mac` -/
  mac : ℕ
  /-- `addr` -/
  addr : ℕ
  /-- `str` -/
  str : ℕ
  /-- The kernel state. -/
  kernel : Kernel E

/-- `get_mac_addr` up to its loop.  `addr->bytes` has 48 bits, and `struct mac_addr` 12 bytes. -/
def macBlocks (space : Space E) (fuel : ℕ) (eerd : Eerd) (empty : ℕ) (k : Kernel E) :
    Option (MacBlocks E) :=
  (eepromRword space fuel eerd empty 0 k).bind fun mac21 =>
    (eepromRword space fuel eerd empty 1 mac21.2).bind fun mac43 =>
      (eepromRword space fuel eerd empty 2 mac43.2).bind fun mac65 =>
        (kmalloc space fuel 6 mac65.2).bind fun mac =>
          let m := storeBytes mac.2.mem mac.1 (macBytes mac21.1 mac43.1 mac65.1)
          (kmalloc space fuel 12 { mac.2 with mem := m }).bind fun addr =>
            let m := storeLE 6 addr.2.mem addr.1 (loadLE 8 addr.2.mem mac.1)
            (kmalloc space fuel 9 { addr.2 with mem := m }).bind fun str =>
              some ⟨mac.1, addr.1, str.1, str.2⟩

/-- The stores of a round: two characters of the numeral at `s`, and what separates the bytes. -/
def macStores (str s i c : ℕ) (m : Mem) : Mem :=
  let m := Function.update m (add32 str c) (m s)
  let m := Function.update m (add32 str (c + 1)) (if m s ≠ 48 then m (add32 s 1) else 48)
  Function.update m (add32 str (c + 2)) (if i ≠ 5 then 58 else 0)

/-- The body of the loop: byte `i` of the address, as text at `str[c]`. -/
def macRound (space : Space E) (fuel mac str i c : ℕ) (k : Kernel E) : Trace ℕ (Kernel E) :=
  (Trace.ofOption (itoa space fuel (k.mem (add32 mac i)).toNat 16 k).result).bind fun r =>
    (Trace.emit [c, c + 1, c + 2] (macStores str r.1 i c r.2.mem)).bind fun m =>
      (Trace.ofOption (kfree space fuel r.1 { r.2 with mem := m })).bind fun f =>
        Trace.emit [] f.2

/-- The loop, with `n` of the six rounds to go. -/
def macLoop (space : Space E) (fuel mac str : ℕ) : ℕ → ℕ → Kernel E → Trace ℕ (Kernel E)
  | 0, _, k => Trace.emit [] k
  | n + 1, c, k =>
    (macRound space fuel mac str (5 - n) c k).bind fun k => macLoop space fuel mac str n (c + 3) k

/-- `get_mac_addr()` -/
def getMacAddr (space : Space E) (fuel : ℕ) (eerd : Eerd) (empty : ℕ) (k : Kernel E) :
    Trace ℕ (ℕ × Kernel E) :=
  (Trace.ofOption (macBlocks space fuel eerd empty k)).bind fun r =>
    (macLoop space fuel r.mac r.str 6 0 r.kernel).bind fun k =>
      Trace.emit [] (r.addr, { k with mem := storeLE 4 k.mem (r.addr + 8) r.str })

variable {mmap : Mmap E} {limit L empty : ℕ} {k k' : Kernel E} {bs bs' : List Block}
  {mac : List UInt8}

/-! ### The characters of a byte -/

/-- The two characters that a round takes from the numeral `t`. -/
def macDigits (t : List UInt8) : List UInt8 :=
  [t.getD 0 0, if t.getD 0 0 ≠ 48 then t.getD 1 0 else 48]

/-- The three characters that a round stores. -/
def macGroup (i : ℕ) (v : UInt8) : List UInt8 :=
  macDigits (itoaText 16 v.toNat) ++ [if i ≠ 5 then 58 else 0]

/-- The characters of the rounds from byte `i` on. -/
def macChars : ℕ → List UInt8 → List UInt8
  | _, [] => []
  | i, v :: vs => macGroup i v ++ macChars (i + 1) vs

/-- A byte in two hexadecimal digits. -/
def hexPair (v : UInt8) : List UInt8 := [digitChar (v.toNat / 16), digitChar (v.toNat % 16)]

/-- The text of an address. -/
def macText (mac : List UInt8) : List UInt8 := [58].intercalate (mac.map hexPair)

/-- A round stores two hexadecimal digits exactly if the byte is zero or its numeral has two. -/
theorem macDigits_eq_hexPair_iff (v : UInt8) :
    macDigits (itoaText 16 v.toNat) = hexPair v ↔ v = 0 ∨ 16 ≤ v := by
  have hv := v.toNat_lt
  have hle : 16 ≤ v ↔ 16 ≤ v.toNat := UInt8.le_iff_toNat_le
  rw [itoaText_of_lt (by omega), numeral]
  by_cases h0 : v = 0
  · subst h0
    decide
  have hne : v.toNat ≠ 0 := fun h => h0 (UInt8.toNat_inj.mp h)
  rw [if_neg hne, hexPair, macDigits, hle, or_iff_right h0]
  by_cases h16 : 16 ≤ v.toNat
  · have hdigits : Nat.digits 16 v.toNat = [v.toNat % 16, v.toNat / 16] := by
      rw [Nat.digits_def' (by decide) (by omega), Nat.digits_of_lt 16 _ (by omega) (by omega)]
    have hfirst : digitChar (v.toNat / 16) ≠ 48 := by
      intro h
      have hzero := (digitChar_eq_iff (by omega)).mp h
      omega
    rw [hdigits]
    simp [text, h16, hfirst]
  · rw [Nat.digits_of_lt 16 _ hne (by omega)]
    have hlast : digitChar (v.toNat % 16) ≠ 0 := digitChar_ne_zero (by omega)
    have hfirst : digitChar v.toNat ≠ 48 := fun h => hne ((digitChar_eq_iff (by omega)).mp h)
    simp [text, h16, hfirst, hlast.symm]

@[simp] theorem macText_singleton (v : UInt8) : macText [v] = hexPair v := by
  simp [macText, List.intercalate]

theorem macText_cons_cons (v w : UInt8) (vs : List UInt8) :
    macText (v :: w :: vs) = hexPair v ++ 58 :: macText (w :: vs) := by
  simp [macText, List.intercalate]

theorem length_macChars (i : ℕ) (vs : List UInt8) : (macChars i vs).length = 3 * vs.length := by
  induction vs generalizing i with
  | nil => rfl
  | cons v vs ih =>
    rw [macChars, List.length_append, ih, List.length_cons, Nat.mul_succ, Nat.add_comm]
    rfl

theorem length_macText {vs : List UInt8} (hvs : vs ≠ []) : (macText vs).length + 1 = 3 * vs.length := by
  induction vs with
  | nil => exact absurd rfl hvs
  | cons v vs ih =>
    cases vs with
    | nil => simp [hexPair]
    | cons w vs =>
      have hrest := ih (List.cons_ne_nil w vs)
      rw [macText_cons_cons, List.length_append, List.length_cons, List.length_cons]
      simp only [hexPair, List.length_cons, List.length_nil] at hrest ⊢
      omega

/-- A text has no terminator in it. -/
theorem zero_notMem_macText (vs : List UInt8) : 0 ∉ macText vs := by
  have hpair : ∀ v, 0 ∉ hexPair v := by
    intro v hmem
    have hv := v.toNat_lt
    simp only [hexPair, List.mem_cons, List.not_mem_nil, or_false] at hmem
    rcases hmem with h0 | h0
    · exact digitChar_ne_zero (by omega) h0.symm
    · exact digitChar_ne_zero (by omega) h0.symm
  induction vs with
  | nil => exact List.not_mem_nil
  | cons v vs ih =>
    cases vs with
    | nil => exact macText_singleton v ▸ hpair v
    | cons w vs =>
      rw [macText_cons_cons, List.mem_append, List.mem_cons]
      rintro (h0 | h0 | h0)
      · exact hpair v h0
      · exact absurd h0 (by decide)
      · exact ih h0

/-- The rounds from byte `i` on store the text of these bytes exactly if each of them is zero or has
a numeral with two digits. -/
theorem macChars_eq_iff {vs : List UInt8} {i : ℕ} (hvs : vs ≠ []) (hi : i + vs.length = 6) :
    macChars i vs = macText vs ++ [0] ↔ ∀ v ∈ vs, v = 0 ∨ 16 ≤ v := by
  induction vs generalizing i with
  | nil => exact absurd rfl hvs
  | cons v vs ih =>
    cases vs with
    | nil =>
      obtain rfl : i = 5 := by simpa using hi
      rw [macText_singleton, List.forall_mem_singleton, ← macDigits_eq_hexPair_iff, macChars,
        macChars, List.append_nil, macGroup, if_neg (not_not.mpr rfl)]
      exact List.append_left_inj [0]
    | cons w vs =>
      rw [List.length_cons] at hi
      have hne : i ≠ 5 := by
        rw [List.length_cons] at hi
        omega
      have hrest := ih (i := i + 1) (List.cons_ne_nil w vs) (by omega)
      rw [List.forall_mem_cons, ← hrest, ← macDigits_eq_hexPair_iff, macChars, macGroup, if_pos hne,
        macText_cons_cons, List.append_assoc, List.append_assoc]
      constructor
      · intro h
        obtain ⟨hpair, htail⟩ := List.append_inj h rfl
        exact ⟨hpair, List.tail_eq_of_cons_eq htail⟩
      · rintro ⟨hpair, htail⟩
        rw [hpair, htail]
        rfl

/-! ### The blocks -/

/-- The bytes of the address stand in the blocks of `mac` and of `addr`. -/
structure MacStored (mac : List UInt8) (k : Kernel E) (bs : List Block) (bm ba : Block) : Prop where
  /-- The heap. -/
  heap : HeapInv k bs
  /-- `mac` is on the list. -/
  mac_mem : bm ∈ bs
  /-- It is in use. -/
  mac_inUse : bm.free = false
  /-- It has six bytes. -/
  mac_size : 6 ≤ bm.size
  /-- The bytes. -/
  mac_text : Holds k.mem (bm.addr + 20) mac
  /-- `addr` is on the list. -/
  addr_mem : ba ∈ bs
  /-- It is in use. -/
  addr_inUse : ba.free = false
  /-- It has the twelve bytes of the structure. -/
  addr_size : 12 ≤ ba.size
  /-- The number. -/
  addr_bytes : loadLE 6 k.mem (ba.addr + 20) = Nat.ofDigits 256 (mac.map UInt8.toNat)

/-- What `get_mac_addr` stores to the first two blocks that it takes. -/
theorem MacStored.of_allocated {limit' : ℕ} {k₁ k₂ : Kernel E} {bs₁ bs₂ : List Block}
    {bm ba : Block} (hlen : mac.length = 6)
    (hmac : Allocated limit k bs 6 k₁ bs₁ bm)
    (haddr : Allocated limit' { k₁ with mem := storeBytes k₁.mem (bm.addr + 20) mac } bs₁ 12
      k₂ bs₂ ba) :
    MacStored mac { k₂ with
      mem := storeLE 6 k₂.mem (ba.addr + 20) (loadLE 8 k₂.mem (bm.addr + 20)) } bs₂ bm ba := by
  obtain ⟨hbm, hbmfree, hbmsize⟩ := hmac.block (show SizeOk 6 by decide)
  obtain ⟨hba, hbafree, hbasize⟩ := haddr.block (show SizeOk 12 by decide)
  have hk₁ := hmac.heap.store hbm (hlen.trans_le hbmsize)
  obtain ⟨hbm₂, happart⟩ := haddr.apart hk₁ (by decide) hbm hbmfree
  unfold Block.stop at happart
  -- the bytes stay where they are while the second block is taken
  have htext : Holds k₂.mem (bm.addr + 20) mac :=
    (holds_storeBytes k₁.mem (bm.addr + 20) mac).congr fun x hlo hhi =>
      (haddr.settled hk₁ (by decide)
        (Or.inr (Or.inr ⟨bm, hbm, hbmfree, hlo, by omega⟩))).1
  have hnum := htext.loadLE
  rw [hlen] at hnum
  refine ⟨haddr.heap.write_payload hba fun x hx => storeLE_of_notMem ?_, hbm₂, hbmfree, hbmsize,
    htext.congr fun x hlo hhi => storeLE_of_notMem ?_, hba, hbafree, hbasize, ?_⟩
  · unfold Block.stop at hx
    omega
  · omega
  · rw [← hnum, loadLE_storeLE_mod]
    exact loadLE_add_mod 6 2 k₂.mem (bm.addr + 20)

/-- The three words of the EEPROM. -/
theorem exists_eepromWords (mmap : Mmap E) {eerd : Eerd} {mac21 mac43 mac65 : ℕ} (hk : HeapInv k bs)
    (hready : Ready 208 limit k bs) (hlimit : limit < 4294967296) (hempty : k.mem empty = 0)
    (hset : Settled limit k bs empty) (hlt : empty < 4294967296) (h0 : Answers eerd 0 mac21)
    (h1 : Answers eerd 1 mac43) (h2 : Answers eerd 2 mac65) :
    ∃ k₁ k₂ k' bs',
      Yields (fun n => eepromRword (kernelSpace mmap) n eerd empty 0 k) (mac21, k₁) ∧
      Yields (fun n => eepromRword (kernelSpace mmap) n eerd empty 1 k₁) (mac43, k₂) ∧
      Yields (fun n => eepromRword (kernelSpace mmap) n eerd empty 2 k₂) (mac65, k') ∧
      Returned 208 limit k bs k.mem k' bs' := by
  obtain ⟨k₁, bs₁, hrun₁, hret₁⟩ := exists_eepromRword mmap hk hready hlimit hempty hset hlt h0
  obtain ⟨hmem₁, hset₁⟩ := hret₁.settled empty hset
  obtain ⟨k₂, bs₂, hrun₂, hret₂⟩ :=
    exists_eepromRword mmap hret₁.heap hret₁.ready hlimit (hmem₁.trans hempty) hset₁ hlt h1
  obtain ⟨hmem₂, hset₂⟩ := (hret₁.trans hret₂).settled empty hset
  obtain ⟨k', bs', hrun, hret⟩ :=
    exists_eepromRword mmap hret₂.heap hret₂.ready hlimit (hmem₂.trans hempty) hset₂ hlt h2
  exact ⟨k₁, k₂, k', bs', hrun₁, hrun₂, hrun, (hret₁.trans hret₂).trans hret⟩

/-- What `get_mac_addr` has done when its loop begins: the bytes are stored, and the block for the
text has at least the nine bytes of the request. -/
theorem exists_macBlocks (mmap : Mmap E) {eerd : Eerd} {mac21 mac43 mac65 : ℕ} (hk : HeapInv k bs)
    (hlimit : k.heapStart + k.heapSize + 20480 = limit) (hlt : limit < 4294967296)
    (hempty : k.mem empty = 0) (hlow : empty < k.heapStart) (h0 : Answers eerd 0 mac21)
    (h1 : Answers eerd 1 mac43) (h2 : Answers eerd 2 mac65) :
    ∃ k₀ bs₀ k' bs' bm ba bt,
      Yields (fun n => macBlocks (kernelSpace mmap) n eerd empty k)
        ⟨bm.addr + 20, ba.addr + 20, bt.addr + 20, k'⟩ ∧
      MacStored (macBytes mac21 mac43 mac65) k₀ bs₀ bm ba ∧ 9 ≤ bt.size ∧ Ready 32 limit k' bs' ∧
      ∀ L ≤ bt.size, Buffered L limit k₀ bs₀ bt [] k' bs' := by
  have hready : Ready 208 (k.heapStart + k.heapSize + 4096) k bs := Or.inl le_rfl
  obtain ⟨k₁, k₂, k₃, bs₃, hrun₁, hrun₂, hrun₃, hret⟩ := exists_eepromWords mmap hk hready
    (by omega) hempty (Or.inl hlow) (by omega) h0 h1 h2
  have hle := hret.ready.le
  -- each block may take one more page
  have hready₃ : Ready (align16 6) (k.heapStart + k.heapSize + 8192) k₃ bs₃ := Or.inl (by omega)
  obtain ⟨k₄, bs₄, bm, hrun₄, hmac⟩ := hready₃.yields_kmalloc mmap hret.heap (by omega)
    (show 6 + 35 < 4096 by decide) le_rfl
  have hle₄ := hmac.le
  obtain ⟨hbm, -, hsize⟩ := hmac.block (show SizeOk 6 by decide)
  have hk₄ := hmac.heap.store hbm (show (macBytes mac21 mac43 mac65).length ≤ bm.size from hsize)
  have hready₄ : Ready (align16 12) (k.heapStart + k.heapSize + 12288)
      { k₄ with mem := storeBytes k₄.mem (bm.addr + 20) (macBytes mac21 mac43 mac65) } bs₄ :=
    Or.inl (by simp only; omega)
  obtain ⟨k₅, bs₅, ba, hrun₅, haddr⟩ := hready₄.yields_kmalloc mmap hk₄ (by omega)
    (show 12 + 35 < 4096 by decide) le_rfl
  have hle₅ := haddr.le
  have hstored := MacStored.of_allocated (show (macBytes mac21 mac43 mac65).length = 6 from rfl)
    hmac haddr
  have hready₅ : Ready (align16 9) (k.heapStart + k.heapSize + 16384) { k₅ with
      mem := storeLE 6 k₅.mem (ba.addr + 20) (loadLE 8 k₅.mem (bm.addr + 20)) } bs₅ :=
    Or.inl (by simp only; omega)
  obtain ⟨k₆, bs₆, bt, hrun₆, hstr⟩ := hready₅.yields_kmalloc mmap hstored.heap (by omega)
    (show 9 + 35 < 4096 by decide) le_rfl
  have hle₆ := hstr.le
  obtain ⟨-, -, hnine⟩ := hstr.block (show SizeOk 9 by decide)
  refine ⟨_, bs₅, k₆, bs₆, bm, ba, bt, ?_, hstored, hnine, Or.inl (by omega), fun L hL => ?_⟩
  · exact hrun₁.bind (hrun₂.bind (hrun₃.bind (hrun₄.bind (hrun₅.bind (hrun₆.bind (Yields.const _))))))
  · exact (hstr.mono (by omega)).buffered hstored.heap (by decide) hL

end Intel8254x

end PakOS
