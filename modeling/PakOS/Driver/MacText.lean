import PakOS.Driver.MacAddr
import PakOS.Kmalloc.Buffer
import PakOS.Klibc.PrintkOutput

/-!
# The text of a MAC address

The six rounds of `get_mac_addr` store eighteen characters, three for each byte.  A round keeps to
the first `L` bytes of the block exactly if it ends there (`guarded_macRound`), and so all of them
do exactly if eighteen bytes fit (`guarded_macLoop`), but the request is for nine.
-/

namespace PakOS

open Machine Coalesce Numeral

namespace Intel8254x

variable {E : Type*} {mmap : Mmap E} {limit L : ℕ} {k₀ k : Kernel E} {bs₀ bs : List Block}
  {bm ba bt : Block} {mac out : List UInt8}

/-! ### A round -/

/-- The numeral of a byte has a first character. -/
theorem length_itoaText_pos (v : UInt8) : 0 < (itoaText 16 v.toNat).length := by
  have hv := v.toNat_lt
  rw [itoaText_of_lt (by omega)]
  exact length_numeral_pos 16 v.toNat

/-- What the three stores of a round leave, when the numeral lies outside of them. -/
theorem macStores_spec {m : Mem} {str s i c : ℕ} {v : UInt8}
    (hs : CString m s (itoaText 16 v.toNat)) (hlt : str + c + 3 ≤ 4294967296)
    (hapart : str + c + 3 ≤ s ∨ s + 2 ≤ str + c) :
    Holds (macStores str s i c m) (str + c) (macGroup i v) ∧
      ∀ x, x < str + c ∨ str + c + 3 ≤ x → macStores str s i c m x = m x := by
  have hslt := hs.lt
  have hpos := length_itoaText_pos v
  have hfirst : m s = (itoaText 16 v.toNat).getD 0 0 := hs.getD (Nat.zero_le _)
  have hsecond : m (s + 1) = (itoaText 16 v.toNat).getD 1 0 := hs.getD hpos
  unfold macStores
  simp only [add32_of_lt (show str + c < 4294967296 by omega),
    add32_of_lt (show str + (c + 1) < 4294967296 by omega),
    add32_of_lt (show str + (c + 2) < 4294967296 by omega),
    add32_of_lt (show s + 1 < 4294967296 by omega)]
  have hs₀ : ∀ w, Function.update m (str + c) w s = m s := fun w =>
    Function.update_of_ne (by omega) _ _
  have hs₁ : ∀ w, Function.update m (str + c) w (s + 1) = m (s + 1) := fun w =>
    Function.update_of_ne (by omega) _ _
  rw [hs₀, hs₁, hfirst, hsecond]
  refine ⟨⟨?_, ?_, ?_, trivial⟩, fun x hx => ?_⟩
  · rw [Function.update_of_ne (by omega), Function.update_of_ne (by omega), Function.update_self]
  · rw [Function.update_of_ne (by omega)]
    exact Function.update_self _ _ _
  · exact Function.update_self _ _ _
  · rw [Function.update_of_ne (by omega), Function.update_of_ne (by omega),
      Function.update_of_ne (by omega)]

/-- A round for the byte `v`, which is byte `i` of the address. -/
theorem guarded_macRound (mmap : Mmap E) (hstored : MacStored mac k₀ bs₀ bm ba)
    (hlen : mac.length = 6) {i : ℕ} {v : UInt8} (hv : mac[i]? = some v)
    (hbuf : Buffered L limit k₀ bs₀ bt out k bs) (hout : out.length ≤ L)
    (hready : Ready 32 limit k bs) (hlimit : limit < 4294967296) :
    Guarded (· < L) (¬ · < L) (out.length + 3 ≤ L)
      (fun n => macRound (kernelSpace mmap) n (bm.addr + 20) (bt.addr + 20) i out.length k)
      fun k' => ∃ bs', Buffered L limit k₀ bs₀ bt (out ++ macGroup i v) k' bs' ∧
        Ready 32 limit k' bs' := by
  have hv₂₅₆ := v.toNat_lt
  obtain ⟨hi, hvi⟩ := List.getElem?_eq_some_iff.mp hv
  rw [hlen] at hi
  -- the byte still stands in the block of `mac`
  have hbounds := hstored.heap.block_bounds hstored.mac_mem
  have hmacsize := hstored.mac_size
  have hbyte : k.mem (add32 (bm.addr + 20) i) = v := by
    rw [add32_of_lt (by omega), (hbuf.settled _ (Or.inr (Or.inr ⟨bm, hstored.mac_mem,
      hstored.mac_inUse, by omega, by omega⟩))).1, holds_iff.mp hstored.mac_text i (by omega), hvi]
  obtain ⟨k₁, bs₁, b, hitoa, hhanded, hstr, hstop⟩ := exists_itoa_handed mmap hbuf.heap hready hlimit
    (Or.inr rfl : 16 = 10 ∨ 16 = 16) (show v.toNat < 18446744073709551616 by omega)
  unfold macRound
  rw [hbyte]
  refine Guarded.ofOption_bind hitoa (Guarded.emit_bind (fun hok e he => ?_) (fun hbad => ?_)
    fun hok => ?_)
  · simp only [List.mem_cons, List.not_mem_nil, or_false] at he
    omega
  · exact ⟨out.length + 2, by simp, by omega⟩
  -- the numeral lies outside of the three bytes that are stored
  have hlt := hbuf.lt
  have hpos := length_itoaText_pos v
  have hout₀ : ∀ j < 3, bt.addr + 20 + out.length + j < b.addr + 20 ∨
      b.stop ≤ bt.addr + 20 + out.length + j := fun j hj =>
    (hhanded.settled _ (hbuf.settled_text le_rfl (by omega) (by omega))).2.2
  have hapart : bt.addr + 20 + out.length + 3 ≤ b.addr + 20 ∨
      b.addr + 20 + 2 ≤ bt.addr + 20 + out.length := by
    have h0 := hout₀ 0 (by decide)
    have h1 := hout₀ 1 (by decide)
    have h2 := hout₀ 2 (by decide)
    omega
  obtain ⟨hgroup, hframe⟩ := macStores_spec (i := i) hstr (by omega) hapart
  have hsize := hbuf.size
  have hwritten := (hbuf.handed hout hhanded).write (fun x hx => hframe x (by
    unfold Block.stop at hx
    omega)) hgroup
  obtain ⟨k', hkfree, hret⟩ := hhanded.returned (kernelSpace mmap) hwritten.heap
  refine Guarded.ofOption_bind hkfree (Guarded.ret ⟨_, hbuf.returned ?_ hwritten hret, hret.ready⟩)
  rw [List.length_append]
  exact hok

/-! ### The loop -/

/-- The rounds from byte `i` on, for the bytes `vs`. -/
theorem guarded_macLoop (mmap : Mmap E) (hstored : MacStored mac k₀ bs₀ bm ba)
    (hlen : mac.length = 6) (hlimit : limit < 4294967296) {vs : List UInt8} {i : ℕ}
    (hvs : mac.drop i = vs) (hi : i + vs.length = 6) (hbuf : Buffered L limit k₀ bs₀ bt out k bs)
    (hout : out.length = 3 * i) (hle : out.length ≤ L) (hready : Ready 32 limit k bs) :
    Guarded (· < L) (¬ · < L) (vs = [] ∨ 18 ≤ L)
      (fun n => macLoop (kernelSpace mmap) n (bm.addr + 20) (bt.addr + 20) vs.length out.length k)
      fun k' => ∃ bs', Buffered L limit k₀ bs₀ bt (out ++ macChars i vs) k' bs' := by
  induction vs generalizing i k bs out with
  | nil =>
    rw [macChars, List.append_nil]
    exact (Guarded.ret ⟨bs, hbuf⟩).congr (iff_of_true trivial (Or.inl rfl))
  | cons v vs ih =>
    rw [List.length_cons] at hi ⊢
    have hv : mac[i]? = some v := by
      rw [← List.head?_drop, hvs, List.head?_cons]
    have hdrop : mac.drop (i + 1) = vs := by
      rw [← List.tail_drop, hvs, List.tail_cons]
    have hround : 5 - vs.length = i := by omega
    have hfirst := guarded_macRound mmap hstored hlen hv hbuf hle hready hlimit
    have hrest : out.length + 3 ≤ L → ∀ k₁, (∃ bs₁, Buffered L limit k₀ bs₀ bt
        (out ++ macGroup i v) k₁ bs₁ ∧ Ready 32 limit k₁ bs₁) →
        Guarded (· < L) (¬ · < L) (vs = [] ∨ 18 ≤ L)
          (fun n => macLoop (kernelSpace mmap) n (bm.addr + 20) (bt.addr + 20) vs.length
            (out.length + 3) k₁)
          fun k' => ∃ bs', Buffered L limit k₀ bs₀ bt (out ++ macChars i (v :: vs)) k' bs' := by
      rintro hok k₁ ⟨bs₁, hbuf₁, hready₁⟩
      have hgroup : (out ++ macGroup i v).length = out.length + 3 := List.length_append
      have hmore := ih hdrop (by omega) hbuf₁ (by omega) (by omega) hready₁
      rwa [hgroup, List.append_assoc] at hmore
    -- the last round ends at the eighteenth byte
    have hcond : (out.length + 3 ≤ L ∧ (vs = [] ∨ 18 ≤ L)) ↔ (v :: vs = [] ∨ 18 ≤ L) := by
      rw [or_iff_right (List.cons_ne_nil v vs)]
      constructor
      · rintro ⟨hfit, rfl | h18⟩
        · rw [List.length_nil] at hi
          omega
        · exact h18
      · intro h18
        exact ⟨by omega, Or.inr h18⟩
    simpa only [macLoop, hround] using (hfirst.bind hrest).congr hcond

/-! ### The address -/

/-- What `get_mac_addr` owes its caller: the number and the text of the address `mac` in the
structure at `addr`. -/
structure MacAddrRight (m : Mem) (addr : ℕ) (mac : List UInt8) : Prop where
  /-- `addr->bytes` -/
  bytes : loadLE 6 m addr = Nat.ofDigits 256 (mac.map UInt8.toNat)
  /-- `addr->str` -/
  str : CString m (loadLE 4 m (addr + 8)) (macText mac)

/-- The call returns the address `mac`, and stores to the first `L` bytes of the text only. -/
def MacAddrWithin (L : ℕ) (mac : List UInt8) (run : ℕ → Trace ℕ (ℕ × Kernel E)) : Prop :=
  (∀ n, ∀ c ∈ (run n).events, c < L) ∧
    ∃ n addr k', (run n).result = some (addr, k') ∧ MacAddrRight k'.mem addr mac

/-- The rounds have stored the text of the address exactly if each byte is zero or has a numeral
with two digits. -/
theorem cstring_macText_iff {m : Mem} {p : ℕ} (h : Holds m p (macChars 0 mac))
    (hlen : mac.length = 6) (hlt : p + 18 < 4294967296) :
    CString m p (macText mac) ↔ ∀ v ∈ mac, v = 0 ∨ 16 ≤ v := by
  have hne : mac ≠ [] := fun h0 => by
    rw [h0] at hlen
    exact absurd hlen (by decide)
  have htext := length_macText hne
  rw [← macChars_eq_iff hne (show 0 + mac.length = 6 by omega)]
  constructor
  · intro hstr
    refine h.eq hstr.holds ?_
    rw [length_macChars, List.length_append, List.length_singleton, htext]
  · intro heq
    exact ⟨heq ▸ h, zero_notMem_macText mac, by omega⟩

/-- The structure at the end of the call. -/
theorem macAddrRight_iff (hstored : MacStored mac k₀ bs₀ bm ba) (hlen : mac.length = 6)
    (hbuf : Buffered L limit k₀ bs₀ bt (macChars 0 mac) k bs) (hL : 18 ≤ L) :
    MacAddrRight (storeLE 4 k.mem (ba.addr + 20 + 8) (bt.addr + 20)) (ba.addr + 20) mac ↔
      ∀ v ∈ mac, v = 0 ∨ 16 ≤ v := by
  have hlt := hbuf.lt
  have hsize := hbuf.size
  have haddrsize := hstored.addr_size
  have haddr : ∀ x, ba.addr + 20 ≤ x → x < ba.addr + 32 →
      k.mem x = k₀.mem x ∧ (x < bt.addr + 20 ∨ bt.stop ≤ x) := by
    intro x hlo hhi
    obtain ⟨hmem, -, hout⟩ := hbuf.settled x
      (Or.inr (Or.inr ⟨ba, hstored.addr_mem, hstored.addr_inUse, hlo, by omega⟩))
    exact ⟨hmem, hout⟩
  have hbytes : loadLE 6 (storeLE 4 k.mem (ba.addr + 20 + 8) (bt.addr + 20)) (ba.addr + 20) =
      Nat.ofDigits 256 (mac.map UInt8.toNat) := by
    rw [loadLE_storeLE_disjoint (by omega), ← hstored.addr_bytes]
    exact loadLE_congr fun x hlo hhi => (haddr x hlo (by omega)).1
  have hstr : loadLE 4 (storeLE 4 k.mem (ba.addr + 20 + 8) (bt.addr + 20)) (ba.addr + 20 + 8) =
      bt.addr + 20 := loadLE_storeLE_same (show bt.addr + 20 < 256 ^ 4 by omega)
  have hchars : Holds (storeLE 4 k.mem (ba.addr + 20 + 8) (bt.addr + 20)) (bt.addr + 20)
      (macChars 0 mac) := by
    refine hbuf.text.congr fun x hlo hhi => storeLE_of_notMem ?_
    rw [length_macChars, hlen] at hhi
    by_contra hin
    have hout := (haddr x (by omega) (by omega)).2
    unfold Block.stop at hout
    omega
  have hiff := cstring_macText_iff hchars hlen (by omega)
  rw [← hiff]
  constructor
  · intro h
    have htext := h.str
    rwa [hstr] at htext
  · intro h
    refine ⟨hbytes, ?_⟩
    rwa [hstr]

/-- A run that keeps to `L` bytes exactly if eighteen fit, and then returns the right address
exactly if `ok` holds. -/
theorem macAddrWithin_iff {run : ℕ → Trace ℕ (ℕ × Kernel E)} {ok : Prop}
    (h : Guarded (· < L) (¬ · < L) (18 ≤ L) run fun r => MacAddrRight r.2.mem r.1 mac ↔ ok) :
    MacAddrWithin L mac run ↔ 18 ≤ L ∧ ok := by
  unfold MacAddrWithin
  rw [h.forall_events_iff]
  refine and_congr_right fun hL => ?_
  obtain ⟨r, hyields, hiff⟩ := h.exists_yields hL
  constructor
  · rintro ⟨n, addr, k', hrun, hright⟩
    obtain rfl := hyields.unique n _ hrun
    exact hiff.mp hright
  · intro hok
    obtain ⟨n, hrun⟩ := hyields.exists_run
    exact ⟨n, r.1, r.2, hrun, hiff.mpr hok⟩

/-- **The text of a MAC address.**  On every reachable heap that has room for five pages below the
end of the address space, for every EEPROM, `get_mac_addr` stores the text behind the nine bytes
that it asks for.  It keeps to the first `L` bytes of the block that it is given and returns the
address with its text exactly if eighteen bytes fit and each byte of the address is zero or has a
numeral with two digits. -/
theorem getMacAddr_within_iff {base : HeapBase} {s : History E} (hs : Reachable base mmap s)
    (hroom : s.kernel.heapStart + s.kernel.heapSize + 20480 < 4294967296) {eerd : Eerd}
    {empty mac21 mac43 mac65 : ℕ} (hempty : s.kernel.mem empty = 0)
    (hlow : empty < s.kernel.heapStart) (h0 : Answers eerd 0 mac21) (h1 : Answers eerd 1 mac43)
    (h2 : Answers eerd 2 mac65) :
    ∃ r, Yields (fun n => macBlocks (kernelSpace mmap) n eerd empty s.kernel) r ∧
      ¬MacAddrWithin 9 (macBytes mac21 mac43 mac65)
        (fun n => getMacAddr (kernelSpace mmap) n eerd empty s.kernel) ∧
      ∀ L ≤ recordedSize r.kernel r.str,
        MacAddrWithin L (macBytes mac21 mac43 mac65)
          (fun n => getMacAddr (kernelSpace mmap) n eerd empty s.kernel) ↔
        18 ≤ L ∧ ∀ v ∈ macBytes mac21 mac43 mac65, v = 0 ∨ 16 ≤ v := by
  obtain ⟨bs, h⟩ := hs.inv
  obtain ⟨k₀, bs₀, k, bs', bm, ba, bt, hblocks, hstored, hnine, hready, hbuf⟩ :=
    exists_macBlocks mmap h.heap rfl hroom hempty hlow h0 h1 h2
  have hsize : recordedSize k (bt.addr + 20) = bt.size :=
    (hbuf 0 (Nat.zero_le _)).heap.size_eq (hbuf 0 (Nat.zero_le _)).mem
  have hwithin : ∀ L ≤ bt.size, MacAddrWithin L (macBytes mac21 mac43 mac65)
      (fun n => getMacAddr (kernelSpace mmap) n eerd empty s.kernel) ↔
      18 ≤ L ∧ ∀ v ∈ macBytes mac21 mac43 mac65, v = 0 ∨ 16 ≤ v := by
    intro L hL
    have hlen : (macBytes mac21 mac43 mac65).length = 6 := rfl
    have hloop := (guarded_macLoop mmap hstored hlen hroom (i := 0) rfl rfl (hbuf L hL) rfl
      (Nat.zero_le L) hready).congr (or_iff_right (List.ne_nil_of_length_eq_add_one hlen))
    refine macAddrWithin_iff (Guarded.ofOption_bind hblocks ((hloop.bind fun h18 k' hk' => ?_).congr
      (and_iff_left trivial)))
    obtain ⟨bs₁, hbuf₁⟩ := hk'
    exact Guarded.ret (macAddrRight_iff hstored hlen hbuf₁ h18)
  refine ⟨_, hblocks, fun hnot => ?_, fun L hL => hwithin L (hsize ▸ hL)⟩
  exact absurd ((hwithin 9 hnine).mp hnot).1 (by decide)

/-- A card that answers at the first poll, with these words. -/
def answering (mac21 mac43 mac65 : ℕ) : Eerd := fun cmd _ =>
  (if cmd = 1 then mac21 else if cmd = 257 then mac43 else mac65) * 65536 + 16

/-- The call after boot on a card with the address `52:54:00:12:34:56`. -/
theorem getMacAddr_within_freshHeap :
    ∃ r, Yields (fun n => macBlocks (kernelSpace mapAll) n (answering 0x5452 0x1200 0x5634) 4096
        freshHeap.kernel) r ∧
      ¬MacAddrWithin 9 [0x52, 0x54, 0x00, 0x12, 0x34, 0x56] (fun n =>
        getMacAddr (kernelSpace mapAll) n (answering 0x5452 0x1200 0x5634) 4096 freshHeap.kernel) := by
  have hreach : Reachable kernelHeap mapAll freshHeap := reachable_historyOf _ _ _
  have hstart : freshHeap.kernel.heapStart = 0xd0000000 := by decide +kernel
  have hsize : freshHeap.kernel.heapSize = 12288 := by decide +kernel
  have hanswers : ∀ offset w, answering 0x5452 0x1200 0x5634 (1 ||| offset <<< 8) 0 = w * 65536 + 16 →
      (w * 65536 + 16) &&& 1 <<< 4 ≠ 0 → (w * 65536 + 16) / 65536 % 65536 = w →
      Answers (answering 0x5452 0x1200 0x5634) offset w := fun offset w hw hdone hword =>
    ⟨0, fun j hj => absurd hj (Nat.not_lt_zero j), hw ▸ hdone, hw ▸ hword⟩
  obtain ⟨r, hr, hnot, -⟩ := getMacAddr_within_iff hreach (by rw [hstart, hsize]; decide)
    (show freshHeap.kernel.mem 4096 = 0 by decide +kernel) (by rw [hstart]; decide)
    (hanswers 0 0x5452 rfl (by decide) (by decide))
    (hanswers 1 0x1200 rfl (by decide) (by decide)) (hanswers 2 0x5634 rfl (by decide) (by decide))
  exact ⟨r, hr, hnot⟩

/-- The call after boot on a card with the address `02:00:00:00:00:01`: the last character is stored
at index 17 of a block of 9 bytes, and behind the first character, which is `2`, the text ends. -/
theorem not_macAddrWithin_freshHeap :
    macBytes 0x0002 0x0000 0x0100 = [2, 0, 0, 0, 0, 1] ∧
      ∃ t, t = getMacAddr (kernelSpace mapAll) 12 (answering 0x0002 0x0000 0x0100) 4096
          freshHeap.kernel ∧
        17 ∈ t.events ∧ ∃ addr k', t.result = some (addr, k') ∧
          k'.mem (loadLE 4 k'.mem (addr + 8)) = 50 ∧ k'.mem (loadLE 4 k'.mem (addr + 8) + 1) = 0 ∧
          ¬MacAddrRight k'.mem addr [2, 0, 0, 0, 0, 1] ∧
          ¬MacAddrWithin 9 [2, 0, 0, 0, 0, 1] (fun n => getMacAddr (kernelSpace mapAll) n
            (answering 0x0002 0x0000 0x0100) 4096 freshHeap.kernel) := by
  have hrun : ∃ t, t = getMacAddr (kernelSpace mapAll) 12 (answering 0x0002 0x0000 0x0100) 4096
      freshHeap.kernel ∧ 17 ∈ t.events ∧ (t.result.map fun r =>
        (r.2.mem (loadLE 4 r.2.mem (r.1 + 8)), r.2.mem (loadLE 4 r.2.mem (r.1 + 8) + 1))) =
          some (50, 0) := ⟨_, rfl, by decide +kernel⟩
  obtain ⟨t, ht, hevent, hmap⟩ := hrun
  obtain ⟨r, hr, hchars⟩ := Option.map_eq_some_iff.mp hmap
  simp only [Prod.mk.injEq] at hchars
  refine ⟨by decide, t, ht, hevent, r.1, r.2, hr, hchars.1, hchars.2, fun hright => ?_,
    fun hwithin => ?_⟩
  · -- the text of the address begins with `0`
    have hfirst : r.2.mem (loadLE 4 r.2.mem (r.1 + 8)) = 48 := hright.str.getD (Nat.zero_le _)
    rw [hchars.1] at hfirst
    exact absurd hfirst (by decide)
  · have hlast := hwithin.1 12 17
    simp only [← ht] at hlast
    exact absurd (hlast hevent) (by decide)

end Intel8254x

end PakOS
