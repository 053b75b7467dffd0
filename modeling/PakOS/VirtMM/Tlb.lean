import PakOS.VirtMM.MapSpec

/-!
# Stale translations

The processor may cache the translation of a page whenever the page is present, and looks into its
cache first.  `mapfrCaching` and `umapfrCaching` are the steps of `mapfr` and `umapfr` with
the processor caching what it likes before, between and after them; a processor that caches nothing
leaves the functions as they are (`mapfrCaching_of_none`, `umapfrCaching_of_none`).

Both functions flush the page of the window through which they wrote the entry, and never the page
whose entry it is.  So the cache agrees with the page tables afterwards, whatever the processor
cached, exactly when the entry that is overwritten was not present or named the same frame
(`coherent_iff`).
-/

namespace PakOS

open Machine

namespace VirtMM

variable {P : Type*} {F : FramePool P} {s s' : VirtMM P}

/-- Every cached translation is the one of the page tables. -/
def Coherent (s : VirtMM P) : Prop :=
  ∀ p < 1048576, ∀ f, s.tlb p = some f → s.translate p = some f

/-- The processor caches those pages of `A` that are present. -/
def cache (A : ℕ → Bool) (s : VirtMM P) : VirtMM P :=
  { s with tlb := fun p => if A p then (s.translate p).or (s.tlb p) else s.tlb p }

/-- The frame in which the processor finds page `p`, cached or not. -/
def lookup (s : VirtMM P) (p : ℕ) : Option ℕ := (s.tlb p).or (s.translate p)

/-- Store a word at a logical address, by way of the cache. -/
def storeCached (s : VirtMM P) (a v : ℕ) : Option (VirtMM P) :=
  (s.lookup (a / 4096)).map fun f => { s with phys := setWord s.phys f (a % 4096 / 4) v }

/-- `createTable` on a processor that caches the pages of `A 1` between its two steps. -/
def createTableCaching (F : FramePool P) (A : ℕ → ℕ → Bool) (pdeIndex pteTable : ℕ)
    (s : VirtMM P) : Option (VirtMM P) :=
  if s.pde pdeIndex &&& 0x1 = 0 then
    (F.hwpalloc 1 s.pool).map fun (newHwTable, pool) =>
      nativeFlushTlbSingle
        (cache (A 1)
          { s with
            pool := pool
            phys := setWord s.phys s.pdeTable pdeIndex (newHwTable ||| 0x3) }) pteTable
  else some s

/-- `mapfr(hwaddr, lgaddr)` on a processor that caches the pages of `A 0`, …, `A 4` before, between
and after its steps. -/
def mapfrCaching (F : FramePool P) (A : ℕ → ℕ → Bool) (hwaddr lgaddr : ℕ) (s : VirtMM P) :
    Option (VirtMM P) :=
  let pdeIndex := lgaddr >>> 22
  let pteIndex := lgaddr >>> 12 &&& 0x3ff
  let pteTable := logicalPdeBase ||| pdeIndex <<< 12
  (createTableCaching F A pdeIndex pteTable (s.cache (A 0))).bind fun s =>
    ((s.cache (A 2)).storeCached (add32 pteTable (4 * pteIndex)) (hwaddr ||| 0x3)).map fun s =>
      ((s.cache (A 3)).nativeFlushTlbSingle (add32 pteTable (pteIndex * 4))).cache (A 4)

/-- `umapfr(lgaddr)` on such a processor. -/
def umapfrCaching (A : ℕ → ℕ → Bool) (lgaddr : ℕ) (s : VirtMM P) : Option (VirtMM P) :=
  let pdeIndex := lgaddr >>> 22
  let pteIndex := lgaddr >>> 12 &&& 0x3ff
  let pteTable := logicalPdeBase ||| pdeIndex <<< 12
  let s := s.cache (A 0)
  if s.pde pdeIndex &&& 0x1 = 0 then some s
  else
    ((s.cache (A 2)).storeCached (add32 pteTable (4 * pteIndex)) 0x0).map fun s =>
      ((s.cache (A 3)).nativeFlushTlbSingle (add32 pteTable (pteIndex * 4))).cache (A 4)

/-- The directory is its own last table and no other, and the allocator does not hand it out. -/
structure DirectoryApart (F : FramePool P) (s : VirtMM P) : Prop where
  /-- The last entry is present. -/
  present : Present (s.pde 1023)
  /-- The last entry names the directory. -/
  self : frameOf (s.pde 1023) = s.pdeTable
  /-- No other entry names the directory. -/
  alone : ∀ d < 1023, Present (s.pde d) → frameOf (s.pde d) ≠ s.pdeTable
  /-- A new table is another frame. -/
  fresh : ∀ q p', F.hwpalloc 1 s.pool = some (q, p') → frameOf (q ||| 0x3) ≠ s.pdeTable

/-- The word that `mapfr` overwrites with the entry of page `p`: it lies in the table of the page,
or in the frame that the allocator gives for a new table. -/
def overwritten (F : FramePool P) (s : VirtMM P) (p : ℕ) : ℕ :=
  if Present (s.pde (p / 1024)) then s.phys (frameOf (s.pde (p / 1024))) (p % 1024)
  else
    match F.hwpalloc 1 s.pool with
    | some (q, _) => s.phys (frameOf (q ||| 0x3)) (p % 1024)
    | none => 0

/-! ### Caching and flushing -/

@[simp] theorem translate_cache (A : ℕ → Bool) (p : ℕ) :
    (s.cache A).translate p = s.translate p := rfl

@[simp] theorem pde_cache (A : ℕ → Bool) (d : ℕ) : (s.cache A).pde d = s.pde d := rfl

/-- A processor that caches nothing. -/
theorem cache_of_none : s.cache (fun _ => false) = s := rfl

/-- Caching present translations keeps the cache coherent. -/
theorem Coherent.cache (h : Coherent s) (A : ℕ → Bool) : Coherent (s.cache A) := by
  intro p hp f hf
  change (if A p then (s.translate p).or (s.tlb p) else s.tlb p) = some f at hf
  rw [translate_cache]
  split at hf
  · cases htrans : s.translate p with
    | none =>
      rw [htrans] at hf
      exact htrans.symm.trans (h p hp f hf)
    | some g =>
      rw [htrans] at hf
      exact hf
  · exact h p hp f hf

/-- Dropping translations keeps the cache coherent. -/
theorem Coherent.nativeFlushTlbSingle (h : Coherent s) (a : ℕ) :
    Coherent (s.nativeFlushTlbSingle a) := by
  intro p hp f hf
  change Function.update s.tlb (a / 4096) none p = some f at hf
  by_cases hpa : p = a / 4096
  · rw [hpa, Function.update_self] at hf
    exact absurd hf (Option.some_ne_none f).symm
  · rw [Function.update_of_ne hpa] at hf
    exact h p hp f hf

/-- With a coherent cache the processor finds what the page tables say. -/
theorem Coherent.lookup (h : Coherent s) {p : ℕ} (hp : p < 1048576) : s.lookup p = s.translate p := by
  unfold VirtMM.lookup
  cases hf : s.tlb p with
  | none => rfl
  | some f => exact (h p hp f hf).symm

/-! ### Writing an entry -/

/-- The translations after an entry was replaced in a table that is not the directory; regions may
share the table. -/
theorem translate_edit {p q v : ℕ} (happart : frameOf (s.pde (p / 1024)) ≠ s.pdeTable) :
    (s.edit p v).translate q =
      if Present (s.pde (q / 1024)) ∧ frameOf (s.pde (q / 1024)) = frameOf (s.pde (p / 1024)) ∧
        q % 1024 = p % 1024 then decode v else s.translate q := by
  have hpde : (s.edit p v).phys s.pdeTable (q / 1024) = s.pde (q / 1024) := by
    change setWord s.phys _ _ v s.pdeTable (q / 1024) = _
    rw [setWord_apply, if_neg fun h => happart h.1.symm]
    rfl
  by_cases hpres : Present (s.pde (q / 1024))
  · have hwalk : (s.edit p v).translate q =
        decode ((s.edit p v).phys (frameOf (s.pde (q / 1024))) (q % 1024)) := by
      have hwalk := @pageWalk_of_present (s.edit p v).phys s.pdeTable q (by rw [hpde]; exact hpres)
      rwa [hpde] at hwalk
    rw [hwalk]
    change decode (setWord s.phys (frameOf (s.pde (p / 1024))) (p % 1024) v _ _) = _
    rw [setWord_apply]
    by_cases hsame : frameOf (s.pde (q / 1024)) = frameOf (s.pde (p / 1024)) ∧ q % 1024 = p % 1024
    · rw [if_pos hsame, if_pos ⟨hpres, hsame⟩]
    · rw [if_neg hsame, if_neg fun h => hsame h.2]
      exact (pageWalk_of_present hpres).symm
  · rw [if_neg fun h => hpres h.1]
    have hwalk := @pageWalk_of_not_present (s.edit p v).phys s.pdeTable q
      (by rw [hpde]; exact hpres)
    exact hwalk.trans (pageWalk_of_not_present hpres).symm

/-- Replacing an entry that was not present, or by one for the same frame, keeps the cache
coherent. -/
theorem Coherent.edit (h : Coherent s) {p v : ℕ}
    (happart : frameOf (s.pde (p / 1024)) ≠ s.pdeTable)
    (hold : decode (s.phys (frameOf (s.pde (p / 1024))) (p % 1024)) = none ∨
      decode (s.phys (frameOf (s.pde (p / 1024))) (p % 1024)) = decode v) :
    Coherent (s.edit p v) := by
  intro q hq g hg
  have htrans := h q hq g hg
  rw [translate_edit happart]
  split
  · next hsame =>
    obtain ⟨hpres, htable, hindex⟩ := hsame
    -- the page was translated by the word that is overwritten
    have hword := (pageWalk_of_present hpres).symm.trans htrans
    change decode (s.phys (frameOf (s.pde (q / 1024))) (q % 1024)) = some g at hword
    rw [htable, hindex] at hword
    rcases hold with hnone | heq
    · exact absurd (hnone.symm.trans hword) (Option.some_ne_none g).symm
    · exact heq.symm.trans hword
  · exact htrans

/-- Writing an entry of the directory that was not present keeps the cache coherent. -/
theorem Coherent.setWord_dir (hs : DirectoryApart F s) (h : Coherent s) {d v : ℕ} {pool : P}
    (hd : d < 1023) (habs : ¬Present (s.pde d)) :
    Coherent { s with pool := pool, phys := setWord s.phys s.pdeTable d v } := by
  intro q hq g hg
  have htrans := h q hq g hg
  have hqpres : Present (s.pde (q / 1024)) := by
    by_contra hne
    exact absurd ((pageWalk_of_not_present hne).symm.trans htrans) (Option.some_ne_none g).symm
  have hqd : q / 1024 ≠ d := fun heq => habs (heq ▸ hqpres)
  have hword := (pageWalk_of_present hqpres).symm.trans htrans
  have hpde : setWord s.phys s.pdeTable d v s.pdeTable (q / 1024) = s.pde (q / 1024) := by
    rw [setWord_apply, if_neg fun heq => hqd heq.2]
    rfl
  have hwalk := pageWalk_of_present (m := setWord s.phys s.pdeTable d v) (p := q)
    (hpde.symm ▸ hqpres)
  refine hwalk.trans ?_
  rw [hpde, setWord_apply, if_neg fun heq => ?_]
  · exact hword
  · -- the window page of the new table was not translated before
    have hlast : q / 1024 = 1023 := by
      by_contra hne
      exact hs.alone _ (by omega) hqpres heq.1
    change decode (s.phys (frameOf (s.pde (q / 1024))) (q % 1024)) = some g at hword
    rw [hlast, hs.self, heq.2] at hword
    exact absurd ((decode_of_not_present habs).symm.trans hword) (Option.some_ne_none g).symm

/-- Storing the entry of a page by way of a coherent cache. -/
theorem Coherent.storeCached_entry (h : Coherent s) (hlast : Present (s.pde 1023))
    (hself : frameOf (s.pde 1023) = s.pdeTable) {lg v : ℕ} (hlg : lg < 4294967296)
    (hpres : Present (s.pde (lg / 4096 / 1024))) :
    s.storeCached (add32 (logicalPdeBase ||| lg >>> 22 <<< 12) (4 * (lg >>> 12 &&& 0x3ff))) v =
      some (s.edit (lg / 4096) v) := by
  rw [← store_entry hlast hself hlg hpres, storeCached, store, h.lookup]
  have haddr := add32_lt (logicalPdeBase ||| lg >>> 22 <<< 12) (4 * (lg >>> 12 &&& 0x3ff))
  omega

/-- The page that the two functions flush at the end is one of the window. -/
theorem flushed_page {p : ℕ} (hp : p < 1047552) :
    add32 (logicalPdeBase ||| (4096 * p) >>> 22 <<< 12) (((4096 * p) >>> 12 &&& 0x3ff) * 4) / 4096 =
      windowPage (p / 1024) := by
  rw [Nat.mul_comm ((4096 * p) >>> 12 &&& 0x3ff) 4, entryAddr_eq (by omega),
    Nat.mul_div_cancel_left p (by decide)]
  omega

/-! ### The two functions -/

/-- A state in which the table of region `d` is there. -/
structure TableReady (d : ℕ) (s : VirtMM P) : Prop where
  /-- The last entry is present. -/
  present : Present (s.pde 1023)
  /-- The last entry names the directory. -/
  self : frameOf (s.pde 1023) = s.pdeTable
  /-- The table is present. -/
  table : Present (s.pde d)
  /-- The table is not the directory. -/
  apart : frameOf (s.pde d) ≠ s.pdeTable
  /-- The cache is coherent. -/
  coherent : Coherent s

/-- After the first part of `mapfr` the table is there, and the word of the page is the one that
will be overwritten. -/
theorem createTableCaching_ready (hs : DirectoryApart F s) (h : Coherent s) {p pteTable : ℕ}
    (hp : p / 1024 < 1023) {A : ℕ → ℕ → Bool} {s₁ : VirtMM P}
    (hk : createTableCaching F A (p / 1024) pteTable s = some s₁) :
    TableReady (p / 1024) s₁ ∧
      s₁.phys (frameOf (s₁.pde (p / 1024))) (p % 1024) = overwritten F s p := by
  unfold createTableCaching at hk
  unfold overwritten
  by_cases hpres : Present (s.pde (p / 1024))
  · rw [if_neg fun h0 => and_one_eq_zero_iff.mp h0 hpres] at hk
    obtain rfl := Option.some.inj hk
    rw [if_pos hpres]
    exact ⟨⟨hs.present, hs.self, hpres, hs.alone _ hp hpres, h⟩, rfl⟩
  · rw [if_pos (and_one_eq_zero_iff.mpr hpres)] at hk
    obtain ⟨⟨q, pool⟩, hcall, rfl⟩ := Option.map_eq_some_iff.mp hk
    rw [if_neg hpres, hcall]
    have hfresh := hs.fresh q pool hcall
    have hpde : ∀ d, setWord s.phys s.pdeTable (p / 1024) (q ||| 0x3) s.pdeTable d =
        if d = p / 1024 then q ||| 0x3 else s.pde d := by
      intro d
      rw [setWord_apply]
      simp only [true_and]
      rfl
    have hlast := hpde 1023
    rw [if_neg (by omega)] at hlast
    have htable := hpde (p / 1024)
    rw [if_pos rfl] at htable
    refine ⟨⟨?_, ?_, ?_, ?_, ?_⟩, ?_⟩
    · change Present (setWord s.phys s.pdeTable (p / 1024) (q ||| 0x3) s.pdeTable 1023)
      rw [hlast]
      exact hs.present
    · exact (congrArg frameOf hlast).trans hs.self
    · change Present (setWord s.phys s.pdeTable (p / 1024) (q ||| 0x3) s.pdeTable (p / 1024))
      rw [htable]
      exact present_or_three _
    · exact fun heq => hfresh ((congrArg frameOf htable).symm.trans heq)
    · exact ((h.setWord_dir hs hp hpres).cache _).nativeFlushTlbSingle _
    · change setWord s.phys s.pdeTable (p / 1024) (q ||| 0x3)
        (frameOf (setWord s.phys s.pdeTable (p / 1024) (q ||| 0x3) s.pdeTable (p / 1024)))
          (p % 1024) = _
      rw [htable, setWord_apply, if_neg fun heq => hfresh heq.1]

/-- The state that the rest of `mapfr` and of `umapfr` leaves, once the table is there: the entry of
page `p` is `v`, and the page of address `a` was flushed. -/
def afterEdit (A : ℕ → ℕ → Bool) (p v a : ℕ) (s : VirtMM P) : VirtMM P :=
  ((((s.cache (A 2)).edit p v).cache (A 3)).nativeFlushTlbSingle a).cache (A 4)

/-- The rest of the two functions when the table is there. -/
theorem TableReady.storeCached_eq {p v a : ℕ} (hs : TableReady (p / 1024) s) (hp : p < 1047552)
    (A : ℕ → ℕ → Bool) :
    ((s.cache (A 2)).storeCached
      (add32 (logicalPdeBase ||| (4096 * p) >>> 22 <<< 12) (4 * ((4096 * p) >>> 12 &&& 0x3ff)))
        v).map (fun s => ((s.cache (A 3)).nativeFlushTlbSingle a).cache (A 4)) =
      some (afterEdit A p v a s) := by
  have hpage : 4096 * p / 4096 = p := Nat.mul_div_cancel_left p (by decide)
  have hstore := (hs.coherent.cache (A 2)).storeCached_entry (v := v) hs.present hs.self
    (show 4096 * p < 4294967296 by omega) (by rw [hpage]; exact hs.table)
  rw [hstore, hpage]
  rfl

/-- The activity of a processor that caches page `p` just before the entry is written, and nothing
else. -/
def touching (p i q : ℕ) : Bool := decide (i = 2 ∧ q = p)

/-- A page that is cached before its entry is written stays in the cache, when another page is
flushed. -/
theorem tlb_afterEdit {p v a g : ℕ} (hpa : p ≠ a / 4096) (htrans : s.translate p = some g) :
    (afterEdit (touching p) p v a s).tlb p = some g := by
  have hcached : (s.cache (touching p 2)).tlb p = some g := by
    change (if touching p 2 p then (s.translate p).or (s.tlb p) else s.tlb p) = some g
    rw [if_pos (by simp [touching]), htrans]
    rfl
  have hlater : ∀ (t : VirtMM P) (i : ℕ), i ≠ 2 → (t.cache (touching p i)).tlb p = t.tlb p :=
    fun t i hi => if_neg (by simp [touching, hi])
  have hflush : ∀ t : VirtMM P, (t.nativeFlushTlbSingle a).tlb p = t.tlb p := by
    intro t
    change Function.update t.tlb (a / 4096) none p = t.tlb p
    rw [Function.update_of_ne hpa]
  rw [afterEdit, hlater _ 4 (by decide), hflush, hlater _ 3 (by decide)]
  exact hcached

/-- When the overwritten entry was not present or named the same frame, the rest leaves a coherent
cache, whatever is cached on the way. -/
theorem TableReady.coherent_afterEdit {p v a : ℕ} (hs : TableReady (p / 1024) s)
    (hold : decode (s.phys (frameOf (s.pde (p / 1024))) (p % 1024)) = none ∨
      decode (s.phys (frameOf (s.pde (p / 1024))) (p % 1024)) = decode v) (A : ℕ → ℕ → Bool) :
    Coherent (afterEdit A p v a s) :=
  have hedit := (hs.coherent.cache (A 2)).edit hs.apart hold
  ((hedit.cache (A 3)).nativeFlushTlbSingle a).cache (A 4)

/-- Otherwise it does not, if the page is cached before its entry is written: it is another page
that is flushed. -/
theorem TableReady.of_coherent_afterEdit {p v a : ℕ} (hs : TableReady (p / 1024) s)
    (hp : p < 1047552) (ha : a / 4096 = windowPage (p / 1024))
    (hcoh : Coherent (afterEdit (touching p) p v a s)) :
    decode (s.phys (frameOf (s.pde (p / 1024))) (p % 1024)) = none ∨
      decode (s.phys (frameOf (s.pde (p / 1024))) (p % 1024)) = decode v := by
  cases hold : decode (s.phys (frameOf (s.pde (p / 1024))) (p % 1024)) with
  | none => exact Or.inl rfl
  | some g =>
    have hpa : p ≠ a / 4096 := by
      rw [ha]
      unfold windowPage
      omega
    have htrans : s.translate p = some g := (pageWalk_of_present hs.table).trans hold
    have hstale := hcoh p (by omega) g (tlb_afterEdit hpa htrans)
    have hnew : (afterEdit (touching p) p v a s).translate p = decode v :=
      (translate_edit hs.apart).trans (if_pos ⟨hs.table, rfl, rfl⟩)
    exact Or.inr (hstale.symm.trans hnew)

/-- `mapfr` when the first part has made the table exist. -/
theorem mapfrCaching_eq {p f : ℕ} {A : ℕ → ℕ → Bool} {s₁ : VirtMM P} (hp : p < 1047552)
    (hs₁ : TableReady (p / 1024) s₁)
    (hk : createTableCaching F A (p / 1024) (logicalPdeBase ||| (p / 1024) <<< 12)
      (s.cache (A 0)) = some s₁) :
    ∃ a, a / 4096 = windowPage (p / 1024) ∧
      mapfrCaching F A (4096 * f) (4096 * p) s = some (afterEdit A p (4096 * f ||| 0x3) a s₁) := by
  have hindex : (4096 * p) >>> 22 = p / 1024 := by
    rw [shiftRight_22, Nat.mul_div_cancel_left p (by decide)]
  refine ⟨_, flushed_page hp, ?_⟩
  rw [mapfrCaching]
  simp only [hindex, hk, Option.bind_some]
  have hrest := hs₁.storeCached_eq (v := 4096 * f ||| 0x3)
    (a := add32 (logicalPdeBase ||| (4096 * p) >>> 22 <<< 12) (((4096 * p) >>> 12 &&& 0x3ff) * 4)) hp A
  rwa [hindex] at hrest

/-- Caching before the call changes nothing about the directory. -/
theorem DirectoryApart.cache (hs : DirectoryApart F s) (A : ℕ → Bool) :
    DirectoryApart F (s.cache A) := ⟨hs.present, hs.self, hs.alone, hs.fresh⟩

/-- The first part returns unless the allocator is asked and does not, and then there is no word to
overwrite. -/
theorem overwritten_of_createTableCaching_eq_none {p pteTable : ℕ} {A : ℕ → ℕ → Bool}
    (hk : createTableCaching F A (p / 1024) pteTable s = none) : overwritten F s p = 0 := by
  unfold createTableCaching at hk
  unfold overwritten
  by_cases hpres : Present (s.pde (p / 1024))
  · rw [if_neg fun h0 => and_one_eq_zero_iff.mp h0 hpres] at hk
    exact absurd hk (Option.some_ne_none s)
  · rw [if_pos (and_one_eq_zero_iff.mpr hpres)] at hk
    rw [if_neg hpres, Option.map_eq_none_iff.mp hk]

/-- Whatever the processor caches, `mapfr` leaves a coherent cache exactly if the entry it
overwrites was not present or named the same frame. -/
theorem coherent_mapfrCaching_iff (hs : DirectoryApart F s) (h : Coherent s) {p f : ℕ}
    (hp : p < 1047552) :
    (∀ A s', mapfrCaching F A (4096 * f) (4096 * p) s = some s' → Coherent s') ↔
      decode (overwritten F s p) = none ∨ decode (overwritten F s p) = some f := by
  have hnew : decode (4096 * f ||| 0x3) = some f := by
    rw [decode_of_present (present_or_three _), frameOf_or_three]
  have hd : p / 1024 < 1023 := by omega
  constructor
  · intro hall
    cases hk : createTableCaching F (touching p) (p / 1024) (logicalPdeBase ||| (p / 1024) <<< 12)
        (s.cache (touching p 0)) with
    | none =>
      have hzero : overwritten F s p = 0 := overwritten_of_createTableCaching_eq_none hk
      rw [hzero]
      exact Or.inl (by decide)
    | some s₁ =>
      obtain ⟨hs₁, hword⟩ := createTableCaching_ready (hs.cache _) (h.cache _) hd hk
      obtain ⟨a, ha, hmap⟩ := mapfrCaching_eq (f := f) hp hs₁ hk
      have hold := hs₁.of_coherent_afterEdit hp ha (hall _ _ hmap)
      rwa [hword, hnew] at hold
  · intro hold A s' hmap
    cases hk : createTableCaching F A (p / 1024) (logicalPdeBase ||| (p / 1024) <<< 12)
        (s.cache (A 0)) with
    | none =>
      have hindex : (4096 * p) >>> 22 = p / 1024 := by
        rw [shiftRight_22, Nat.mul_div_cancel_left p (by decide)]
      rw [mapfrCaching] at hmap
      simp only [hindex, hk, Option.bind_none] at hmap
      exact absurd hmap.symm (Option.some_ne_none s')
    | some s₁ =>
      obtain ⟨hs₁, hword⟩ := createTableCaching_ready (hs.cache _) (h.cache _) hd hk
      obtain ⟨a, -, hmap'⟩ := mapfrCaching_eq (f := f) hp hs₁ hk
      obtain rfl := Option.some.inj (hmap.symm.trans hmap')
      apply hs₁.coherent_afterEdit
      rwa [hword, hnew]

/-- Whatever the processor caches, `umapfr` leaves a coherent cache exactly if the page was not
mapped. -/
theorem coherent_umapfrCaching_iff (hs : DirectoryApart F s) (h : Coherent s) {p : ℕ}
    (hp : p < 1047552) :
    (∀ A s', umapfrCaching A (4096 * p) s = some s' → Coherent s') ↔ s.translate p = none := by
  have hindex : (4096 * p) >>> 22 = p / 1024 := by
    rw [shiftRight_22, Nat.mul_div_cancel_left p (by decide)]
  by_cases hpres : Present (s.pde (p / 1024))
  · have hready : ∀ A, TableReady (p / 1024) (s.cache A) := fun A =>
      ⟨hs.present, hs.self, hpres, hs.alone _ (by omega) hpres, h.cache A⟩
    have hwalk : s.translate p = decode (s.phys (frameOf (s.pde (p / 1024))) (p % 1024)) :=
      pageWalk_of_present hpres
    have hrun : ∀ A, ∃ a, a / 4096 = windowPage (p / 1024) ∧
        umapfrCaching A (4096 * p) s = some (afterEdit A p 0x0 a (s.cache (A 0))) := by
      intro A
      refine ⟨_, flushed_page hp, ?_⟩
      have hrest := (hready (A 0)).storeCached_eq (v := 0x0)
        (a := add32 (logicalPdeBase ||| (4096 * p) >>> 22 <<< 12)
          (((4096 * p) >>> 12 &&& 0x3ff) * 4)) hp A
      rw [hindex] at hrest
      rw [umapfrCaching]
      simp only [hindex, pde_cache]
      rw [if_neg fun h0 => and_one_eq_zero_iff.mp h0 hpres]
      exact hrest
    rw [hwalk]
    constructor
    · intro hall
      obtain ⟨a, ha, hmap⟩ := hrun (touching p)
      have hold := (hready _).of_coherent_afterEdit hp ha (hall _ _ hmap)
      exact hold.elim id fun heq => heq.trans (by decide)
    · intro hnone A s' hmap
      obtain ⟨a, -, hmap'⟩ := hrun A
      obtain rfl := Option.some.inj (hmap.symm.trans hmap')
      exact (hready _).coherent_afterEdit (Or.inl hnone) A
  · refine iff_of_true (fun A s' hmap => ?_) (pageWalk_of_not_present hpres)
    rw [umapfrCaching] at hmap
    simp only [hindex, pde_cache] at hmap
    rw [if_pos (and_one_eq_zero_iff.mpr hpres)] at hmap
    obtain rfl := Option.some.inj hmap
    exact h.cache _

/-! ### Without caching -/

/-- Storing by way of a coherent cache is storing. -/
theorem Coherent.storeCached (h : Coherent s) {a : ℕ} (ha : a < 4294967296) (v : ℕ) :
    s.storeCached a v = s.store a v := by
  rw [VirtMM.storeCached, store, h.lookup (by omega)]

/-- On a processor that caches nothing `mapfrCaching` is `mapfr`. -/
theorem mapfrCaching_of_none (hs : DirectoryApart F s) (h : Coherent s) {p hw : ℕ}
    (hp : p < 1047552) :
    mapfrCaching F (fun _ _ => false) hw (4096 * p) s = mapfr F hw (4096 * p) s := by
  have hindex : (4096 * p) >>> 22 = p / 1024 := by
    rw [shiftRight_22, Nat.mul_div_cancel_left p (by decide)]
  rw [mapfrCaching, mapfr]
  simp only [cache_of_none]
  change (createTable F _ _ s).bind _ = (createTable F _ _ s).bind _
  cases hk : createTable F ((4096 * p) >>> 22) (logicalPdeBase ||| (4096 * p) >>> 22 <<< 12) s with
  | none => rfl
  | some s₁ =>
    rw [hindex] at hk
    have hk' : createTableCaching F (fun _ _ => false) (p / 1024)
        (logicalPdeBase ||| (p / 1024) <<< 12) s = some s₁ := hk
    have hs₁ := (createTableCaching_ready hs h (by omega) hk').1
    rw [Option.bind_some, Option.bind_some, hs₁.coherent.storeCached (add32_lt _ _)]

/-- On a processor that caches nothing `umapfrCaching` is `umapfr`. -/
theorem umapfrCaching_of_none (h : Coherent s) (lg : ℕ) :
    umapfrCaching (fun _ _ => false) lg s = umapfr lg s := by
  rw [umapfrCaching, umapfr]
  simp only [cache_of_none]
  rw [h.storeCached (add32_lt _ _)]
  rfl

/-! ### When the cache stays coherent -/

/-- The directory of a sound state is apart. -/
theorem Sound.directoryApart (hF : F.Lawful) (hs : Sound F s) (hpos : 0 < s.pdeTable) :
    DirectoryApart F s := by
  have hlast : Present (s.pde 1023) := hs.selfMapped.present
  have hself : frameOf (s.pde 1023) = s.pdeTable := hs.selfMapped.self
  refine ⟨hlast, hself, fun d hd hpres heq => ?_, fun q p' hcall heq => ?_⟩
  · have hsame := hs.selfMapped.distinct d (by omega) 1023 le_rfl hpres hlast (heq.trans hself.symm)
    omega
  · by_cases hq : q = 0
    · rw [hq] at heq
      exact hpos.ne heq
    · obtain ⟨a, rfl, htakes⟩ := hF.takes (by decide) hcall hq
      -- the directory is in use, the new table was free
      rw [frameOf_or_three] at heq
      have hfree := htakes.free a le_rfl (by omega)
      have huse := hs.inUse 1023 le_rfl hlast
      rw [hself, ← heq, hfree] at huse
      exact Bool.false_ne_true huse

/-- From a coherent cache, whatever the processor caches on the way: `mapfr` leaves a coherent one
exactly if the entry it overwrites was not present or named the same frame, and `umapfr` exactly if
the page was not mapped. -/
theorem coherent_iff (hs : DirectoryApart F s) (h : Coherent s) {p : ℕ} (hp : p < 1047552)
    (f : ℕ) :
    ((∀ A s', mapfrCaching F A (4096 * f) (4096 * p) s = some s' → Coherent s') ↔
      decode (overwritten F s p) = none ∨ decode (overwritten F s p) = some f) ∧
    ((∀ A s', umapfrCaching A (4096 * p) s = some s' → Coherent s') ↔ s.translate p = none) :=
  ⟨coherent_mapfrCaching_iff hs h hp, coherent_umapfrCaching_iff hs h hp⟩

/-- A page that is mapped for the first time leaves nothing stale. -/
theorem coherent_oneTable :
    (∀ A s', mapfrCaching eightFrames A (4096 * 256) (4096 * 0xd0000) oneTable = some s' →
      Coherent s') ∧
    (∀ A s', umapfrCaching A (4096 * 0xd0000) oneTable = some s' → Coherent s') := by
  have hiff := coherent_iff (oneTable_sound.directoryApart eightFrames_lawful (by decide))
    (fun p _ f hf => absurd hf (Option.some_ne_none f).symm) (show 0xd0000 < 1047552 by decide) 256
  exact ⟨hiff.1.mpr (by decide), hiff.2.mpr (by decide)⟩

/-- The first heap page, touched once since it was mapped. -/
def touchedPage : VirtMM (ℕ → Bool) := firstHeapPage.cache fun p => decide (p = 0xd0000)

/-- When a page that was touched is mapped to another frame, or unmapped, its old translation stays
in the cache. -/
theorem touchedPage_stale : DirectoryApart eightFrames touchedPage ∧ Coherent touchedPage ∧
    (mapfr eightFrames (4096 * 257) (4096 * 0xd0000) touchedPage).map
      (fun s => (s.tlb 0xd0000, s.translate 0xd0000)) = some (some 256, some 257) ∧
    (umapfr (4096 * 0xd0000) touchedPage).map
      (fun s => (s.tlb 0xd0000, s.translate 0xd0000)) = some (some 256, none) ∧
    ¬(∀ A s', mapfrCaching eightFrames A (4096 * 257) (4096 * 0xd0000) touchedPage = some s' →
      Coherent s') ∧
    ¬∀ A s', umapfrCaching A (4096 * 0xd0000) touchedPage = some s' → Coherent s' := by
  have hsound : Sound eightFrames firstHeapPage :=
    (oneTable_sound.mapped_edit (by decide) (by decide) fun h => absurd h (by decide)).sound
  have hapart : DirectoryApart eightFrames touchedPage :=
    (hsound.directoryApart eightFrames_lawful (by decide)).cache _
  have hcoh : Coherent touchedPage :=
    Coherent.cache (fun p _ f hf => absurd hf (Option.some_ne_none f).symm) _
  refine ⟨hapart, hcoh, by decide +kernel, by decide +kernel, ?_, ?_⟩
  · exact (coherent_mapfrCaching_iff hapart hcoh (by decide)).not.mpr (by decide +kernel)
  · exact (coherent_umapfrCaching_iff hapart hcoh (by decide)).not.mpr (by decide +kernel)

end VirtMM

end PakOS
