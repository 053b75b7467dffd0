import PakOS.Kernel.Boot
import PakOS.VirtMM.MapSpec

/-!
# The page tables of the boot code

`_start` of `kernel/asm/boot.s` behind the copy of the memory map: it fills three tables while
paging is off, switches paging on, and `pre_init_kernel` removes the lower mapping through the
higher one and reloads `cr3`.  `start_spec` says that the processor finds its next instruction when
paging comes on, and what every page of the address space is translated to in the end
(`BootImage.pageMap`): the kernel image and the text buffer in the higher half, the windows onto the
two tables that are left, and nothing else.
-/

namespace PakOS

open Machine

/-- `KOFF` -/
def koff : ℕ := 0xc0000000

/-- The frames that the linker gives the tables of `boot.s`.  They are part of the kernel image,
which has to end below the four megabytes that `pte_768` maps. -/
structure BootImage where
  /-- The frame of `pde_table`. -/
  pdeFrame : ℕ
  /-- The frame of `pte_0`. -/
  pte0Frame : ℕ
  /-- The frame of `pte_768`. -/
  pte768Frame : ℕ
  /-- The image begins at one megabyte and ends below four. -/
  inside : ∀ f ∈ [pdeFrame, pte0Frame, pte768Frame], 0x100 ≤ f ∧ f < 0x400
  /-- The tables are apart. -/
  apart : [pdeFrame, pte0Frame, pte768Frame].Nodup

/-- Store a word at a hardware address. -/
def physStore (m : PhysMem) (a v : ℕ) : PhysMem := setWord m (a / 4096) (a % 4096 / 4) v

/-- The loop `fill_loop`, from the values of its registers on. -/
def fillLoop (edi : ℕ) : ℕ → ℕ → ℕ → PhysMem → Option PhysMem
  | 0, _, _, _ => none
  | fuel + 1, eax, edx, m =>
    let edx := edx ||| 0x3
    let m := physStore m (add32 edi (mul32 eax 4)) edx
    let edx := add32 edx 0x1000
    let eax := add32 eax 1
    if toSigned eax < toSigned 1024 then fillLoop edi fuel eax edx m else some m

namespace BootImage

variable (img : BootImage)

/-- The symbol `pde_table`. -/
def pdeTable : ℕ := koff + 4096 * img.pdeFrame

/-- The symbol `pte_0`. -/
def pte0 : ℕ := koff + 4096 * img.pte0Frame

/-- The symbol `pte_768`. -/
def pte768 : ℕ := koff + 4096 * img.pte768Frame

/-- `_start`, from the copy of the memory map to the code that switches paging on. -/
def fillTables (fuel : ℕ) (m : PhysMem) : Option PhysMem :=
  let edi := sub32 img.pdeTable koff
  let m := physStore m (add32 edi (768 * 4)) (sub32 img.pte768 koff ||| 0x3)
  let m := physStore m edi (sub32 img.pte0 koff ||| 0x7)
  let m := physStore m (add32 edi (1023 * 4)) (sub32 img.pdeTable koff ||| 0x3)
  let m := physStore m (add32 (sub32 img.pte0 koff) (mul32 256 4)) (0x100000 ||| 0x3)
  let edi := sub32 img.pte768 koff
  (fillLoop edi fuel 256 0x100000 m).map fun m =>
    physStore m (add32 edi (mul32 255 4)) (0xb8000 ||| 0x3)

/-- The state when `cr0` has been written: `cr3` holds the hardware address of `pde_table`. -/
def pagingOn {P : Type*} (pool : P) (m : PhysMem) : VirtMM P where
  phys := m
  pdeTable := sub32 img.pdeTable koff / 4096
  pool := pool
  driverSpaceHead := 0
  tlb := fun _ => none

/-- The first instructions of `pre_init_kernel`: clear the first entry of `pde_table`, and reload
`cr3`, which empties the cache of translations. -/
def preInitKernel {P : Type*} (s : VirtMM P) : Option (VirtMM P) :=
  (s.store (add32 img.pdeTable 0) 0).map fun s => { s with tlb := fun _ => none }

/-- `_start` as far as the call of `kernel_init`. -/
def start {P : Type*} (pool : P) (m : PhysMem) (fuel : ℕ) : Option (VirtMM P) :=
  (img.fillTables fuel m).bind fun m => img.preInitKernel (img.pagingOn pool m)

/-- What the pages are translated to when `kernel_init` is called: the text buffer, the kernel
image, and the windows onto `pte_768` and onto the directory. -/
def pageMap (p : ℕ) : Option ℕ :=
  if p = 0xc00ff then some 0xb8
  else if 0xc0100 ≤ p ∧ p < 0xc0400 then some (p - 0xc0000)
  else if p = windowPage 768 then some img.pte768Frame
  else if p = windowPage 1023 then some img.pdeFrame
  else none

/-- The bytes of the tables before the boot code runs: `.bss` and the zeros of `.data`. -/
def Blank (m : PhysMem) : Prop :=
  ∀ f ∈ [img.pdeFrame, img.pte0Frame, img.pte768Frame], ∀ i < 1024, m f i = 0

/-- The tables when they are filled. -/
def tables (m : PhysMem) (f i : ℕ) : ℕ :=
  if f = img.pdeFrame then
    if i = 0 then 4096 * img.pte0Frame + 7
    else if i = 768 then 4096 * img.pte768Frame + 3
    else if i = 1023 then 4096 * img.pdeFrame + 3
    else m f i
  else if f = img.pte0Frame then if i = 256 then 0x100003 else m f i
  else if f = img.pte768Frame then
    if i = 255 then 0xb8003
    else if 256 ≤ i ∧ i < 1024 then 4096 * i + 3
    else m f i
  else m f i

/-! ### The loop -/

/-- A store to a word of a frame, by its hardware address. -/
theorem physStore_frame {m : PhysMem} {f i v : ℕ} (hi : i < 1024) :
    physStore m (4096 * f + 4 * i) v = setWord m f i v := by
  have hframe : (4096 * f + 4 * i) / 4096 = f := by omega
  have hindex : (4096 * f + 4 * i) % 4096 / 4 = i := by omega
  rw [physStore, hframe, hindex]

/-- Entries `i` and up of the table in frame `t` map the frames with their numbers. -/
def mapFrom (t i : ℕ) (m : PhysMem) : PhysMem := fun f j =>
  if f = t ∧ i ≤ j ∧ j < 1024 then 4096 * j + 3 else m f j

/-- Filling the entries from the first one on. -/
theorem mapFrom_succ {m : PhysMem} {t i : ℕ} (hi : i < 1024) :
    mapFrom t (i + 1) (setWord m t i (4096 * i + 3)) = mapFrom t i m := by
  funext f j
  simp only [mapFrom, setWord_apply]
  by_cases hij : f = t ∧ j = i
  · obtain ⟨rfl, rfl⟩ := hij
    rw [if_neg (by omega), if_pos ⟨rfl, rfl⟩, if_pos ⟨rfl, le_rfl, hi⟩]
  · rw [if_neg hij]
    exact if_congr (by omega) rfl rfl

/-- There is nothing behind the last entry. -/
theorem mapFrom_end {m : PhysMem} {t : ℕ} : mapFrom t 1024 m = m := by
  funext f j
  exact if_neg (by omega)

/-- One round of the loop. -/
theorem fillLoop_succ {m : PhysMem} {t i edx : ℕ} (ht : t < 0x400) (hi : i < 1024)
    (hedx : edx ||| 0x3 = 4096 * i + 3) (fuel : ℕ) :
    fillLoop (4096 * t) (fuel + 1) i edx m =
      if i + 1 < 1024 then
        fillLoop (4096 * t) fuel (i + 1) (4096 * (i + 1) + 3) (setWord m t i (4096 * i + 3))
      else some (setWord m t i (4096 * i + 3)) := by
  have haddr : add32 (4096 * t) (mul32 i 4) = 4096 * t + 4 * i := by unfold add32 mul32; omega
  have hnext : add32 i 1 = i + 1 := add32_of_lt (by omega)
  have hpage : add32 (4096 * i + 3) 0x1000 = 4096 * (i + 1) + 3 := by unfold add32; omega
  have hjl : toSigned (i + 1) < toSigned 1024 ↔ i + 1 < 1024 :=
    toSigned_lt_toSigned (by omega) (by decide)
  simp only [fillLoop, haddr, hnext, hedx, hpage, hjl, physStore_frame hi]

/-- The loop fills the rest of the table; `n` entries come behind the next one. -/
theorem fillLoop_yields {m : PhysMem} {t n i edx : ℕ} (ht : t < 0x400) (hi : i + (n + 1) = 1024)
    (hedx : edx ||| 0x3 = 4096 * i + 3) :
    Yields (fun fuel => fillLoop (4096 * t) fuel i edx m) (mapFrom t i m) := by
  have hround := fillLoop_succ (m := m) ht (show i < 1024 by omega) hedx
  rw [← mapFrom_succ (by omega)]
  induction n generalizing i edx m with
  | zero =>
    obtain rfl : i = 1023 := by omega
    rw [mapFrom_end]
    exact (Yields.const _).succ rfl fun fuel => (hround fuel).trans (if_neg (by decide))
  | succ n ih =>
    -- the two low bits are set already
    have hlow : (4096 * (i + 1) + 3) ||| 0x3 = 4096 * (i + 1) + 3 := by
      rw [← or_three, Nat.or_assoc, Nat.or_self]
    have hrest := ih (m := setWord m t i (4096 * i + 3)) (by omega) hlow
      (fillLoop_succ ht (by omega) hlow)
    rw [mapFrom_succ (by omega)] at hrest
    exact hrest.succ rfl fun fuel => (hround fuel).trans (if_pos (by omega))

/-! ### The tables -/

variable {img} {m : PhysMem}

/-- The hardware address of a symbol in frame `f`. -/
theorem sub32_koff {f : ℕ} (hf : f < 0x400) : sub32 (koff + 4096 * f) koff = 4096 * f := by
  unfold sub32 koff
  omega

theorem pdeFrame_lt : img.pdeFrame < 0x400 := (img.inside _ (by simp)).2

theorem pte0Frame_lt : img.pte0Frame < 0x400 := (img.inside _ (by simp)).2

theorem pte768Frame_lt : img.pte768Frame < 0x400 := (img.inside _ (by simp)).2

theorem frames_ne : img.pdeFrame ≠ img.pte0Frame ∧ img.pdeFrame ≠ img.pte768Frame ∧
    img.pte0Frame ≠ img.pte768Frame := by
  have h := img.apart
  simp only [List.nodup_cons, List.mem_cons, List.not_mem_nil, or_false, not_or] at h
  exact ⟨h.1.1, h.1.2, h.2.1⟩

/-- Memory when the loop begins. -/
def beforeLoop (img : BootImage) (m : PhysMem) : PhysMem :=
  let m := setWord m img.pdeFrame 768 (4096 * img.pte768Frame + 3)
  let m := setWord m img.pdeFrame 0 (4096 * img.pte0Frame + 7)
  let m := setWord m img.pdeFrame 1023 (4096 * img.pdeFrame + 3)
  setWord m img.pte0Frame 256 0x100003

/-- The stores of the code, by frame and index. -/
theorem fillTables_eq (img : BootImage) (m : PhysMem) (fuel : ℕ) :
    img.fillTables fuel m =
      (fillLoop (4096 * img.pte768Frame) fuel 256 0x100000 (img.beforeLoop m)).map
        fun m => setWord m img.pte768Frame 255 0xb8003 := by
  have hpde := img.pdeFrame_lt
  have hpte0 := img.pte0Frame_lt
  have hpte768 := img.pte768Frame_lt
  have hseven : 4096 * img.pte0Frame ||| 0x7 = 4096 * img.pte0Frame + 7 := by
    have h := Nat.shiftLeft_add_eq_or_of_lt (show 7 < 2 ^ 12 by decide) img.pte0Frame
    rw [Nat.shiftLeft_eq, Nat.mul_comm] at h
    exact h.symm
  have hstore : ∀ f < 0x400, ∀ i < 1024, ∀ m v,
      physStore m (add32 (4096 * f) (i * 4)) v = setWord m f i v := by
    intro f hf i hi m v
    rw [Nat.mul_comm i, add32_of_lt (by omega), physStore_frame hi]
  have hfirst : ∀ m v, physStore m (4096 * img.pdeFrame) v = setWord m img.pdeFrame 0 v :=
    fun m v => physStore_frame (i := 0) (by decide)
  rw [fillTables, pdeTable, pte0, pte768, sub32_koff hpde, sub32_koff hpte0, sub32_koff hpte768,
    show mul32 256 4 = 256 * 4 by decide, show mul32 255 4 = 255 * 4 by decide]
  simp only [hstore _ hpde 768 (by decide), hstore _ hpde 1023 (by decide),
    hstore _ hpte0 256 (by decide), hstore _ hpte768 255 (by decide), hfirst, or_three, hseven,
    beforeLoop]
  rfl

/-- The stores make the tables. -/
theorem tables_eq (img : BootImage) (m : PhysMem) :
    setWord (mapFrom img.pte768Frame 256 (img.beforeLoop m)) img.pte768Frame 255 0xb8003 =
      img.tables m := by
  obtain ⟨hpde0, hpde768, hpte⟩ := img.frames_ne
  funext f i
  simp only [beforeLoop, setWord_apply, mapFrom, tables]
  by_cases hdir : f = img.pdeFrame
  · subst hdir
    simp only [hpde0, hpde768, true_and, false_and, if_false, if_true]
    split_ifs <;> first | rfl | omega
  by_cases hlow : f = img.pte0Frame
  · subst hlow
    simp only [hdir, hpte, true_and, false_and, if_false, if_true]
  by_cases hhigh : f = img.pte768Frame
  · subst hhigh
    simp only [hdir, hlow, true_and, false_and, if_false, if_true]
  · simp only [hdir, hlow, hhigh, false_and, if_false]

/-- The code fills the tables. -/
theorem fillTables_yields (img : BootImage) (m : PhysMem) :
    Yields (fun fuel => img.fillTables fuel m) (img.tables m) := by
  have hloop := fillLoop_yields (m := img.beforeLoop m) img.pte768Frame_lt
    (show 256 + (767 + 1) = 1024 by decide) (show 0x100000 ||| 0x3 = 4096 * 256 + 3 by decide)
  have hend := hloop.map fun m => setWord m img.pte768Frame 255 0xb8003
  rw [tables_eq] at hend
  simpa only [fillTables_eq] using hend

/-! ### Walks -/

/-- An entry with the two low bits set is present and names its frame. -/
theorem decode_add_three (f : ℕ) : decode (4096 * f + 3) = some f := by
  rw [← or_three, decode_of_present (present_or_three _), frameOf_or_three]

/-- A walk through a table that the directory names. -/
theorem pageWalk_of_entry {m : PhysMem} {dir p t : ℕ} (h : m dir (p / 1024) = 4096 * t + 3) :
    pageWalk m dir p = decode (m t (p % 1024)) := by
  rw [pageWalk, h, decode_add_three, Option.bind_some]

/-- The table of the higher half. -/
theorem tables_pte768 (hm : img.Blank m) {i : ℕ} (hi : i < 1024) :
    img.tables m img.pte768Frame i =
      if i = 255 then 0xb8003 else if 256 ≤ i then 4096 * i + 3 else 0 := by
  obtain ⟨-, hdir, hlow⟩ := img.frames_ne
  rw [tables, if_neg hdir.symm, if_neg hlow.symm, if_pos rfl, hm _ (by simp) i hi]
  simp only [hi, and_true]

/-- The directory, but for its first entry. -/
theorem tables_pde (hm : img.Blank m) {i : ℕ} (hi : i < 1024) (hne : i ≠ 0) :
    img.tables m img.pdeFrame i =
      if i = 768 then 4096 * img.pte768Frame + 3
      else if i = 1023 then 4096 * img.pdeFrame + 3 else 0 := by
  rw [tables, if_pos rfl, if_neg hne, hm _ (by simp) i hi]

/-- The pages of the image in the higher half, as soon as the tables are filled. -/
theorem pageWalk_image (hm : img.Blank m) {f : ℕ} (hf : 0x100 ≤ f ∧ f < 0x400) :
    pageWalk (img.tables m) img.pdeFrame (0xc0000 + f) = some f := by
  have hdiv : (0xc0000 + f) / 1024 = 768 := by omega
  have hmod : (0xc0000 + f) % 1024 = f := by omega
  have hentry : img.tables m img.pdeFrame ((0xc0000 + f) / 1024) = 4096 * img.pte768Frame + 3 := by
    rw [hdiv, tables_pde hm (by decide) (by decide), if_pos rfl]
  rw [pageWalk_of_entry hentry, hmod, tables_pte768 hm (by omega), if_neg (by omega),
    if_pos hf.1, decode_add_three]

/-- The page that `_start` itself runs on is mapped to where it runs. -/
theorem pageWalk_identity (img : BootImage) (m : PhysMem) :
    pageWalk (img.tables m) img.pdeFrame 0x100 = some 0x100 := by
  obtain ⟨hdir, -, -⟩ := img.frames_ne
  have hentry : img.tables m img.pdeFrame 0 = 4096 * img.pte0Frame + 7 := by
    rw [tables, if_pos rfl, if_pos rfl]
  have hpres : Present (img.tables m img.pdeFrame (0x100 / 1024)) := by
    change Present (img.tables m img.pdeFrame 0)
    rw [hentry]
    unfold Present
    omega
  have hframe : frameOf (img.tables m img.pdeFrame (0x100 / 1024)) = img.pte0Frame := by
    change frameOf (img.tables m img.pdeFrame 0) = img.pte0Frame
    rw [hentry]
    unfold frameOf
    omega
  rw [pageWalk_of_present hpres, hframe, tables, if_neg hdir.symm, if_pos rfl, if_pos rfl]
  exact decode_add_three 0x100

/-! ### The end of the boot code -/

/-- Memory when `kernel_init` is called. -/
def bootMem (img : BootImage) (m : PhysMem) : PhysMem := setWord (img.tables m) img.pdeFrame 0 0

/-- The directory when `kernel_init` is called. -/
theorem bootMem_pde (hm : img.Blank m) {i : ℕ} (hi : i < 1024) :
    img.bootMem m img.pdeFrame i =
      if i = 768 then 4096 * img.pte768Frame + 3
      else if i = 1023 then 4096 * img.pdeFrame + 3 else 0 := by
  rw [bootMem, setWord_apply]
  by_cases hfirst : i = 0
  · subst hfirst
    rw [if_pos ⟨rfl, rfl⟩, if_neg (by decide), if_neg (by decide)]
  · rw [if_neg fun h => hfirst h.2, tables_pde hm hi hfirst]

/-- The table of the higher half is not touched again. -/
theorem bootMem_pte768 (hm : img.Blank m) {i : ℕ} (hi : i < 1024) :
    img.bootMem m img.pte768Frame i =
      if i = 255 then 0xb8003 else if 256 ≤ i then 4096 * i + 3 else 0 := by
  obtain ⟨-, hdir, -⟩ := img.frames_ne
  rw [bootMem, setWord_apply, if_neg fun h => hdir h.1.symm, tables_pte768 hm hi]

/-- What the pages are translated to when `kernel_init` is called. -/
theorem pageWalk_bootMem (hm : img.Blank m) {p : ℕ} (hp : p < 1048576) :
    pageWalk (img.bootMem m) img.pdeFrame p = img.pageMap p := by
  have hdir := bootMem_pde hm (show p / 1024 < 1024 by omega)
  have hindex : p % 1024 < 1024 := Nat.mod_lt _ (by decide)
  unfold pageMap windowPage
  by_cases hhigh : p / 1024 = 768
  · rw [if_pos hhigh] at hdir
    rw [pageWalk_of_entry hdir, bootMem_pte768 hm hindex]
    by_cases hvga : p % 1024 = 255
    · rw [if_pos hvga, if_pos (by omega)]
      rfl
    rw [if_neg hvga]
    by_cases himage : 256 ≤ p % 1024
    · rw [if_pos himage, if_neg (by omega), if_pos (by omega), decode_add_three]
      exact congrArg some (by omega)
    · rw [if_neg himage, if_neg (by omega), if_neg (by omega), if_neg (by omega),
        if_neg (by omega)]
      rfl
  rw [if_neg hhigh] at hdir
  rw [if_neg (by omega), if_neg (by omega)]
  by_cases hwin : p / 1024 = 1023
  · rw [if_pos hwin] at hdir
    rw [pageWalk_of_entry hdir, bootMem_pde hm hindex]
    by_cases h768 : p % 1024 = 768
    · rw [if_pos h768, if_pos (by omega), decode_add_three]
    rw [if_neg h768]
    by_cases h1023 : p % 1024 = 1023
    · rw [if_pos h1023, if_neg (by omega), if_pos (by omega), decode_add_three]
    · rw [if_neg h1023, if_neg (by omega), if_neg (by omega)]
      rfl
  · rw [if_neg hwin] at hdir
    rw [if_neg (by omega), if_neg (by omega), pageWalk_of_not_present]
    rw [hdir]
    decide

variable {P : Type*} {pool : P}

/-- The frame that `cr3` is loaded with. -/
theorem pagingOn_pdeTable (img : BootImage) (pool : P) (m : PhysMem) :
    (img.pagingOn pool m).pdeTable = img.pdeFrame := by
  have hlt := img.pdeFrame_lt
  rw [pagingOn, pdeTable, sub32_koff hlt]
  exact Nat.mul_div_cancel_left _ (by decide)

/-- The state when `kernel_init` is called. -/
def booted (img : BootImage) (pool : P) (m : PhysMem) : VirtMM P where
  phys := img.bootMem m
  pdeTable := img.pdeFrame
  pool := pool
  driverSpaceHead := 0
  tlb := fun _ => none

/-- The lower mapping is removed through the higher one. -/
theorem preInitKernel_eq (hm : img.Blank m) :
    img.preInitKernel (img.pagingOn pool (img.tables m)) = some (img.booted pool m) := by
  have hin := img.inside img.pdeFrame (by simp)
  have hdir := img.pagingOn_pdeTable pool (img.tables m)
  have hpage : add32 img.pdeTable 0 / 4096 = 0xc0000 + img.pdeFrame := by
    unfold add32 pdeTable koff
    omega
  have hindex : add32 img.pdeTable 0 % 4096 / 4 = 0 := by
    unfold add32 pdeTable koff
    omega
  have hwalk : (img.pagingOn pool (img.tables m)).translate (0xc0000 + img.pdeFrame) =
      some img.pdeFrame := by
    rw [VirtMM.translate, hdir]
    exact pageWalk_image hm hin
  rw [preInitKernel, VirtMM.store, hpage, hindex, hwalk]
  simp only [Option.map_some, Option.some.injEq]
  rw [booted, bootMem, ← hdir]
  rfl

/-- The directory of the booted state. -/
theorem pde_booted (hm : img.Blank m) {i : ℕ} (hi : i ≤ 1023) :
    (img.booted pool m).pde i =
      if i = 768 then 4096 * img.pte768Frame + 3
      else if i = 1023 then 4096 * img.pdeFrame + 3 else 0 :=
  bootMem_pde hm (by omega)

/-- The two entries of the directory that are left, and the frames that they name. -/
theorem present_booted (hm : img.Blank m) {i : ℕ} (hi : i ≤ 1023)
    (hpres : Present ((img.booted pool m).pde i)) :
    i = 768 ∧ frameOf ((img.booted pool m).pde i) = img.pte768Frame ∨
      i = 1023 ∧ frameOf ((img.booted pool m).pde i) = img.pdeFrame := by
  have hframe : ∀ f, frameOf (4096 * f + 3) = f := fun f => by unfold frameOf; omega
  rw [pde_booted hm hi] at hpres ⊢
  by_cases h768 : i = 768
  · rw [if_pos h768]
    exact Or.inl ⟨h768, hframe _⟩
  rw [if_neg h768] at hpres ⊢
  by_cases h1023 : i = 1023
  · rw [if_pos h1023]
    exact Or.inr ⟨h1023, hframe _⟩
  · rw [if_neg h1023] at hpres
    exact absurd hpres (by decide)

/-- The booted state is sound when the allocator does not take the tables for free frames. -/
theorem sound_booted {F : FramePool P} (hm : img.Blank m)
    (huse : ∀ f ∈ [img.pdeFrame, img.pte768Frame], F.inUse pool f = true) :
    VirtMM.Sound F (img.booted pool m) := by
  obtain ⟨-, hne, -⟩ := img.frames_ne
  have hlast : (img.booted pool m).pde 1023 = 4096 * img.pdeFrame + 3 := pde_booted hm le_rfl
  refine ⟨⟨?_, ?_, fun i hi j hj hpi hpj heq => ?_⟩, fun d hd hpres => ?_⟩
  · change Present ((img.booted pool m).pde 1023)
    rw [hlast, ← or_three]
    exact present_or_three _
  · change frameOf ((img.booted pool m).pde 1023) = img.pdeFrame
    rw [hlast, ← or_three, frameOf_or_three]
  · rcases present_booted hm hi hpi with ⟨rfl, hfi⟩ | ⟨rfl, hfi⟩ <;>
      rcases present_booted hm hj hpj with ⟨rfl, hfj⟩ | ⟨rfl, hfj⟩
    · rfl
    · exact absurd ((hfj.symm.trans heq.symm).trans hfi) hne
    · exact absurd ((hfi.symm.trans heq).trans hfj) hne
    · rfl
  · rcases present_booted hm hd hpres with ⟨-, hf⟩ | ⟨-, hf⟩ <;> rw [hf]
    · exact huse _ (by simp)
    · exact huse _ (by simp)

/-- The boot code ends with its tables. -/
theorem start_yields (hm : img.Blank m) : Yields (img.start pool m) (img.booted pool m) := by
  have hrest : Yields (fun _ => img.preInitKernel (img.pagingOn pool (img.tables m)))
      (img.booted pool m) := by
    rw [preInitKernel_eq hm]
    exact .const _
  exact (fillTables_yields img m).bind
    (g := fun m _ => img.preInitKernel (img.pagingOn pool m)) hrest

end BootImage

open BootImage

/-- **The boot code sets paging up.**  For every layout of the kernel image in its four megabytes,
the code behind the copy of the memory map ends; when paging comes on, the page that it runs on is
mapped to itself and every page of the image to its frame in the higher half, so that the jump there
finds its target; and when `kernel_init` is called, the text buffer, the image and the windows onto
the two tables are mapped and nothing else is, the lower half included. -/
theorem start_spec {P : Type*} (F : FramePool P) (img : BootImage) (pool : P) {m : PhysMem}
    (hm : img.Blank m) (huse : ∀ f ∈ [img.pdeFrame, img.pte768Frame], F.inUse pool f = true) :
    ∃ m₁ s, Yields (fun fuel => img.fillTables fuel m) m₁ ∧
      (img.pagingOn pool m₁).translate 0x100 = some 0x100 ∧
      (∀ f, 0x100 ≤ f → f < 0x400 → (img.pagingOn pool m₁).translate (0xc0000 + f) = some f) ∧
      Yields (img.start pool m) s ∧
      (∀ p < 1048576, s.translate p = img.pageMap p) ∧ VirtMM.Sound F s := by
  have hdir := img.pagingOn_pdeTable pool (img.tables m)
  refine ⟨img.tables m, img.booted pool m, fillTables_yields img m, ?_, fun f hlo hhi => ?_,
    start_yields hm, fun p hp => pageWalk_bootMem hm hp, sound_booted hm huse⟩
  · rw [VirtMM.translate, hdir]
    exact pageWalk_identity img m
  · rw [VirtMM.translate, hdir]
    exact pageWalk_image hm ⟨hlo, hhi⟩

/-- An image whose tables are the frames `0x108`, `0x109` and `0x10c`, and a pool of the frames from
four megabytes on. -/
theorem start_spec_smallImage :
    ∃ s : VirtMM (ℕ → Bool), s.translate 0xc00ff = some 0xb8 ∧ s.translate 0x100 = none := by
  let img : BootImage := ⟨0x10c, 0x108, 0x109, by decide, by decide⟩
  obtain ⟨-, s, -, -, -, -, hmap, -⟩ := start_spec (FramePool.bitmapPool 0x400 0x1000) img
    (fun f => decide (f < 0x400)) (m := fun _ _ => 0) (fun _ _ _ _ => rfl) (by decide)
  exact ⟨s, hmap 0xc00ff (by decide), hmap 0x100 (by decide)⟩

end PakOS
