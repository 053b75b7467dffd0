import Mathlib.Logic.Function.Basic
import PakOS.Machine.Word

/-!
# Two-level page tables

Physical memory is an array of frames of 1024 words.  A page table is a frame; the page directory is
the table of the tables, and `pageWalk m dir p` is the frame that the processor finds for page `p`.
Large pages are off and the kernel is not held to the write bit, so that bit 0 of a word and the
address bits are all that counts.

In a `SelfMapped` directory the last entry is the directory itself: page `windowPage d` then shows
the table of region `d`, and the page of region 1023 the directory.  Every entry of every table, the
directory's own included, is `setEntry`'s for some page, so that the four lemmas about it
(`dir_setEntry`, `SelfMapped.of_setEntry`, `pageWalk_setEntry_self`, `pageWalk_setEntry_of_ne`) are
all there is to say about editing page tables through the window.
-/

namespace Machine

/-- Physical memory: the words of each frame. -/
abbrev PhysMem := ℕ → ℕ → ℕ

/-- Store a word of a frame. -/
def setWord (m : PhysMem) (f i v : ℕ) : PhysMem := Function.update m f (Function.update (m f) i v)

theorem setWord_apply {m : PhysMem} {f i v g j : ℕ} :
    setWord m f i v g j = if g = f ∧ j = i then v else m g j := by
  by_cases hg : g = f
  · subst hg
    rw [setWord, Function.update_self, Function.update_apply]
    simp only [true_and]
  · rw [setWord, Function.update_of_ne hg, if_neg fun h => hg h.1]

/-- The present bit of an entry. -/
def Present (w : ℕ) : Prop := w % 2 = 1

instance (w : ℕ) : Decidable (Present w) := inferInstanceAs (Decidable (w % 2 = 1))

/-- The frame that an entry names. -/
def frameOf (w : ℕ) : ℕ := w / 4096

/-- The frame that a present entry names. -/
def decode (w : ℕ) : Option ℕ := if Present w then some (frameOf w) else none

/-- The frame that page `p` is translated to by the directory in frame `dir`. -/
def pageWalk (m : PhysMem) (dir p : ℕ) : Option ℕ :=
  (decode (m dir (p / 1024))).bind fun t => decode (m t (p % 1024))

/-- The page through which the table of region `d` is seen. -/
def windowPage (d : ℕ) : ℕ := 1047552 + d

/-- Replace the entry of page `p` in the table of its region. -/
def setEntry (m : PhysMem) (dir p v : ℕ) : PhysMem :=
  setWord m (frameOf (m dir (p / 1024))) (p % 1024) v

/-- The last entry of the directory is the directory, and the present entries name different
frames. -/
structure SelfMapped (m : PhysMem) (dir : ℕ) : Prop where
  /-- The last entry is present. -/
  present : Present (m dir 1023)
  /-- The last entry names the directory. -/
  self : frameOf (m dir 1023) = dir
  /-- No table serves two regions. -/
  distinct : ∀ i ≤ 1023, ∀ j ≤ 1023, Present (m dir i) → Present (m dir j) →
    frameOf (m dir i) = frameOf (m dir j) → i = j

/-! ### Words of page tables -/

theorem decode_of_present {w : ℕ} (h : Present w) : decode w = some (frameOf w) := if_pos h

theorem decode_of_not_present {w : ℕ} (h : ¬Present w) : decode w = none := if_neg h

/-- The code's test of the present bit. -/
theorem and_one_eq_zero_iff {w : ℕ} : w &&& 1 = 0 ↔ ¬Present w := by
  rw [Nat.and_one_is_mod, Present]
  omega

/-- Setting the present and the write bit of the address of a frame. -/
theorem or_three (f : ℕ) : 4096 * f ||| 3 = 4096 * f + 3 := by
  have h := Nat.shiftLeft_add_eq_or_of_lt (show 3 < 2 ^ 12 by decide) f
  rw [Nat.shiftLeft_eq, Nat.mul_comm] at h
  exact h.symm

/-- An entry with these two bits set is present, whatever the rest of it is. -/
theorem present_or_three (w : ℕ) : Present (w ||| 3) := Nat.or_mod_two_eq_one.mpr (Or.inr rfl)

theorem frameOf_or_three (f : ℕ) : frameOf (4096 * f ||| 3) = f := by
  rw [or_three, frameOf]
  omega

/-! ### Walks -/

section

variable {m : PhysMem} {dir p q v : ℕ}

/-- A walk through a table that is there. -/
theorem pageWalk_of_present (h : Present (m dir (p / 1024))) :
    pageWalk m dir p = decode (m (frameOf (m dir (p / 1024))) (p % 1024)) := by
  rw [pageWalk, decode_of_present h, Option.bind_some]

/-- A walk through a table that is not there. -/
theorem pageWalk_of_not_present (h : ¬Present (m dir (p / 1024))) : pageWalk m dir p = none := by
  rw [pageWalk, decode_of_not_present h, Option.bind_none]

/-- When the last entry of the directory names the directory, page `windowPage d` is translated to
the table of region `d`. -/
theorem pageWalk_windowPage (hpres : Present (m dir 1023)) (hself : frameOf (m dir 1023) = dir)
    {d : ℕ} (hd : d ≤ 1023) : pageWalk m dir (windowPage d) = decode (m dir d) := by
  have hdiv : windowPage d / 1024 = 1023 := by unfold windowPage; omega
  have hmod : windowPage d % 1024 = d := by unfold windowPage; omega
  rw [pageWalk_of_present (by rw [hdiv]; exact hpres), hdiv, hmod, hself]

theorem SelfMapped.pageWalk_windowPage (h : SelfMapped m dir) {d : ℕ} (hd : d ≤ 1023) :
    pageWalk m dir (windowPage d) = decode (m dir d) :=
  Machine.pageWalk_windowPage h.present h.self hd

/-- The entry of page `windowPage d` is entry `d` of the directory. -/
theorem SelfMapped.setEntry_windowPage (h : SelfMapped m dir) {d : ℕ} (hd : d ≤ 1023) :
    setEntry m dir (windowPage d) v = setWord m dir d v := by
  have hdiv : windowPage d / 1024 = 1023 := by unfold windowPage; omega
  have hmod : windowPage d % 1024 = d := by unfold windowPage; omega
  rw [setEntry, hdiv, hmod, h.self]

/-- The entry of a page lies in the directory only for the pages of the window. -/
theorem SelfMapped.frameOf_eq_dir (h : SelfMapped m dir) (hp : p < 1048576)
    (hpres : Present (m dir (p / 1024))) (hf : frameOf (m dir (p / 1024)) = dir) :
    p = windowPage (p % 1024) := by
  have hreg := h.distinct (p / 1024) (by omega) 1023 le_rfl hpres h.present (hf.trans h.self.symm)
  unfold windowPage
  omega

/-- The directory after an entry was replaced. -/
theorem SelfMapped.dir_setEntry (h : SelfMapped m dir) (hp : p < 1048576)
    (hpres : Present (m dir (p / 1024))) {d : ℕ} (hd : d ≤ 1023) :
    setEntry m dir p v dir d = if p = windowPage d then v else m dir d := by
  rw [setEntry, setWord_apply]
  by_cases hpd : p = windowPage d
  · subst hpd
    have hdiv : windowPage d / 1024 = 1023 := by unfold windowPage; omega
    have hmod : windowPage d % 1024 = d := by unfold windowPage; omega
    rw [hdiv, hmod, h.self, if_pos ⟨rfl, rfl⟩, if_pos rfl]
  · rw [if_neg hpd, if_neg fun hw => ?_]
    have hpw := h.frameOf_eq_dir hp hpres hw.1.symm
    rw [← hw.2] at hpw
    exact hpd hpw

/-- Replacing the entry of any page but the last keeps the directory self-mapped; a page of the
window may get no frame that is a table already. -/
theorem SelfMapped.of_setEntry (h : SelfMapped m dir) (hp : p < 1048575)
    (hpres : Present (m dir (p / 1024)))
    (hv : ∀ d ≤ 1023, p = windowPage d → Present v →
      ∀ i ≤ 1023, Present (m dir i) → frameOf (m dir i) ≠ frameOf v) :
    SelfMapped (setEntry m dir p v) dir := by
  have hdir : ∀ d ≤ 1023, setEntry m dir p v dir d =
      if p = windowPage d then v else m dir d := fun d => h.dir_setEntry (by omega) hpres
  have hlast : setEntry m dir p v dir 1023 = m dir 1023 := by
    rw [hdir 1023 le_rfl, if_neg (by unfold windowPage; omega)]
  refine ⟨by rw [hlast]; exact h.present, by rw [hlast]; exact h.self, fun i hi j hj => ?_⟩
  rw [hdir i hi, hdir j hj]
  by_cases hpi : p = windowPage i
  · rw [if_pos hpi]
    by_cases hpj : p = windowPage j
    · intro _ _ _
      unfold windowPage at hpi hpj
      omega
    · rw [if_neg hpj]
      exact fun hvp hjp heq => absurd heq.symm (hv i hi hpi hvp j hj hjp)
  · rw [if_neg hpi]
    by_cases hpj : p = windowPage j
    · rw [if_pos hpj]
      exact fun hip hvp heq => absurd heq (hv j hj hpj hvp i hi hip)
    · rw [if_neg hpj]
      exact h.distinct i hi j hj

/-- Replacing the entry of a page decides what it is translated to. -/
theorem SelfMapped.pageWalk_setEntry_self (h : SelfMapped m dir) (hp : p < 1048575)
    (hpres : Present (m dir (p / 1024))) : pageWalk (setEntry m dir p v) dir p = decode v := by
  have hreg : setEntry m dir p v dir (p / 1024) = m dir (p / 1024) := by
    rw [h.dir_setEntry (by omega) hpres (by omega), if_neg (by unfold windowPage; omega)]
  rw [pageWalk_of_present (by rw [hreg]; exact hpres), hreg, setEntry, setWord_apply,
    if_pos ⟨rfl, rfl⟩]

/-- Replacing the entry of a page changes no other translation, unless the page is the window of the
other's table. -/
theorem SelfMapped.pageWalk_setEntry_of_ne (h : SelfMapped m dir) (hp : p < 1048576) (hq : q < 1048576)
    (hpres : Present (m dir (p / 1024))) (hqp : q ≠ p) (hw : p ≠ windowPage (q / 1024)) :
    pageWalk (setEntry m dir p v) dir q = pageWalk m dir q := by
  have hreg : setEntry m dir p v dir (q / 1024) = m dir (q / 1024) := by
    rw [h.dir_setEntry hp hpres (by omega), if_neg hw]
  by_cases hqpres : Present (m dir (q / 1024))
  · rw [pageWalk_of_present (by rw [hreg]; exact hqpres), pageWalk_of_present hqpres, hreg,
      setEntry, setWord_apply, if_neg fun heq => ?_]
    -- one table and one index would make it the same page
    have := h.distinct (q / 1024) (by omega) (p / 1024) (by omega) hqpres hpres heq.1
    omega
  · rw [pageWalk_of_not_present (by rw [hreg]; exact hqpres), pageWalk_of_not_present hqpres]

/-- Writing a word of a frame that is no table changes no translation. -/
theorem pageWalk_setWord {f i : ℕ} (hdir : dir ≠ f)
    (hf : ∀ d ≤ 1023, Present (m dir d) → frameOf (m dir d) ≠ f) (hp : p < 1048576) :
    pageWalk (setWord m f i v) dir p = pageWalk m dir p := by
  have hentry : setWord m f i v dir (p / 1024) = m dir (p / 1024) := by
    rw [setWord_apply, if_neg fun h => hdir h.1]
  by_cases hpres : Present (m dir (p / 1024))
  · rw [pageWalk_of_present (by rw [hentry]; exact hpres), pageWalk_of_present hpres, hentry,
      setWord_apply, if_neg fun h => hf (p / 1024) (by omega) hpres h.1]
  · rw [pageWalk_of_not_present (by rw [hentry]; exact hpres), pageWalk_of_not_present hpres]

end

end Machine
