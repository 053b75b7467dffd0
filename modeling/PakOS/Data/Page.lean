import Mathlib.Order.Nat

/-!
# A screen that shows the end of a page

A page is an endless sheet of lines of `w` columns, with a cursor.  Pressing a key writes at the
cursor or moves it, and a cursor that has reached column `w` goes on in the next line.  A screen has
`h + 1` rows; as soon as its cursor is in the last one all the rows move up by one (`Page.scroll`).

`Shows h w b s t` says that the screen `s` shows the page `t` from line `t.top h` on, the cursor
being in row `h - 1` at most.  It is kept when a key is pressed on both (`Shows.press`).  The reason
is that the last row, which scrolling moves up and leaves where it is, shows a line below the
cursor, and these lines are blank.
-/

namespace Screen

variable {α : Type*}

/-- A key. -/
inductive Key (α : Type*)
  /-- It writes `a`. -/
  | char (a : α)
  /-- It moves the cursor down. -/
  | newline
  /-- It moves the cursor to the first column. -/
  | ret
  /-- It moves the cursor `n` columns on. -/
  | tab (n : ℕ)

/-- Text and cursor. -/
structure Page (α : Type*) where
  /-- The character in a line and a column. -/
  text : ℕ → ℕ → α
  /-- The line of the cursor. -/
  row : ℕ
  /-- The column of the cursor. -/
  col : ℕ

/-- The page of which every place is `b`. -/
def Page.blank (b : α) : Page α := ⟨fun _ _ => b, 0, 0⟩

/-- What a key does before the line is wrapped. -/
def Page.move (t : Page α) : Key α → Page α
  | .char a =>
    { t with text := fun i j => if i = t.row ∧ j = t.col then a else t.text i j, col := t.col + 1 }
  | .newline => { t with row := t.row + 1 }
  | .ret => { t with col := 0 }
  | .tab n => { t with col := t.col + n }

/-- Wrap the line. -/
def Page.wrap (w : ℕ) (t : Page α) : Page α :=
  if w ≤ t.col then { t with row := t.row + 1, col := 0 } else t

/-- Press a key. -/
def Page.press (w : ℕ) (t : Page α) (key : Key α) : Page α := (t.move key).wrap w

/-- Press keys, one after the other. -/
def Page.type (w : ℕ) (t : Page α) (keys : List (Key α)) : Page α := keys.foldl (Page.press w) t

/-- Move the rows up when the cursor is in row `h`, which itself stays as it is. -/
def Page.scroll (h : ℕ) (s : Page α) : Page α :=
  if h ≤ s.row then
    { s with text := fun i j => s.text (if i < h then i + 1 else i) j, row := s.row - 1 }
  else s

/-- The first line that a screen shows. -/
def Page.top (h : ℕ) (t : Page α) : ℕ := t.row - (h - 1)

/-- Rows `0` to `h` and columns `0` to `w - 1` of the screen `s`, and its cursor, are those of `t`
from line `top` on. -/
structure Tracks (h w top : ℕ) (s t : Page α) : Prop where
  /-- The text. -/
  text : ∀ i ≤ h, ∀ j < w, s.text i j = t.text (top + i) j
  /-- The line of the cursor. -/
  row : t.row = top + s.row
  /-- The column of the cursor. -/
  col : t.col = s.col

/-- The cursor is in a column, and nothing was written below it. -/
structure Tidy (w : ℕ) (b : α) (t : Page α) : Prop where
  /-- The cursor is in a column. -/
  col_lt : t.col < w
  /-- The lines below the cursor are blank. -/
  below : ∀ i > t.row, ∀ j < w, t.text i j = b

/-- The screen `s` shows the end of the page `t`. -/
structure Shows (h w : ℕ) (b : α) (s t : Page α) : Prop where
  /-- The rows of the screen are lines of the page. -/
  tracks : Tracks h w (t.top h) s t
  /-- The cursor is not in the last row. -/
  row_lt : s.row < h
  /-- The page is tidy. -/
  tidy : Tidy w b t

section

variable {h w top : ℕ} {b : α} {s s' t : Page α}

/-! ### Pressing a key -/

theorem Tracks.move (ht : Tracks h w top s t) (key : Key α) :
    Tracks h w top (s.move key) (t.move key) := by
  have hrow := ht.row
  have hcol := ht.col
  cases key with
  | char a =>
    refine ⟨fun i hi j hj => ?_, hrow, congrArg (· + 1) hcol⟩
    change (if i = s.row ∧ j = s.col then a else s.text i j) =
      if top + i = t.row ∧ j = t.col then a else t.text (top + i) j
    rw [ht.text i hi j hj, hrow, hcol]
    simp only [Nat.add_left_cancel_iff]
  | newline => exact ⟨ht.text, by simp only [Page.move]; omega, hcol⟩
  | ret => exact ⟨ht.text, hrow, rfl⟩
  | tab n => exact ⟨ht.text, hrow, congrArg (· + n) hcol⟩

theorem Tracks.wrap (ht : Tracks h w top s t) : Tracks h w top (s.wrap w) (t.wrap w) := by
  have hrow := ht.row
  unfold Page.wrap
  rw [ht.col]
  split
  · exact ⟨ht.text, by change t.row + 1 = top + (s.row + 1); omega, rfl⟩
  · exact ht

/-- A key does the same to the screen and to the page. -/
theorem Tracks.press (ht : Tracks h w top s t) (key : Key α) :
    Tracks h w top (s.press w key) (t.press w key) := (ht.move key).wrap

/-- A key keeps a page tidy, and moves its cursor down by one line at most; a line that the cursor
comes to is blank. -/
theorem Tidy.press (ht : Tidy w b t) (key : Key α) :
    Tidy w b (t.press w key) ∧ t.row ≤ (t.press w key).row ∧ (t.press w key).row ≤ t.row + 1 ∧
      (t.row < (t.press w key).row → ∀ j < w, (t.press w key).text (t.press w key).row j = b) := by
  have hcol := ht.col_lt
  have hbelow : ∀ i > t.row, ∀ j < w, (t.move key).text i j = b := by
    intro i hi j hj
    cases key with
    | char a =>
      change (if i = t.row ∧ j = t.col then a else t.text i j) = b
      rw [if_neg fun h => absurd h.1 (by omega)]
      exact ht.below i hi j hj
    | newline => exact ht.below i hi j hj
    | ret => exact ht.below i hi j hj
    | tab n => exact ht.below i hi j hj
  -- only a newline moves the cursor down before the wrap, and it does not wrap
  have hmove : (t.move key).row = t.row ∨ ((t.move key).row = t.row + 1 ∧ (t.move key).col < w) := by
    cases key with
    | char a => exact Or.inl rfl
    | newline => exact Or.inr ⟨rfl, hcol⟩
    | ret => exact Or.inl rfl
    | tab n => exact Or.inl rfl
  unfold Page.press Page.wrap
  split
  · next hwrap =>
    have hrow : (t.move key).row = t.row := hmove.resolve_right fun h => absurd h.2 (by omega)
    simp only [hrow]
    refine ⟨⟨Nat.zero_lt_of_lt hcol, fun i hi j hj => hbelow i ?_ j hj⟩, Nat.le_succ _, Nat.le_refl _,
      fun _ j hj => hbelow _ (Nat.lt_succ_self _) j hj⟩
    have : t.row + 1 < i := hi
    omega
  · next hwrap =>
    refine ⟨⟨by omega, fun i hi j hj => hbelow i ?_ j hj⟩, ?_, ?_, fun hlt j hj => hbelow _ hlt j hj⟩
    · omega
    · omega
    · omega

/-! ### Scrolling -/

/-- Scrolling moves a screen to the next line of the page, if the line that was in its last row and
the one below are blank. -/
theorem Tracks.scroll (ht : Tracks h w top s t) (hrow : s.row = h) (hpos : 0 < h)
    (hblank : ∀ i ≥ t.row, ∀ j < w, t.text i j = b) : Tracks h w (top + 1) (s.scroll h) t := by
  have htrow := ht.row
  unfold Page.scroll
  rw [if_pos hrow.ge]
  refine ⟨fun i hi j hj => ?_, by change t.row = top + 1 + (s.row - 1); omega, ht.col⟩
  change s.text (if i < h then i + 1 else i) j = _
  split
  · next hlt =>
    rw [ht.text (i + 1) (by omega) j hj]
    congr 1
    omega
  · next hge =>
    rw [ht.text i hi j hj, hblank (top + i) (by omega) j hj, hblank (top + 1 + i) (by omega) j hj]

/-- A key keeps the screen showing the end of the page. -/
theorem Shows.press (hs : Shows h w b s t) (key : Key α) :
    Shows h w b ((s.press w key).scroll h) (t.press w key) := by
  obtain ⟨htidy, hle, hle', hblank⟩ := hs.tidy.press key
  have htracks := hs.tracks.press key
  have hrow := hs.tracks.row
  have hrow' := htracks.row
  have hlt := hs.row_lt
  unfold Page.top at htracks hrow hrow'
  by_cases hscroll : h ≤ (s.press w key).row
  · -- the cursor has come to the last row
    have hall : ∀ i ≥ (t.press w key).row, ∀ j < w, (t.press w key).text i j = b := by
      intro i hi j hj
      rcases hi.lt_or_eq with hlt' | heq
      · exact htidy.below i hlt' j hj
      · rw [← heq]
        exact hblank (by omega) j hj
    have hnext := htracks.scroll (by omega) (by omega) hall
    refine ⟨?_, ?_, htidy⟩
    · have htop : (t.press w key).top h = t.row - (h - 1) + 1 := by
        unfold Page.top
        omega
      rw [htop]
      exact hnext
    · have := hnext.row
      omega
  · have hsame : (s.press w key).scroll h = s.press w key := if_neg hscroll
    have htop : (t.press w key).top h = t.row - (h - 1) := by
      unfold Page.top
      omega
    rw [hsame]
    exact ⟨htop ▸ htracks, by omega, htidy⟩

/-! ### What is seen -/

/-- Screens that look like a third one look alike. -/
theorem Tracks.trans (h₁ : Tracks h w 0 s s') (h₂ : Tracks h w 0 s' t) : Tracks h w 0 s t := by
  have hrow := h₁.row
  have hrow' := h₂.row
  refine ⟨fun i hi j hj => ?_, by omega, h₂.col.trans h₁.col⟩
  have hline := h₁.text i hi j hj
  rw [Nat.zero_add] at hline
  exact hline.trans (h₂.text i hi j hj)

/-- Screens that look alike look alike after scrolling. -/
theorem Tracks.scroll_zero (hs : Tracks h w 0 s s') : Tracks h w 0 (s.scroll h) (s'.scroll h) := by
  have hrow : s'.row = s.row := hs.row.trans (Nat.zero_add _)
  unfold Page.scroll
  rw [hrow]
  split
  · refine ⟨fun i hi j hj => ?_, (Nat.zero_add _).symm, hs.col⟩
    have hline := hs.text (if i < h then i + 1 else i) (by split <;> omega) j hj
    rw [Nat.zero_add] at hline ⊢
    exact hline
  · exact hs

/-- Only the rows and columns of the screen count. -/
theorem Shows.congr (hs : Shows h w b s t) (heq : Tracks h w 0 s' s) : Shows h w b s' t := by
  have hrow := heq.row
  have hcol := heq.col
  have hlt := hs.row_lt
  refine ⟨⟨fun i hi j hj => ?_, ?_, ?_⟩, by omega, hs.tidy⟩
  · rw [heq.text i hi j hj, Nat.zero_add, hs.tracks.text i hi j hj]
  · rw [hs.tracks.row]
    omega
  · rw [hs.tracks.col, hcol]

/-- The last row of the screen is blank. -/
theorem Shows.last (hs : Shows h w b s t) {j : ℕ} (hj : j < w) : s.text h j = b := by
  have hrow := hs.tracks.row
  have hlt := hs.row_lt
  rw [hs.tracks.text h le_rfl j hj]
  exact hs.tidy.below _ (by omega) j hj

/-- A blank screen shows a blank page. -/
theorem shows_blank (hh : 0 < h) (hw : 0 < w) (b : α) : Shows h w b (.blank b) (.blank b) := by
  refine ⟨⟨fun _ _ _ _ => rfl, ?_, rfl⟩, hh, hw, fun _ _ _ _ => rfl⟩
  change 0 = 0 - (h - 1) + 0
  omega

/-! ### Typing text -/

/-- The number of places in front of the cursor. -/
def Page.place (w : ℕ) (t : Page α) : ℕ := t.row * w + t.col

/-- Typing goes on where it was interrupted. -/
theorem Page.type_append (w : ℕ) (t : Page α) (keys keys' : List (Key α)) :
    t.type w (keys ++ keys') = (t.type w keys).type w keys' := List.foldl_append

/-- Typing never moves the cursor up. -/
theorem Tidy.row_le_type (ht : Tidy w b t) (keys : List (Key α)) : t.row ≤ (t.type w keys).row := by
  induction keys generalizing t with
  | nil => exact le_rfl
  | cons key keys ih =>
    obtain ⟨htidy, hle, -⟩ := ht.press key
    exact hle.trans (ih htidy)

/-- Two places in columns are the same when they have the same number. -/
theorem eq_of_place_eq {i i' j j' : ℕ} (hj : j < w) (hj' : j' < w)
    (h : i * w + j = i' * w + j') : i = i' ∧ j = j' := by
  have hdiv : ∀ a b, b < w → (a * w + b) / w = a := fun a b hb => by
    rw [Nat.mul_comm, Nat.mul_add_div (Nat.zero_lt_of_lt hb), Nat.div_eq_of_lt hb, Nat.add_zero]
  have hi : i = i' := by rw [← hdiv i j hj, h, hdiv i' j' hj']
  exact ⟨hi, by rw [hi] at h; exact Nat.add_left_cancel h⟩

/-- A character is written in the place of the cursor, which goes on to the next place. -/
theorem Page.press_char (hcol : t.col < w) (a : α) :
    (t.press w (.char a)).col < w ∧ (t.press w (.char a)).place w = t.place w + 1 ∧
      ∀ i, ∀ j < w, (t.press w (.char a)).text i j =
        if i * w + j = t.place w then a else t.text i j := by
  have htext : ∀ i, ∀ j < w, (if i = t.row ∧ j = t.col then a else t.text i j) =
      if i * w + j = t.place w then a else t.text i j := fun i j hj => by
    refine if_congr ⟨?_, fun h => eq_of_place_eq hj hcol h⟩ rfl rfl
    rintro ⟨rfl, rfl⟩
    rfl
  unfold Page.press Page.wrap Page.place
  by_cases hwrap : w ≤ t.col + 1
  · rw [if_pos (show w ≤ (t.move (.char a)).col from hwrap)]
    refine ⟨Nat.zero_lt_of_lt hcol, ?_, htext⟩
    change (t.row + 1) * w + 0 = t.row * w + t.col + 1
    rw [Nat.add_mul]
    omega
  · rw [if_neg (show ¬w ≤ (t.move (.char a)).col from hwrap)]
    exact ⟨Nat.not_le.mp hwrap, rfl, htext⟩

/-- Characters are written in the places from the cursor on. -/
theorem Page.type_chars (hcol : t.col < w) (as : List α) :
    (t.type w (as.map .char)).col < w ∧
      (t.type w (as.map .char)).place w = t.place w + as.length ∧
      ∀ i, ∀ j < w, (t.type w (as.map .char)).text i j =
        if t.place w ≤ i * w + j then as.getD (i * w + j - t.place w) (t.text i j)
        else t.text i j := by
  induction as generalizing t with
  | nil => exact ⟨hcol, rfl, fun i j _ => by simp [Page.type]⟩
  | cons a as ih =>
    obtain ⟨hcol₁, hplace₁, htext₁⟩ := Page.press_char hcol a
    obtain ⟨hcol₂, hplace₂, htext₂⟩ := ih hcol₁
    refine ⟨hcol₂, ?_, fun i j hj => ?_⟩
    · rw [List.length_cons, Nat.add_comm as.length, ← Nat.add_assoc, ← hplace₁]
      exact hplace₂
    · refine (htext₂ i j hj).trans ?_
      rw [hplace₁, htext₁ i j hj]
      rcases Nat.lt_trichotomy (i * w + j) (t.place w) with hlt | heq | hgt
      · rw [if_neg (by omega), if_neg (by omega), if_neg (by omega)]
      · rw [if_neg (by omega), if_pos heq, if_pos heq.ge, heq, Nat.sub_self]
        rfl
      · obtain ⟨d, hd⟩ := Nat.exists_eq_add_of_lt hgt
        have htail : i * w + j - (t.place w + 1) = d := by omega
        have hall : i * w + j - t.place w = d + 1 := by omega
        rw [if_pos (by omega), if_neg (by omega), if_pos hgt.le, htail, hall, List.getD_cons_succ]

end

end Screen
