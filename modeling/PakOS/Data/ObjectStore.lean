import Mathlib.Data.List.Basic
import Mathlib.Logic.Function.Basic

/-!
# Stores of objects

What an allocator is for, without addresses: a store has objects, each of them a list of cells, and
a client makes objects, resizes them, drops them and writes cells.  A new object may have any name
that is not taken, and any cells; an object that is resized may get a new name, and keeps its cells.

`Run.effect` is the frame rule: over a run in which an object is neither dropped nor resized it has
the cells that the client's own writes to it leave, whatever happens to the other objects.
`Step.without` is the other half of it: a client that does not name certain objects does what it
would do without them.
-/

namespace ObjectStore

variable {H C : Type*} [DecidableEq H]

/-- The objects of a store, and the cells of each. -/
def Store (H C : Type*) : Type _ := H → Option (List C)

/-- The store in which `h` has the cells `cs`, or does not exist. -/
def Store.set (σ : Store H C) (h : H) (cs : Option (List C)) : Store H C := Function.update σ h cs

@[simp] theorem Store.set_same (σ : Store H C) (h : H) (cs : Option (List C)) :
    σ.set h cs h = cs := Function.update_self _ _ _

theorem Store.set_of_ne (σ : Store H C) {h h' : H} (hne : h' ≠ h) (cs : Option (List C)) :
    σ.set h cs h' = σ h' := Function.update_of_ne hne _ _

/-- What a client does. -/
inductive Op (H C : Type*)
  /-- Make an object of at least `n` cells, the first `n` of which are `init`, if that is given. -/
  | new (n : ℕ) (init : Option C)
  /-- Make the object `h` at least `n` cells long. -/
  | resize (h : H) (n : ℕ)
  /-- Drop the object `h`. -/
  | drop (h : H)
  /-- Write `c` to cell `i` of the object `h`. -/
  | put (h : H) (i : ℕ) (c : C)
  /-- Do something else. -/
  | skip

/-- What may become of a store. -/
inductive Step (σ : Store H C) : Op H C → Store H C → Prop
  /-- A new object. -/
  | new {h : H} {cs : List C} {n : ℕ} {init : Option C} (hfresh : σ h = none) (hlen : n ≤ cs.length)
      (hinit : ∀ c ∈ init, ∀ i < n, cs[i]? = some c) : Step σ (.new n init) (σ.set h (some cs))
  /-- An object that is long enough. -/
  | keep {h : H} {cs : List C} {n : ℕ} (hh : σ h = some cs) (hlen : n ≤ cs.length) :
      Step σ (.resize h n) σ
  /-- An object that is too short gets a new name. -/
  | move {h h' : H} {cs ds : List C} {n : ℕ} (hh : σ h = some cs) (hlen : cs.length < n)
      (hfresh : σ h' = none) (hlen' : n ≤ ds.length) (hbegins : cs <+: ds) :
      Step σ (.resize h n) ((σ.set h' (some ds)).set h none)
  /-- An object is dropped. -/
  | drop {h : H} {cs : List C} (hh : σ h = some cs) : Step σ (.drop h) (σ.set h none)
  /-- A cell is written. -/
  | put {h : H} {cs : List C} {i : ℕ} {c : C} (hh : σ h = some cs) (hi : i < cs.length) :
      Step σ (.put h i c) (σ.set h (some (cs.set i c)))
  /-- Nothing happens. -/
  | skip : Step σ .skip σ

/-- A run. -/
inductive Run : Store H C → List (Op H C) → Store H C → Prop
  /-- No step. -/
  | nil {σ : Store H C} : Run σ [] σ
  /-- A step, and what follows. -/
  | cons {σ τ υ : Store H C} {op : Op H C} {ops : List (Op H C)} (hstep : Step σ op τ)
      (hrun : Run τ ops υ) : Run σ (op :: ops) υ

/-- The client drops or resizes the object `h`. -/
def Op.Ends (h : H) (op : Op H C) : Prop := op = .drop h ∨ ∃ n, op = .resize h n

/-- What the client writes to the object `h`, which has the cells `cs`. -/
def Op.effect (h : H) (cs : List C) : Op H C → List C
  | .put h' i c => if h' = h then cs.set i c else cs
  | _ => cs

/-- The client names the object `h`. -/
def Op.Names (h : H) (op : Op H C) : Prop := op.Ends h ∨ ∃ i c, op = .put h i c

omit [DecidableEq H] in
@[simp] theorem Op.not_names_new (h : H) (n : ℕ) (init : Option C) :
    ¬(Op.new n init).Names h := by
  simp [Op.Names, Op.Ends]

omit [DecidableEq H] in
@[simp] theorem Op.not_ends_put (h h' : H) (i : ℕ) (c : C) : ¬(Op.put h' i c).Ends h := by
  simp [Op.Ends]

omit [DecidableEq H] in
@[simp] theorem Op.names_put {h h' : H} {i : ℕ} {c : C} : (Op.put h' i c).Names h ↔ h' = h := by
  simp [Op.Names, Op.Ends]

omit [DecidableEq H] in
@[simp] theorem Op.names_drop {h h' : H} : (Op.drop h' : Op H C).Names h ↔ h' = h := by
  simp [Op.Names, Op.Ends]

omit [DecidableEq H] in
@[simp] theorem Op.names_resize {h h' : H} {n : ℕ} :
    (Op.resize h' n : Op H C).Names h ↔ h' = h := by
  simp [Op.Names, Op.Ends]

omit [DecidableEq H] in
@[simp] theorem Op.not_names_skip (h : H) : ¬(Op.skip : Op H C).Names h := by
  simp [Op.Names, Op.Ends]

variable {σ τ : Store H C} {op : Op H C} {ops : List (Op H C)} {h : H} {cs : List C}

/-- A step that does not end the object `h` has on it the effect of what the client writes to it. -/
theorem Step.effect (hstep : Step σ op τ) (hends : ¬op.Ends h) (hh : σ h = some cs) :
    τ h = some (op.effect h cs) := by
  cases hstep with
  | @new h' _ _ _ hfresh =>
    have hne : h ≠ h' := by
      rintro rfl
      rw [hfresh] at hh
      cases hh
    rwa [Store.set_of_ne _ hne]
  | keep | skip => exact hh
  | @move h₁ h' _ _ n _ _ hfresh =>
    have hne : h ≠ h₁ := by
      rintro rfl
      exact hends (Or.inr ⟨n, rfl⟩)
    have hne' : h ≠ h' := by
      rintro rfl
      rw [hfresh] at hh
      cases hh
    rwa [Store.set_of_ne _ hne, Store.set_of_ne _ hne']
  | @drop h₁ _ _ =>
    have hne : h ≠ h₁ := by
      rintro rfl
      exact hends (Or.inl rfl)
    rwa [Store.set_of_ne _ hne]
  | @put h₁ ds i c hh₁ _ =>
    by_cases heq : h₁ = h
    · subst heq
      rw [hh] at hh₁
      cases hh₁
      rw [Op.effect, if_pos rfl, Store.set_same]
    · rwa [Op.effect, if_neg heq, Store.set_of_ne _ (Ne.symm heq)]

/-- **The frame rule.**  Over a run that does not end the object `h` it has the cells that the
client's writes to it leave. -/
theorem Run.effect (hrun : Run σ ops τ) (hends : ∀ op ∈ ops, ¬op.Ends h) (hh : σ h = some cs) :
    τ h = some (ops.foldl (Op.effect h) cs) := by
  induction hrun generalizing cs with
  | nil => exact hh
  | cons hstep _ ih =>
    have hstep' := hstep.effect (hends _ List.mem_cons_self) hh
    exact ih (fun op hop => hends op (List.mem_cons_of_mem _ hop)) hstep'

/-- Nothing is written to an object that is not named. -/
theorem foldl_effect_of_not_names (hnames : ∀ op ∈ ops, ¬op.Names h) :
    ops.foldl (Op.effect h) cs = cs := by
  induction ops with
  | nil => rfl
  | cons op ops ih =>
    have hop : op.effect h cs = cs := by
      cases op with
      | put h' i c =>
        exact if_neg fun heq => hnames _ List.mem_cons_self (Or.inr ⟨i, c, by rw [heq]⟩)
      | new | resize | drop | skip => rfl
    rw [List.foldl_cons, hop, ih fun op hop => hnames op (List.mem_cons_of_mem _ hop)]

theorem length_foldl_effect (h : H) (ops : List (Op H C)) (cs : List C) :
    (ops.foldl (Op.effect h) cs).length = cs.length := by
  induction ops generalizing cs with
  | nil => rfl
  | cons op ops ih =>
    rw [List.foldl_cons, ih]
    cases op with
    | put h' i c =>
      rw [Op.effect]
      split
      · exact List.length_set
      · rfl
    | new | resize | drop | skip => rfl

/-! ### Part of a store -/

/-- The store without the objects `hs`. -/
def Store.without (σ : Store H C) (hs : List H) : Store H C := fun h =>
  if h ∈ hs then none else σ h

theorem Store.without_set {hs : List H} (σ : Store H C) (hh : h ∉ hs) (cs : Option (List C)) :
    (σ.set h cs).without hs = (σ.without hs).set h cs := by
  funext h'
  by_cases heq : h' = h
  · rw [heq, set_same]
    exact (if_neg hh).trans (σ.set_same h cs)
  · rw [set_of_ne _ heq]
    exact if_congr Iff.rfl rfl (σ.set_of_ne heq cs)

/-- A client that does not name the objects `hs` works on the store without them. -/
theorem Step.without {hs : List H} (hstep : Step σ op τ) (hnames : ∀ h ∈ hs, ¬op.Names h)
    (hexist : ∀ h ∈ hs, σ h ≠ none) : Step (σ.without hs) op (τ.without hs) := by
  have hnamed : ∀ h, op.Names h → h ∉ hs := fun h hop hh => hnames h hh hop
  have hnew : ∀ h, σ h = none → h ∉ hs := fun h hfresh hh => hexist h hh hfresh
  have hat : ∀ {h : H}, h ∉ hs → σ.without hs h = σ h := fun hh => if_neg hh
  cases hstep with
  | new hfresh hlen hinit =>
    have hh := hnew _ hfresh
    rw [Store.without_set _ hh]
    exact .new ((hat hh).trans hfresh) hlen hinit
  | @keep h cs n hh hlen =>
    exact .keep ((hat (hnamed h (Op.names_resize.mpr rfl))).trans hh) hlen
  | @move h h' cs ds n hh hlen hfresh hlen' hbegins =>
    have hold := hnamed h (Op.names_resize.mpr rfl)
    have hfresh' := hnew _ hfresh
    rw [Store.without_set _ hold, Store.without_set _ hfresh']
    exact .move ((hat hold).trans hh) hlen ((hat hfresh').trans hfresh) hlen' hbegins
  | @drop h cs hh =>
    have hold := hnamed h (Op.names_drop.mpr rfl)
    rw [Store.without_set _ hold]
    exact .drop ((hat hold).trans hh)
  | @put h cs i c hh hi =>
    have hold := hnamed h (Op.names_put.mpr rfl)
    rw [Store.without_set _ hold]
    exact .put ((hat hold).trans hh) hi
  | skip => exact .skip

end ObjectStore
