import Mathlib.Data.List.Basic

/-!
# Memories behind an interface

A device with states `S` answers accesses `α` one after the other (`runAll`).  `FlatMemory` says
that what it keeps is a memory of cells, whatever else its states hold: every access concerns one
cell, writes to it or not, and its answer depends on the value of that cell only.  Then the value of
a cell is always the last one written to it (`FlatMemory.view_runAll`), and that is what an access
is answered with (`FlatMemory.answer_runAll`).
-/

namespace Machine

variable {α κ V R S : Type*} [DecidableEq κ]

/-- Make accesses one after the other: their answers, and the state behind them. -/
def runAll (step : α → S → R × S) : List α → S → List R × S
  | [], s => ([], s)
  | a :: as, s =>
    let r := step a s
    let rest := runAll step as r.2
    (r.1 :: rest.1, rest.2)

/-- The last value that the accesses write to the cell `c`. -/
def lastWritten (cell : α → κ) (wrote : α → Option V) (as : List α) (c : κ) : Option V :=
  (as.filterMap fun a => if cell a = c then wrote a else none).getLast?

/-- The device keeps a memory of cells.  The access `a`, if it is `ok`, concerns `cell a`,
writes `wrote a` to it, if anything, and is answered with `answer a v` when the value of the
cell is `v`. -/
structure FlatMemory (ok : α → Prop) (cell : α → κ) (wrote : α → Option V) (answer : α → V → R)
    (view : S → κ → V) (step : α → S → R × S) : Prop where
  /-- The answer comes from the cell. -/
  answer : ∀ a s, ok a → (step a s).1 = answer a (view s (cell a))
  /-- The cell takes the value that is written to it. -/
  same : ∀ a s, ok a → view (step a s).2 (cell a) = (wrote a).getD (view s (cell a))
  /-- The other cells keep their values. -/
  other : ∀ a s c, ok a → cell a ≠ c → view (step a s).2 c = view s c

namespace FlatMemory

variable {ok : α → Prop} {cell : α → κ} {wrote : α → Option V} {answer : α → V → R}
  {view : S → κ → V} {step : α → S → R × S}

/-- Accesses after accesses. -/
theorem runAll_append (step : α → S → R × S) (as as' : List α) (s : S) :
    runAll step (as ++ as') s =
      ((runAll step as s).1 ++ (runAll step as' (runAll step as s).2).1,
        (runAll step as' (runAll step as s).2).2) := by
  induction as generalizing s with
  | nil => rfl
  | cons a as ih => simp only [List.cons_append, runAll, ih]

/-- Every access has an answer. -/
theorem length_runAll (step : α → S → R × S) (as : List α) (s : S) :
    (runAll step as s).1.length = as.length := by
  induction as generalizing s with
  | nil => rfl
  | cons a as ih => simp only [runAll, List.length_cons, ih]

/-- The first access may be made before the others. -/
theorem getD_lastWritten_cons (cell : α → κ) (wrote : α → Option V) (a : α) (as : List α) (c : κ)
    (v : V) : (lastWritten cell wrote (a :: as) c).getD v =
      (lastWritten cell wrote as c).getD (if cell a = c then (wrote a).getD v else v) := by
  unfold lastWritten
  by_cases hc : cell a = c
  · simp only [List.filterMap_cons, if_pos hc]
    cases wrote a with
    | none => rfl
    | some w =>
      simp only [List.getLast?_cons, Option.getD_some]
  · simp only [List.filterMap_cons, if_neg hc]

/-- The value of a cell is the last one written to it. -/
theorem view_runAll (h : FlatMemory ok cell wrote answer view step) {as : List α}
    (has : ∀ a ∈ as, ok a) (s : S) (c : κ) :
    view (runAll step as s).2 c = (lastWritten cell wrote as c).getD (view s c) := by
  induction as generalizing s with
  | nil => rfl
  | cons a as ih =>
    have ha := has a List.mem_cons_self
    rw [getD_lastWritten_cons, runAll, ih fun b hb => has b (List.mem_cons_of_mem a hb)]
    by_cases hc : cell a = c
    · subst hc
      rw [if_pos rfl, h.same a s ha]
    · rw [if_neg hc, h.other a s c ha hc]

/-- Accesses to other cells do not affect a cell. -/
theorem view_filter (h : FlatMemory ok cell wrote answer view step) {as : List α}
    (has : ∀ a ∈ as, ok a) (s : S) (c : κ) :
    view (runAll step (as.filter fun a => cell a = c) s).2 c = view (runAll step as s).2 c := by
  rw [h.view_runAll has, h.view_runAll fun a ha => has a (List.mem_of_mem_filter ha), lastWritten,
    List.filterMap_filter]
  congr 2
  refine List.filterMap_congr fun a _ => ?_
  by_cases hc : cell a = c <;> simp [hc]

/-- An access is answered with the last value written to its cell. -/
theorem answer_runAll (h : FlatMemory ok cell wrote answer view step) {pre post : List α} {a : α}
    (has : ∀ b ∈ pre ++ a :: post, ok b) (s : S) :
    (runAll step (pre ++ a :: post) s).1[pre.length]? =
      some (answer a ((lastWritten cell wrote pre (cell a)).getD (view s (cell a)))) := by
  have hpre : ∀ b ∈ pre, ok b := fun b hb => has b (List.mem_append_left _ hb)
  have hlen := length_runAll step pre s
  rw [runAll_append, List.getElem?_append_right (Nat.le_of_eq hlen), hlen, Nat.sub_self,
    runAll, List.getElem?_cons_zero, h.answer a _ (has a (by simp)), h.view_runAll hpre]

end FlatMemory

end Machine
