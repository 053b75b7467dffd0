import Mathlib.Algebra.Ring.Nat
import Mathlib.Algebra.BigOperators.Group.List.Basic
import Mathlib.Data.List.Pairwise

/-!
# Ranges that are used up from both ends

`Gap` is what is left of a range of places from which requests for a single place are served at the
upper end, and requests for several places in a row at the lower end.  As long as the places suffice
the parts that are handed out lie in the gap and are apart from each other (`Gap.places_apart`), and
what is left is again one gap.
-/

/-- The places from `lo` up to `hi`. -/
structure Gap where
  /-- The first place that is left. -/
  lo : ℕ
  /-- The first place behind it that is not. -/
  hi : ℕ
  deriving DecidableEq

namespace Gap

variable {g : Gap} {n : ℕ} {ns : List ℕ}

/-- The place where a request for `n` places is served. -/
def place (g : Gap) (n : ℕ) : ℕ := if n = 1 then g.hi - 1 else g.lo

/-- The gap behind it. -/
def take (g : Gap) (n : ℕ) : Gap := if n = 1 then ⟨g.lo, g.hi - 1⟩ else ⟨g.lo + n, g.hi⟩

/-- Where requests are served, one after the other: the first place of each, and the number. -/
def places : Gap → List ℕ → List (ℕ × ℕ)
  | _, [] => []
  | g, n :: ns => (g.place n, n) :: (g.take n).places ns

/-- The gap behind several requests. -/
def takeAll (g : Gap) (ns : List ℕ) : Gap := ns.foldl take g

/-- The place `i` is left. -/
def Left (g : Gap) (i : ℕ) : Prop := g.lo ≤ i ∧ i < g.hi

/-- The place `i` belongs to a part: a first place and a number of places. -/
def InPart (a : ℕ × ℕ) (i : ℕ) : Prop := a.1 ≤ i ∧ i < a.1 + a.2

instance (a : ℕ × ℕ) (i : ℕ) : Decidable (InPart a i) := inferInstanceAs (Decidable (_ ∧ _))

@[simp] theorem place_one (g : Gap) : g.place 1 = g.hi - 1 := rfl

theorem place_of_ne_one (hn : n ≠ 1) : g.place n = g.lo := if_neg hn

@[simp] theorem take_one (g : Gap) : g.take 1 = ⟨g.lo, g.hi - 1⟩ := rfl

theorem take_of_ne_one (hn : n ≠ 1) : g.take n = ⟨g.lo + n, g.hi⟩ := if_neg hn

/-- The gap behind a request that there is room for is part of the gap. -/
theorem take_le (hroom : g.lo + n ≤ g.hi) :
    g.lo ≤ (g.take n).lo ∧ (g.take n).lo ≤ (g.take n).hi ∧ (g.take n).hi ≤ g.hi := by
  by_cases hn : n = 1
  · subst hn
    simp only [take_one]
    omega
  · rw [take_of_ne_one hn]
    simp only
    omega

/-- A request that there is room for leaves room for what is left. -/
theorem take_lo_add (hroom : g.lo + n ≤ g.hi) {m : ℕ} :
    (g.take n).lo + m ≤ (g.take n).hi ↔ g.lo + n + m ≤ g.hi := by
  by_cases hn : n = 1
  · subst hn
    simp only [take_one]
    omega
  · rw [take_of_ne_one hn]

/-- The places that are handed out were left, and are not left any more; the others still are. -/
theorem left_take_iff (hroom : g.lo + n ≤ g.hi) {i : ℕ} :
    (InPart (g.place n, n) i → g.Left i) ∧
      ((g.take n).Left i ↔ g.Left i ∧ ¬InPart (g.place n, n) i) := by
  unfold Left InPart
  by_cases hn : n = 1
  · subst hn
    simp only [take_one, place_one]
    omega
  · rw [take_of_ne_one hn, place_of_ne_one hn]
    simp only
    omega

/-- As long as the places suffice, every part lies in the gap, and the rest is one gap again. -/
theorem left_takeAll_iff (hroom : g.lo + ns.sum ≤ g.hi) {i : ℕ} :
    (∀ a ∈ g.places ns, InPart a i → g.Left i) ∧
      ((g.takeAll ns).Left i ↔ g.Left i ∧ ∀ a ∈ g.places ns, ¬InPart a i) := by
  induction ns generalizing g with
  | nil => simp [places, takeAll]
  | cons n ns ih =>
    rw [List.sum_cons] at hroom
    have hroom₁ : g.lo + n ≤ g.hi := by omega
    obtain ⟨hfirst, hleft⟩ := left_take_iff (i := i) hroom₁
    obtain ⟨hrest, hall⟩ := ih ((take_lo_add hroom₁).mpr (by omega))
    rw [places, List.forall_mem_cons, List.forall_mem_cons]
    refine ⟨⟨hfirst, fun a ha hi => (hleft.mp (hrest a ha hi)).1⟩, ?_⟩
    change ((g.take n).takeAll ns).Left i ↔ _
    rw [hall, hleft, and_assoc]

/-- As long as the places suffice, no place belongs to two parts. -/
theorem places_apart (hroom : g.lo + ns.sum ≤ g.hi) :
    (g.places ns).Pairwise fun a b => ∀ i, InPart a i → ¬InPart b i := by
  induction ns generalizing g with
  | nil => exact .nil
  | cons n ns ih =>
    rw [List.sum_cons] at hroom
    have hroom₁ : g.lo + n ≤ g.hi := by omega
    have hrest : (g.take n).lo + ns.sum ≤ (g.take n).hi := (take_lo_add hroom₁).mpr (by omega)
    refine List.pairwise_cons.mpr ⟨fun b hb i hi hib => ?_, ih hrest⟩
    exact ((left_take_iff hroom₁).2.mp ((left_takeAll_iff hrest).1 b hb hib)).2 hi

end Gap
