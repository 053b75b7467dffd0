import Mathlib.Data.List.Chain
import Mathlib.Data.List.Perm.Basic

/-!
# Coalescing lists

A list whose elements are either *open* (`p x = true`) or not, with an operation `merge` that joins
two neighbouring open elements into one.  `coalesce` merges every maximal run of open neighbours,
from the right; its result is `Separated`, no two neighbours being open, and it is the identity on
separated lists.  When `merge` of open elements is open and associative (`Merging`), coalescing a
part of a list first does not change the result (`coalesce_coalesce_append`).

The second half is about opening elements.  Elements carry a key that `merge` takes from its left
argument; `markAt` opens the element with a given key and `release` coalesces after it.
`releaseAll_eq` is the normal form of a whole sequence of releases: it is `coalesce` after opening
all the keys at once, so the order of the releases does not matter (`releaseAll_perm`).
-/

namespace Coalesce

variable {α κ : Type*} (p : α → Bool) (merge : α → α → α)

/-- No two neighbours of the list are open. -/
def Separated (l : List α) : Prop := l.IsChain fun a b => ¬(p a = true ∧ p b = true)

/-- Put `x` in front of a list, merging it with the head if both are open. -/
def join (x : α) : List α → List α
  | [] => [x]
  | y :: ys => if p x && p y then merge x y :: ys else x :: y :: ys

/-- Merge every maximal run of open neighbours. -/
def coalesce (l : List α) : List α := l.foldr (join p merge) []

/-- Merging two open elements gives an open element, and is associative on open elements. -/
structure Merging : Prop where
  /-- The merge of two open elements is open. -/
  merge_open : ∀ x y, p x = true → p y = true → p (merge x y) = true
  /-- Merging open elements is associative. -/
  assoc : ∀ x y z, p x = true → p y = true → p z = true →
    merge (merge x y) z = merge x (merge y z)

@[simp] theorem coalesce_nil : coalesce p merge [] = [] := rfl

@[simp] theorem coalesce_cons (x : α) (l : List α) :
    coalesce p merge (x :: l) = join p merge x (coalesce p merge l) := rfl

/-- Coalescing a concatenation coalesces the right part first. -/
theorem coalesce_append (xs ys : List α) :
    coalesce p merge (xs ++ ys) = xs.foldr (join p merge) (coalesce p merge ys) :=
  List.foldr_append

/-! ### The result is separated -/

variable {p merge}

/-- Joining onto a separated list gives a separated list. -/
theorem separated_join {x : α} {l : List α} (hl : Separated p l) :
    Separated p (join p merge x l) := by
  cases l with
  | nil => exact List.isChain_singleton _
  | cons y ys =>
    by_cases hxy : p x && p y
    · rw [join, if_pos hxy]
      cases ys with
      | nil => exact List.isChain_singleton _
      | cons z zs =>
        simp only [Separated, List.isChain_cons_cons] at hl ⊢
        rw [Bool.and_eq_true] at hxy
        exact ⟨fun h => hl.1 ⟨hxy.2, h.2⟩, hl.2⟩
    · rw [join, if_neg hxy]
      exact List.isChain_cons_cons.mpr ⟨by simpa using hxy, hl⟩

/-- A coalesced list is separated. -/
theorem separated_coalesce (l : List α) : Separated p (coalesce p merge l) := by
  induction l with
  | nil => exact List.isChain_nil
  | cons x l ih => exact separated_join ih

/-- Coalescing changes nothing in a separated list. -/
theorem coalesce_of_separated {l : List α} (hl : Separated p l) : coalesce p merge l = l := by
  induction l with
  | nil => rfl
  | cons x l ih =>
    rw [coalesce_cons, ih hl.tail]
    cases l with
    | nil => rfl
    | cons y ys =>
      have hxy := (List.isChain_cons_cons.mp hl).1
      rw [join, if_neg (by simpa using hxy)]

/-! ### Coalescing in parts -/

/-- Two open neighbours may be merged before coalescing. -/
theorem join_merge (hm : Merging p merge) {x y : α} (hx : p x = true) (hy : p y = true)
    (l : List α) : join p merge (merge x y) l = join p merge x (join p merge y l) := by
  have hxy := hm.merge_open x y hx hy
  cases l with
  | nil => simp [join, hx, hy]
  | cons z zs =>
    by_cases hz : p z = true
    · have hyz := hm.merge_open y z hy hz
      simp [join, hx, hy, hz, hxy, hyz, hm.assoc x y z hx hy hz]
    · simp [join, hx, hy, hz]

/-- Two open neighbours anywhere in the list may be merged before coalescing. -/
theorem coalesce_append_merge (hm : Merging p merge) {x y : α} (hx : p x = true)
    (hy : p y = true) (xs ys : List α) :
    coalesce p merge (xs ++ merge x y :: ys) = coalesce p merge (xs ++ x :: y :: ys) := by
  rw [coalesce_append, coalesce_append, coalesce_cons, coalesce_cons, coalesce_cons,
    join_merge hm hx hy]

/-- The first part of a list may be coalesced before the whole. -/
theorem coalesce_coalesce_append (hm : Merging p merge) (xs ys : List α) :
    coalesce p merge (coalesce p merge xs ++ ys) = coalesce p merge (xs ++ ys) := by
  induction xs with
  | nil => rfl
  | cons x xs ih =>
    have hstep : ∀ zs, coalesce p merge (join p merge x zs ++ ys) =
        join p merge x (coalesce p merge (zs ++ ys)) := by
      intro zs
      cases zs with
      | nil => rfl
      | cons z zs =>
        by_cases hxz : p x && p z
        · rw [join, if_pos hxz]
          rw [Bool.and_eq_true] at hxz
          exact join_merge hm hxz.1 hxz.2 _
        · rw [join, if_neg hxz]
          rfl
    rw [coalesce_cons, hstep, ih]
    rfl

/-- An element that is not open cuts the list: both sides coalesce on their own. -/
theorem coalesce_append_closed {b : α} (hb : p b = false) (xs ys : List α) :
    coalesce p merge (xs ++ b :: ys) = coalesce p merge xs ++ b :: coalesce p merge ys := by
  induction xs with
  | nil =>
    rw [List.nil_append, coalesce_cons]
    cases coalesce p merge ys <;> simp [join, hb]
  | cons x xs ih =>
    rw [List.cons_append, coalesce_cons, ih, coalesce_cons]
    cases coalesce p merge xs with
    | nil => simp [join, hb]
    | cons y zs => by_cases hxy : p x && p y <;> simp [join, hxy]

/-- Coalescing keeps the elements that are not open, and makes no new ones. -/
theorem mem_coalesce_closed (hm : Merging p merge) {b : α} (hb : p b = false) (l : List α) :
    b ∈ coalesce p merge l ↔ b ∈ l := by
  induction l with
  | nil => exact Iff.rfl
  | cons x l ih =>
    rw [coalesce_cons, List.mem_cons, ← ih]
    cases coalesce p merge l with
    | nil => simp [join]
    | cons y ys =>
      by_cases hxy : p x && p y
      · rw [join, if_pos hxy]
        rw [Bool.and_eq_true] at hxy
        have hmerge : b ≠ merge x y := by
          intro h
          rw [h, hm.merge_open x y hxy.1 hxy.2] at hb
          exact Bool.noConfusion hb
        have hx : b ≠ x := fun h => by simp [h, hxy.1] at hb
        have hy : b ≠ y := fun h => by simp [h, hxy.2] at hb
        simp [hmerge, hx, hy]
      · rw [join, if_neg hxy, List.mem_cons]

/-- Open elements end up in open elements that are at least as large, when merging never makes
anything smaller. -/
theorem exists_mem_coalesce_open (hm : Merging p merge) (w : α → ℕ)
    (hleft : ∀ x y, w x ≤ w (merge x y)) (hright : ∀ x y, w y ≤ w (merge x y)) {b : α} {l : List α}
    (hb : b ∈ l) (hopen : p b = true) : ∃ c ∈ coalesce p merge l, p c = true ∧ w b ≤ w c := by
  induction l with
  | nil => exact absurd hb List.not_mem_nil
  | cons x l ih =>
    rw [coalesce_cons]
    have htail : b ∈ l → ∃ c ∈ join p merge x (coalesce p merge l), p c = true ∧ w b ≤ w c := by
      intro hb
      obtain ⟨c, hc, hcopen, hbc⟩ := ih hb
      cases hl : coalesce p merge l with
      | nil => exact absurd (hl ▸ hc) List.not_mem_nil
      | cons y ys =>
        rw [hl] at hc
        by_cases hxy : p x && p y
        · rw [join, if_pos hxy]
          rw [Bool.and_eq_true] at hxy
          rcases List.mem_cons.mp hc with rfl | hc
          · exact ⟨_, List.mem_cons_self, hm.merge_open x c hxy.1 hxy.2, hbc.trans (hright x c)⟩
          · exact ⟨c, List.mem_cons_of_mem _ hc, hcopen, hbc⟩
        · rw [join, if_neg hxy]
          exact ⟨c, List.mem_cons_of_mem x hc, hcopen, hbc⟩
    rcases List.mem_cons.mp hb with rfl | hb
    · cases hl : coalesce p merge l with
      | nil => exact ⟨b, List.mem_singleton_self b, hopen, le_rfl⟩
      | cons y ys =>
        by_cases hby : p b && p y
        · rw [join, if_pos hby]
          rw [Bool.and_eq_true] at hby
          exact ⟨_, List.mem_cons_self, hm.merge_open b y hby.1 hby.2, hleft b y⟩
        · rw [join, if_neg hby]
          exact ⟨b, List.mem_cons_self, hopen, le_rfl⟩
    · exact htail hb

/-! ### Opening elements by key -/

section Keys

variable [DecidableEq κ] (key : α → κ) (mark : α → α)

/-- Open the elements whose key is `k`. -/
def markAt (k : κ) (l : List α) : List α := l.map fun b => if key b = k then mark b else b

/-- Open the elements whose key is in `ks`. -/
def markAll (ks : List κ) (l : List α) : List α :=
  l.map fun b => if key b ∈ ks then mark b else b

variable (p merge)

/-- Open the element with key `k` and coalesce. -/
def release (k : κ) (l : List α) : List α := coalesce p merge (markAt key mark k l)

/-- Release the keys one after the other. -/
def releaseAll (ks : List κ) (l : List α) : List α :=
  ks.foldl (fun l k => release p merge key mark k l) l

/-- How keys behave: opening keeps the key, and a merged element has the key of its left part. -/
structure Keyed : Prop where
  /-- Opening an element keeps its key. -/
  key_mark : ∀ b, key (mark b) = key b
  /-- A merged element has the key of its left part. -/
  key_merge : ∀ x y, key (merge x y) = key x

variable {p merge key mark}

/-- Opening a key that does not occur changes nothing. -/
theorem markAt_of_notMem {k : κ} {l : List α} (h : k ∉ l.map key) : markAt key mark k l = l := by
  refine (List.map_congr_left fun b hb => ?_).trans (List.map_id l)
  have hne : key b ≠ k := fun hbk => h (hbk ▸ List.mem_map_of_mem hb)
  rw [if_neg hne, id]

/-- Opening a key around its only occurrence. -/
theorem markAt_append_cons {k : κ} {b : α} {xs ys : List α} (hb : key b = k)
    (hxs : k ∉ xs.map key) (hys : k ∉ ys.map key) :
    markAt key mark k (xs ++ b :: ys) = xs ++ mark b :: ys := by
  have hx : markAt key mark k xs = xs := markAt_of_notMem hxs
  have hy : markAt key mark k ys = ys := markAt_of_notMem hys
  unfold markAt at hx hy ⊢
  rw [List.map_append, List.map_cons, hx, hy, if_pos hb]

/-- The keys of a list with opened elements are the keys of the list. -/
theorem map_key_markAll (hk : Keyed merge key mark) (ks : List κ) (l : List α) :
    (markAll key mark ks l).map key = l.map key := by
  rw [markAll, List.map_map]
  refine List.map_congr_left fun b _ => ?_
  rw [Function.comp_apply]
  split
  · exact hk.key_mark b
  · rfl

omit [DecidableEq κ] in
/-- Coalescing makes no new keys. -/
theorem key_mem_of_mem_coalesce (hk : Keyed merge key mark) {k : κ} {l : List α}
    (h : k ∈ (coalesce p merge l).map key) : k ∈ l.map key := by
  induction l with
  | nil => exact h
  | cons x l ih =>
    rw [coalesce_cons] at h
    rw [List.map_cons, List.mem_cons]
    cases hl : coalesce p merge l with
    | nil =>
      rw [hl] at h
      exact Or.inl (by simpa [join] using h)
    | cons y ys =>
      rw [hl] at h ih
      by_cases hxy : p x && p y
      · rw [join, if_pos hxy, List.map_cons, hk.key_merge, List.mem_cons] at h
        exact h.imp_right fun h => ih (List.mem_cons_of_mem _ h)
      · rw [join, if_neg hxy, List.map_cons, List.mem_cons] at h
        exact h.imp_right ih

omit [DecidableEq κ] in
/-- A coalesced list begins with an element that has the key of the first one and is open if
it is. -/
theorem exists_coalesce_cons (hm : Merging p merge) (hk : Keyed merge key mark) (x : α) (l : List α) :
    ∃ y ys, coalesce p merge (x :: l) = y :: ys ∧ key y = key x ∧ p y = p x := by
  rw [coalesce_cons]
  cases coalesce p merge l with
  | nil => exact ⟨x, [], rfl, rfl, rfl⟩
  | cons z zs =>
    by_cases hxz : p x && p z
    · rw [join, if_pos hxz]
      rw [Bool.and_eq_true] at hxz
      exact ⟨_, zs, rfl, hk.key_merge x z, (hm.merge_open x z hxz.1 hxz.2).trans hxz.1.symm⟩
    · rw [join, if_neg hxz]
      exact ⟨x, _, rfl, rfl, rfl⟩

/-- Releasing a key keeps the closed elements with other keys, and no other closed elements. -/
theorem mem_release_closed (hm : Merging p merge) (hmark : ∀ b, p (mark b) = true) {k : κ} {b : α}
    (hb : p b = false) (l : List α) :
    b ∈ release p merge key mark k l ↔ b ∈ l ∧ key b ≠ k := by
  rw [release, mem_coalesce_closed hm hb, markAt, List.mem_map]
  constructor
  · rintro ⟨c, hc, hcb⟩
    split at hcb
    · rw [← hcb, hmark] at hb
      exact Bool.noConfusion hb
    · rename_i hne
      exact ⟨hcb ▸ hc, hcb ▸ hne⟩
  · rintro ⟨hbl, hne⟩
    exact ⟨b, hbl, if_neg hne⟩

/-- Releasing a key leaves an open element at least as large as any that was open, and as the one
that was released. -/
theorem exists_mem_release_open (hm : Merging p merge) (hmark : ∀ b, p (mark b) = true)
    (w : α → ℕ) (hw : ∀ b, w (mark b) = w b) (hleft : ∀ x y, w x ≤ w (merge x y))
    (hright : ∀ x y, w y ≤ w (merge x y)) {k : κ} {b : α} {l : List α} (hb : b ∈ l)
    (hopen : p b = true ∨ key b = k) :
    ∃ c ∈ release p merge key mark k l, p c = true ∧ w b ≤ w c := by
  have hmem : (if key b = k then mark b else b) ∈ markAt key mark k l := List.mem_map_of_mem hb
  have hopen' : p (if key b = k then mark b else b) = true := by
    split
    · exact hmark b
    · next hne => exact hopen.resolve_right hne
  have hsize : w (if key b = k then mark b else b) = w b := by
    split
    · exact hw b
    · rfl
  obtain ⟨c, hc, hcopen, hle⟩ := exists_mem_coalesce_open hm w hleft hright hmem hopen'
  exact ⟨c, hc, hcopen, hsize ▸ hle⟩

/-- Releasing a key keeps the key of the head. -/
theorem head_key_release (hk : Keyed merge key mark) (k : κ) (x : α) (l : List α) :
    ((release p merge key mark k (x :: l)).map key).head? = some (key x) := by
  have hx : key (if key x = k then mark x else x) = key x := by
    split
    · exact hk.key_mark x
    · rfl
  rw [release, markAt, List.map_cons, coalesce_cons]
  generalize (if key x = k then mark x else x) = z at hx ⊢
  cases coalesce p merge (l.map fun b => if key b = k then mark b else b) with
  | nil => simp [join, hx]
  | cons y ys => by_cases hzy : p z && p y <;> simp [join, hzy, hk.key_merge, hx]

/-- Opening a closed element of a list and coalescing gives the same result whether or not the list
was coalesced before. -/
theorem release_coalesce (hm : Merging p merge) (hk : Keyed merge key mark) {k : κ} {l : List α}
    (hnd : (l.map key).Nodup) (hb : ∃ b ∈ l, p b = false ∧ key b = k) :
    release p merge key mark k (coalesce p merge l) = release p merge key mark k l := by
  obtain ⟨b, hbl, hclosed, hbk⟩ := hb
  obtain ⟨xs, ys, rfl⟩ := List.append_of_mem hbl
  rw [List.map_append, List.map_cons, List.nodup_append, List.nodup_cons] at hnd
  have hxs : k ∉ xs.map key := fun h => hnd.2.2 k h (key b) List.mem_cons_self hbk.symm
  have hys : k ∉ ys.map key := hbk ▸ hnd.2.1.1
  rw [release, release, coalesce_append_closed hclosed, markAt_append_cons hbk hxs hys,
    markAt_append_cons hbk (fun h => hxs (key_mem_of_mem_coalesce hk h))
      fun h => hys (key_mem_of_mem_coalesce hk h)]
  rw [coalesce_coalesce_append hm, coalesce_append, coalesce_append, coalesce_cons, coalesce_cons,
    coalesce_of_separated (separated_coalesce ys)]

/-- The normal form of a sequence of releases: open all the keys, then coalesce once. -/
theorem releaseAll_eq (hm : Merging p merge) (hk : Keyed merge key mark) {ks : List κ}
    {l : List α} (hsep : Separated p l) (hnd : (l.map key).Nodup) (hks : ks.Nodup)
    (hb : ∀ k ∈ ks, ∃ b ∈ l, p b = false ∧ key b = k) :
    releaseAll p merge key mark ks l = coalesce p merge (markAll key mark ks l) := by
  induction ks using List.reverseRecOn with
  | nil => simp [releaseAll, markAll, coalesce_of_separated hsep]
  | append_singleton ks k ih =>
    obtain ⟨hks', -, hdisj⟩ := List.nodup_append.mp hks
    have hk' : k ∉ ks := fun h => hdisj k h k (List.mem_singleton_self k) rfl
    have hprev := ih hks' fun k' hk'' => hb k' (List.mem_append_left _ hk'')
    obtain ⟨b, hbl, hclosed, hbk⟩ := hb k (List.mem_append_right _ (List.mem_singleton_self k))
    have hstill : ∃ b ∈ markAll key mark ks l, p b = false ∧ key b = k := by
      refine ⟨b, List.mem_map.mpr ⟨b, hbl, ?_⟩, hclosed, hbk⟩
      rw [if_neg (hbk ▸ hk')]
    have hboth : markAt key mark k (markAll key mark ks l) = markAll key mark (ks ++ [k]) l := by
      rw [markAt, markAll, List.map_map]
      refine List.map_congr_left fun c _ => ?_
      by_cases hc : key c ∈ ks
      · have hck : key c ≠ k := fun h => hk' (h ▸ hc)
        simp [hc, hck, hk.key_mark]
      · simp [hc]
    have hlast : releaseAll p merge key mark (ks ++ [k]) l =
        release p merge key mark k (releaseAll p merge key mark ks l) := by
      simp [releaseAll]
    rw [hlast, hprev, release_coalesce hm hk (by rwa [map_key_markAll hk]) hstill, release, hboth]

/-- The order of the releases does not matter. -/
theorem releaseAll_perm (hm : Merging p merge) (hk : Keyed merge key mark) {ks ks' : List κ}
    {l : List α} (hsep : Separated p l) (hnd : (l.map key).Nodup) (hks : ks.Nodup)
    (hb : ∀ k ∈ ks, ∃ b ∈ l, p b = false ∧ key b = k) (hperm : ks.Perm ks') :
    releaseAll p merge key mark ks l = releaseAll p merge key mark ks' l := by
  rw [releaseAll_eq hm hk hsep hnd hks hb, releaseAll_eq hm hk hsep hnd (hperm.nodup_iff.mp hks)
    fun k hk' => hb k (hperm.mem_iff.mpr hk')]
  congr 1
  refine List.map_congr_left fun c _ => ?_
  simp only [hperm.mem_iff]

end Keys

end Coalesce
