import Mathlib.Data.List.Infix
import Mathlib.Logic.Basic

/-!
# Runs on fuel

A function with loops runs on fuel, and gives `none` when the fuel does not suffice.  `Yields f a`
says what `f` computes: enough fuel gives `a`, and no fuel gives anything else.

`Trace ε α` is a run that leaves events behind: those recorded so far, and the result when there is
one.  What was recorded stays recorded when the run stops for want of fuel, so that statements about
a trace are statements about runs that may not end.  `Completes f es a` says that enough fuel gives
the events `es` and the result `a`, and less fuel a first part of the events; `Emits f e` says that
enough fuel records `e`, whether or not the run ever returns, and `Records f es` that it records
`es` and nothing else.  `Guarded P B ok f post` puts the two together: the condition `ok` decides
whether the run goes well or records something bad.  There is a rule for each way to put runs
together.
-/

namespace Machine

variable {α β ε : Type*}

/-- Enough fuel gives `a`, and no fuel gives anything else. -/
structure Yields (f : ℕ → Option α) (a : α) : Prop where
  /-- Enough fuel gives the result. -/
  exists_fuel : ∃ N, ∀ n, N ≤ n → f n = some a
  /-- There is no other result. -/
  unique : ∀ n b, f n = some b → b = a

/-- The events of a run and its result; `none` when it has none yet. -/
structure Trace (ε α : Type*) where
  /-- What the run recorded. -/
  events : List ε
  /-- What the run returns. -/
  result : Option α

/-- Enough fuel gives the events `es` and the result `a`, and less fuel a first part of the
events. -/
structure Completes (f : ℕ → Trace ε α) (es : List ε) (a : α) : Prop where
  /-- Enough fuel completes the run. -/
  exists_fuel : ∃ N, ∀ n, N ≤ n → f n = ⟨es, some a⟩
  /-- Runs that stop earlier record no other events. -/
  isPrefix : ∀ n, (f n).events <+: es
  /-- Runs that return are complete. -/
  unique : ∀ n b, (f n).result = some b → f n = ⟨es, some a⟩

/-- Enough fuel records the events `es`, and less fuel a first part of them; the run need not
return. -/
structure Records (f : ℕ → Trace ε α) (es : List ε) : Prop where
  /-- Enough fuel records them all. -/
  exists_fuel : ∃ N, ∀ n, N ≤ n → (f n).events = es
  /-- Runs that stop earlier record no other events. -/
  isPrefix : ∀ n, (f n).events <+: es

/-- Enough fuel records the event `e`. -/
def Emits (f : ℕ → Trace ε α) (e : ε) : Prop := ∃ N, ∀ n, N ≤ n → e ∈ (f n).events

/-- If `ok` holds, enough fuel completes the run, with events that satisfy `P` and a result that
satisfies `post`; if not, enough fuel records an event that satisfies `B`. -/
structure Guarded (P B : ε → Prop) (ok : Prop) (f : ℕ → Trace ε α) (post : α → Prop) : Prop where
  /-- What the run does if `ok` holds. -/
  completes : ok → ∃ es a, Completes f es a ∧ (∀ e ∈ es, P e) ∧ post a
  /-- What it does if not. -/
  emits : ¬ok → ∃ e, B e ∧ Emits f e

/-! ### Results -/

namespace Yields

variable {f : ℕ → Option α} {a : α}

/-- Runs without loops. -/
theorem const (a : α) : Yields (fun _ => some a) a :=
  ⟨⟨0, fun _ _ => rfl⟩, fun _ _ h => (Option.some.inj h).symm⟩

/-- There is a run that returns. -/
theorem exists_run (h : Yields f a) : ∃ n, f n = some a :=
  let ⟨N, hN⟩ := h.exists_fuel
  ⟨N, hN N le_rfl⟩

/-- One run decides the result, when more fuel does not change it. -/
theorem of_mono (hmono : ∀ n n' b, f n = some b → n ≤ n' → f n' = some b) {n : ℕ}
    (h : f n = some a) : Yields f a := by
  refine ⟨⟨n, fun n' hle => hmono n n' a h hle⟩, fun n' b hb => ?_⟩
  have hmore := hmono n' (n + n') b hb (Nat.le_add_left n' n)
  exact Option.some.inj (hmore.symm.trans (hmono n (n + n') a h (Nat.le_add_right n n')))

/-- One run after the other. -/
theorem bind {g : α → ℕ → Option β} {b : β} (hf : Yields f a) (hg : Yields (g a) b) :
    Yields (fun n => (f n).bind fun x => g x n) b := by
  obtain ⟨N, hN⟩ := hf.exists_fuel
  obtain ⟨M, hM⟩ := hg.exists_fuel
  refine ⟨⟨N + M, fun n hn => ?_⟩, fun n c hc => ?_⟩
  · rw [hN n (by omega), Option.bind_some, hM n (by omega)]
  · obtain ⟨x, hx, hgx⟩ := Option.bind_eq_some_iff.mp hc
    rw [hf.unique n x hx] at hgx
    exact hg.unique n c hgx

/-- Changing the result of a run. -/
theorem map (h : Yields f a) (g : α → β) : Yields (fun n => (f n).map g) (g a) := by
  refine ⟨?_, fun n b hb => ?_⟩
  · obtain ⟨N, hN⟩ := h.exists_fuel
    exact ⟨N, fun n hn => by rw [hN n hn, Option.map_some]⟩
  · obtain ⟨x, hx, rfl⟩ := Option.map_eq_some_iff.mp hb
    rw [h.unique n x hx]

/-- A run that needs one unit of fuel to begin. -/
theorem succ {g : ℕ → Option α} (h : Yields g a) (h0 : f 0 = none) (hs : ∀ n, f (n + 1) = g n) :
    Yields f a := by
  obtain ⟨N, hN⟩ := h.exists_fuel
  refine ⟨⟨N + 1, fun n hn => ?_⟩, fun n b hb => ?_⟩
  · obtain ⟨d, rfl⟩ := Nat.exists_eq_add_of_le' hn
    rw [← Nat.add_assoc, hs, hN _ (Nat.le_add_left N d)]
  · cases n with
    | zero => exact absurd (h0.symm.trans hb) (Option.some_ne_none b).symm
    | succ n => exact h.unique n b ((hs n).symm.trans hb)

end Yields

/-! ### Traces -/

namespace Trace

/-- A run that records `es` and returns `a`. -/
def emit (es : List ε) (a : α) : Trace ε α := ⟨es, some a⟩

/-- A run that records nothing. -/
def ofOption (o : Option α) : Trace ε α := ⟨[], o⟩

/-- One run after the other. -/
def bind (t : Trace ε α) (f : α → Trace ε β) : Trace ε β :=
  match t.result with
  | none => ⟨t.events, none⟩
  | some a => ⟨t.events ++ (f a).events, (f a).result⟩

theorem bind_of_some {t : Trace ε α} {es : List ε} {a : α} (h : t = ⟨es, some a⟩)
    (f : α → Trace ε β) : t.bind f = ⟨es ++ (f a).events, (f a).result⟩ := by
  rw [h]
  rfl

theorem bind_of_none {t : Trace ε α} (h : t.result = none) (f : α → Trace ε β) :
    t.bind f = ⟨t.events, none⟩ := by
  unfold bind
  rw [h]

/-- Nothing is recorded by a run without events that is followed by such runs. -/
theorem events_ofOption_bind {o : Option α} {f : α → Trace ε β} (h : ∀ a, (f a).events = []) :
    ((ofOption o : Trace ε α).bind f).events = [] := by
  cases o with
  | none => rfl
  | some a => exact h a

/-- A run that only returns, and then another one. -/
@[simp] theorem emit_nil_bind (a : α) (f : α → Trace ε β) : (emit [] a).bind f = f a := rfl

end Trace

namespace Completes

variable {f : ℕ → Trace ε α} {es : List ε} {a : α}

/-- Runs without loops. -/
theorem emit (es : List ε) (a : α) : Completes (fun _ => Trace.emit es a) es a :=
  ⟨⟨0, fun _ _ => rfl⟩, fun _ => List.prefix_rfl, fun _ _ _ => rfl⟩

/-- Runs that record nothing. -/
theorem ofOption {g : ℕ → Option α} (h : Yields g a) :
    Completes (fun n => (Trace.ofOption (g n) : Trace ε α)) [] a := by
  obtain ⟨N, hN⟩ := h.exists_fuel
  refine ⟨⟨N, fun n hn => ?_⟩, fun _ => List.prefix_rfl, fun n b hb => ?_⟩
  · rw [Trace.ofOption, hN n hn]
  · have hgn : g n = some b := hb
    rw [Trace.ofOption, hgn, h.unique n b hgn]

/-- One run after the other. -/
theorem bind {g : α → ℕ → Trace ε β} {es' : List ε} {b : β} (hf : Completes f es a)
    (hg : Completes (g a) es' b) :
    Completes (fun n => (f n).bind fun x => g x n) (es ++ es') b := by
  obtain ⟨N, hN⟩ := hf.exists_fuel
  obtain ⟨M, hM⟩ := hg.exists_fuel
  have hcases : ∀ n, (f n).result = none ∨ f n = ⟨es, some a⟩ := by
    intro n
    cases hres : (f n).result with
    | none => exact Or.inl rfl
    | some c => exact Or.inr (hf.unique n c hres)
  refine ⟨⟨N + M, fun n hn => ?_⟩, fun n => ?_, fun n c hc => ?_⟩
  · rw [Trace.bind_of_some (hN n (by omega)), hM n (by omega)]
  · rcases hcases n with hnone | hsome
    · rw [Trace.bind_of_none hnone]
      exact (hf.isPrefix n).trans (List.prefix_append es es')
    · rw [Trace.bind_of_some hsome]
      exact (List.prefix_append_right_inj es).mpr (hg.isPrefix n)
  · rcases hcases n with hnone | hsome
    · rw [Trace.bind_of_none hnone] at hc
      exact absurd hc (Option.some_ne_none c).symm
    · rw [Trace.bind_of_some hsome] at hc ⊢
      rw [hg.unique n c hc]

/-- A run that needs one unit of fuel to begin. -/
theorem succ {g : ℕ → Trace ε α} (h : Completes g es a) (h0 : f 0 = ⟨[], none⟩)
    (hs : ∀ n, f (n + 1) = g n) : Completes f es a := by
  obtain ⟨N, hN⟩ := h.exists_fuel
  refine ⟨⟨N + 1, fun n hn => ?_⟩, fun n => ?_, fun n b hb => ?_⟩
  · obtain ⟨d, rfl⟩ := Nat.exists_eq_add_of_le' hn
    rw [← Nat.add_assoc, hs, hN _ (Nat.le_add_left N d)]
  · cases n with
    | zero =>
      rw [h0]
      exact List.nil_prefix
    | succ n =>
      rw [hs]
      exact h.isPrefix n
  · cases n with
    | zero =>
      rw [h0] at hb
      exact absurd hb (Option.some_ne_none b).symm
    | succ n =>
      rw [hs] at hb ⊢
      exact h.unique n b hb

/-- The result of a run that completes. -/
theorem yields (h : Completes f es a) : Yields (fun n => (f n).result) a := by
  obtain ⟨N, hN⟩ := h.exists_fuel
  refine ⟨⟨N, fun n hn => by rw [hN n hn]⟩, fun n b hb => ?_⟩
  have hrun : (f n).result = some a := congrArg Trace.result (h.unique n b hb)
  exact Option.some.inj (hb.symm.trans hrun)

/-- The events of a complete run are recorded. -/
theorem emits (h : Completes f es a) {e : ε} (he : e ∈ es) : Emits f e := by
  obtain ⟨N, hN⟩ := h.exists_fuel
  exact ⟨N, fun n hn => by rwa [hN n hn]⟩

/-- A run has one log and one result. -/
theorem eq {es' : List ε} {a' : α} (h : Completes f es a) (h' : Completes f es' a') :
    es = es' ∧ a = a' := by
  obtain ⟨N, hN⟩ := h.exists_fuel
  obtain ⟨M, hM⟩ := h'.exists_fuel
  have hboth := (hN (N + M) (Nat.le_add_right N M)).symm.trans (hM (N + M) (Nat.le_add_left M N))
  rw [Trace.mk.injEq, Option.some.injEq] at hboth
  exact hboth

end Completes

namespace Records

variable {f : ℕ → Trace ε α} {es : List ε}

/-- A run without events. -/
theorem silent (h : ∀ n, (f n).events = []) : Records f [] :=
  ⟨⟨0, fun n _ => h n⟩, fun n => by rw [h n]⟩

/-- What is recorded behind a run that completes. -/
theorem bind {g : α → ℕ → Trace ε β} {es' : List ε} {a : α} (hf : Completes f es a)
    (hg : Records (g a) es') : Records (fun n => (f n).bind fun x => g x n) (es ++ es') := by
  obtain ⟨N, hN⟩ := hf.exists_fuel
  obtain ⟨M, hM⟩ := hg.exists_fuel
  refine ⟨⟨N + M, fun n hn => ?_⟩, fun n => ?_⟩
  · rw [Trace.bind_of_some (hN n (by omega)), hM n (by omega)]
  · cases hres : (f n).result with
    | none =>
      rw [Trace.bind_of_none hres]
      exact (hf.isPrefix n).trans (List.prefix_append es es')
    | some c =>
      rw [Trace.bind_of_some (hf.unique n c hres)]
      exact (List.prefix_append_right_inj es).mpr (hg.isPrefix n)

/-- What holds of all that is recorded holds of the events of every run. -/
theorem forall_events (h : Records f es) {P : ε → Prop} (hP : ∀ e ∈ es, P e) (n : ℕ) :
    ∀ e ∈ (f n).events, P e :=
  fun e he => hP e ((h.isPrefix n).subset he)

end Records

namespace Emits

variable {f : ℕ → Trace ε α} {e : ε}

/-- What a run records is recorded whatever comes behind it. -/
theorem bind_left (h : Emits f e) (g : α → ℕ → Trace ε β) :
    Emits (fun n => (f n).bind fun x => g x n) e := by
  obtain ⟨N, hN⟩ := h
  refine ⟨N, fun n hn => ?_⟩
  dsimp only
  cases hres : (f n).result with
  | none =>
    rw [Trace.bind_of_none hres]
    exact hN n hn
  | some a =>
    rw [Trace.bind_of_some (show f n = ⟨(f n).events, some a⟩ by rw [← hres])]
    exact List.mem_append_left _ (hN n hn)

/-- What is recorded behind a run that completes. -/
theorem bind_right {g : α → ℕ → Trace ε β} {es : List ε} {a : α} (hf : Completes f es a)
    (hg : Emits (g a) e) : Emits (fun n => (f n).bind fun x => g x n) e := by
  obtain ⟨N, hN⟩ := hf.exists_fuel
  obtain ⟨M, hM⟩ := hg
  refine ⟨N + M, fun n hn => ?_⟩
  dsimp only
  rw [Trace.bind_of_some (hN n (by omega))]
  exact List.mem_append_right _ (hM n (by omega))

/-- A run that needs one unit of fuel to begin. -/
theorem succ {g : ℕ → Trace ε α} (h : Emits g e) (hs : ∀ n, f (n + 1) = g n) : Emits f e := by
  obtain ⟨N, hN⟩ := h
  refine ⟨N + 1, fun n hn => ?_⟩
  obtain ⟨d, rfl⟩ := Nat.exists_eq_add_of_le' hn
  rw [← Nat.add_assoc, hs]
  exact hN _ (Nat.le_add_left N d)

end Emits

namespace Guarded

variable {P B : ε → Prop} {ok ok' : Prop} {f : ℕ → Trace ε α} {post post' : α → Prop}

/-- The condition may be replaced by an equivalent one. -/
theorem congr (h : Guarded P B ok f post) (hok : ok ↔ ok') : Guarded P B ok' f post :=
  ⟨fun h' => h.completes (hok.mpr h'), fun h' => h.emits fun h'' => h' (hok.mp h'')⟩

/-- The result may be described less precisely. -/
theorem mono (h : Guarded P B ok f post) (hpost : ∀ a, post a → post' a) :
    Guarded P B ok f post' := by
  refine ⟨fun hok => ?_, h.emits⟩
  obtain ⟨es, a, hcomp, hes, ha⟩ := h.completes hok
  exact ⟨es, a, hcomp, hes, hpost a ha⟩

/-- Runs without loops. -/
theorem emit {es : List ε} {a : α} (hok : ok → (∀ e ∈ es, P e) ∧ post a)
    (hbad : ¬ok → ∃ e ∈ es, B e) : Guarded P B ok (fun _ => Trace.emit es a) post := by
  refine ⟨fun h => ⟨es, a, .emit es a, hok h⟩, fun h => ?_⟩
  obtain ⟨e, he, hB⟩ := hbad h
  exact ⟨e, hB, (Completes.emit es a).emits he⟩

/-- Runs that do nothing. -/
theorem ret {a : α} (ha : post a) : Guarded P B True (fun _ => Trace.emit [] a) post :=
  emit (fun _ => ⟨fun _ he => absurd he List.not_mem_nil, ha⟩) fun h => absurd trivial h

/-- Runs that record nothing. -/
theorem ofOption {g : ℕ → Option α} {a : α} (h : Yields g a) (ha : post a) :
    Guarded P B True (fun n => (Trace.ofOption (g n) : Trace ε α)) post :=
  ⟨fun _ => ⟨[], a, .ofOption h, fun _ he => absurd he List.not_mem_nil, ha⟩,
    fun h => absurd trivial h⟩

/-- One run after the other: the second one counts if the first one goes well. -/
theorem bind {g : α → ℕ → Trace ε β} {postβ : β → Prop} (hf : Guarded P B ok f post)
    (hg : ok → ∀ a, post a → Guarded P B ok' (g a) postβ) :
    Guarded P B (ok ∧ ok') (fun n => (f n).bind fun x => g x n) postβ := by
  constructor
  · rintro ⟨hok, hok'⟩
    obtain ⟨es, a, hcomp, hes, ha⟩ := hf.completes hok
    obtain ⟨es', b, hcomp', hes', hb⟩ := (hg hok a ha).completes hok'
    refine ⟨es ++ es', b, hcomp.bind hcomp', fun e he => ?_, hb⟩
    exact (List.mem_append.mp he).elim (hes e) (hes' e)
  · intro hnot
    by_cases hok : ok
    · obtain ⟨es, a, hcomp, -, ha⟩ := hf.completes hok
      obtain ⟨e, he, hemits⟩ := (hg hok a ha).emits fun hok' => hnot ⟨hok, hok'⟩
      exact ⟨e, he, Emits.bind_right hcomp hemits⟩
    · obtain ⟨e, he, hemits⟩ := hf.emits hok
      exact ⟨e, he, hemits.bind_left g⟩

/-- A run behind one that records nothing. -/
theorem ofOption_bind {g : ℕ → Option α} {a : α} {h : α → ℕ → Trace ε β} {postβ : β → Prop}
    (hg : Yields g a) (hh : Guarded P B ok (h a) postβ) :
    Guarded P B ok (fun n => (Trace.ofOption (g n)).bind fun x => h x n) postβ := by
  have hfirst : Guarded P B True (fun n => Trace.ofOption (g n)) (· = a) := ofOption hg rfl
  have hboth := hfirst.bind fun _ x hx => (hx ▸ hh : Guarded P B ok (h x) postβ)
  exact hboth.congr (and_iff_right trivial)

/-- A run behind one without loops, which decides. -/
theorem emit_bind {es : List ε} {a : α} {h : α → ℕ → Trace ε β} {postβ : β → Prop}
    (hok : ok → ∀ e ∈ es, P e) (hbad : ¬ok → ∃ e ∈ es, B e)
    (hh : ok → Guarded P B True (h a) postβ) :
    Guarded P B ok (fun n => (Trace.emit es a).bind fun x => h x n) postβ := by
  have hfirst : Guarded P B ok (fun _ => Trace.emit es a) (· = a) :=
    emit (fun h => ⟨hok h, rfl⟩) hbad
  have hboth := hfirst.bind fun h' x hx => (hx ▸ hh h' : Guarded P B True (h x) postβ)
  exact hboth.congr (and_iff_left trivial)

/-- A run that needs one unit of fuel to begin. -/
theorem succ {g : ℕ → Trace ε α} (h : Guarded P B ok g post) (h0 : f 0 = ⟨[], none⟩)
    (hs : ∀ n, f (n + 1) = g n) : Guarded P B ok f post := by
  refine ⟨fun hok => ?_, fun hnot => ?_⟩
  · obtain ⟨es, a, hcomp, hes, ha⟩ := h.completes hok
    exact ⟨es, a, hcomp.succ h0 hs, hes, ha⟩
  · obtain ⟨e, he, hemits⟩ := h.emits hnot
    exact ⟨e, he, hemits.succ hs⟩

/-- The condition decides whether all that is recorded is good. -/
theorem forall_events_iff (h : Guarded P (¬ P ·) ok f post) :
    (∀ n, ∀ e ∈ (f n).events, P e) ↔ ok := by
  constructor
  · intro hall
    by_contra hnot
    obtain ⟨e, he, N, hN⟩ := h.emits hnot
    exact he (hall N e (hN N le_rfl))
  · intro hok n e he
    obtain ⟨es, a, hcomp, hes, -⟩ := h.completes hok
    exact hes e ((hcomp.isPrefix n).subset he)

/-- A run that goes well returns. -/
theorem exists_yields (h : Guarded P B ok f post) (hok : ok) :
    ∃ a, Yields (fun n => (f n).result) a ∧ post a := by
  obtain ⟨es, a, hcomp, -, ha⟩ := h.completes hok
  exact ⟨a, hcomp.yields, ha⟩

end Guarded

/-! ### Results of good runs -/

/-- If all that the run records satisfies `P`, then what it returns satisfies `post`. -/
def Trace.Leads (P : ε → Prop) (t : Trace ε α) (post : α → Prop) : Prop :=
  (∀ e ∈ t.events, P e) → ∀ a, t.result = some a → post a

namespace Trace.Leads

variable {P : ε → Prop} {t : Trace ε α} {mid : α → Prop} {post : β → Prop}

/-- Runs without loops. -/
theorem emit {es : List ε} {a : α} (h : (∀ e ∈ es, P e) → mid a) : Leads P (Trace.emit es a) mid :=
  fun hes _ hb => Option.some.inj hb ▸ h hes

/-- Runs that do not return. -/
theorem none (es : List ε) : Leads P (⟨es, Option.none⟩ : Trace ε α) mid :=
  fun _ _ hb => absurd hb (Option.some_ne_none _).symm

/-- Runs that record nothing. -/
theorem ofOption {o : Option α} (h : ∀ a, o = some a → mid a) :
    Leads P (Trace.ofOption o : Trace ε α) mid :=
  fun _ a ha => h a ha

/-- The result may be described less precisely. -/
theorem mono {mid' : α → Prop} (h : Leads P t mid) (hmid : ∀ a, mid a → mid' a) : Leads P t mid' :=
  fun hes a ha => hmid a (h hes a ha)

/-- One run after the other. -/
theorem bind {f : α → Trace ε β} (ht : Leads P t mid) (hf : ∀ a, mid a → Leads P (f a) post) :
    Leads P (t.bind f) post := by
  intro hes b hb
  cases hres : t.result with
  | none =>
    rw [bind_of_none hres] at hb
    exact absurd hb (Option.some_ne_none b).symm
  | some a =>
    rw [bind_of_some (show t = ⟨t.events, some a⟩ by rw [← hres])] at hes hb
    exact hf a (ht (fun e he => hes e (List.mem_append_left _ he)) a hres)
      (fun e he => hes e (List.mem_append_right _ he)) b hb

end Trace.Leads

end Machine
