import Mathlib.Data.Nat.Notation
import Mathlib.Logic.Relation

/-!
# Programs at the ports of a device

A program that reads and writes the ports of a device which goes on by itself.  `Device.Run` are the
runs of the two together, in every order of their steps.

`Device.Triple Always P p Q` is the specification of a program in such company: while `p` runs from
a state with `P`, every state has the property `Always`; the program can end from wherever it has
come to; and at its end `Q` holds.  There is a rule for each way to put programs together; an
assertion has to be stable, which means that the steps of the device do not disturb it.
-/

namespace Machine

open Relation

/-- A program that reads and writes ports. -/
inductive Program (α : Type*)
  /-- The program has ended. -/
  | done (a : α)
  /-- It writes to a port. -/
  | outb (port : ℕ) (val : UInt8) (k : Program α)
  /-- It reads a port. -/
  | inb (port : ℕ) (k : UInt8 → Program α)
  /-- It reads a port until it sees what it waits for. -/
  | await (port : ℕ) (ok : UInt8 → Bool) (k : Program α)

/-- One program after the other. -/
def Program.bind {α β : Type*} : Program α → (α → Program β) → Program β
  | done a, f => f a
  | outb port val k, f => outb port val (k.bind f)
  | inb port k, f => inb port fun v => (k v).bind f
  | await port ok k, f => await port ok (k.bind f)

/-- A device with ports. -/
structure Device (δ : Type*) where
  /-- What a write to a port does. -/
  outb : ℕ → UInt8 → δ → δ
  /-- What a read of a port gives and does. -/
  inb : ℕ → δ → UInt8 × δ
  /-- What the device does by itself. -/
  Own : δ → δ → Prop

namespace Device

variable {α β δ : Type*}

/-- A step of a program and its device. -/
inductive Moves (D : Device δ) : Program α × δ → Program α × δ → Prop
  /-- A step of the device. -/
  | own {p : Program α} {c d : δ} (h : D.Own c d) : Moves D (p, c) (p, d)
  /-- A write. -/
  | outb {port : ℕ} {val : UInt8} {k : Program α} {c : δ} :
      Moves D (.outb port val k, c) (k, D.outb port val c)
  /-- A read. -/
  | inb {port : ℕ} {k : UInt8 → Program α} {c : δ} :
      Moves D (.inb port k, c) (k (D.inb port c).1, (D.inb port c).2)
  /-- A read that is not the last one of its loop. -/
  | again {port : ℕ} {ok : UInt8 → Bool} {k : Program α} {c : δ} (h : ok (D.inb port c).1 = false) :
      Moves D (.await port ok k, c) (.await port ok k, (D.inb port c).2)
  /-- The last read of a loop. -/
  | go {port : ℕ} {ok : UInt8 → Bool} {k : Program α} {c : δ} (h : ok (D.inb port c).1 = true) :
      Moves D (.await port ok k, c) (k, (D.inb port c).2)

/-- A run of a program and its device. -/
abbrev Run (D : Device δ) : Program α × δ → Program α × δ → Prop := ReflTransGen D.Moves

variable {D : Device δ} {Always P P' : δ → Prop} {Q : α → δ → Prop} {c d : δ} {p q : Program α}

/-- The device goes on by itself. -/
theorem run_own (p : Program α) (h : ReflTransGen D.Own c d) : D.Run (p, c) (p, d) :=
  h.lift (fun c => (p, c)) fun _ _ => .own

/-- A read of a known value. -/
theorem run_inb {port : ℕ} {v : UInt8} (k : UInt8 → Program α) (h : (D.inb port c).1 = v) :
    D.Run (.inb port k, c) (k v, (D.inb port c).2) := h ▸ .single .inb

/-- A run of a program is the beginning of a run of what it is the beginning of. -/
theorem Run.bind (h : D.Run (p, c) (q, d)) (f : α → Program β) :
    D.Run (p.bind f, c) (q.bind f, d) := by
  refine h.lift (fun s => (s.1.bind f, s.2)) fun s t hst => ?_
  cases hst with
  | own h => exact .own h
  | outb => exact .outb
  | inb => exact .inb
  | again h => exact .again h
  | go h => exact .go h

/-- A run of two programs is in the first one, or the first one has ended. -/
theorem bind_cases {f : α → Program β} {r : Program β} (h : D.Run (p.bind f, c) (r, d)) :
    (∃ q, r = q.bind f ∧ D.Run (p, c) (q, d)) ∨
      ∃ a e, D.Run (p, c) (.done a, e) ∧ D.Run (f a, e) (r, d) := by
  generalize hr : (r, d) = s at h
  induction h generalizing r d with
  | refl =>
    obtain ⟨rfl, rfl⟩ := Prod.mk.inj hr
    exact Or.inl ⟨p, rfl, .refl⟩
  | @tail t u _ hlast ih =>
    subst hr
    obtain ⟨r', d'⟩ := t
    rcases ih rfl with ⟨q, rfl, hrun⟩ | ⟨a, e, hfirst, hrest⟩
    · -- the last step is one of the first program, if that has not ended
      cases q with
      | done a => exact Or.inr ⟨a, d', hrun, .single hlast⟩
      | outb port val k =>
        cases hlast with
        | own h => exact Or.inl ⟨_, rfl, hrun.tail (.own h)⟩
        | outb => exact Or.inl ⟨k, rfl, hrun.tail .outb⟩
      | inb port k =>
        cases hlast with
        | own h => exact Or.inl ⟨_, rfl, hrun.tail (.own h)⟩
        | inb => exact Or.inl ⟨_, rfl, hrun.tail .inb⟩
      | await port ok k =>
        cases hlast with
        | own h => exact Or.inl ⟨_, rfl, hrun.tail (.own h)⟩
        | again h => exact Or.inl ⟨_, rfl, hrun.tail (.again h)⟩
        | go h => exact Or.inl ⟨k, rfl, hrun.tail (.go h)⟩
    · exact Or.inr ⟨a, e, hfirst, hrest.tail hlast⟩

/-! ### Specifications -/

/-- From a state with `P`, every state that `p` and the device come to has the property `Always`,
the program can end from there, and at its end `Q` holds. -/
def Triple (D : Device δ) (Always P : δ → Prop) (p : Program α) (Q : α → δ → Prop) : Prop :=
  ∀ c, P c → ∀ q d, D.Run (p, c) (q, d) →
    Always d ∧ (∀ a, q = .done a → Q a d) ∧ ∃ a e, D.Run (q, d) (.done a, e)

/-- The steps of the device do not disturb the assertion, which is as strong as what has to hold
always. -/
structure Stable (D : Device δ) (Always P : δ → Prop) : Prop where
  /-- It is not disturbed. -/
  own : ∀ c d, P c → D.Own c d → P d
  /-- It is as strong. -/
  always : ∀ c, P c → Always c

/-- An assertion and a program make a triple when they are kept by every step until the program
goes on to one with a specification. -/
theorem Triple.of_step (hP : D.Stable Always P) (hnot : ∀ a, p ≠ .done a)
    (hstep : ∀ c q d, P c → D.Moves (p, c) (q, d) → (q = p ∧ P d) ∨
      ∃ P', P' d ∧ D.Triple Always P' q Q)
    (hends : ∀ c, P c → ∃ a e, D.Run (p, c) (.done a, e)) : D.Triple Always P p Q := by
  intro c hc q d hrun
  generalize hs : (p, c) = s at hrun
  induction hrun using ReflTransGen.head_induction_on generalizing c with
  | refl =>
    obtain ⟨rfl, rfl⟩ := Prod.mk.inj hs
    exact ⟨hP.always c hc, fun a ha => absurd ha (hnot a), hends c hc⟩
  | @head s t hfirst hrest ih =>
    subst hs
    obtain ⟨p', c'⟩ := t
    rcases hstep c p' c' hc hfirst with ⟨rfl, hc'⟩ | ⟨P', hc', htriple⟩
    · exact ih c' hc' rfl
    · exact htriple c' hc' q d hrest

/-- A program that has ended. -/
theorem Triple.done {a : α} (hP : D.Stable Always P) (hQ : ∀ c, P c → Q a c) :
    D.Triple Always P (.done a) Q := by
  intro c hc q d hrun
  have hend : q = .done a ∧ P d := by
    generalize hs : (q, d) = s at hrun
    induction hrun generalizing q d with
    | refl =>
      obtain ⟨rfl, rfl⟩ := Prod.mk.inj hs
      exact ⟨rfl, hc⟩
    | @tail t u _ hlast ih =>
      subst hs
      obtain ⟨q', d'⟩ := t
      obtain ⟨rfl, hd'⟩ := ih q' d' rfl
      cases hlast with
      | own h => exact ⟨rfl, hP.own _ _ hd' h⟩
  obtain ⟨rfl, hd⟩ := hend
  exact ⟨hP.always d hd, fun b hb => Program.done.inj hb ▸ hQ d hd, a, d, .refl⟩

/-- A write. -/
theorem Triple.outb {port : ℕ} {val : UInt8} {k : Program α} (hP : D.Stable Always P)
    (hwrite : ∀ c, P c → P' (D.outb port val c)) (hk : D.Triple Always P' k Q) :
    D.Triple Always P (.outb port val k) Q := by
  refine .of_step hP (fun a ha => nomatch ha) (fun c q d hc hmove => ?_) fun c hc => ?_
  · cases hmove with
    | own h => exact Or.inl ⟨rfl, hP.own c d hc h⟩
    | outb => exact Or.inr ⟨P', hwrite c hc, hk⟩
  · obtain ⟨-, -, a, e, hrun⟩ := hk _ (hwrite c hc) k _ .refl
    exact ⟨a, e, hrun.head .outb⟩

/-- A read. -/
theorem Triple.inb {port : ℕ} {k : UInt8 → Program α} {P' : UInt8 → δ → Prop}
    (hP : D.Stable Always P) (hread : ∀ c, P c → P' (D.inb port c).1 (D.inb port c).2)
    (hk : ∀ v, D.Triple Always (P' v) (k v) Q) : D.Triple Always P (.inb port k) Q := by
  refine .of_step hP (fun a ha => nomatch ha) (fun c q d hc hmove => ?_) fun c hc => ?_
  · cases hmove with
    | own h => exact Or.inl ⟨rfl, hP.own c d hc h⟩
    | inb => exact Or.inr ⟨_, hread c hc, hk _⟩
  · obtain ⟨-, -, a, e, hrun⟩ := hk _ _ (hread c hc) _ _ .refl
    exact ⟨a, e, hrun.head .inb⟩

/-- A loop.  What is waited for has to come about by itself. -/
theorem Triple.await {port : ℕ} {ok : UInt8 → Bool} {k : Program α} (hP : D.Stable Always P)
    (hagain : ∀ c, P c → ok (D.inb port c).1 = false → P (D.inb port c).2)
    (hgo : ∀ c, P c → ok (D.inb port c).1 = true → P' (D.inb port c).2)
    (hcomes : ∀ c, P c → ∃ d, ReflTransGen D.Own c d ∧ P d ∧ ok (D.inb port d).1 = true)
    (hk : D.Triple Always P' k Q) : D.Triple Always P (.await port ok k) Q := by
  refine .of_step hP (fun a ha => nomatch ha) (fun c q d hc hmove => ?_) fun c hc => ?_
  · cases hmove with
    | own h => exact Or.inl ⟨rfl, hP.own c d hc h⟩
    | again h => exact Or.inl ⟨rfl, hagain c hc h⟩
    | go h => exact Or.inr ⟨P', hgo c hc h, hk⟩
  · obtain ⟨d, hown, hd, hok⟩ := hcomes c hc
    obtain ⟨-, -, a, e, hrun⟩ := hk _ (hgo d hd hok) k _ .refl
    exact ⟨a, e, (run_own _ hown).trans (hrun.head (.go hok))⟩

/-- One program after the other. -/
theorem Triple.bind {f : α → Program β} {R : β → δ → Prop} (hp : D.Triple Always P p Q)
    (hf : ∀ a, D.Triple Always (Q a) (f a) R) : D.Triple Always P (p.bind f) R := by
  intro c hc r d hrun
  rcases bind_cases hrun with ⟨q, rfl, hfirst⟩ | ⟨a, e, hfirst, hrest⟩
  · obtain ⟨halways, hpost, a, e, hends⟩ := hp c hc q d hfirst
    obtain ⟨-, hQ, -⟩ := hp c hc _ e (hfirst.trans hends)
    obtain ⟨-, -, b, e', hends'⟩ := hf a e (hQ a rfl) _ e .refl
    refine ⟨halways, fun b hb => ?_, b, e', (hends.bind f).trans hends'⟩
    -- the first program can only have ended
    cases q with
    | done a =>
      obtain ⟨-, hR, -⟩ := hf a d (hpost a rfl) _ d .refl
      exact hR b hb
    | outb port val k => exact nomatch hb
    | inb port k => exact nomatch hb
    | await port ok k => exact nomatch hb
  · obtain ⟨-, hQ, -⟩ := hp c hc _ e hfirst
    exact hf a e (hQ a rfl) r d hrest

/-- A weaker specification. -/
theorem Triple.mono {Always' : δ → Prop} {Q' : α → δ → Prop} (h : D.Triple Always' P' p Q')
    (halways : ∀ c, Always' c → Always c) (hP : ∀ c, P c → P' c) (hQ : ∀ a c, Q' a c → Q a c) :
    D.Triple Always P p Q := by
  intro c hc q d hrun
  obtain ⟨h₁, h₂, h₃⟩ := h c (hP c hc) q d hrun
  exact ⟨halways d h₁, fun a ha => hQ a d (h₂ a ha), h₃⟩

end Device

end Machine
