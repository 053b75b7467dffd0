import Mathlib.Data.Int.Basic
import Mathlib.Data.List.Infix
import Mathlib.Data.List.Range
import Mathlib.Logic.Relation

/-!
# The transmit ring of the 8254x

`add_tx_buffer` of `driver/eth/intel_8254x.c`, one assignment at a time, interleaved with the card:
whenever head and tail differ, the card may transmit the descriptor at the head, set its status bit
and advance the head.

The driver walks through a queue of `txqueue_n` descriptors, but it programs the length of the ring
as `txqueue_n * 2` bytes, which are eight descriptors.  As long as the tail stays below the length
of the ring, that is for seven calls, driver and card agree; from the eighth on nothing stops the
card from sending what was sent before (`tx_protocol`).
-/

namespace PakOS

namespace Intel8254x

/-- `struct tdesc` -/
structure Tdesc where
  /-- The physical address of the buffer. -/
  buffer : ℕ
  /-- Its length. -/
  length : ℕ
  /-- The checksum offset. -/
  cso : ℕ
  /-- The command. -/
  cmd : ℕ
  /-- The status; the card sets bit 0, DD, when it is done. -/
  sta : ℕ
  /-- Reserved. -/
  rsv : ℕ
  /-- The checksum start. -/
  css : ℕ
  /-- The tag of a VLAN. -/
  special : ℕ

/-- A descriptor of zeros. -/
def Tdesc.zero : Tdesc := ⟨0, 0, 0, 0, 0, 0, 0, 0⟩

/-- The memory that a descriptor makes the card send. -/
def Tdesc.contents (d : Tdesc) : ℕ × ℕ := (d.buffer, d.length)

/-- `txqueue_n` -/
def txqueueN : ℕ := 64

/-- The arguments of `add_tx_buffer`, with `_lpa(buffer_addr)` in place of `buffer_addr`. -/
structure TxCall where
  /-- `_lpa(buffer_addr)` -/
  hwaddr : ℕ
  /-- `len` -/
  len : ℕ
  /-- `eop` -/
  eop : ℕ

/-- The memory that the call submits; the field for the length has 16 bits. -/
def TxCall.contents (c : TxCall) : ℕ × ℕ := (c.hwaddr, c.len * 2 % 65536)

/-- The command byte: in a byte of zeros RS is set, and IFCS and EOP for the last buffer of a
packet. -/
def TxCall.cmd (c : TxCall) : ℕ :=
  let cmd := 1 <<< 3
  if c.eop ≠ 0 then cmd ||| 1 <<< 1 ||| 1 <<< 0 else cmd

/-- An assignment of `add_tx_buffer`. -/
inductive Assign
  /-- To a field of `*current`. -/
  | field (set : Tdesc → Tdesc)
  /-- `txtail++` -/
  | next
  /-- The wrap around of `txtail`. -/
  | wrap
  /-- The tail register, which submits the memory `b`. -/
  | tdt (b : ℕ × ℕ)

/-- The assignments to the fields of `*current`. -/
def TxCall.fields (c : TxCall) : List (Tdesc → Tdesc) :=
  [fun d => { d with buffer := c.hwaddr },
    fun d => { d with length := c.len * 2 % 65536 },
    fun d => { d with cso := 0 },
    fun d => { d with cmd := c.cmd },
    fun d => { d with sta := 0 },
    fun d => { d with rsv := 0 },
    fun d => { d with css := 0 },
    fun d => { d with special := 0 }]

/-- `add_tx_buffer(buffer_addr, len, eop)` after its wait loop. -/
def addTxBuffer (c : TxCall) : List Assign :=
  c.fields.map Assign.field ++ [.next, .wrap, .tdt c.contents]

/-- The ring, as driver and card see it. -/
structure TxRing where
  /-- `txqueue[i]` -/
  desc : ℕ → Tdesc
  /-- `txtail - txqueue` -/
  txtail : ℕ
  /-- The register for the length of the ring, in bytes. -/
  tdlen : ℕ
  /-- The head register. -/
  tdh : ℕ
  /-- The tail register. -/
  tdt : ℕ
  /-- The assignments that the call in progress has still to make. -/
  todo : List Assign
  /-- What was submitted. -/
  submitted : List (ℕ × ℕ)
  /-- What the card has transmitted. -/
  transmitted : List (ℕ × ℕ)

/-- The ring as `load_driver_eth_intel_8254x` programs it; `mem` is what lies behind the queue,
which comes from `kcalloc`. -/
def loadDriver (mem : ℕ → Tdesc) : TxRing where
  desc i := if i < txqueueN then .zero else mem i
  txtail := 0
  tdlen := txqueueN * 2
  tdh := 0
  tdt := 0
  todo := []
  submitted := []
  transmitted := []

namespace TxRing

/-- The number of descriptors that the card sees. -/
def size (s : TxRing) : ℕ := s.tdlen / 16

/-- Replace descriptor `i`. -/
def setDesc (s : TxRing) (i : ℕ) (d : Tdesc) : TxRing :=
  { s with desc := Function.update s.desc i d }

/-- The wait loop of `add_tx_buffer` lets the call proceed. -/
def Ready (s : TxRing) : Prop :=
  (s.desc s.txtail).buffer = 0 ∨ (s.desc s.txtail).sta &&& 0x1 ≠ 0

instance (s : TxRing) : Decidable s.Ready := inferInstanceAs (Decidable (_ ∨ _))

/-- What an assignment does.  The fields are assigned before `txtail++`, when `current` is
`txtail`. -/
def exec (s : TxRing) : Assign → TxRing
  | .field set => s.setDesc s.txtail (set (s.desc s.txtail))
  | .next => { s with txtail := s.txtail + 1 }
  | .wrap => { s with txtail := if txqueueN < s.txtail then 0 else s.txtail }
  | .tdt b => { s with tdt := s.txtail, submitted := s.submitted ++ [b] }

/-- The card transmits the descriptor at the head. -/
def transmit (s : TxRing) : TxRing :=
  { s.setDesc s.tdh { s.desc s.tdh with sta := (s.desc s.tdh).sta ||| 0x1 } with
    tdh := (s.tdh + 1) % s.size
    transmitted := s.transmitted ++ [(s.desc s.tdh).contents] }

/-- A step of the card. -/
def Nic (s s' : TxRing) : Prop := s.tdh ≠ s.tdt ∧ s' = s.transmit

/-- A step of driver or card; `guard` restricts the states in which `add_tx_buffer` is called. -/
inductive Step (guard : TxRing → Prop) (s : TxRing) : TxRing → Prop
  /-- A call gets past its wait loop. -/
  | call (c : TxCall) (hidle : s.todo = []) (hready : s.Ready) (hg : guard s) :
      Step guard s { s with todo := addTxBuffer c }
  /-- The call in progress makes its next assignment. -/
  | assign (a : Assign) (rest : List Assign) (htodo : s.todo = a :: rest) :
      Step guard s (exec { s with todo := rest } a)
  /-- The card transmits. -/
  | nic (hpend : s.tdh ≠ s.tdt) : Step guard s s.transmit

/-- What driver and card owe each other: the card has sent a first part of what was submitted, and
sees as pending what is left. -/
structure Agrees (s : TxRing) : Prop where
  /-- What was sent comes first in what was submitted. -/
  sent : s.transmitted <+: s.submitted
  /-- The descriptors from head to tail are those not sent yet. -/
  pending : ((s.tdt : ℤ) - s.tdh) % s.size = s.submitted.length - s.transmitted.length

/-! ### Seven calls -/

/-- How far the call in progress is. -/
inductive Phase (s : TxRing) : Prop
  /-- There is none. -/
  | idle (htodo : s.todo = []) (htail : s.txtail = s.tdt)
  /-- It has yet to fill the descriptor at the tail, by the assignments `fs`. -/
  | filling (fs : List (Tdesc → Tdesc)) (b : ℕ × ℕ)
      (htodo : s.todo = fs.map Assign.field ++ [.next, .wrap, .tdt b])
      (hfill : (fs.foldl (fun d f => f d) (s.desc s.tdt)).contents = b)
      (htail : s.txtail = s.tdt) (hlt : s.tdt + 1 < 8)
  /-- It has filled the descriptor and moved `txtail`. -/
  | filled (b : ℕ × ℕ) (htodo : s.todo = [.wrap, .tdt b] ∨ s.todo = [.tdt b])
      (hfill : (s.desc s.tdt).contents = b) (htail : s.txtail = s.tdt + 1) (hlt : s.tdt + 1 < 8)

/-- What the card sees as pending: the descriptors from head to tail. -/
def waiting (s : TxRing) : List (ℕ × ℕ) :=
  (List.range' s.tdh (s.tdt - s.tdh)).map fun i => (s.desc i).contents

/-- The invariant of the first seven calls. -/
structure Invariant (s : TxRing) : Prop where
  /-- The ring has eight descriptors. -/
  tdlen : s.tdlen = 128
  /-- The head is not behind the tail. -/
  le : s.tdh ≤ s.tdt
  /-- The tail has not reached the end of the ring. -/
  lt : s.tdt < 8
  /-- Nothing is lost or sent twice. -/
  conserved : s.submitted = s.transmitted ++ s.waiting
  /-- The call in progress. -/
  phase : Phase s

/-- The guard: the descriptor behind the tail is still one of the ring. -/
def BelowEnd (s : TxRing) : Prop := s.txtail + 1 < s.size

theorem invariant_loadDriver (mem : ℕ → Tdesc) : Invariant (loadDriver mem) :=
  ⟨rfl, le_rfl, Nat.succ_pos 7, rfl, .idle rfl rfl⟩

/-- The other descriptors stay. -/
theorem desc_setDesc_of_ne {s : TxRing} {i j : ℕ} {d : Tdesc} (hij : j ≠ i) :
    (s.setDesc i d).desc j = s.desc j := by
  unfold setDesc
  exact Function.update_of_ne hij d s.desc

/-- The descriptor that is replaced. -/
theorem desc_setDesc_self {s : TxRing} {i : ℕ} {d : Tdesc} : (s.setDesc i d).desc i = d := by
  unfold setDesc
  exact Function.update_self i d s.desc

/-- Filling the descriptor at the tail does not change what is waiting. -/
theorem waiting_setDesc {s : TxRing} {d : Tdesc} : (s.setDesc s.tdt d).waiting = s.waiting := by
  apply List.map_congr_left
  intro j hj
  have hj' : j < s.tdh + (s.tdt - s.tdh) := (List.mem_range'_1.mp hj).2
  have hle : s.tdh ≤ j := (List.mem_range'_1.mp hj).1
  rw [desc_setDesc_of_ne (by omega)]

/-- Setting the status of a descriptor does not change what it makes the card send. -/
theorem contents_transmit (s : TxRing) (i : ℕ) :
    (s.transmit.desc i).contents = (s.desc i).contents := by
  change ((s.setDesc s.tdh _).desc i).contents = _
  by_cases hi : i = s.tdh
  · rw [hi, desc_setDesc_self]
    rfl
  · rw [desc_setDesc_of_ne hi]

/-- The card's step keeps the call in progress where it is. -/
theorem Phase.transmit {s : TxRing} (h : Phase s) (hlt : s.tdh < s.tdt) : Phase s.transmit := by
  have hdesc : s.transmit.desc s.tdt = s.desc s.tdt :=
    desc_setDesc_of_ne (by omega)
  cases h with
  | idle htodo htail => exact .idle htodo htail
  | filling fs b htodo hfill htail hlt => exact .filling fs b htodo (hdesc.symm ▸ hfill) htail hlt
  | filled b htodo hfill htail hlt => exact .filled b htodo (hdesc.symm ▸ hfill) htail hlt

/-- The card's step keeps the invariant. -/
theorem Invariant.transmit {s : TxRing} (h : Invariant s) (hpend : s.tdh ≠ s.tdt) :
    Invariant s.transmit := by
  have hle := h.le
  have hlt := h.lt
  have hsize : s.size = 8 := by rw [size, h.tdlen]
  have hhead : s.transmit.tdh = s.tdh + 1 := by
    change (s.tdh + 1) % s.size = s.tdh + 1
    rw [hsize]
    omega
  have hwait : s.waiting = (s.desc s.tdh).contents :: s.transmit.waiting := by
    have hcount : s.tdt - s.tdh = s.transmit.tdt - s.transmit.tdh + 1 := by
      change s.tdt - s.tdh = s.tdt - s.transmit.tdh + 1
      omega
    rw [waiting, waiting, hcount, List.range'_succ, List.map_cons, hhead]
    simp only [contents_transmit]
  refine ⟨h.tdlen, by rw [hhead]; change s.tdh + 1 ≤ s.tdt; omega, h.lt, ?_,
    h.phase.transmit (by omega)⟩
  change s.submitted = s.transmitted ++ [(s.desc s.tdh).contents] ++ s.transmit.waiting
  rw [h.conserved, hwait, List.append_assoc, List.singleton_append]

/-- A call that is made below the end of the ring begins to fill the descriptor at the tail. -/
theorem Invariant.call {s : TxRing} (h : Invariant s) (hidle : s.todo = []) (hg : BelowEnd s)
    (c : TxCall) : Invariant { s with todo := addTxBuffer c } := by
  refine ⟨h.tdlen, h.le, h.lt, h.conserved, ?_⟩
  cases h.phase with
  | idle _ htail =>
    have hlt : s.txtail + 1 < 8 := by
      have hsize : s.size = 8 := by rw [size, h.tdlen]
      rwa [BelowEnd, hsize] at hg
    exact .filling c.fields c.contents rfl rfl htail (htail ▸ hlt)
  | filling fs b htodo => simp [hidle] at htodo
  | filled b htodo => simp [hidle] at htodo

/-- Filling a field of the descriptor at the tail keeps the invariant. -/
theorem Invariant.fill {s : TxRing} (h : Invariant s) {f : Tdesc → Tdesc}
    {fs : List (Tdesc → Tdesc)} {b : ℕ × ℕ}
    (hfill : (fs.foldl (fun d f => f d) (f (s.desc s.tdt))).contents = b)
    (htail : s.txtail = s.tdt) (hlt : s.tdt + 1 < 8) :
    Invariant (exec { s with todo := fs.map Assign.field ++ [.next, .wrap, .tdt b] } (.field f)) := by
  have hdesc : (exec { s with todo := fs.map Assign.field ++ [.next, .wrap, .tdt b] }
      (.field f)).desc s.tdt = f (s.desc s.tdt) := by
    change (s.setDesc s.txtail (f (s.desc s.txtail))).desc s.tdt = _
    rw [htail, desc_setDesc_self]
  refine ⟨h.tdlen, h.le, h.lt, ?_, .filling fs b rfl (hdesc.symm ▸ hfill) htail hlt⟩
  change s.submitted = s.transmitted ++ (s.setDesc s.txtail (f (s.desc s.txtail))).waiting
  rw [htail, waiting_setDesc]
  exact h.conserved

/-- The tail register takes in the descriptor that was filled. -/
theorem Invariant.submit {s : TxRing} (h : Invariant s) {b : ℕ × ℕ}
    (hfill : (s.desc s.tdt).contents = b) (htail : s.txtail = s.tdt + 1) (hlt : s.tdt + 1 < 8) :
    Invariant (exec { s with todo := [] } (.tdt b)) := by
  have hle := h.le
  refine ⟨h.tdlen, ?_, ?_, ?_, .idle rfl rfl⟩
  · change s.tdh ≤ s.txtail
    omega
  · change s.txtail < 8
    omega
  · change s.submitted ++ [b] = s.transmitted ++
      (List.range' s.tdh (s.txtail - s.tdh)).map fun i => (s.desc i).contents
    have hcount : s.txtail - s.tdh = s.tdt - s.tdh + 1 := by omega
    have hlast : s.tdh + (s.tdt - s.tdh) = s.tdt := by omega
    rw [hcount, List.range'_1_concat, List.map_append, List.map_singleton, hlast, hfill,
      ← List.append_assoc]
    exact congrArg (· ++ [b]) h.conserved

/-- An assignment of the call in progress keeps the invariant. -/
theorem Invariant.assign {s : TxRing} (h : Invariant s) {a : Assign} {rest : List Assign}
    (htodo : s.todo = a :: rest) : Invariant (exec { s with todo := rest } a) := by
  cases h.phase with
  | idle hidle => simp [hidle] at htodo
  | filling fs b hfields hfill htail hlt =>
    rw [hfields] at htodo
    cases fs with
    | nil =>
      -- the descriptor is complete, and `txtail` moves behind it
      obtain ⟨rfl, rfl⟩ := List.cons.inj htodo
      refine ⟨h.tdlen, h.le, h.lt, h.conserved, ?_⟩
      exact .filled b (.inl rfl) hfill (congrArg (· + 1) htail) hlt
    | cons f fs =>
      obtain ⟨rfl, rfl⟩ := List.cons.inj htodo
      exact h.fill hfill htail hlt
  | filled b htodo' hfill htail hlt =>
    rcases htodo' with hwrap | htdt
    · rw [hwrap] at htodo
      obtain ⟨rfl, rfl⟩ := List.cons.inj htodo
      refine ⟨h.tdlen, h.le, h.lt, h.conserved, .filled b (.inr rfl) hfill ?_ hlt⟩
      change (if txqueueN < s.txtail then 0 else s.txtail) = s.tdt + 1
      rw [if_neg (by unfold txqueueN; omega), htail]
    · rw [htdt] at htodo
      obtain ⟨rfl, rfl⟩ := List.cons.inj htodo
      exact h.submit hfill htail hlt

/-- A step keeps the invariant when the guard holds at every call. -/
theorem Invariant.step {s s' : TxRing} (h : Invariant s) (hstep : Step BelowEnd s s') :
    Invariant s' := by
  cases hstep with
  | call c hidle _ hg => exact h.call hidle hg c
  | assign a rest htodo => exact h.assign htodo
  | nic hpend => exact h.transmit hpend

/-- Under the invariant driver and card agree. -/
theorem Invariant.agrees {s : TxRing} (h : Invariant s) : s.Agrees := by
  refine ⟨⟨s.waiting, h.conserved.symm⟩, ?_⟩
  have hle := h.le
  have hlt := h.lt
  have hsize : s.size = 8 := by rw [size, h.tdlen]
  have hlen : s.submitted.length = s.transmitted.length + (s.tdt - s.tdh) := by
    rw [h.conserved, List.length_append, waiting, List.length_map, List.length_range']
  rw [hsize, hlen]
  omega

/-- A run keeps the invariant when the guard holds at every call. -/
theorem Invariant.run {s s' : TxRing} (h : Invariant s)
    (hrun : Relation.ReflTransGen (Step BelowEnd) s s') : Invariant s' := by
  induction hrun with
  | refl => exact h
  | tail _ hstep ih => exact ih.step hstep

/-! ### The eighth call -/

/-- The length of the ring and the bound of the head never change. -/
structure Programmed (s : TxRing) : Prop where
  /-- The ring has eight descriptors. -/
  tdlen : s.tdlen = 128
  /-- The head is one of them. -/
  lt : s.tdh < 8

theorem Programmed.transmit {s : TxRing} (h : Programmed s) : Programmed s.transmit := by
  refine ⟨h.tdlen, ?_⟩
  change (s.tdh + 1) % (s.tdlen / 16) < 8
  rw [h.tdlen]
  omega

theorem Programmed.step {guard : TxRing → Prop} {s s' : TxRing} (h : Programmed s)
    (hstep : Step guard s s') : Programmed s' := by
  cases hstep with
  | call => exact ⟨h.tdlen, h.lt⟩
  | assign a rest => cases a <;> exact ⟨h.tdlen, h.lt⟩
  | nic => exact h.transmit

theorem Programmed.run {guard : TxRing → Prop} {s s' : TxRing} (h : Programmed s)
    (hrun : Relation.ReflTransGen (Step guard) s s') : Programmed s' := by
  induction hrun with
  | refl => exact h
  | tail _ hstep ih => exact ih.step hstep

/-- The head never meets a tail behind the ring, so the card can transmit as often as it likes. -/
theorem Programmed.exists_transmitted {s : TxRing} (h : Programmed s) (htail : s.size ≤ s.tdt)
    (n : ℕ) : ∃ s', Relation.ReflTransGen Nic s s' ∧ s'.submitted = s.submitted ∧
      s'.transmitted.length = s.transmitted.length + n := by
  have hsize : s.size = 8 := by rw [size, h.tdlen]
  induction n generalizing s with
  | zero => exact ⟨s, .refl, rfl, rfl⟩
  | succ n ih =>
    have hlt := h.lt
    obtain ⟨s', hrun, hsub, hlen⟩ := ih h.transmit htail hsize
    refine ⟨s', .head ⟨by omega, rfl⟩ hrun, hsub, ?_⟩
    rw [hlen]
    change (s.transmitted ++ [(s.desc s.tdh).contents]).length + n = _
    rw [List.length_append, List.length_singleton]
    omega

/-- The card can send more than was submitted. -/
theorem Programmed.exists_not_sent {s : TxRing} (h : Programmed s) (htail : s.size ≤ s.tdt) :
    ∃ s', Relation.ReflTransGen Nic s s' ∧ ¬s'.transmitted <+: s'.submitted := by
  obtain ⟨s', hrun, hsub, hlen⟩ := h.exists_transmitted htail (s.submitted.length + 1)
  refine ⟨s', hrun, fun hpre => ?_⟩
  have hle := hpre.length_le
  rw [hlen, hsub] at hle
  omega

/-- As long as `add_tx_buffer` is called with the tail below the end of the ring, driver and card
agree in every state of every run.  Once the tail has passed the end, however it got there, the card
alone can bring them apart. -/
theorem tx_protocol {mem : ℕ → Tdesc} {s : TxRing} :
    (Relation.ReflTransGen (Step BelowEnd) (loadDriver mem) s → s.Agrees) ∧
      (Relation.ReflTransGen (Step fun _ => True) (loadDriver mem) s → s.size ≤ s.tdt →
        ∃ s', Relation.ReflTransGen Nic s s' ∧ ¬s'.Agrees) := by
  constructor
  · exact fun hrun => ((invariant_loadDriver mem).run hrun).agrees
  · intro hrun htail
    have hprog : Programmed s := Programmed.run ⟨rfl, Nat.succ_pos 7⟩ hrun
    obtain ⟨s', hcard, hsent⟩ := hprog.exists_not_sent htail
    exact ⟨s', hcard, fun h => hsent h.sent⟩

/-! ### Calls without a step of the card in between -/

/-- A whole call. -/
def call (s : TxRing) (c : TxCall) : TxRing := (addTxBuffer c).foldl exec s

/-- Assignments leave the list of assignments alone. -/
theorem exec_todo (s : TxRing) (a : Assign) (l : List Assign) :
    exec { s with todo := l } a = { exec s a with todo := l } := by
  cases a <;> rfl

/-- Assignments in a row are a run. -/
theorem run_assigns {guard : TxRing → Prop} (l : List Assign) (s : TxRing) (hidle : s.todo = []) :
    Relation.ReflTransGen (Step guard) { s with todo := l } (l.foldl exec s) ∧
      (l.foldl exec s).todo = [] := by
  induction l generalizing s with
  | nil =>
    have hsame : { s with todo := [] } = s := by rw [← hidle]
    rw [hsame]
    exact ⟨.refl, hidle⟩
  | cons a rest ih =>
    have hidle' : (exec s a).todo = [] := by
      cases a <;> exact hidle
    obtain ⟨hrun, htodo⟩ := ih (exec s a) hidle'
    refine ⟨.head (.assign a rest rfl) ?_, htodo⟩
    rw [← exec_todo] at hrun
    exact hrun

/-- A whole call is a run. -/
theorem run_call {guard : TxRing → Prop} {s : TxRing} (hidle : s.todo = []) (hready : s.Ready)
    (hg : guard s) (c : TxCall) :
    Relation.ReflTransGen (Step guard) s (s.call c) ∧ (s.call c).todo = [] := by
  obtain ⟨hrun, htodo⟩ := @run_assigns guard (addTxBuffer c) s hidle
  exact ⟨.head (.call c hidle hready hg) hrun, htodo⟩

/-- Several calls, each of which gets past its wait loop. -/
def callAll : List TxCall → TxRing → Option TxRing
  | [], s => some s
  | c :: cs, s => if s.Ready then callAll cs (s.call c) else none

/-- Several calls are a run. -/
theorem run_callAll {cs : List TxCall} {s s' : TxRing} (hidle : s.todo = [])
    (hk : callAll cs s = some s') : Relation.ReflTransGen (Step fun _ => True) s s' := by
  induction cs generalizing s with
  | nil =>
    obtain rfl := Option.some.inj hk
    exact .refl
  | cons c cs ih =>
    rw [callAll] at hk
    split at hk
    · next hready =>
      obtain ⟨hrun, htodo⟩ := @run_call (fun _ => True) s hidle hready trivial c
      exact hrun.trans (ih htodo hk)
    · exact absurd hk (Option.some_ne_none s').symm

/-- The ring after boot, with zeros behind the queue. -/
def bootRing : TxRing := loadDriver fun _ => .zero

/-- The ring after one packet was submitted and sent. -/
def oneSent : TxRing := (bootRing.call ⟨0x100000, 21, 1⟩).transmit

/-- A single packet is sent. -/
theorem tx_protocol_oneSent :
    Relation.ReflTransGen (Step BelowEnd) bootRing oneSent ∧
      oneSent.transmitted = [(0x100000, 42)] ∧ oneSent.Agrees := by
  have hcall := (@run_call BelowEnd bootRing rfl (by decide) (by unfold BelowEnd; decide)
    ⟨0x100000, 21, 1⟩).1
  have hrun : Relation.ReflTransGen (Step BelowEnd) bootRing oneSent :=
    hcall.tail (.nic (by decide))
  exact ⟨hrun, by decide +kernel, (@tx_protocol (fun _ => .zero) oneSent).1 hrun⟩

/-- Eight packets, each in a frame of its own. -/
def eightCalls : List TxCall := (List.range 8).map fun i => ⟨0x100000 + 4096 * i, 21, 1⟩

/-- After eight calls before the card has sent anything it sees an empty ring, and after nine more
steps it has sent more than was submitted. -/
theorem eightCalls_not_agrees :
    ∃ s, Relation.ReflTransGen (Step fun _ => True) bootRing s ∧ s.submitted.length = 8 ∧
      s.transmitted = [] ∧ ((s.tdt : ℤ) - s.tdh) % s.size = 0 ∧ ¬s.Agrees ∧
      ∃ s', Relation.ReflTransGen Nic s s' ∧ ¬s'.transmitted <+: s'.submitted := by
  have hcalls : (callAll eightCalls bootRing).map
      (fun s => (s.submitted.length, s.transmitted, s.tdt, s.tdh, s.tdlen)) =
        some (8, [], 8, 0, 128) := by
    decide +kernel
  obtain ⟨s, hk, hres⟩ := Option.map_eq_some_iff.mp hcalls
  simp only [Prod.mk.injEq] at hres
  obtain ⟨hsub, hsent, htdt, htdh, htdlen⟩ := hres
  have hpend : ((s.tdt : ℤ) - s.tdh) % s.size = 0 := by
    rw [htdt, htdh, size, htdlen]
    decide
  refine ⟨s, run_callAll rfl hk, hsub, hsent, hpend, fun h => ?_, ?_⟩
  · have hcount := h.pending
    rw [hpend, hsub, hsent] at hcount
    exact absurd hcount (by decide)
  · refine Programmed.exists_not_sent ⟨htdlen, by omega⟩ ?_
    rw [size, htdlen, htdt]

end TxRing

end Intel8254x

end PakOS
