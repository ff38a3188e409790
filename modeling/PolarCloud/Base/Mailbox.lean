import Mathlib.Logic.Relation

/-! # A mailbox of one slot whose reader may also send

Callers and the reader send into the same slot. A send waits until the slot is free, and only the
reader frees it, so the reader must never meet a full slot with a send of its own. It does not as
long as no caller's send completes between the reader's receive and its own send.
-/

namespace PolarCloud.Mailbox

universe u v

/-- How a turn of the reader ends: with the next receive, with a send, or with the reader's end. -/
inductive Outcome (α : Type v) where
  | goesOn
  | sends (item : α)
  | ends

/-- Where the reader is. -/
inductive Reader (α : Type v) where
  | waiting
  | turn (item : α)
  | sending (item : α)
  | ended

def Outcome.reader {α : Type v} : Outcome α → Reader α
  | goesOn => .waiting
  | sends item => .sending item
  | ends => .ended

/-- The turns of a reader, with the items whose turns may send or end the reader; every other turn
can go on. -/
structure Worker (σ : Type u) (α : Type v) where
  turn : σ → α → σ → Outcome α → Prop
  sends : σ → α → Prop
  ends : σ → α → Prop
  sends_of_turn : ∀ {state item next built}, turn state item next (.sends built) → sends state item
  ends_of_turn : ∀ {state item next}, turn state item next .ends → ends state item
  goesOn : ∀ {state item}, ¬ sends state item → ¬ ends state item → ∃ next, turn state item next .goesOn

structure State (σ : Type u) (α : Type v) where
  state : σ
  slot : Option α := none
  /-- calls that have not been sent yet -/
  callers : List α := []
  reader : Reader α := .waiting

inductive Label where
  | call
  | send
  | receive
  | turn
  | give
deriving DecidableEq, Repr

variable {σ : Type u} {α : Type v}

inductive Step (worker : Worker σ α) (s : State σ α) : Label → State σ α → Prop where
  | call (item : α) : Step worker s .call { s with callers := s.callers ++ [item] }
  | send (before : List α) (item : α) (after : List α) (calls : s.callers = before ++ item :: after)
      (room : s.slot = none) : Step worker s .send { s with slot := some item, callers := before ++ after }
  | receive (item : α) (waits : s.reader = .waiting) (holds : s.slot = some item) :
      Step worker s .receive { s with slot := none, reader := .turn item }
  | turn (item : α) (next : σ) (outcome : Outcome α) (busy : s.reader = .turn item)
      (ran : worker.turn s.state item next outcome) :
      Step worker s .turn { s with state := next, reader := outcome.reader }
  | give (item : α) (busy : s.reader = .sending item) (room : s.slot = none) :
      Step worker s .give { s with slot := some item, reader := .waiting }

/-- Some step, whatever it is. -/
def AnyStep (worker : Worker σ α) (s s' : State σ α) : Prop := ∃ label, Step worker s label s'

/-- The reader has to send into a slot that is full. -/
def Stuck (s : State σ α) : Prop := ∃ item, s.reader = .sending item ∧ s.slot.isSome

/-- The reader is about to send. -/
def Committed (worker : Worker σ α) (s : State σ α) : Prop :=
  (∃ item, s.reader = .sending item) ∨ ∃ item, s.reader = .turn item ∧ worker.sends s.state item

/-- No caller's send completes while the reader is about to send, and no item is received whose turn
ends the reader. -/
def Quiet (worker : Worker σ α) (s : State σ α) : Label → Prop
  | .send => ¬ Committed worker s
  | .receive => ∀ item, s.slot = some item → ¬ worker.ends s.state item
  | _ => True

def QuietStep (worker : Worker σ α) (s s' : State σ α) : Prop :=
  ∃ label, Quiet worker s label ∧ Step worker s label s'

section Run

variable {worker : Worker σ α} {s s' : State σ α}

/-- Nothing frees a slot that the reader waits for. -/
theorem Stuck.step (stuck : Stuck s) (step : AnyStep worker s s') : Stuck s' := by
  obtain ⟨item, busy, full⟩ := stuck
  obtain ⟨label, step⟩ := step
  cases step with
  | call => exact ⟨item, busy, full⟩
  | send before other after calls room =>
    rw [room] at full
    cases full
  | receive other waits => cases busy.symm.trans waits
  | turn other next outcome turns => cases busy.symm.trans turns
  | give other _ room =>
    rw [room] at full
    cases full

/-- A reader that is stuck stays stuck. -/
theorem Stuck.forever (stuck : Stuck s) (run : Relation.ReflTransGen (AnyStep worker) s s') : Stuck s' := by
  induction run with
  | refl => exact stuck
  | tail _ step ih => exact ih.step step

/-- A caller that comes between the receive and the reader's own send leaves the reader stuck. -/
theorem stuck_of_send {item built called : α} {rest : List α} {next : σ} (busy : s.reader = .turn item)
    (ran : worker.turn s.state item next (.sends built)) (calls : s.callers = called :: rest) (room : s.slot = none) :
    ∃ stuck, Relation.ReflTransGen (AnyStep worker) s stuck ∧ Stuck stuck := by
  refine ⟨_, .tail (.single ⟨_, .send [] called rest calls room⟩) ⟨_, .turn item next _ busy ran⟩, ?_⟩
  exact ⟨built, rfl, rfl⟩

/-- What quiet steps keep: room for the reader's own send, and a reader that goes on. -/
structure Kept (worker : Worker σ α) (s : State σ α) : Prop where
  room : Committed worker s → s.slot = none
  alive : s.reader ≠ .ended
  survives : ∀ item, s.reader = .turn item → ¬ worker.ends s.state item

theorem kept_start (empty : s.slot = none) (waits : s.reader = .waiting) : Kept worker s where
  room := fun _ => empty
  alive := by
    rw [waits]
    rintro ⟨⟩
  survives := by
    intro item turns
    rw [waits] at turns
    cases turns

theorem Kept.step (kept : Kept worker s) (step : QuietStep worker s s') : Kept worker s' := by
  obtain ⟨label, quiet, step⟩ := step
  cases step with
  | call => exact ⟨kept.room, kept.alive, kept.survives⟩
  | send before item after calls room =>
    exact ⟨fun committed => absurd committed quiet, kept.alive, kept.survives⟩
  | receive item waits holds =>
    refine ⟨fun _ => rfl, (by rintro ⟨⟩), fun other turns => ?_⟩
    cases turns
    exact quiet item holds
  | turn item next outcome busy ran =>
    cases outcome with
    | goesOn =>
      refine ⟨?_, (by rintro ⟨⟩), fun other turns => by cases turns⟩
      rintro (⟨other, sending⟩ | ⟨other, turns, -⟩)
      · cases sending
      · cases turns
    | sends built =>
      refine ⟨fun _ => ?_, (by rintro ⟨⟩), fun other turns => by cases turns⟩
      exact kept.room (.inr ⟨item, busy, worker.sends_of_turn ran⟩)
    | ends => exact absurd (worker.ends_of_turn ran) (kept.survives item busy)
  | give item busy room =>
    refine ⟨?_, (by rintro ⟨⟩), fun other turns => by cases turns⟩
    rintro (⟨other, sending⟩ | ⟨other, turns, -⟩)
    · cases sending
    · cases turns

theorem Kept.run (kept : Kept worker s) (run : Relation.ReflTransGen (QuietStep worker) s s') : Kept worker s' := by
  induction run with
  | refl => exact kept
  | tail _ step ih => exact ih.step step

theorem Kept.not_stuck (kept : Kept worker s) : ¬ Stuck s := by
  rintro ⟨item, sending, full⟩
  rw [kept.room (.inl ⟨item, sending⟩)] at full
  cases full

/-- From a kept state the item in the slot can be taken. -/
theorem Kept.taken (kept : Kept worker s) {item : α} (holds : s.slot = some item) :
    ∃ taken, Relation.ReflTransGen (AnyStep worker) s taken ∧ taken.reader = .turn item := by
  have idle : ¬ Committed worker s := by
    intro committed
    cases holds.symm.trans (kept.room committed)
  cases place : s.reader with
  | waiting => exact ⟨_, .single ⟨_, .receive item place holds⟩, rfl⟩
  | turn current =>
    have quiet : ¬ worker.sends s.state current := fun sends => idle (.inr ⟨current, place, sends⟩)
    obtain ⟨next, ran⟩ := worker.goesOn quiet (kept.survives current place)
    exact ⟨_, .tail (.single ⟨_, .turn current next _ place ran⟩) ⟨_, .receive item rfl holds⟩, rfl⟩
  | sending current => exact absurd (.inl ⟨current, place⟩) idle
  | ended => exact absurd place kept.alive

end Run

end PolarCloud.Mailbox
