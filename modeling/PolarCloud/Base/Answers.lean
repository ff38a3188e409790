import Mathlib.Data.List.Basic
import Mathlib.Data.List.Induction

/-! # Runs that answer

A run applies its events to a state one after the other, and has an answer to each. When two states stand for each
other, and every event takes them to such states with the same answer, two runs have the same answers throughout.
-/

namespace PolarCloud.Answers

universe u v w x

variable {σ : Type u} {τ : Type v} {ε : Type w} {ρ : Type x}

/-- The state after a run, and the answers in their order. -/
def answers (step : σ → ε → σ × ρ) (start : σ) : List ε → σ × List ρ
  | [] => (start, [])
  | event :: rest =>
      let (next, answer) := step start event
      let (final, given) := answers step next rest
      (final, answer :: given)

variable {step : σ → ε → σ × ρ} {step' : τ → ε → τ × ρ} {start : σ} {start' : τ}

theorem answers_append (front back : List ε) : answers step start (front ++ back) =
    ((answers step (answers step start front).1 back).1,
      (answers step start front).2 ++ (answers step (answers step start front).1 back).2) := by
  induction front generalizing start with
  | nil => rfl
  | cons event rest ih => simp only [List.cons_append, answers, ih]

theorem answers_concat (events : List ε) (event : ε) : answers step start (events ++ [event]) =
    ((step (answers step start events).1 event).1,
      (answers step start events).2 ++ [(step (answers step start events).1 event).2]) :=
  answers_append events [event]

theorem length_answers (events : List ε) : (answers step start events).2.length = events.length := by
  induction events generalizing start with
  | nil => rfl
  | cons event rest ih => exact congrArg (· + 1) ih

/-- What one event does to two states that stand for each other, a run does. -/
theorem answers_refine {Same : σ → τ → Prop} (same : Same start start')
    (each : ∀ state state', Same state state' → ∀ event,
      (step state event).2 = (step' state' event).2 ∧ Same (step state event).1 (step' state' event).1)
    (events : List ε) :
    (answers step start events).2 = (answers step' start' events).2 ∧
      Same (answers step start events).1 (answers step' start' events).1 := by
  induction events generalizing start start' with
  | nil => exact ⟨rfl, same⟩
  | cons event rest ih =>
    obtain ⟨answer, next⟩ := each start start' same event
    obtain ⟨given, final⟩ := ih next
    refine ⟨?_, final⟩
    simp only [answers, answer, given]

end PolarCloud.Answers
