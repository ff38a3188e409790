import Mathlib.Data.Nat.Notation
import Mathlib.Logic.Relation

/-! # Following a partial function

From a first place the function is applied until it has no value. The walk has at most one end. Where
another function agrees with a part of the first one, its walk ends too, and it may end earlier.
-/

namespace PolarCloud.Follow

universe u

variable {α : Type u} {next inner outer : α → Option α} {first last : α}

/-- Apply the function until it has no value; nothing is returned when the fuel runs out. -/
def follow (next : α → Option α) : ℕ → α → Option α
  | 0, _ => none
  | fuel + 1, place =>
      match next place with
      | none => some place
      | some other => follow next fuel other

/-- The walk from the first place ends at the last one. -/
structure Ends (next : α → Option α) (first last : α) : Prop where
  steps : Relation.ReflTransGen (fun place other => next place = some other) first last
  ended : next last = none

theorem Ends.here (ended : next first = none) : Ends next first first := ⟨.refl, ended⟩

theorem Ends.step {other : α} (step : next first = some other) (ends : Ends next other last) : Ends next first last :=
  ⟨.head step ends.steps, ends.ended⟩

/-- An end is the first place, or it is behind the next one. -/
theorem Ends.cases (ends : Ends next first last) :
    next first = none ∧ last = first ∨ ∃ other, next first = some other ∧ Ends next other last := by
  rcases Relation.ReflTransGen.cases_head ends.steps with rfl | ⟨other, step, later⟩
  · exact .inl ⟨ends.ended, rfl⟩
  · exact .inr ⟨other, step, later, ends.ended⟩

theorem Ends.unique {last' : α} (ends : Ends next first last) (ends' : Ends next first last') : last = last' := by
  have rightUnique : Relator.RightUnique fun place other => next place = some other :=
    fun place other other' step step' => Option.some.inj (step.symm.trans step')
  rcases Relation.ReflTransGen.total_of_right_unique rightUnique ends.steps ends'.steps with later | later
  · rcases Relation.ReflTransGen.cases_head later with same | ⟨other, step, -⟩
    · exact same
    · cases ends.ended.symm.trans step
  · rcases Relation.ReflTransGen.cases_head later with same | ⟨other, step, -⟩
    · exact same.symm
    · cases ends'.ended.symm.trans step

/-- A walk that follows a part of the function ends where the whole walk ends, or before. -/
theorem Ends.part (part : ∀ place other, inner place = some other → outer place = some other)
    (ends : Ends outer first last) : ∃ last', Ends inner first last' := by
  obtain ⟨steps, ended⟩ := ends
  induction steps using Relation.ReflTransGen.head_induction_on with
  | refl =>
    cases step : inner last with
    | none => exact ⟨last, .here step⟩
    | some other => cases ended.symm.trans (part _ _ step)
  | @head place other step _ ih =>
    cases inside : inner place with
    | none => exact ⟨place, .here inside⟩
    | some other' =>
      cases step.symm.trans (part _ _ inside)
      obtain ⟨last', ends'⟩ := ih
      exact ⟨last', .step inside ends'⟩

theorem ends_of_follow {fuel : ℕ} (found : follow next fuel first = some last) : Ends next first last := by
  induction fuel generalizing first with
  | zero => cases found
  | succ fuel ih =>
    rw [follow] at found
    split at found
    · next ended =>
      cases found
      exact .here ended
    · next other step => exact .step step (ih found)

theorem follow_of_ends (ends : Ends next first last) : ∃ enough, ∀ fuel, enough ≤ fuel →
    follow next fuel first = some last := by
  obtain ⟨steps, ended⟩ := ends
  induction steps using Relation.ReflTransGen.head_induction_on with
  | refl =>
    refine ⟨1, fun fuel more => ?_⟩
    obtain ⟨fuel, rfl⟩ := Nat.exists_eq_add_of_le' more
    rw [follow, ended]
  | @head place other step _ ih =>
    obtain ⟨enough, found⟩ := ih
    refine ⟨enough + 1, fun fuel more => ?_⟩
    obtain ⟨fuel, rfl⟩ : ∃ less, fuel = less + 1 := ⟨fuel - 1, by omega⟩
    rw [follow, step]
    exact found fuel (by omega)

/-! ## Wasted places -/

/-- The place after some steps. -/
def after (next : α → Option α) : ℕ → α → Option α
  | 0, place => some place
  | steps + 1, place => (next place).bind (after next steps)

/-- How many of the first places are wasted. -/
def wastes (next : α → Option α) (Wasted : α → Prop) [DecidablePred Wasted] : ℕ → α → ℕ
  | 0, _ => 0
  | steps + 1, place =>
      (if Wasted place then 1 else 0) +
        match next place with
        | none => 0
        | some other => wastes next Wasted steps other

theorem ends_of_after_eq_none {steps : ℕ} (none_ : after next steps first = none) : ∃ last, Ends next first last := by
  induction steps generalizing first with
  | zero => cases none_
  | succ steps ih =>
    rw [after] at none_
    cases step : next first with
    | none => exact ⟨first, .here step⟩
    | some other =>
      rw [step] at none_
      obtain ⟨last, ends⟩ := ih none_
      exact ⟨last, .step step ends⟩

theorem Ends.after_eq (ends : Ends next first last) : ∃ steps, after next steps first = some last := by
  obtain ⟨steps, -⟩ := ends
  induction steps using Relation.ReflTransGen.head_induction_on with
  | refl => exact ⟨0, rfl⟩
  | head step _ ih =>
    obtain ⟨steps, reached⟩ := ih
    exact ⟨steps + 1, by rw [after, step]; exact reached⟩

theorem ends_of_after {steps : ℕ} (reached : after next steps first = some last) (ended : next last = none) :
    Ends next first last := by
  induction steps generalizing first with
  | zero =>
    cases reached
    exact .here ended
  | succ steps ih =>
    rw [after] at reached
    cases step : next first with
    | none =>
      rw [step] at reached
      cases reached
    | some other =>
      rw [step] at reached
      exact .step step (ih reached)

/-- A walk ends at a place with a property exactly when it ends, and reaches no place without it where it would end. -/
theorem exists_ends_and_iff {Right : α → Prop} : (∃ last, Ends next first last ∧ Right last) ↔
    (∃ last, Ends next first last) ∧
      ∀ steps place, after next steps first = some place → next place = none → Right place := by
  constructor
  · rintro ⟨last, ends, right⟩
    refine ⟨⟨last, ends⟩, fun steps place reached ended => ?_⟩
    exact ends.unique (ends_of_after reached ended) ▸ right
  · rintro ⟨⟨last, ends⟩, right⟩
    obtain ⟨steps, reached⟩ := ends.after_eq
    exact ⟨last, ends, right steps last reached ends.ended⟩

section Progress

variable {Known Wasted : α → Prop} [DecidablePred Wasted] {left : α → ℕ}

/-- A walk makes no more steps than there is left at first, and one for each wasted place. -/
theorem steps_le (progress : ∀ place other, Known place → next place = some other →
      Known other ∧ left other + 1 ≤ left place + if Wasted place then 1 else 0)
    (known : Known first) {steps : ℕ} (reached : after next steps first = some last) :
    steps + left last ≤ left first + wastes next Wasted steps first := by
  induction steps generalizing first with
  | zero =>
    cases reached
    exact Nat.le_of_eq (Nat.zero_add _)
  | succ steps ih =>
    rw [after] at reached
    cases step : next first with
    | none =>
      rw [step] at reached
      cases reached
    | some other =>
      rw [step] at reached
      obtain ⟨known', less⟩ := progress first other known step
      have later := ih known' reached
      rw [wastes, step]
      dsimp only
      omega

/-- A walk that ends comes to finitely many places. -/
theorem Ends.wastes_le (ends : Ends next first last) :
    ∃ few, ∀ steps, wastes next Wasted steps first ≤ few := by
  obtain ⟨steps, ended⟩ := ends
  induction steps using Relation.ReflTransGen.head_induction_on with
  | refl =>
    refine ⟨1, fun steps => ?_⟩
    cases steps with
    | zero => exact Nat.zero_le 1
    | succ steps =>
      rw [wastes, ended]
      dsimp only
      split <;> omega
  | @head place other step _ ih =>
    obtain ⟨few, bound⟩ := ih
    refine ⟨few + 1, fun steps => ?_⟩
    cases steps with
    | zero => exact Nat.zero_le _
    | succ steps =>
      have later := bound steps
      rw [wastes, step]
      dsimp only
      split <;> omega

/-- A walk that makes progress elsewhere ends exactly when it comes to finitely many wasted places. -/
theorem ends_iff_wastes_le (progress : ∀ place other, Known place → next place = some other →
      Known other ∧ left other + 1 ≤ left place + if Wasted place then 1 else 0)
    (known : Known first) :
    (∃ last, Ends next first last) ↔ ∃ few, ∀ steps, wastes next Wasted steps first ≤ few := by
  constructor
  · rintro ⟨last, ends⟩
    exact ends.wastes_le
  · rintro ⟨few, bound⟩
    cases reached : after next (left first + few + 1) first with
    | none => exact ends_of_after_eq_none reached
    | some last =>
      have long := steps_le progress known reached
      have small := bound (left first + few + 1)
      omega

end Progress

end PolarCloud.Follow
