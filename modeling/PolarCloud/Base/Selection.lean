import Mathlib.Algebra.Order.BigOperators.Group.List
import Mathlib.Algebra.Order.Ring.Nat

/-! # Taking items row by row until there is enough

Items are taken from the front of each row, at least one of them, until a test of the exact sum of
their values holds; a last row is visited only where the others are not enough. A test that holds
from some sum on leaves items behind only if it is met. Two tests that agree below a bound take the
same items unless the sums of both reach the bound.
-/

namespace PolarCloud.Selection

universe u

variable {α : Type u} (value : α → ℕ) (enough : ℕ → Prop) [DecidablePred enough]

/-- The exact sum of the values. -/
def total (items : List α) : ℕ := (items.map value).sum

/-- Take from one row, after the items that are taken already. -/
def takeRow : List α → List α → List α
  | taken, [] => taken
  | taken, item :: rest =>
      if enough (total value (taken ++ [item])) then taken ++ [item] else takeRow (taken ++ [item]) rest

/-- Take from one row after the other. -/
def takeRows (taken : List α) (rows : List (List α)) : List α := rows.foldl (takeRow value enough) taken

/-- Take from the rows, and from the last one only where they are not enough. -/
def select (rows : List (List α)) (last : List α) : List α :=
  let taken := takeRows value enough [] rows
  if enough (total value taken) then taken else takeRow value enough taken last

example : select id (5 ≤ ·) [[2, 4, 1], [3, 3]] [7] = [2, 4, 3] := by decide

@[simp] theorem total_append (first second : List α) :
    total value (first ++ second) = total value first + total value second := by
  simp only [total, List.map_append, List.sum_append]

theorem total_le_of_sublist {items others : List α} (sublist : items.Sublist others) :
    total value items ≤ total value others := (sublist.map value).sum_le_sum (fun _ _ => Nat.zero_le _)

/-- What is taken from a row is a part of it, from its front. -/
theorem takeRow_eq (taken row : List α) : ∃ front, front <+: row ∧ takeRow value enough taken row = taken ++ front := by
  induction row generalizing taken with
  | nil => exact ⟨[], List.prefix_rfl, (List.append_nil taken).symm⟩
  | cons item rest ih =>
    rw [takeRow]
    split
    · exact ⟨[item], ⟨rest, rfl⟩, rfl⟩
    · obtain ⟨front, isFront, took⟩ := ih (taken ++ [item])
      exact ⟨item :: front, (List.prefix_cons_inj item).mpr isFront, by rw [took, List.append_assoc]; rfl⟩

theorem takeRows_eq (rows : List (List α)) (taken : List α) :
    ∃ items, items.Sublist rows.flatten ∧ takeRows value enough taken rows = taken ++ items := by
  induction rows generalizing taken with
  | nil => exact ⟨[], List.Sublist.refl [], (List.append_nil taken).symm⟩
  | cons row rest ih =>
    obtain ⟨front, isFront, took⟩ := takeRow_eq value enough taken row
    obtain ⟨items, sublist, tookRest⟩ := ih (taken ++ front)
    refine ⟨front ++ items, isFront.sublist.append sublist, ?_⟩
    rw [takeRows, List.foldl_cons, took, ← List.append_assoc]
    exact tookRest

/-- The items that are taken, each where it stands. -/
theorem select_sublist (rows : List (List α)) (last : List α) :
    (select value enough rows last).Sublist (rows.flatten ++ last) := by
  obtain ⟨items, sublist, took⟩ := takeRows_eq value enough rows []
  rw [select, took]
  split
  · exact sublist.trans (List.sublist_append_left ..)
  · obtain ⟨front, isFront, tookLast⟩ := takeRow_eq value enough ([] ++ items) last
    rw [tookLast]
    exact sublist.append isFront.sublist

/-! ## A test that is not met leaves nothing behind -/

/-- Where the items of a row are not enough, the whole row is taken. -/
theorem takeRow_of_not_enough {taken row : List α} (short : ¬ enough (total value (takeRow value enough taken row))) :
    takeRow value enough taken row = taken ++ row := by
  induction row generalizing taken with
  | nil => exact (List.append_nil taken).symm
  | cons item rest ih =>
    rw [takeRow] at short ⊢
    split at short
    · next met => exact absurd met short
    · next unmet =>
      rw [if_neg unmet, ih short, List.append_assoc]
      rfl

variable {enough} in
/-- With a test that stays met, everything is taken where the whole selection is not enough. -/
theorem select_of_not_enough (monotone : ∀ sum more, enough sum → enough (sum + more)) {rows : List (List α)}
    {last : List α} (short : ¬ enough (total value (select value enough rows last))) :
    select value enough rows last = rows.flatten ++ last := by
  have all (rows : List (List α)) (taken : List α) (short : ¬ enough (total value (takeRows value enough taken rows))) :
      takeRows value enough taken rows = taken ++ rows.flatten := by
    induction rows generalizing taken with
    | nil => exact (List.append_nil taken).symm
    | cons row rest ih =>
      rw [takeRows, List.foldl_cons] at short ⊢
      have before : ¬ enough (total value (takeRow value enough taken row)) := by
        obtain ⟨items, -, took⟩ := takeRows_eq value enough rest (takeRow value enough taken row)
        intro met
        rw [takeRows] at took
        rw [took, total_append] at short
        exact short (monotone _ _ met)
      rw [takeRow_of_not_enough value enough before] at short ⊢
      rw [List.flatten_cons, ← List.append_assoc]
      exact ih (taken ++ row) short
  rw [select] at short ⊢
  split at short
  · next met => exact absurd met short
  · next unmet =>
    rw [if_neg unmet, takeRow_of_not_enough value enough short, all rows [] unmet, List.nil_append]

/-! ## Tests that agree below a bound -/

/-- Selections by two tests: the same items and a sum below the bound, or both sums reach it. -/
def Parts (bound : ℕ) (items others : List α) : Prop :=
  (items = others ∧ total value items < bound) ∨ (bound ≤ total value items ∧ bound ≤ total value others)

section Agree

variable {value} {enough} {enough' : ℕ → Prop} [DecidablePred enough'] {bound : ℕ}

theorem takeRow_parts (agree : ∀ sum < bound, enough sum ↔ enough' sum) (row : List α) {taken others : List α}
    (parts : Parts value bound taken others) :
    Parts value bound (takeRow value enough taken row) (takeRow value enough' others row) := by
  have past {enough : ℕ → Prop} [DecidablePred enough] {items : List α} (reached : bound ≤ total value items)
      (row : List α) : bound ≤ total value (takeRow value enough items row) := by
    obtain ⟨front, -, took⟩ := takeRow_eq value enough items row
    rw [took, total_append]
    omega
  rcases parts with ⟨rfl, below⟩ | ⟨reached, reached'⟩
  · induction row generalizing taken with
    | nil => exact .inl ⟨rfl, below⟩
    | cons item rest ih =>
      simp only [takeRow]
      by_cases next : total value (taken ++ [item]) < bound
      · by_cases met : enough (total value (taken ++ [item]))
        · rw [if_pos met, if_pos ((agree _ next).mp met)]
          exact .inl ⟨rfl, next⟩
        · rw [if_neg met, if_neg (fun met' => met ((agree _ next).mpr met'))]
          exact ih next
      · have reached := not_lt.mp next
        refine .inr ⟨?_, ?_⟩
        · split
          · exact reached
          · exact past reached rest
        · split
          · exact reached
          · exact past reached rest
  · exact .inr ⟨past reached row, past reached' row⟩

/-- Tests that agree below a bound take the same items, or both take items whose sum reaches it. -/
theorem select_parts (agree : ∀ sum < bound, enough sum ↔ enough' sum) (positive : 0 < bound)
    (rows : List (List α)) (last : List α) :
    Parts value bound (select value enough rows last) (select value enough' rows last) := by
  have rowsPart {taken others : List α} (parts : Parts value bound taken others) :
      Parts value bound (takeRows value enough taken rows) (takeRows value enough' others rows) := by
    induction rows generalizing taken others with
    | nil => exact parts
    | cons row rest ih => exact ih (takeRow_parts agree row parts)
  have parts := rowsPart (.inl ⟨rfl, positive⟩ : Parts value bound [] [])
  rw [select, select]
  generalize takeRows value enough [] rows = taken at parts ⊢
  generalize takeRows value enough' [] rows = others at parts ⊢
  rcases id parts with ⟨rfl, below⟩ | ⟨reached, reached'⟩
  · by_cases met : enough (total value taken)
    · rw [if_pos met, if_pos ((agree _ below).mp met)]
      exact parts
    · rw [if_neg met, if_neg (fun met' => met ((agree _ below).mpr met'))]
      exact takeRow_parts agree last parts
  · obtain ⟨front, -, took⟩ := takeRow_eq value enough taken last
    obtain ⟨front', -, took'⟩ := takeRow_eq value enough' others last
    refine .inr ⟨?_, ?_⟩
    · split
      · exact reached
      · rw [took, total_append]
        omega
    · split
      · exact reached'
      · rw [took', total_append]
        omega

end Agree

end PolarCloud.Selection
