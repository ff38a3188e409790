import Mathlib.Data.List.Count
import Mathlib.Data.List.Destutter

/-! # Repeated neighbours

When an item that equals the one before it is left out, every item of a list is still there, and it is there once
exactly when no other item stands between two of its places.
-/

namespace PolarCloud.Repeats

universe u

variable {α : Type u} {item first : α} {items : List α}

/-- No other item stands between two places of this one. -/
def Together (item : α) (items : List α) : Prop := ∀ other, [item, other, item].Sublist items → other = item

theorem together_cons_of_ne (other : first ≠ item) : Together item (first :: items) ↔ Together item items := by
  refine forall_congr' fun between => imp_congr_left ⟨fun inside => ?_, List.Sublist.cons first⟩
  cases inside with
  | cons _ inside => exact inside
  | cons_cons _ _ => exact absurd rfl other

theorem together_cons_self : Together item (item :: item :: items) ↔ Together item (item :: items) := by
  refine forall_congr' fun between => ⟨fun together inside => together (inside.cons item), fun together inside => ?_⟩
  cases inside with
  | cons _ inside => exact together inside
  | cons_cons _ inside =>
    cases inside with
    | cons _ inside => exact together (inside.cons_cons item)
    | cons_cons _ _ => rfl

theorem together_map_some : Together (some item) (items.map some) ↔ Together item items := by
  refine ⟨fun together other inside => Option.some.inj (together _ (inside.map some)), fun together other inside => ?_⟩
  obtain ⟨part, inside, same⟩ := List.sublist_map_iff.mp inside
  have some_ : other ∈ part.map some := same ▸ List.mem_cons_of_mem _ (List.mem_cons_self ..)
  obtain ⟨between, -, rfl⟩ := List.mem_map.mp some_
  have whole : [item, between, item].map some = part.map some := same
  rw [List.map_inj_right fun _ _ => Option.some.inj] at whole
  subst whole
  exact congrArg some (together between inside)

theorem together_of_not_mem (absent : item ∉ items) : Together item items :=
  fun _ inside => absurd (inside.subset (List.mem_cons_self ..)) absent

variable [DecidableEq α]

theorem mem_destutter' : item ∈ items.destutter' (· ≠ ·) first ↔ item ∈ first :: items := by
  induction items generalizing first with
  | nil => rfl
  | cons second items ih =>
    by_cases same : first = second
    · subst same
      rw [List.destutter'_cons_neg items (not_not.mpr rfl), ih, List.mem_cons, List.mem_cons, List.mem_cons]
      exact ⟨fun inside => inside.elim .inl fun inside => .inr (.inr inside), fun inside => inside.elim .inl id⟩
    · rw [List.destutter'_cons_pos items same, List.mem_cons, ih, List.mem_cons (b := first)]

variable [BEq α] [LawfulBEq α]

/-- An item is there once at most exactly when its places are together. -/
theorem count_destutter'_le_one_iff :
    (items.destutter' (· ≠ ·) first).count item ≤ 1 ↔ Together item (first :: items) := by
  induction items generalizing first with
  | nil =>
    refine iff_of_true ?_ fun other inside => ?_
    · rw [List.destutter'_nil]
      exact List.count_le_length
    · exact absurd inside.length_le (Nat.not_le_of_lt (Nat.lt_add_of_pos_left (show 0 < 2 by decide)))
  | cons second items ih =>
    by_cases same : first = second
    · subst same
      rw [List.destutter'_cons_neg items (not_not.mpr rfl), ih]
      by_cases own : first = item
      · subst own
        exact together_cons_self.symm
      · exact (together_cons_of_ne own).symm
    · rw [List.destutter'_cons_pos items same]
      by_cases own : first = item
      · subst own
        -- it is there already, so it must not come again
        rw [List.count_cons_self, show ∀ n, n + 1 ≤ 1 ↔ n = 0 by omega, List.count_eq_zero, mem_destutter']
        constructor
        · intro absent other inside
          cases inside with
          | cons _ inside => exact absurd (inside.subset (List.mem_cons_self ..)) absent
          | cons_cons _ inside =>
            exact absurd (inside.subset (List.mem_cons_of_mem _ (List.mem_cons_self ..))) absent
        · intro together again
          have later : first ∈ items := (List.mem_cons.mp again).resolve_left same
          exact same (together second (((List.singleton_sublist.mpr later).cons_cons second).cons_cons first)).symm
      · rw [List.count_cons_of_ne own, ih, together_cons_of_ne own]

end PolarCloud.Repeats
