import Mathlib.Data.List.Basic
import Mathlib.Order.MinMax
import Mathlib.Order.Nat

/-! # The first maximum of a scan

A scan keeps an item until another one scores more. It ends with an item of the greatest score, and with
the one in front if that is one of them.
-/

namespace PolarCloud.Leader

universe u

variable {α : Type u} (score : α → ℕ)

/-- The score to beat. -/
def least (best : Option α) : ℕ := best.elim 0 score

def keep (best : Option α) (item : α) : Option α := if least score best < score item then some item else best

def scan (best : Option α) (items : List α) : Option α := items.foldl (keep score) best

variable {score} {best : Option α} {item leader : α} {items : List α}

theorem scan_cons : scan score best (item :: items) = scan score (keep score best item) items := rfl

theorem least_keep : least score (keep score best item) = max (least score best) (score item) := by
  rw [keep]
  split
  · next more => exact (max_eq_right more.le).symm
  · next less => exact (max_eq_left (not_lt.mp less)).symm

/-- The end of a scan has the greatest score. -/
theorem le_least_scan (best : Option α) (items : List α) : least score best ≤ least score (scan score best items) ∧
    ∀ item ∈ items, score item ≤ least score (scan score best items) := by
  induction items generalizing best with
  | nil => exact ⟨le_rfl, fun item member => absurd member List.not_mem_nil⟩
  | cons item items ih =>
    obtain ⟨kept, later⟩ := ih (keep score best item)
    rw [least_keep, max_le_iff] at kept
    exact ⟨kept.1, List.forall_mem_cons.mpr ⟨kept.2, later⟩⟩

theorem mem_of_scan (ends : scan score best items = some leader) : best = some leader ∨ leader ∈ items := by
  induction items generalizing best with
  | nil => exact .inl ends
  | cons item items ih =>
    rcases ih ends with kept | later
    · rw [keep] at kept
      split at kept
      · cases kept
        exact .inr List.mem_cons_self
      · exact .inl kept
    · exact .inr (List.mem_cons_of_mem _ later)

/-- A scan that starts with an item of the greatest score ends with it. -/
theorem scan_of_greatest (greatest : ∀ item ∈ items, score item ≤ score leader) :
    scan score (some leader) items = some leader := by
  induction items with
  | nil => rfl
  | cons item items ih =>
    obtain ⟨here, later⟩ := List.forall_mem_cons.mp greatest
    rw [scan_cons, keep, if_neg (show ¬ least score (some leader) < score item from not_lt.mpr here)]
    exact ih later

theorem scan_head (positive : 0 < score leader) (greatest : ∀ item ∈ items, score item ≤ score leader) :
    scan score none (leader :: items) = some leader := by
  rw [scan_cons, keep, least, Option.elim_none, if_pos positive]
  exact scan_of_greatest greatest

end PolarCloud.Leader
