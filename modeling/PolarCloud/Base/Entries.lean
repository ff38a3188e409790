import Mathlib.Data.List.Nodup
import Mathlib.Data.List.Perm.Basic

/-! # Maps as lists of entries

A map that is visited or counted is kept as the list of its entries. Changing the value of a key leaves the other
entries in place, and a key without a value gets its entry at the end.
-/

namespace PolarCloud.Entries

universe u v

variable {κ : Type u} {β : Type v} [DecidableEq κ] {key : κ} {present : β → β} {absent : β} {entries : List (κ × β)}

/-- Change the value of a key, or give it one. -/
def change (key : κ) (present : β → β) (absent : β) (entries : List (κ × β)) : List (κ × β) :=
  if entries.any fun one => one.1 = key then
    entries.map fun one => if one.1 = key then (key, present one.2) else one
  else entries ++ [(key, absent)]

theorem any_iff : (entries.any fun one => one.1 = key) = true ↔ key ∈ entries.map Prod.fst := by
  simp

theorem keys_change : (change key present absent entries).map Prod.fst =
    if key ∈ entries.map Prod.fst then entries.map Prod.fst else entries.map Prod.fst ++ [key] := by
  rw [change]
  simp only [any_iff]
  split
  · rw [List.map_map]
    apply List.map_congr_left
    intro one _
    rw [Function.comp_apply]
    split
    · next same => exact same.symm
    · rfl
  · rw [List.map_append]
    rfl

theorem mem_keys_change {other : κ} : other ∈ (change key present absent entries).map Prod.fst ↔
    other ∈ entries.map Prod.fst ∨ other = key := by
  rw [keys_change]
  split
  · next known => exact (or_iff_left_of_imp fun same => same ▸ known).symm
  · rw [List.mem_append, List.mem_singleton]

/-- A key has one entry at most. -/
theorem nodup_change (nodup : (entries.map Prod.fst).Nodup) :
    ((change key present absent entries).map Prod.fst).Nodup := by
  rw [keys_change]
  split
  · exact nodup
  · next unknown => exact List.nodup_append.mpr ⟨nodup, List.nodup_singleton key, by
      rintro other listed _ new rfl
      exact unknown (List.mem_singleton.mp new ▸ listed)⟩

/-- With lists as values, an item is added to one of them. -/
theorem flatMap_change_perm {α : Type*} {entries : List (κ × List α)} (nodup : (entries.map Prod.fst).Nodup)
    (key : κ) (item : α) :
    ((change key (· ++ [item]) [item] entries).flatMap Prod.snd).Perm (item :: entries.flatMap Prod.snd) := by
  rw [change]
  split
  · next known =>
    have listed := any_iff.mp known
    clear known
    induction entries with
    | nil => cases listed
    | cons first rest ih =>
      rw [List.map_cons] at nodup listed
      obtain ⟨apart, nodup⟩ := List.nodup_cons.mp nodup
      rw [List.map_cons, List.flatMap_cons, List.flatMap_cons]
      split
      · next here =>
        have others : (rest.map fun one => if one.1 = key then (key, one.2 ++ [item]) else one) = rest := by
          apply (List.map_congr_left fun one member => ?_).trans (List.map_id rest)
          apply if_neg
          intro same
          have again : one.1 ∈ rest.map Prod.fst := List.mem_map_of_mem member
          exact apart (here ▸ same ▸ again)
        rw [others]
        exact (List.perm_append_singleton item first.2).append_right _
      · next elsewhere =>
        have later : key ∈ rest.map Prod.fst := (List.mem_cons.mp listed).resolve_left (Ne.symm elsewhere)
        exact ((ih nodup later).append_left first.2).trans List.perm_middle
  · rw [List.flatMap_append]
    exact List.perm_append_singleton item _

end PolarCloud.Entries
