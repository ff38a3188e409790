import Mathlib.Algebra.Order.Floor.Div
import Mathlib.Algebra.Order.BigOperators.Group.List
import Mathlib.Data.List.Sort

/-! # Slices of a list, and lists written into others

A list is cut into slices of one size, of which the last may be shorter; put together in the order of their numbers
they are the list. Writing a list into another from some place on replaces what is there and keeps the rest, so slices
written one after the other are one writing.
-/

namespace PolarCloud.Slices

universe u

variable {α : Type u} {items before after : List α} {size place : ℕ}

/-! ## Slices -/

def slice (size : ℕ) (items : List α) (number : ℕ) : List α := (items.drop (number * size)).take size

/-- How many slices of a size a list has. -/
def count (size : ℕ) (items : List α) : ℕ :=
  items.length / size + if 0 < items.length % size then 1 else 0

theorem count_eq_ceilDiv (positive : 0 < size) : count size items = items.length ⌈/⌉ size := by
  rw [count, Nat.ceilDiv_eq_add_pred_div]
  have parts := Nat.div_add_mod items.length size
  have small := Nat.mod_lt items.length positive
  split
  · next rest =>
    have whole : items.length + size - 1 = size * (items.length / size + 1) + (items.length % size - 1) := by
      rw [Nat.mul_add, Nat.mul_one]
      omega
    rw [whole, Nat.mul_add_div positive, Nat.div_eq_of_lt (show items.length % size - 1 < size by omega), Nat.add_zero]
  · next exact_ =>
    have whole : items.length + size - 1 = size * (items.length / size) + (size - 1) := by omega
    rw [whole, Nat.mul_add_div positive, Nat.div_eq_of_lt (show size - 1 < size by omega)]

theorem length_le_count (positive : 0 < size) : items.length ≤ count size items * size := by
  have parts := Nat.div_add_mod' items.length size
  have small := Nat.mod_lt items.length positive
  rw [count, Nat.add_mul]
  split <;> omega

theorem flatten_slices (size : ℕ) (items : List α) (numbers : ℕ) :
    ((List.range numbers).map (slice size items)).flatten = items.take (numbers * size) := by
  induction numbers with
  | zero => simp
  | succ numbers ih =>
    rw [List.range_succ, List.map_append, List.flatten_append, ih, Nat.succ_mul, List.take_add]
    simp [slice]

/-- All slices together are the list. -/
theorem flatten_all (positive : 0 < size) :
    ((List.range (count size items)).map (slice size items)).flatten = items := by
  rw [flatten_slices]
  exact List.take_of_length_le (length_le_count positive)

/-- A slice is not empty while there are items left for it. -/
theorem slice_ne_nil {number : ℕ} (positive : 0 < size) (below : number < count size items) :
    slice size items number ≠ [] := by
  have parts := Nat.div_add_mod' items.length size
  have start : number * size < items.length := by
    rw [count] at below
    split at below
    · have most := Nat.mul_le_mul_right size (Nat.le_of_lt_succ below)
      omega
    · have most := Nat.mul_lt_mul_of_pos_right below positive
      rw [Nat.add_zero] at most
      omega
  intro none
  have length := congrArg List.length none
  rw [slice, List.length_take, List.length_drop, List.length_nil] at length
  omega

/-- Lists of the same lengths that make up the same are the same. -/
theorem eq_of_flatten_eq {ι : Type*} {numbers : List ι} {one other : ι → List α}
    (lengths : ∀ i ∈ numbers, (one i).length = (other i).length)
    (same : (numbers.map one).flatten = (numbers.map other).flatten) : ∀ i ∈ numbers, one i = other i := by
  induction numbers with
  | nil => exact nofun
  | cons i numbers ih =>
    obtain ⟨first, others⟩ := List.forall_mem_cons.mp lengths
    rw [List.map_cons, List.map_cons, List.flatten_cons, List.flatten_cons] at same
    obtain ⟨here, rest⟩ := List.append_inj same first
    exact List.forall_mem_cons.mpr ⟨here, ih others rest⟩

/-- Lists that begin with the parts of another make it up together only if they are its parts and nothing is left. -/
theorem flatten_append_eq_iff {ι : Type*} {numbers : List ι} {part longer : ι → List α} {rest : List α}
    (begins : ∀ i ∈ numbers, part i <+: longer i) :
    (numbers.map longer).flatten ++ rest = (numbers.map part).flatten ↔
      (∀ i ∈ numbers, longer i = part i) ∧ rest = [] := by
  induction numbers with
  | nil => simp
  | cons i numbers ih =>
    obtain ⟨first, others⟩ := List.forall_mem_cons.mp begins
    obtain ⟨more, is⟩ := first
    have shorter : (numbers.map part).flatten.length ≤ (numbers.map longer).flatten.length := by
      rw [List.length_flatten, List.length_flatten, List.map_map, List.map_map]
      exact List.sum_le_sum fun j member => (others j member).length_le
    rw [List.map_cons, List.map_cons, List.flatten_cons, List.flatten_cons, ← is, List.append_assoc, List.append_assoc,
      List.append_cancel_left_eq, List.forall_mem_cons, and_assoc, ← ih others]
    constructor
    · intro same
      have none : more = [] := by
        have length := congrArg List.length same
        simp only [List.length_append] at length
        exact List.eq_nil_of_length_eq_zero (by omega)
      rw [none, List.nil_append] at same
      exact ⟨by rw [← is, none, List.append_nil], same⟩
    · rintro ⟨whole, same⟩
      rw [List.append_right_eq_self.mp (is.trans whole), List.nil_append]
      exact same

/-! ## Writing into a list -/

def writeAt (items : List α) (place : ℕ) (written : List α) : List α :=
  items.take place ++ written ++ items.drop (place + written.length)

/-- Writing from the beginning on. -/
theorem writeAt_zero (items written : List α) : writeAt items 0 written = written ++ items.drop written.length := by
  rw [writeAt, List.take_zero, List.nil_append, Nat.zero_add]

theorem writeAt_end (items written : List α) : writeAt items items.length written = items ++ written := by
  rw [writeAt, List.take_length, List.drop_of_length_le (by omega), List.append_nil]

/-- What is written next follows what was written, and the rest is still the old one. -/
theorem writeAt_next (items before after : List α) :
    writeAt (before ++ items.drop before.length) before.length after =
      (before ++ after) ++ items.drop (before ++ after).length := by
  rw [writeAt, List.take_left, List.drop_append, List.drop_of_length_le (by omega), List.nil_append, List.drop_drop,
    List.length_append, show before.length + (before.length + after.length - before.length) =
      before.length + after.length by omega]

theorem prefix_writeAt_zero (items written : List α) : written <+: writeAt items 0 written := by
  rw [writeAt_zero]
  exact List.prefix_append ..

/-- The same again changes nothing. -/
theorem writeAt_zero_again (items written : List α) :
    writeAt (writeAt items 0 written) 0 written = writeAt items 0 written := by
  rw [writeAt_zero items, writeAt_zero, List.drop_left]

/-- What is written over a list from its beginning on can be read again when its length is known. -/
theorem eq_of_writeAt_zero {one other : List α} (length : one.length = other.length)
    (same : writeAt items 0 one = writeAt items 0 other) : one = other := by
  rw [writeAt_zero, writeAt_zero] at same
  exact (List.append_inj same length).1

/-- Nothing of the old list is left exactly when it is not longer. -/
theorem writeAt_zero_eq_iff (items written : List α) :
    writeAt items 0 written = written ↔ items.length ≤ written.length := by
  rw [writeAt_zero, List.append_right_eq_self, List.drop_eq_nil_iff]

/-! ## Numbered items in any order -/

/-- A list without repetitions of exactly the numbered items, sorted by their numbers, is the list of them. -/
theorem insertionSort_numbered {β : Type u} {number : β → ℕ} {item : ℕ → β} {total : ℕ} {given : List β}
    (numbered : ∀ n, number (item n) = n) (distinct : given.Nodup)
    (all : ∀ one, one ∈ given ↔ ∃ n < total, item n = one) :
    given.insertionSort (fun left right => number left ≤ number right) = (List.range total).map item := by
  have totally : Std.Total fun left right : β => number left ≤ number right := ⟨fun left right => le_total _ _⟩
  have transitive : IsTrans β fun left right => number left ≤ number right := ⟨fun _ _ _ => le_trans⟩
  have injective : Function.Injective item := Function.LeftInverse.injective numbered
  have same : given.Perm ((List.range total).map item) := by
    rw [List.perm_ext_iff_of_nodup distinct (List.nodup_range.map injective)]
    intro one
    rw [all, List.mem_map]
    simp only [List.mem_range]
  have order : ((List.range total).map item).Pairwise fun left right => number left ≤ number right := by
    rw [List.pairwise_map]
    refine List.pairwise_lt_range.imp fun before => ?_
    rw [numbered, numbered]
    exact before.le
  refine ((List.perm_insertionSort _ given).trans same).eq_of_pairwise
    (fun left right inLeft inRight before after => ?_)
    (List.pairwise_insertionSort _ given) order
  obtain ⟨n, -, rfl⟩ := (all left).mp ((List.perm_insertionSort _ given).mem_iff.mp inLeft)
  obtain ⟨m, -, rfl⟩ := List.mem_map.mp inRight
  rw [numbered, numbered] at before after
  rw [le_antisymm before after]

end PolarCloud.Slices
