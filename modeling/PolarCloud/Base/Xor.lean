import Mathlib.Data.Nat.Bitwise
import Mathlib.Data.List.Sort

/-! # Distances by exclusive or

Numbers differ by their exclusive or. Two numbers are never at the same distance from a third, so among
several there is one nearest. Flip the highest bit in which a number differs from a target: what is
nearest to the result among numbers that include the target is nearer to the target than the number was.
-/

namespace PolarCloud.Xor

theorem inj {target a b : ℕ} (same : target ^^^ a = target ^^^ b) : a = b := Nat.xor_right_injective same

/-- The sum of two distances from a common end cancels the end. -/
theorem cancel (a b c : ℕ) : (a ^^^ b) ^^^ (a ^^^ c) = b ^^^ c := by
  rw [Nat.xor_comm a b, Nat.xor_assoc, Nat.xor_xor_cancel_left]

theorem pos_of_ne {a b : ℕ} (other : a ≠ b) : 0 < a ^^^ b :=
  Nat.pos_of_ne_zero fun zero => other (Nat.xor_eq_zero_iff.mp zero)

/-- Two numbers differ in a bit when their distances from a place do. -/
theorem testBit_distances (place a b bit : ℕ) :
    (a ^^^ b).testBit bit = ((place ^^^ a).testBit bit ^^ (place ^^^ b).testBit bit) := by
  rw [← Nat.testBit_xor, cancel]

/-- The highest bit in which two numbers differ decides which of them is nearer to a place. -/
theorem lt_iff {place a b : ℕ} (other : a ≠ b) :
    place ^^^ a < place ^^^ b ↔ (place ^^^ a).testBit (a ^^^ b).log2 = false := by
  have positive : a ^^^ b ≠ 0 := (pos_of_ne other).ne'
  have above (bit : ℕ) (higher : (a ^^^ b).log2 < bit) : (place ^^^ a).testBit bit = (place ^^^ b).testBit bit := by
    have same := testBit_distances place a b bit
    rw [Nat.testBit_lt_two_pow ((Nat.log2_lt positive).mp higher)] at same
    revert same
    cases (place ^^^ a).testBit bit <;> cases (place ^^^ b).testBit bit <;> simp
  have apart : (place ^^^ b).testBit (a ^^^ b).log2 = !(place ^^^ a).testBit (a ^^^ b).log2 := by
    have differ := testBit_distances place a b (a ^^^ b).log2
    rw [Nat.testBit_log2 positive] at differ
    revert differ
    cases (place ^^^ a).testBit (a ^^^ b).log2 <;> simp
  constructor
  · intro nearer
    by_contra set
    rw [Bool.not_eq_false] at set
    rw [set, Bool.not_true] at apart
    exact nearer.asymm (Nat.lt_of_testBit _ apart set fun bit higher => (above bit higher).symm)
  · intro clear
    rw [clear, Bool.not_false] at apart
    exact Nat.lt_of_testBit _ clear apart above

/-- A place with one bit flipped sees two numbers in the other order exactly when their highest difference is there. -/
theorem flip_lt_iff {place a b i : ℕ} (other : a ≠ b) :
    (place ^^^ 2 ^ i) ^^^ a < (place ^^^ 2 ^ i) ^^^ b ↔
      ((place ^^^ a).testBit (a ^^^ b).log2 = decide (i = (a ^^^ b).log2)) := by
  rw [lt_iff other, Nat.xor_assoc, Nat.xor_comm (2 ^ i), ← Nat.xor_assoc, Nat.testBit_xor, Nat.testBit_two_pow]
  cases (place ^^^ a).testBit (a ^^^ b).log2 <;> cases decide (i = (a ^^^ b).log2) <;> simp

/-- What is nearer with one bit flipped, and with another one, is nearer. -/
theorem lt_of_flips {place a b i j : ℕ} (apart : i ≠ j) (first : (place ^^^ 2 ^ i) ^^^ a < (place ^^^ 2 ^ i) ^^^ b)
    (second : (place ^^^ 2 ^ j) ^^^ a < (place ^^^ 2 ^ j) ^^^ b) : place ^^^ a < place ^^^ b := by
  have other : a ≠ b := fun same => first.ne (by rw [same])
  rw [lt_iff other]
  by_contra set
  rw [Bool.not_eq_false] at set
  rw [flip_lt_iff other, set, eq_comm, decide_eq_true_iff] at first second
  exact apart (first.trans second.symm)

/-- What is nearer is farther once the highest bit that differs is flipped. -/
theorem flip_highest_farther {place a b : ℕ} (nearer : place ^^^ a < place ^^^ b) :
    (place ^^^ 2 ^ (a ^^^ b).log2) ^^^ b < (place ^^^ 2 ^ (a ^^^ b).log2) ^^^ a := by
  have other : a ≠ b := fun same => nearer.ne (by rw [same])
  have clear := (lt_iff other).mp nearer
  refine lt_of_le_of_ne (not_lt.mp fun still => ?_) fun same => other (inj same).symm
  rw [flip_lt_iff other, clear, decide_eq_true rfl] at still
  cases still

/-- Of three numbers the second stays nearer than the third when the highest bit in which it differs from the first is
flipped. -/
theorem flip_between {place a b c : ℕ} (first : place ^^^ a < place ^^^ b) (second : place ^^^ b < place ^^^ c) :
    (place ^^^ 2 ^ (a ^^^ b).log2) ^^^ b < (place ^^^ 2 ^ (a ^^^ b).log2) ^^^ c := by
  have other : a ≠ b := fun same => first.ne (by rw [same])
  have other' : b ≠ c := fun same => second.ne (by rw [same])
  have clear := (lt_iff other).mp first
  have clear' := (lt_iff other').mp second
  have set : (place ^^^ b).testBit (a ^^^ b).log2 = true := by
    have differ := testBit_distances place a b (a ^^^ b).log2
    rw [Nat.testBit_log2 (pos_of_ne other).ne', clear, Bool.false_xor] at differ
    exact differ.symm
  rw [flip_lt_iff other', clear', eq_comm, decide_eq_false_iff_not]
  intro same
  rw [same, clear'] at set
  cases set

/-- Among numbers none is nearer to a place. -/
def Nearest (numbers : List ℕ) (place number : ℕ) : Prop :=
  number ∈ numbers ∧ ∀ other ∈ numbers, place ^^^ number ≤ place ^^^ other

instance (numbers : List ℕ) (place number : ℕ) : Decidable (Nearest numbers place number) :=
  inferInstanceAs (Decidable (number ∈ numbers ∧ ∀ other ∈ numbers, place ^^^ number ≤ place ^^^ other))

namespace Nearest

variable {numbers : List ℕ} {place number : ℕ}

theorem unique {other : ℕ} (nearest : Nearest numbers place number) (nearest' : Nearest numbers place other) :
    number = other :=
  inj (le_antisymm (nearest.2 _ nearest'.1) (nearest'.2 _ nearest.1))

/-- What is nearest among some is nearest among fewer that include it. -/
theorem anti {fewer : List ℕ} (nearest : Nearest numbers place number) (inside : number ∈ fewer)
    (fewer_sub : ∀ other ∈ fewer, other ∈ numbers) : Nearest fewer place number :=
  ⟨inside, fun other mem => nearest.2 other (fewer_sub other mem)⟩

theorem congr {others : List ℕ} (nearest : Nearest numbers place number)
    (same : ∀ other, other ∈ others ↔ other ∈ numbers) :
    Nearest others place number :=
  nearest.anti ((same _).mpr nearest.1) fun other mem => (same other).mp mem

end Nearest

theorem exists_nearest {numbers : List ℕ} (nonempty : numbers ≠ []) (place : ℕ) :
    ∃ number, Nearest numbers place number := by
  induction numbers with
  | nil => exact absurd rfl nonempty
  | cons first rest ih =>
    by_cases none : rest = []
    · refine ⟨first, List.mem_cons_self, fun other mem => ?_⟩
      rw [none, List.mem_singleton] at mem
      rw [mem]
    · obtain ⟨number, inside, least⟩ := ih none
      by_cases nearer : place ^^^ first ≤ place ^^^ number
      · refine ⟨first, List.mem_cons_self, List.forall_mem_cons.mpr ⟨le_rfl, fun other mem => ?_⟩⟩
        exact nearer.trans (least other mem)
      · exact ⟨number, List.mem_cons_of_mem _ inside, List.forall_mem_cons.mpr ⟨(not_le.mp nearer).le, least⟩⟩

/-- The flipped number and the target agree from the highest bit that differed on. -/
theorem flip_highest_lt {number target : ℕ} (other : number ≠ target) :
    (number ^^^ 2 ^ (number ^^^ target).log2) ^^^ target < 2 ^ (number ^^^ target).log2 := by
  have positive : number ^^^ target ≠ 0 := (pos_of_ne other).ne'
  rw [Nat.xor_assoc, Nat.xor_comm (2 ^ _), ← Nat.xor_assoc]
  refine Nat.lt_of_testBit (number ^^^ target).log2 ?_ (Nat.testBit_two_pow_self) fun bit higher => ?_
  · rw [Nat.testBit_xor, Nat.testBit_two_pow_self, Nat.testBit_log2 positive]
    rfl
  · have above : (number ^^^ target) < 2 ^ bit :=
      (Nat.log2_lt positive).mp higher
    rw [Nat.testBit_xor, Nat.testBit_lt_two_pow above, Bool.false_xor]

theorem nearer_of_flip {numbers : List ℕ} {number target neighbour : ℕ} (other : number ≠ target)
    (inside : target ∈ numbers) (nearest : Nearest numbers (number ^^^ 2 ^ (number ^^^ target).log2) neighbour) :
    target ^^^ neighbour < target ^^^ number := by
  have positive : number ^^^ target ≠ 0 := (pos_of_ne other).ne'
  have near := flip_highest_lt other
  have nearer := (nearest.2 target inside).trans_lt near
  have below := Nat.xor_lt_two_pow near nearer
  rw [cancel] at below
  refine below.trans_le ?_
  rw [Nat.xor_comm target number]
  exact Nat.log2_self_le positive

end PolarCloud.Xor
