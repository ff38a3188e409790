import Mathlib.Data.Nat.Digits.Lemmas
import PolarCloud.Base.BigEndian

/-! # Numerals with leading zeros

A way to write numbers has one numeral for each number, the highest digit first and without leading zeros. A list of
digits is as many zeros and the numeral of a number, and it is written in another way as so many zeros of that way, and
the numeral of the same number; back again, it is the same list.
-/

namespace PolarCloud

universe u v

structure Numerals (ι : Type u) where
  zero : ι
  value : List ι → ℕ
  digits : ℕ → List ι
  value_digits : ∀ n, value (digits n) = n
  head?_digits : ∀ n, (digits n).head? ≠ some zero
  digits_value : ∀ list, list.head? ≠ some zero → digits (value list) = list
  value_cons_zero : ∀ list, value (zero :: list) = value list

namespace Numerals

variable {ι : Type u} {κ : Type v} [DecidableEq ι] [DecidableEq κ]

def leading (way : Numerals ι) (list : List ι) : ℕ := (list.takeWhile (· = way.zero)).length

/-- So many zeros, and the numeral of the same number. -/
def convert (way : Numerals ι) (other : Numerals κ) (list : List ι) : List κ :=
  List.replicate (way.leading list) other.zero ++ other.digits (way.value list)

omit [DecidableEq ι] in
theorem value_replicate (way : Numerals ι) (n : ℕ) (list : List ι) :
    way.value (List.replicate n way.zero ++ list) = way.value list := by
  induction n with
  | zero => rfl
  | succ n ih => rw [List.replicate_succ, List.cons_append, way.value_cons_zero, ih]

theorem leading_replicate (way : Numerals ι) (n : ℕ) {list : List ι} (first : list.head? ≠ some way.zero) :
    way.leading (List.replicate n way.zero ++ list) = n := by
  rw [leading, List.takeWhile_append_of_pos (by simp)]
  cases list with
  | nil => simp
  | cons digit rest =>
    have other : digit ≠ way.zero := fun same => first (congrArg some same)
    simp [other]

/-- A list of digits is its zeros, and the numeral of its number. -/
theorem split (way : Numerals ι) (list : List ι) :
    list = List.replicate (way.leading list) way.zero ++ way.digits (way.value list) := by
  induction list with
  | nil =>
    have empty := way.digits_value [] (by simp)
    rw [empty]
    rfl
  | cons digit rest ih =>
    obtain rfl | other := eq_or_ne digit way.zero
    · rw [way.value_cons_zero]
      have one_more : way.leading (way.zero :: rest) = way.leading rest + 1 := by simp [leading]
      rw [one_more, List.replicate_succ, List.cons_append, ← ih]
    · have none_ : way.leading (digit :: rest) = 0 := by simp [leading, other]
      rw [none_, way.digits_value _ (by simpa using other)]
      rfl

theorem convert_convert (way : Numerals ι) (other : Numerals κ) (list : List ι) :
    other.convert way (way.convert other list) = list := by
  rw [convert, convert, leading_replicate _ _ (other.head?_digits _), value_replicate, other.value_digits]
  exact (way.split list).symm

/-- Bytes are digits to the base 256. -/
def bytes : Numerals UInt8 where
  zero := 0
  value := BigEndian.number
  digits := BigEndian.bytes
  value_digits := BigEndian.number_bytes
  head?_digits := BigEndian.head?_bytes
  digits_value _ := BigEndian.bytes_number
  value_cons_zero list := by
    rw [BigEndian.number, List.reverse_cons, LittleEndian.get_concat_zero, BigEndian.number]

section Positional

variable {base : ℕ} [NeZero base]

theorem map_val_ofNat {digits : List ℕ} (small : ∀ digit ∈ digits, digit < base) :
    (digits.map (Fin.ofNat base)).map Fin.val = digits := by
  rw [List.map_map]
  exact (List.map_congr_left fun digit member => Nat.mod_eq_of_lt (small digit member)).trans (List.map_id _)

/-- The digits to a base, the highest one first. -/
def positional (large : 1 < base) : Numerals (Fin base) where
  zero := 0
  value list := Nat.ofDigits base (list.reverse.map Fin.val)
  digits n := ((Nat.digits base n).map (Fin.ofNat base)).reverse
  value_digits n := by
    rw [List.reverse_reverse, map_val_ofNat fun digit member => Nat.digits_lt_base large member, Nat.ofDigits_digits]
  head?_digits n leading := by
    obtain rfl | positive := eq_or_ne n 0
    · simp at leading
    · have some_ : Nat.digits base n ≠ [] := Nat.digits_ne_nil_iff_ne_zero.mpr positive
      have last := Nat.getLast_digit_ne_zero base positive
      have small := Nat.digits_lt_base large (List.getLast_mem some_)
      rw [List.head?_reverse, List.getLast?_map, List.getLast?_eq_some_getLast some_, Option.map_some,
        Option.some_inj] at leading
      have zero := congrArg Fin.val leading
      rw [Fin.val_ofNat, Nat.mod_eq_of_lt small, Fin.val_zero] at zero
      exact last zero
  digits_value list first := by
    have small (digit : ℕ) (member : digit ∈ list.reverse.map Fin.val) : digit < base := by
      obtain ⟨one, -, rfl⟩ := List.mem_map.mp member
      exact one.isLt
    have last (some_ : list.reverse.map Fin.val ≠ []) : (list.reverse.map Fin.val).getLast some_ ≠ 0 := by
      intro zero
      apply first
      rw [List.getLast_map, List.getLast_reverse] at zero
      rw [List.head?_eq_some_head (by simpa using some_), Option.some_inj]
      exact Fin.ext zero
    rw [Nat.digits_ofDigits base large _ small last, List.map_map]
    have same : Fin.ofNat base ∘ Fin.val = (id : Fin base → Fin base) := by
      funext digit
      exact Fin.ext (Nat.mod_eq_of_lt digit.isLt)
    rw [same, List.map_id, List.reverse_reverse]
  value_cons_zero list := by
    rw [List.reverse_cons, List.map_append, List.map_singleton, Fin.val_zero, Nat.ofDigits_append_zero]

end Positional

end Numerals

end PolarCloud
