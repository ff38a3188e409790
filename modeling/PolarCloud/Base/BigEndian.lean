import Mathlib.Data.Nat.Log
import PolarCloud.Base.LittleEndian

/-! # Numbers as byte strings, the highest byte first

A number has one byte string without leading zeros.
-/

namespace PolarCloud.BigEndian

def number (bytes : Bytes) : ℕ := LittleEndian.get bytes.reverse

def length (x : ℕ) : ℕ := if x = 0 then 0 else x.log2 / 8 + 1

/-- The bytes of a number, without leading zeros. -/
def bytes (x : ℕ) : Bytes := (LittleEndian.put (length x) x).reverse

theorem number_lt (bytes : Bytes) : number bytes < 256 ^ bytes.length := by
  rw [← List.length_reverse]
  exact LittleEndian.get_lt _

theorem lt_pow_length (x : ℕ) : x < 256 ^ length x := by
  rw [length]
  split
  · next zero => rw [zero, pow_zero]; exact Nat.one_pos
  · next positive =>
    rw [show 256 = 2 ^ 8 from rfl, ← pow_mul, ← Nat.log2_lt positive]
    omega

theorem length_eq {n x : ℕ} (least : 256 ^ n ≤ x) (most : x < 256 ^ (n + 1)) : length x = n + 1 := by
  have positive : x ≠ 0 := ((Nat.pow_pos (by omega)).trans_le least).ne'
  rw [show 256 = 2 ^ 8 from rfl, ← pow_mul] at least most
  rw [← Nat.le_log2 positive] at least
  rw [← Nat.log2_lt positive] at most
  rw [length, if_neg positive]
  omega

theorem length_le {n x : ℕ} (most : x < 256 ^ n) : length x ≤ n := by
  rw [length]
  split
  · exact Nat.zero_le n
  · next positive =>
    rw [show 256 = 2 ^ 8 from rfl, ← pow_mul, ← Nat.log2_lt positive] at most
    omega

theorem length_bytes (x : ℕ) : (bytes x).length = length x := by
  rw [bytes, List.length_reverse, LittleEndian.length_put]

theorem length_bytes_le {n x : ℕ} (most : x < 256 ^ n) : (bytes x).length ≤ n := by
  rw [length_bytes]
  exact length_le most

theorem number_bytes (x : ℕ) : number (bytes x) = x := by
  rw [number, bytes, List.reverse_reverse]
  exact LittleEndian.get_put (lt_pow_length x)

/-- The bytes of a number do not begin with a zero. -/
theorem head?_bytes (x : ℕ) : (bytes x).head? ≠ some 0 := by
  intro leading
  obtain ⟨rest, split⟩ := List.head?_eq_some_iff.mp leading
  have shorter : x < 256 ^ rest.length := by
    have value : number (bytes x) = number rest := by
      rw [split, number, number, List.reverse_cons, LittleEndian.get_concat_zero]
    rw [← number_bytes x, value]
    exact number_lt rest
  have longer := congrArg List.length split
  rw [length_bytes, List.length_cons] at longer
  have bound := length_le shorter
  omega

/-- Byte strings of one length with the same number are the same. -/
theorem number_inj {first second : Bytes} (length : first.length = second.length)
    (same : number first = number second) : first = second := by
  have back := LittleEndian.put_get first.reverse
  rw [List.length_reverse, length, ← List.length_reverse] at back
  have both : LittleEndian.put second.reverse.length (LittleEndian.get second.reverse) = first.reverse := by
    rw [← back]
    exact congrArg _ same.symm
  rw [LittleEndian.put_get] at both
  exact (List.reverse_inj.mp both).symm

/-- Without leading zeros the bytes are those of their number. -/
theorem bytes_number {digest : Bytes} (leading : digest.head? ≠ some 0) : bytes (number digest) = digest := by
  cases digest with
  | nil => rfl
  | cons byte rest =>
    have positive : byte ≠ 0 := fun zero => leading (congrArg some zero)
    have least : 256 ^ rest.length ≤ number (byte :: rest) := by
      rw [number, List.reverse_cons, ← List.length_reverse]
      exact LittleEndian.le_get_concat _ positive
    have length : length (number (byte :: rest)) = (byte :: rest).reverse.length := by
      rw [length_eq least (number_lt _), List.length_reverse, List.length_cons]
    rw [bytes, length, number, LittleEndian.put_get, List.reverse_reverse]

end PolarCloud.BigEndian
