import Mathlib.Data.Int.Log
import Mathlib.Data.Rat.Floor
import Mathlib.Tactic.Linarith
import Mathlib.Tactic.Ring
import PolarCloud.Base.Json

/-! # Numbers read as binary64

A literal becomes the nearest multiple of the unit in its last place, with ties to the even one; when that is out of
range, there is no number. Where integers alone are concerned this is `nearest`.
-/

namespace PolarCloud.Float64

/-- The nearest integer, and the even one of two. -/
def roundEven (q : ℚ) : ℤ :=
  if 1 / 2 < q - ⌊q⌋ ∨ q - ⌊q⌋ = 1 / 2 ∧ ⌊q⌋ % 2 = 1 then ⌊q⌋ + 1 else ⌊q⌋

/-- The unit in the last place. -/
def unit (q : ℚ) : ℚ := (2 : ℚ) ^ max (-1074) (Int.log 2 |q| - 52)

/-- The binary64 nearest to a number, if it is in range. -/
def ofRat (q : ℚ) : Option ℚ :=
  let value := roundEven (q / unit q) * unit q
  if 2 ^ 1024 ≤ |value| then none else some value

/-- The fraction is discarded; a number out of range becomes whatever the machine makes of it. -/
def toUInt64 (outside : ℚ → UInt64) (f : ℚ) : UInt64 :=
  let t := if 0 ≤ f then ⌊f⌋ else ⌈f⌉
  if 0 ≤ t ∧ t < 2 ^ 64 then UInt64.ofNat t.toNat else outside f

theorem unit_pos (q : ℚ) : 0 < unit q := by
  rw [unit]
  exact zpow_pos two_pos _

theorem roundEven_intCast (n : ℤ) : roundEven n = n := by
  have whole : ((n : ℚ) - ⌊(n : ℚ)⌋) = 0 := by rw [Int.floor_intCast, sub_self]
  rw [roundEven, whole, Int.floor_intCast]
  norm_num

theorem abs_roundEven_sub_le (q : ℚ) : |roundEven q - q| ≤ 1 := by
  have below := Int.floor_le q
  have above := Int.lt_floor_add_one q
  rw [roundEven, abs_le]
  split <;> push_cast <;> constructor <;> linarith

/-- The unit is not larger than the number, or it is at most 1. -/
theorem unit_le (q : ℚ) : unit q ≤ 1 + |q| := by
  have magnitude := abs_nonneg q
  rw [unit]
  rcases max_choice (-1074) (Int.log 2 |q| - 52) with least | last
  · rw [least]
    have small : (2 : ℚ) ^ (-1074 : ℤ) ≤ 1 := zpow_le_one_of_nonpos₀ (by norm_num) (by norm_num)
    linarith
  · rw [last]
    rcases magnitude.eq_or_lt with zero | positive
    · rw [← zero, Int.log_zero_right]
      have small : (2 : ℚ) ^ (0 - 52 : ℤ) ≤ 1 := zpow_le_one_of_nonpos₀ (by norm_num) (by norm_num)
      linarith
    · have own : (2 : ℚ) ^ Int.log 2 |q| ≤ |q| := Int.zpow_log_le_self one_lt_two positive
      have smaller : (2 : ℚ) ^ (Int.log 2 |q| - 52) ≤ (2 : ℚ) ^ Int.log 2 |q| :=
        zpow_le_zpow_right₀ (by norm_num) (by omega)
      linarith

/-- A number is in range when it is far enough from the limit. -/
theorem ofRat_eq (q : ℚ) (small : |q| < 2 ^ 128) : ofRat q = some (roundEven (q / unit q) * unit q) := by
  have positive := unit_pos q
  have near : |roundEven (q / unit q) * unit q - q| ≤ unit q := by
    have error := mul_le_mul_of_nonneg_right (abs_roundEven_sub_le (q / unit q)) positive.le
    rwa [one_mul, ← abs_of_pos positive, ← abs_mul, sub_mul, abs_of_pos positive,
      div_mul_cancel₀ q positive.ne'] at error
  have bound : |roundEven (q / unit q) * unit q| ≤ 1 + 2 * |q| := by
    have triangle := abs_sub_abs_le_abs_sub (roundEven (q / unit q) * unit q) q
    have size := unit_le q
    linarith
  have limit : (2 : ℚ) ^ 130 ≤ 2 ^ 1024 := pow_le_pow_right₀ one_le_two (by norm_num)
  have room : 1 + 2 * (2 : ℚ) ^ 128 ≤ 2 ^ 130 := by norm_num
  have below : |roundEven (q / unit q) * unit q| < 2 ^ 130 := by linarith
  rw [ofRat, if_neg]
  exact not_le.mpr (below.trans_le limit)

/-- Below the unit 1 nothing is lost. -/
theorem round_whole {n : ℕ} (small : n < 2 ^ 53) : roundEven (n / unit n) * unit n = n := by
  have magnitude : |(n : ℚ)| = n := abs_of_nonneg n.cast_nonneg
  obtain ⟨places, exponent⟩ : ∃ places : ℕ, max (-1074) (Int.log 2 (n : ℚ) - 52) = -places := by
    have log : Int.log 2 (n : ℚ) < 53 := by
      rw [Int.log_natCast]
      have bound : Nat.log 2 n < 53 := Nat.log_lt_of_lt_pow' (by norm_num) small
      omega
    exact ⟨(-max (-1074) (Int.log 2 (n : ℚ) - 52)).toNat, by omega⟩
  have inverse : unit n = ((2 : ℚ) ^ places)⁻¹ := by rw [unit, magnitude, exponent, zpow_neg, zpow_natCast]
  have scaled : (n : ℚ) / unit n = ((n * 2 ^ places : ℤ) : ℚ) := by
    rw [inverse, div_inv_eq_mul]
    push_cast
    rfl
  rw [scaled, roundEven_intCast, ← scaled, div_mul_cancel₀ _ (unit_pos _).ne']

/-- A fraction is above one half, or it is one half. -/
theorem half_iff {rest step : ℕ} (positive : 0 < step) :
    ((1 : ℚ) / 2 < rest / step ↔ step < 2 * rest) ∧ ((rest : ℚ) / step = 1 / 2 ↔ step = 2 * rest) := by
  have size : (0 : ℚ) < step := Nat.cast_pos.mpr positive
  constructor
  · rw [div_lt_div_iff₀ two_pos size, one_mul, mul_comm]
    exact_mod_cast Iff.rfl
  · rw [div_eq_div_iff size.ne' two_ne_zero, one_mul, mul_comm, eq_comm]
    exact_mod_cast Iff.rfl

/-- On natural numbers the two readings agree. -/
theorem ofRat_natCast {n : ℕ} (small : n < 2 ^ 128) : ofRat n = some (nearest n : ℚ) := by
  have magnitude : |(n : ℚ)| = n := abs_of_nonneg n.cast_nonneg
  rw [ofRat_eq n (by rw [magnitude]; exact_mod_cast small), Option.some_inj, nearest]
  split
  · next whole => exact round_whole whole
  · next large =>
    have log : 53 ≤ n.log2 := (Nat.le_log2 (by omega)).mpr (by omega)
    generalize scale : 2 ^ (n.log2 - 52) = step
    have positive : 0 < step := scale ▸ Nat.two_pow_pos _
    have own : unit n = step := by
      rw [unit, magnitude, Int.log_natCast, ← Nat.log2_eq_log_two, max_eq_right (by omega), ← scale]
      rw [show ((n.log2 : ℤ) - 52) = ((n.log2 - 52 : ℕ) : ℤ) by omega, zpow_natCast]
      push_cast
      rfl
    have floor : ⌊(n : ℚ) / step⌋ = ((n / step : ℕ) : ℤ) := by
      have whole := Rat.floor_intCast_div_natCast (n : ℤ) step
      rw [Int.cast_natCast] at whole
      exact whole.trans (Int.natCast_div n step).symm
    have fraction : (n : ℚ) / step - ((n / step : ℕ) : ℤ) = ((n % step : ℕ) : ℚ) / step := by
      have size : (step : ℚ) ≠ 0 := Nat.cast_ne_zero.mpr positive.ne'
      have division : ((step * (n / step) + n % step : ℕ) : ℚ) = n := congrArg _ (Nat.div_add_mod n step)
      rw [Nat.cast_add, Nat.cast_mul] at division
      rw [Int.cast_natCast, eq_div_iff size, sub_mul, div_mul_cancel₀ _ size]
      linarith
    obtain ⟨above, equal⟩ := @half_iff (n % step) step positive
    have odd : ((n / step : ℕ) : ℤ) % 2 = 1 ↔ n / step % 2 = 1 := by omega
    rw [own, roundEven, floor, fraction]
    simp only [above, equal, odd]
    split
    · rw [Int.cast_add, Int.cast_one, Int.cast_natCast, Nat.cast_add, Nat.cast_mul]
      ring
    · rw [Int.cast_natCast, Nat.cast_mul]

end PolarCloud.Float64
