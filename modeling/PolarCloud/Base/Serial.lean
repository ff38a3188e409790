import Mathlib.Algebra.Order.Ring.Int
import Mathlib.Algebra.Order.Ring.Nat

/-! # Serial numbers

A counter of 32 bits stands for a number that may have grown beyond them. The sign of a difference, read as a signed
number, tells which of two counters is ahead as long as the numbers behind them are less than half of the range
apart.
-/

namespace PolarCloud.Serial

/-- The signed difference of two counters. -/
def diff (later earlier : UInt32) : ℤ := (later - earlier).toInt32.toInt

theorem ofNat_succ (n : ℕ) : UInt32.ofNat n + 1 = UInt32.ofNat (n + 1) := (UInt32.ofNat_add n 1).symm

theorem toNat_ofNat_of_lt {n : ℕ} (small : n < 2 ^ 32) : (UInt32.ofNat n).toNat = n :=
  UInt32.toNat_ofNat_of_lt small

theorem toNat_ofInt_of_lt {n : ℤ} (positive : 0 ≤ n) (small : n < 2 ^ 32) : (UInt32.ofInt n).toNat = n.toNat := by
  rw [UInt32.ofInt, toNat_ofNat_of_lt (by omega)]
  omega

/-- Counters tell numbers apart that fit. -/
theorem ofNat_inj {a b : ℕ} (smallA : a < 2 ^ 32) (smallB : b < 2 ^ 32) :
    UInt32.ofNat a = UInt32.ofNat b ↔ a = b := by
  constructor
  · intro same
    have := congrArg UInt32.toNat same
    rwa [toNat_ofNat_of_lt smallA, toNat_ofNat_of_lt smallB] at this
  · rintro rfl
    rfl

/-- Numbers that are less than half of the range apart have the difference of their counters. -/
theorem diff_ofNat {a b : ℕ} (ahead : (a : ℤ) - b < 2 ^ 31) (behind : -2 ^ 31 ≤ (a : ℤ) - b) :
    diff (UInt32.ofNat a) (UInt32.ofNat b) = (a : ℤ) - b := by
  have value : diff (UInt32.ofNat a) (UInt32.ofNat b) = ((a : ℤ) - b).bmod (2 ^ 32) := by
    change (BitVec.ofNat 32 a - BitVec.ofNat 32 b).toInt = _
    rw [← BitVec.ofInt_natCast, ← BitVec.ofInt_natCast, BitVec.toInt_sub, BitVec.toInt_ofInt, BitVec.toInt_ofInt,
      Int.bmod_sub_bmod, Int.sub_bmod_bmod]
  rw [value]
  exact Int.bmod_eq_of_le (by omega) (by omega)

/-- How far a counter is ahead of another. -/
def ahead (later earlier : UInt32) : ℕ := (later - earlier).toNat

theorem diff_eq (later earlier : UInt32) : diff later earlier =
    if ahead later earlier < 2 ^ 31 then (ahead later earlier : ℤ) else ahead later earlier - 2 ^ 32 := by
  have value : diff later earlier = (later.toBitVec - earlier.toBitVec).toInt := rfl
  have size : ahead later earlier = (later.toBitVec - earlier.toBitVec).toNat := rfl
  rw [value, size, BitVec.toInt_eq_toNat_cond]
  split_ifs <;> omega

/-- The difference of two counters that are ahead of a third. -/
theorem diff_of_ahead {a b base : UInt32} (nearA : ahead a base < 2 ^ 31) (nearB : ahead b base < 2 ^ 31) :
    diff a b = (ahead a base : ℤ) - ahead b base := by
  have shift : a - b = (a - base) - (b - base) := by grind
  have same : diff a b = diff (.ofNat (ahead a base)) (.ofNat (ahead b base)) := by
    rw [diff, diff, ahead, ahead, UInt32.ofNat_toNat, UInt32.ofNat_toNat, shift]
  rw [same]
  exact diff_ofNat (by omega) (by omega)

theorem ahead_add (base gap : UInt32) : ahead (base + gap) base = gap.toNat := by
  rw [ahead, UInt32.add_comm, UInt32.add_sub_cancel]

theorem ahead_inj {a b base : UInt32} : ahead a base = ahead b base ↔ a = b := by
  constructor
  · intro same
    have gaps : a - base = b - base := UInt32.toNat_inj.mp same
    rw [← UInt32.sub_add_cancel a base, gaps, UInt32.sub_add_cancel]
  · rintro rfl
    rfl

theorem ahead_succ {later earlier : UInt32} (some : 0 < ahead later earlier) :
    ahead later (earlier + 1) = ahead later earlier - 1 := by
  have shift : later - (earlier + 1) = later - earlier - 1 := by grind
  have one : (1 : UInt32) ≤ later - earlier := by
    rw [UInt32.le_iff_toNat_le]
    exact some
  rw [ahead, shift, UInt32.toNat_sub_of_le _ _ one]
  rfl

end PolarCloud.Serial
