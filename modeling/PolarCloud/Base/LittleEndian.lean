import Mathlib.Algebra.Order.Group.Nat
import PolarCloud.Base.Base64

/-! # Numbers in a fixed number of bytes, the lowest byte first -/

namespace PolarCloud.LittleEndian

def put : ℕ → ℕ → Bytes
  | 0, _ => []
  | n + 1, x => UInt8.ofNat (x % 256) :: put n (x / 256)

def get : Bytes → ℕ
  | [] => 0
  | byte :: rest => byte.toNat + 256 * get rest

@[simp] theorem length_put (n x : ℕ) : (put n x).length = n := by
  induction n generalizing x with
  | zero => rfl
  | succ n ih => rw [put, List.length_cons, ih]

/-- A number that fits comes back. -/
theorem get_put {n x : ℕ} (fits : x < 256 ^ n) : get (put n x) = x := by
  induction n generalizing x with
  | zero =>
    rw [pow_zero, Nat.lt_one_iff] at fits
    rw [fits]
    rfl
  | succ n ih =>
    have rest : x / 256 < 256 ^ n := by
      rw [Nat.div_lt_iff_lt_mul (by omega), ← pow_succ]
      exact fits
    have byte : (UInt8.ofNat (x % 256)).toNat = x % 256 := by
      rw [UInt8.toNat_ofNat']
      omega
    rw [put, get, ih rest, byte]
    omega

/-- Of a number that does not fit, the low bytes come back. -/
theorem get_put_mod (n x : ℕ) : get (put n x) = x % 256 ^ n := by
  induction n generalizing x with
  | zero => rw [pow_zero, Nat.mod_one, put, get]
  | succ n ih =>
    have byte : (UInt8.ofNat (x % 256)).toNat = x % 256 := by
      rw [UInt8.toNat_ofNat']
      omega
    rw [put, get, ih, byte, pow_succ', Nat.mod_mul]

theorem get_lt (bytes : Bytes) : get bytes < 256 ^ bytes.length := by
  induction bytes with
  | nil => exact Nat.one_pos
  | cons byte rest ih =>
    have low : byte.toNat < 256 := byte.toNat_lt
    rw [get, List.length_cons, pow_succ]
    omega

/-- Bytes come back from their number. -/
theorem put_get (bytes : Bytes) : put bytes.length (get bytes) = bytes := by
  induction bytes with
  | nil => rfl
  | cons byte rest ih =>
    have low : byte.toNat < 256 := byte.toNat_lt
    have first : (byte.toNat + 256 * get rest) % 256 = byte.toNat := by omega
    have left : (byte.toNat + 256 * get rest) / 256 = get rest := by omega
    rw [get, List.length_cons, put, first, left, ih, UInt8.ofNat_toNat]

/-- A highest byte of zero adds nothing. -/
theorem get_concat_zero (bytes : Bytes) : get (bytes ++ [0]) = get bytes := by
  induction bytes with
  | nil => rfl
  | cons byte rest ih => rw [List.cons_append, get, get, ih]

theorem le_get_concat (bytes : Bytes) {byte : UInt8} (positive : byte ≠ 0) :
    256 ^ bytes.length ≤ get (bytes ++ [byte]) := by
  induction bytes with
  | nil =>
    have : byte.toNat ≠ 0 := fun zero => positive (UInt8.toNat_inj.mp zero)
    rw [List.nil_append, get, List.length_nil, pow_zero]
    omega
  | cons first rest ih =>
    rw [List.cons_append, get, List.length_cons, pow_succ]
    omega

end PolarCloud.LittleEndian
