import PolarCloud.Base.Json

/-! # Hashing and multihash addresses

An address is a multihash: the varint of a code, the varint of the digest's length, the digest.
The two hash functions and the reading of byte strings that are no text of ours belong to the
libraries the program links; nothing is assumed about them here.
-/

namespace PolarCloud

/-- The library functions the program calls and whose code is not part of it. -/
structure Runtime where
  /-- `Hash_SHA3_256` -/
  sha3 : Bytes → Bytes
  /-- RIPEMD-160 of SHA-256, `HashPubKey` -/
  hash160 : Bytes → Bytes
  /-- how the decoder reads a byte string that no encoder of the program wrote -/
  unmarshal : Bytes → Option Json

namespace Utils

/-- Ten bytes hold every unsigned 64-bit number. -/
def maxVarintLen64 : ℕ := 10

private def putUvarintFuel : ℕ → ℕ → Bytes
  | 0, _ => []
  | fuel + 1, x =>
      if x < 0x80 then [UInt8.ofNat x] else UInt8.ofNat (x % 0x80 + 0x80) :: putUvarintFuel fuel (x / 0x80)

def putUvarint (x : UInt64) : Bytes := putUvarintFuel maxVarintLen64 x.toNat

private def uvarintFrom (i acc : ℕ) : Bytes → Option (ℕ × Bytes)
  | [] => none
  | b :: rest =>
      if i = maxVarintLen64 then none
      else if b < 0x80 then
        if i = 9 ∧ 1 < b then none else some (acc + b.toNat * 2 ^ (7 * i), rest)
      else uvarintFrom (i + 1) (acc + (b.toNat - 0x80) * 2 ^ (7 * i)) rest

/-- Read a varint; a short buffer and an overlong number both fail. -/
def uvarint (buf : Bytes) : Option (ℕ × Bytes) := uvarintFrom 0 0 buf

private theorem uvarintFrom_put {i fuel acc x : ℕ} (rest : Bytes) (places : i + fuel + 1 = maxVarintLen64)
    (fits : x < 2 ^ (64 - 7 * i)) :
    uvarintFrom i acc (putUvarintFuel (fuel + 1) x ++ rest) = some (acc + x * 2 ^ (7 * i), rest) := by
  rw [maxVarintLen64] at places
  induction fuel generalizing i acc x with
  | zero =>
    have last : i = 9 := by omega
    subst last
    have small : x = 0 ∨ x = 1 := by omega
    rcases small with rfl | rfl
    · rfl
    · rfl
  | succ fuel ih =>
    rw [putUvarintFuel]
    split
    · next small =>
      have byte : (UInt8.ofNat x).toNat = x := by
        rw [UInt8.toNat_ofNat']
        omega
      have below : UInt8.ofNat x < 0x80 := by
        rw [UInt8.lt_iff_toNat_lt, byte]
        exact small
      rw [List.singleton_append, uvarintFrom, if_neg (by rw [maxVarintLen64]; omega), if_pos below,
        if_neg (by omega), byte]
    · next large =>
      have byte : (UInt8.ofNat (x % 0x80 + 0x80)).toNat = x % 0x80 + 0x80 := by
        rw [UInt8.toNat_ofNat']
        omega
      have above : ¬ UInt8.ofNat (x % 0x80 + 0x80) < 0x80 := by
        rw [UInt8.lt_iff_toNat_lt, byte]
        exact Nat.not_lt.mpr (Nat.le_add_left _ _)
      have shorter : x / 0x80 < 2 ^ (64 - 7 * (i + 1)) := by
        rw [Nat.div_lt_iff_lt_mul (by omega), show 0x80 = 2 ^ 7 from rfl, ← pow_add]
        rwa [show 64 - 7 * (i + 1) + 7 = 64 - 7 * i by omega]
      rw [List.cons_append, uvarintFrom, if_neg (by rw [maxVarintLen64]; omega), if_neg above, byte,
        ih (by omega) shorter, Nat.mul_add, pow_add]
      congr 2
      have split := Nat.div_add_mod x 0x80
      rw [Nat.add_sub_cancel]
      calc
        acc + x % 0x80 * 2 ^ (7 * i) + x / 0x80 * (2 ^ (7 * i) * 2 ^ (7 * 1)) =
            acc + (0x80 * (x / 0x80) + x % 0x80) * 2 ^ (7 * i) := by grind
        _ = acc + x * 2 ^ (7 * i) := by rw [split]

/-- A varint reads as the number it was written for. -/
theorem uvarint_putUvarint (x : UInt64) (rest : Bytes) :
    uvarint (putUvarint x ++ rest) = some (x.toNat, rest) := by
  have read := @uvarintFrom_put 0 9 0 x.toNat rest rfl x.toNat_lt
  rw [Nat.zero_add, Nat.mul_zero, pow_zero, Nat.mul_one] at read
  exact read

private theorem uvarintFrom_length {i acc x : ℕ} {buf rest : Bytes} (read : uvarintFrom i acc buf = some (x, rest)) :
    rest.length < buf.length := by
  induction buf generalizing i acc with
  | nil => cases read
  | cons b buf ih =>
    rw [uvarintFrom] at read
    split_ifs at read
    · cases read
      exact Nat.lt_succ_self _
    · exact (ih read).trans (Nat.lt_succ_self _)

/-- A number takes at least one byte. -/
theorem uvarint_length {x : ℕ} {buf rest : Bytes} (read : uvarint buf = some (x, rest)) : rest.length < buf.length :=
  uvarintFrom_length read

/-- The registered hash codes. -/
def codes : List ℕ :=
  [0x00, 0x11, 0x12, 0x13, 0x17, 0x16, 0x15, 0x14, 0x56, 0x22, 0x1A, 0x1B, 0x1C, 0x1D, 0x18, 0x19]

def appCode (code : ℕ) : Bool := code < 0x10

/-- Codes of the application range, the registered ones and the two blake2 ranges. -/
def validCode (code : ℕ) : Bool :=
  appCode code || codes.contains code || (0xb201 ≤ code && code ≤ 0xb240) ||
    (0xb241 ≤ code && code ≤ 0xb260)

structure DecodedMultihash where
  code : ℕ
  length : ℕ
  digest : Bytes
deriving DecidableEq, Repr

/-- Read a multihash; the digest must have exactly the declared length. -/
def decode (buf : Bytes) : Option DecodedMultihash :=
  if buf.length < 3 then none
  else do
    let (code, buf) ← uvarint buf
    let (length, buf) ← uvarint buf
    if 2 ^ 31 - 1 < length then none
    else if buf.length ≠ length then none
    else some { code, length, digest := buf }

def encode (buf : Bytes) (code : UInt64) : Option Bytes :=
  if validCode code.toNat then some (putUvarint code ++ putUvarint (UInt64.ofNat buf.length) ++ buf)
  else none

/-- Accept a buffer that reads as a multihash with a valid code. -/
def cast (buf : Bytes) : Option Bytes := do
  let dm ← decode buf
  if validCode dm.code then some buf else none

/-- A multihash reads as itself. -/
theorem cast_self {buf result : Bytes} (read : cast buf = some result) : result = buf := by
  unfold cast at read
  cases decoded : decode buf with
  | none =>
    rw [decoded] at read
    cases read
  | some dm =>
    rw [decoded, Option.bind_eq_bind, Option.bind_some] at read
    split at read
    · exact (Option.some.inj read).symm
    · cases read

example : decode ([0x00, 0x02] ++ [7, 9]) = some { code := 0, length := 2, digest := [7, 9] } := by decide

end Utils

end PolarCloud
