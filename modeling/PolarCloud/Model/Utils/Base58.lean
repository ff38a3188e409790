import PolarCloud.Base.BigEndian

/-! # Base 58

Bytes are written as the digits of one number to the base 58, each of them as a character, with a one for every zero
byte in front. A text with a check has a version before the bytes and the first four bytes of a hash behind them.
-/

namespace PolarCloud.Base58

def alphabet : List UInt8 :=
  "123456789ABCDEFGHJKLMNPQRSTUVWXYZabcdefghijkmnopqrstuvwxyz".toList.map fun char => UInt8.ofNat char.toNat

def alphabetIdx0 : UInt8 := UInt8.ofNat '1'.toNat

/-- The places of the characters in the alphabet. -/
def b58 : List UInt8 :=
  [255, 255, 255, 255, 255, 255, 255, 255, 255, 255, 255, 255, 255, 255, 255, 255,
    255, 255, 255, 255, 255, 255, 255, 255, 255, 255, 255, 255, 255, 255, 255, 255,
    255, 255, 255, 255, 255, 255, 255, 255, 255, 255, 255, 255, 255, 255, 255, 255,
    255, 0, 1, 2, 3, 4, 5, 6, 7, 8, 255, 255, 255, 255, 255, 255,
    255, 9, 10, 11, 12, 13, 14, 15, 16, 255, 17, 18, 19, 20, 21, 255,
    22, 23, 24, 25, 26, 27, 28, 29, 30, 31, 32, 255, 255, 255, 255, 255,
    255, 33, 34, 35, 36, 37, 38, 39, 40, 41, 42, 43, 255, 44, 45, 46,
    47, 48, 49, 50, 51, 52, 53, 54, 55, 56, 57, 255, 255, 255, 255, 255,
    255, 255, 255, 255, 255, 255, 255, 255, 255, 255, 255, 255, 255, 255, 255, 255,
    255, 255, 255, 255, 255, 255, 255, 255, 255, 255, 255, 255, 255, 255, 255, 255,
    255, 255, 255, 255, 255, 255, 255, 255, 255, 255, 255, 255, 255, 255, 255, 255,
    255, 255, 255, 255, 255, 255, 255, 255, 255, 255, 255, 255, 255, 255, 255, 255,
    255, 255, 255, 255, 255, 255, 255, 255, 255, 255, 255, 255, 255, 255, 255, 255,
    255, 255, 255, 255, 255, 255, 255, 255, 255, 255, 255, 255, 255, 255, 255, 255,
    255, 255, 255, 255, 255, 255, 255, 255, 255, 255, 255, 255, 255, 255, 255, 255,
    255, 255, 255, 255, 255, 255, 255, 255, 255, 255, 255, 255, 255, 255, 255, 255]

/-- From the last character on, the number that is read so far, and what the next character counts. -/
def decodeFrom : Bytes → ℕ → ℕ → Option ℕ
  | [], answer, _ => some answer
  | char :: rest, answer, j =>
      let tmp := b58.getD char.toNat 255
      if tmp = 255 then none else decodeFrom rest (answer + j * tmp.toNat) (j * 58)

def decode (b : Bytes) : Bytes :=
  match decodeFrom b.reverse 0 1 with
  | none => []
  | some answer => List.replicate (b.takeWhile (· = alphabetIdx0)).length 0 ++ BigEndian.bytes answer

/-- The characters of the digits, the lowest first. -/
def encodeDigits (x : ℕ) (answer : Bytes) : Bytes :=
  if 0 < x then encodeDigits (x / 58) (answer ++ [alphabet.getD (x % 58) 0]) else answer
termination_by x

def encode (b : Bytes) : Bytes :=
  (encodeDigits (BigEndian.number b) [] ++ List.replicate (b.takeWhile (· = 0)).length alphabetIdx0).reverse

/-- A hash of 32 bytes. -/
abbrev Sum256 := Bytes → { digest : Bytes // digest.length = 32 }

inductive Err where
  | checksum
  | invalidFormat
deriving DecidableEq, Repr

section Check

variable (sum256 : Sum256)

/-- The first four bytes of the hash of the hash. -/
def checksum (input : Bytes) : Bytes := (sum256 (sum256 input).1).1.take 4

def checkEncode (input : Bytes) (version : UInt8) : Bytes :=
  let b := version :: input
  encode (b ++ checksum sum256 b)

def checkEncodeExpand (input : Bytes) (expandversion version : UInt8) : Bytes :=
  let b := expandversion :: version :: input
  encode (b ++ checksum sum256 b)

def checkDecode (input : Bytes) : Except Err (Bytes × UInt8) :=
  let decoded := decode input
  if decoded.length < 5 then .error .invalidFormat
  else
    let version := decoded.getD 0 0
    let cksum := decoded.drop (decoded.length - 4)
    if checksum sum256 (decoded.take (decoded.length - 4)) ≠ cksum then .error .checksum
    else .ok ((decoded.take (decoded.length - 4)).drop 1, version)

def checkDecodeExpand (input : Bytes) : Except Err (Bytes × UInt8 × UInt8) :=
  let decoded := decode input
  if decoded.length < 5 then .error .invalidFormat
  else
    let expandversion := decoded.getD 0 0
    let version := decoded.getD 1 0
    let cksum := decoded.drop (decoded.length - 4)
    if checksum sum256 (decoded.take (decoded.length - 4)) ≠ cksum then .error .checksum
    else .ok ((decoded.take (decoded.length - 4)).drop 1, expandversion, version)

end Check

end PolarCloud.Base58
