import Mathlib.Data.String.Basic
import Mathlib.Data.UInt

/-! # Bytes read as text

Text is made of any bytes: what is no character there is replaced byte by byte. The bytes of the text are the bytes that
were read exactly when these were the bytes of some text.
-/

namespace PolarCloud.Utf8

def bytes (text : List Char) : List UInt8 := text.flatMap String.utf8EncodeChar

private def charsFuel : ℕ → List UInt8 → List Char
  | _, [] => []
  | 0, _ => []
  | fuel + 1, byte :: rest =>
      match (byte :: rest).toByteArray.utf8DecodeChar? 0 with
      | some char => char :: charsFuel fuel ((byte :: rest).drop char.utf8Size)
      | none => '\uFFFD' :: charsFuel fuel rest

/-- The characters that are read, with a replacement for each byte of no character. -/
def chars (read : List UInt8) : List Char := charsFuel read.length read

private theorem charsFuel_bytes (text : List Char) {fuel : ℕ} (enough : (bytes text).length ≤ fuel) :
    charsFuel fuel (bytes text) = text := by
  induction text generalizing fuel with
  | nil => cases fuel <;> rfl
  | cons char text ih =>
    have first : bytes (char :: text) = String.utf8EncodeChar char ++ bytes text := rfl
    have length := String.length_utf8EncodeChar char
    have positive := char.utf8Size_pos
    rw [first, List.length_append, length] at enough
    cases list : String.utf8EncodeChar char ++ bytes text with
    | nil =>
      have none := congrArg List.length list
      rw [List.length_append, length, List.length_nil] at none
      omega
    | cons byte rest =>
      cases fuel with
      | zero => omega
      | succ fuel =>
        rw [first, list, charsFuel, ← list, List.toByteArray_append, ByteArray.utf8DecodeChar?_utf8EncodeChar_append]
        dsimp only
        rw [← length, List.drop_left, ih (by omega)]

/-- Text is read from its own bytes. -/
theorem chars_bytes (text : List Char) : chars (bytes text) = text := charsFuel_bytes text (Nat.le_refl _)

/-- Bytes that are the bytes of some text. -/
def Valid (read : List UInt8) : Prop := ∃ text, bytes text = read

theorem bytes_chars_iff {read : List UInt8} : bytes (chars read) = read ↔ Valid read := by
  constructor
  · intro same
    exact ⟨chars read, same⟩
  · rintro ⟨text, rfl⟩
    rw [chars_bytes]

end PolarCloud.Utf8
