import Mathlib.Tactic.Common

/-! # Standard base64 with padding

Byte strings travel inside text as groups of four letters for three bytes, the last group padded
with equal signs. The reader skips line breaks, ignores the bits that padding stands for, and
refuses everything else. Reading what was written returns the bytes.
-/

namespace PolarCloud

abbrev Bytes := List UInt8

namespace Base64

/-- The letter for a six-bit group. -/
def letter (group : ℕ) : Char :=
  if group < 26 then Char.ofNat (group + 65)
  else if group < 52 then Char.ofNat (group + 71)
  else if group < 62 then Char.ofNat (group - 4)
  else if group = 62 then '+'
  else '/'

/-- The six-bit group of a letter; every other character has none. -/
def group? (char : Char) : Option ℕ :=
  let code := char.toNat
  if 65 ≤ code ∧ code < 91 then some (code - 65)
  else if 97 ≤ code ∧ code < 123 then some (code - 71)
  else if 48 ≤ code ∧ code < 58 then some (code + 4)
  else if char = '+' then some 62
  else if char = '/' then some 63
  else none

def encode : Bytes → List Char
  | [] => []
  | [a] => [letter (a.toNat / 4), letter (a.toNat % 4 * 16), '=', '=']
  | [a, b] =>
      [letter (a.toNat / 4), letter (a.toNat % 4 * 16 + b.toNat / 16), letter (b.toNat % 16 * 4), '=']
  | a :: b :: c :: rest =>
      letter (a.toNat / 4) :: letter (a.toNat % 4 * 16 + b.toNat / 16) ::
        letter (b.toNat % 16 * 4 + c.toNat / 64) :: letter (c.toNat % 64) :: encode rest

/-- Read groups of four; padding may only close the last group. -/
def decodeGroups : List Char → Option Bytes
  | [] => some []
  | w :: x :: y :: z :: rest =>
      if z = '=' then
        if rest ≠ [] then none
        else if y = '=' then do
          let p ← group? w
          let q ← group? x
          some [UInt8.ofNat (p * 4 + q / 16)]
        else do
          let p ← group? w
          let q ← group? x
          let r ← group? y
          some [UInt8.ofNat (p * 4 + q / 16), UInt8.ofNat (q % 16 * 16 + r / 4)]
      else do
        let p ← group? w
        let q ← group? x
        let r ← group? y
        let s ← group? z
        let bytes ← decodeGroups rest
        some (UInt8.ofNat (p * 4 + q / 16) :: UInt8.ofNat (q % 16 * 16 + r / 4) ::
          UInt8.ofNat (r % 4 * 64 + s) :: bytes)
  | _ => none

/-- Line breaks are not part of the data. -/
def decode (text : List Char) : Option Bytes :=
  decodeGroups (text.filter fun char => char ≠ '\r' ∧ char ≠ '\n')

private theorem letter_spec : ∀ group < 64, group? (letter group) = some group ∧
    letter group ≠ '=' ∧ letter group ≠ '\r' ∧ letter group ≠ '\n' := by decide

@[simp] private theorem group?_letter {group : ℕ} (bound : group < 64) :
    group? (letter group) = some group := (letter_spec group bound).1

private theorem letter_ne_pad {group : ℕ} (bound : group < 64) : letter group ≠ '=' :=
  (letter_spec group bound).2.1

private theorem ofNat_toNat_eq {a : UInt8} {n : ℕ} (same : n = a.toNat) : UInt8.ofNat n = a := by
  rw [same, UInt8.ofNat_toNat]

private theorem encode_plain (bytes : Bytes) :
    ∀ char ∈ encode bytes, char ≠ '\r' ∧ char ≠ '\n' := by
  have plain (group : ℕ) (bound : group < 64) : letter group ≠ '\r' ∧ letter group ≠ '\n' :=
    (letter_spec group bound).2.2
  induction bytes using encode.induct with
  | case1 => simp [encode]
  | case2 a =>
    have := a.toNat_lt
    simp only [encode, List.forall_mem_cons, List.not_mem_nil, false_implies, implies_true, and_true]
    exact ⟨plain _ (by omega), plain _ (by omega), by decide, by decide⟩
  | case3 a b =>
    have := a.toNat_lt
    have := b.toNat_lt
    simp only [encode, List.forall_mem_cons, List.not_mem_nil, false_implies, implies_true, and_true]
    exact ⟨plain _ (by omega), plain _ (by omega), plain _ (by omega), by decide⟩
  | case4 a b c rest ih =>
    have := a.toNat_lt
    have := b.toNat_lt
    have := c.toNat_lt
    simp only [encode, List.forall_mem_cons]
    exact ⟨plain _ (by omega), plain _ (by omega), plain _ (by omega), plain _ (by omega), ih⟩

private theorem decodeGroups_encode (bytes : Bytes) : decodeGroups (encode bytes) = some bytes := by
  induction bytes using encode.induct with
  | case1 => rfl
  | case2 a =>
    have := a.toNat_lt
    rw [encode, decodeGroups, if_pos rfl, if_neg (by simp), if_pos rfl,
      group?_letter (by omega), group?_letter (by omega)]
    simp only [Option.bind_eq_bind, Option.bind_some, Option.some.injEq, List.cons.injEq, and_true]
    exact ofNat_toNat_eq (by omega)
  | case3 a b =>
    have := a.toNat_lt
    have := b.toNat_lt
    rw [encode, decodeGroups, if_pos rfl, if_neg (by simp), if_neg (letter_ne_pad (by omega)),
      group?_letter (by omega), group?_letter (by omega), group?_letter (by omega)]
    simp only [Option.bind_eq_bind, Option.bind_some, Option.some.injEq, List.cons.injEq, and_true]
    exact ⟨ofNat_toNat_eq (by omega), ofNat_toNat_eq (by omega)⟩
  | case4 a b c rest ih =>
    have := a.toNat_lt
    have := b.toNat_lt
    have := c.toNat_lt
    rw [encode, decodeGroups, if_neg (letter_ne_pad (by omega)), group?_letter (by omega),
      group?_letter (by omega), group?_letter (by omega), group?_letter (by omega), ih]
    simp only [Option.bind_eq_bind, Option.bind_some, Option.some.injEq, List.cons.injEq, and_true]
    exact ⟨ofNat_toNat_eq (by omega), ofNat_toNat_eq (by omega), ofNat_toNat_eq (by omega)⟩

/-- Reading what was written returns the bytes. -/
theorem decode_encode (bytes : Bytes) : decode (encode bytes) = some bytes := by
  rw [decode, List.filter_eq_self.mpr, decodeGroups_encode]
  intro char member
  simpa using encode_plain bytes char member

end Base64

end PolarCloud
