import PolarCloud.Base.Numerals
import PolarCloud.Model.Utils.Base58

/-! # Bytes and their texts to the base 58

The texts over the alphabet are the bytes, written another way. A text with a check is accepted exactly when it is the
text of what comes out of it.
-/

namespace PolarCloud.Base58

open Numerals

theorem large : 1 < 58 := by decide

/-- The digits to the base 58. -/
abbrev digits : Numerals (Fin 58) := positional large

/-- The characters of the alphabet, as bytes. -/
def codes : List UInt8 :=
  [49, 50, 51, 52, 53, 54, 55, 56, 57, 65, 66, 67, 68, 69, 70, 71, 72, 74, 75, 76, 77, 78, 80, 81,
    82, 83, 84, 85, 86, 87, 88, 89, 90, 97, 98, 99, 100, 101, 102, 103, 104, 105, 106, 107, 109, 110, 111, 112,
    113, 114, 115, 116, 117, 118, 119, 120, 121, 122]

theorem alphabet_eq : alphabet = codes := by decide +kernel

/-- The character of a digit. -/
def charOf (digit : Fin 58) : UInt8 := codes.getD digit 0

theorem b58_charOf (digit : Fin 58) : b58.getD (charOf digit).toNat 255 = UInt8.ofNat digit := by
  revert digit
  decide +kernel

theorem toNat_ofNat_digit (digit : Fin 58) : (UInt8.ofNat digit).toNat = digit := by
  rw [UInt8.toNat_ofNat', Nat.mod_eq_of_lt (digit.isLt.trans (by decide))]

theorem charOf_inj {digit other : Fin 58} (same : charOf digit = charOf other) : digit = other := by
  have places := b58_charOf digit
  rw [same, b58_charOf other] at places
  have values := congrArg UInt8.toNat places
  rw [toNat_ofNat_digit, toNat_ofNat_digit] at values
  exact Fin.ext values.symm

theorem mem_alphabet_iff {char : UInt8} : char ∈ alphabet ↔ ∃ digit, charOf digit = char := by
  rw [alphabet_eq]
  constructor
  · intro listed
    obtain ⟨place, inside, found⟩ := List.mem_iff_getElem.mp listed
    refine ⟨⟨place, inside⟩, ?_⟩
    rw [charOf, List.getD_eq_getElem?_getD, List.getElem?_eq_getElem inside, Option.getD_some, found]
  · rintro ⟨digit, rfl⟩
    have inside : digit.val < codes.length := digit.isLt
    rw [charOf, List.getD_eq_getElem?_getD, List.getElem?_eq_getElem inside, Option.getD_some]
    exact List.getElem_mem inside

theorem exists_digit (char : UInt8) (placed : b58.getD char.toNat 255 ≠ 255) : ∃ digit, charOf digit = char := by
  -- every place in the table is that of its character
  have each : ∀ n : Fin 256, b58.getD n 255 ≠ 255 →
      ∃ small : (b58.getD n 255).toNat < 58, (charOf ⟨_, small⟩).toNat = n := by
    decide +kernel
  obtain ⟨small, same⟩ := each ⟨char.toNat, char.toNat_lt⟩ placed
  exact ⟨_, UInt8.toNat_inj.mp same⟩

theorem placed_iff {char : UInt8} : b58.getD char.toNat 255 ≠ 255 ↔ char ∈ alphabet := by
  rw [mem_alphabet_iff]
  constructor
  · exact exists_digit char
  · rintro ⟨digit, rfl⟩ last
    have value := toNat_ofNat_digit digit
    rw [← b58_charOf, last] at value
    have small := digit.isLt
    rw [← value] at small
    exact absurd small (by decide)

theorem encodeDigits_eq (x : ℕ) (answer : Bytes) :
    encodeDigits x answer = answer ++ ((Nat.digits 58 x).map (Fin.ofNat 58)).map charOf := by
  induction x using Nat.strongRecOn generalizing answer with
  | ind x ih =>
    rw [encodeDigits]
    split
    · next positive =>
      have char : charOf (Fin.ofNat 58 (x % 58)) = alphabet.getD (x % 58) 0 := by
        rw [charOf, alphabet_eq, Fin.val_ofNat, Nat.mod_mod]
      rw [ih (x / 58) (by omega), Nat.digits_def' large positive, List.map_cons, List.map_cons, char,
        List.append_assoc, List.singleton_append]
    · next zero =>
      obtain rfl : x = 0 := by omega
      simp

/-- The characters of a text are those of the digits of the bytes. -/
theorem encode_eq (b : Bytes) : encode b = (bytes.convert digits b).map charOf := by
  rw [encode, encodeDigits_eq, List.nil_append, List.reverse_append, List.reverse_replicate, ← List.map_reverse,
    Numerals.convert, List.map_append, List.map_replicate]
  rfl

theorem decodeFrom_map (list : List (Fin 58)) (answer j : ℕ) :
    decodeFrom (list.map charOf) answer j = some (answer + j * Nat.ofDigits 58 (list.map Fin.val)) := by
  induction list generalizing answer j with
  | nil => simp [decodeFrom]
  | cons digit rest ih =>
    have place := b58_charOf digit
    have other : UInt8.ofNat digit ≠ 255 := place ▸ placed_iff.mpr (mem_alphabet_iff.mpr ⟨digit, rfl⟩)
    rw [List.map_cons, decodeFrom, place]
    simp only [if_neg other]
    rw [ih, toNat_ofNat_digit, List.map_cons, Nat.ofDigits_cons]
    congr 1
    ring

/-- A text over the alphabet has the bytes of its digits. -/
theorem decode_map (list : List (Fin 58)) : decode (list.map charOf) = digits.convert bytes list := by
  rw [decode, ← List.map_reverse, decodeFrom_map, Nat.zero_add, Nat.one_mul]
  have ones : ((fun char => decide (char = alphabetIdx0)) ∘ charOf) = fun digit => decide (digit = 0) := by
    funext digit
    have first : alphabetIdx0 = charOf 0 := by decide
    rw [Function.comp_apply, first, decide_eq_decide]
    exact ⟨charOf_inj, congrArg charOf⟩
  simp only
  rw [List.takeWhile_map, List.length_map, ones]
  rfl

theorem decodeFrom_eq_none {text : Bytes} {char : UInt8} (member : char ∈ text) (other : char ∉ alphabet)
    (answer j : ℕ) : decodeFrom text answer j = none := by
  induction text generalizing answer j with
  | nil => cases member
  | cons first rest ih =>
    rw [decodeFrom]
    split
    · rfl
    · next placed =>
      have inside : first ∈ alphabet := placed_iff.mp placed
      obtain rfl | later := List.mem_cons.mp member
      · exact absurd inside other
      · exact ih later _ _

/-- A text with any other character has no bytes. -/
theorem decode_eq_nil {text : Bytes} {char : UInt8} (member : char ∈ text) (other : char ∉ alphabet) :
    decode text = [] := by
  rw [decode, decodeFrom_eq_none (List.mem_reverse.mpr member) other]

theorem decode_encode (b : Bytes) : decode (encode b) = b := by
  rw [encode_eq, decode_map, convert_convert]

theorem exists_digits {text : Bytes} (spelled : ∀ char ∈ text, char ∈ alphabet) :
    ∃ list : List (Fin 58), list.map charOf = text := by
  induction text with
  | nil => exact ⟨[], rfl⟩
  | cons char rest ih =>
    obtain ⟨first, others⟩ := List.forall_mem_cons.mp spelled
    obtain ⟨digit, rfl⟩ := mem_alphabet_iff.mp first
    obtain ⟨list, rfl⟩ := ih others
    exact ⟨digit :: list, rfl⟩

theorem encode_decode {text : Bytes} (spelled : ∀ char ∈ text, char ∈ alphabet) : encode (decode text) = text := by
  obtain ⟨list, rfl⟩ := exists_digits spelled
  rw [decode_map, encode_eq, convert_convert]

theorem encode_spelled (b : Bytes) : ∀ char ∈ encode b, char ∈ alphabet := by
  intro char member
  rw [encode_eq] at member
  obtain ⟨digit, -, rfl⟩ := List.mem_map.mp member
  exact mem_alphabet_iff.mpr ⟨digit, rfl⟩

theorem encode_eq_iff {b text : Bytes} : encode b = text ↔ decode text = b ∧ ∀ char ∈ text, char ∈ alphabet := by
  constructor
  · rintro rfl
    exact ⟨decode_encode b, encode_spelled b⟩
  · rintro ⟨rfl, spelled⟩
    exact encode_decode spelled

/-- A text is that of some bytes exactly when it has these bytes, and all its characters are of the alphabet; a text
with any other character has no bytes. -/
theorem text_iff (b text : Bytes) : (encode b = text ↔ decode text = b ∧ ∀ char ∈ text, char ∈ alphabet) ∧
    ((∃ char ∈ text, char ∉ alphabet) → decode text = []) :=
  ⟨encode_eq_iff, fun ⟨_, member, other⟩ => decode_eq_nil member other⟩

section Check

variable (sum256 : Sum256)

theorem length_checksum (input : Bytes) : (checksum sum256 input).length = 4 := by
  rw [checksum, List.length_take, (sum256 _).2]
  rfl

/-- A text whose bytes are some bytes and their check. -/
theorem encode_append_iff {text body : Bytes} (some_ : body ≠ []) :
    text = encode (body ++ checksum sum256 body) ↔ 5 ≤ (decode text).length ∧
      checksum sum256 ((decode text).take ((decode text).length - 4)) = (decode text).drop ((decode text).length - 4) ∧
        (decode text).take ((decode text).length - 4) = body := by
  have four := length_checksum sum256 body
  have length := List.length_pos_of_ne_nil some_
  constructor
  · rintro rfl
    rw [decode_encode, List.length_append, four, Nat.add_sub_cancel, List.take_left, List.drop_left]
    exact ⟨by omega, rfl, rfl⟩
  · rintro ⟨long, same, rfl⟩
    rw [same, List.take_append_drop]
    refine (encode_decode fun char member => ?_).symm
    refine not_not.mp fun other => ?_
    rw [decode_eq_nil member other] at long
    simp at long

/-- What stands before the check begins with the version. -/
theorem take_eq_cons_iff {decoded payload : Bytes} {version : UInt8} (long : 5 ≤ decoded.length) :
    decoded.take (decoded.length - 4) = version :: payload ↔
      (decoded.take (decoded.length - 4)).drop 1 = payload ∧ decoded.getD 0 0 = version := by
  obtain ⟨n, more⟩ : ∃ n, decoded.length - 4 = n + 1 := ⟨decoded.length - 5, by omega⟩
  rw [more]
  cases decoded with
  | nil => simp at long
  | cons byte rest =>
    rw [List.take_succ_cons, List.cons_eq_cons, and_comm]
    rfl

/-- What is accepted is exactly the texts of bytes with their version and their check, and these come back. -/
theorem checkDecode_iff (text payload : Bytes) (version : UInt8) :
    checkDecode sum256 text = .ok (payload, version) ↔ text = checkEncode sum256 payload version := by
  rw [checkEncode, encode_append_iff sum256 (List.cons_ne_nil _ _), checkDecode]
  simp only
  split
  · next short => exact ⟨nofun, fun accepted => absurd accepted.1 (by omega)⟩
  · next long =>
    have long := Nat.le_of_not_lt long
    split
    · next wrong => exact ⟨nofun, fun accepted => absurd accepted.2.1 wrong⟩
    · next same =>
      rw [Except.ok.injEq, Prod.mk.injEq, ← take_eq_cons_iff long]
      exact ⟨fun body => ⟨long, not_not.mp same, body⟩, fun accepted => accepted.2.2⟩

theorem checkDecodeExpand_eq (text payload : Bytes) (expandversion version : UInt8) :
    checkDecodeExpand sum256 text = .ok (payload, expandversion, version) ↔
      text = encode (expandversion :: payload ++ checksum sum256 (expandversion :: payload)) ∧
        (decode text).getD 1 0 = version := by
  rw [encode_append_iff sum256 (List.cons_ne_nil _ _), checkDecodeExpand]
  simp only
  split
  · next short => exact ⟨nofun, fun accepted => absurd accepted.1.1 (by omega)⟩
  · next long =>
    have long := Nat.le_of_not_lt long
    split
    · next wrong => exact ⟨nofun, fun accepted => absurd accepted.1.2.1 wrong⟩
    · next same =>
      rw [Except.ok.injEq, Prod.mk.injEq, Prod.mk.injEq, ← and_assoc, ← take_eq_cons_iff long]
      exact and_congr_left fun _ => ⟨fun body => ⟨long, not_not.mp same, body⟩, fun accepted => accepted.2.2⟩

/-- With two versions, the second one comes back twice: by itself, and in front of the bytes. What else is accepted is
the text of a single version, and the first byte of its check is taken for the second. -/
theorem checkDecodeExpand_iff (text payload : Bytes) (expandversion version : UInt8) :
    checkDecodeExpand sum256 text = .ok (payload, expandversion, version) ↔
      (∃ input, payload = version :: input ∧ text = checkEncodeExpand sum256 input expandversion version) ∨
        payload = [] ∧ text = checkEncode sum256 [] expandversion ∧
          (checksum sum256 [expandversion]).head? = some version := by
  rw [checkDecodeExpand_eq]
  cases payload with
  | nil =>
    -- the byte after the only version is the first one of the check
    have second : (decode (checkEncode sum256 [] expandversion)).getD 1 0 = version ↔
        (checksum sum256 [expandversion]).head? = some version := by
      have four := length_checksum sum256 [expandversion]
      rw [checkEncode, decode_encode, List.singleton_append, List.getD_cons_succ]
      cases check : checksum sum256 [expandversion] with
      | nil => simp [check] at four
      | cons first rest => rw [List.getD_cons_zero, List.head?_cons, Option.some_inj]
    constructor
    · rintro ⟨rfl, same⟩
      exact .inr ⟨rfl, rfl, second.mp same⟩
    · rintro (⟨input, ⟨⟩, -⟩ | ⟨-, rfl, same⟩)
      exact ⟨rfl, second.mpr same⟩
  | cons first rest =>
    constructor
    · rintro ⟨rfl, second⟩
      rw [decode_encode] at second
      obtain rfl : first = version := second
      exact .inl ⟨rest, rfl, rfl⟩
    · rintro (⟨input, same, rfl⟩ | ⟨⟨⟩, -⟩)
      obtain ⟨rfl, rfl⟩ := List.cons_eq_cons.mp same
      exact ⟨rfl, by rw [checkEncodeExpand, decode_encode]; rfl⟩

end Check

end PolarCloud.Base58
