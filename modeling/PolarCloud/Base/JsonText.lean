import Std.Data.String.ToInt
import PolarCloud.Base.Json

/-! # Texts determine their values

A text is followed by nothing or by a character that no number contains. Then the text of a value
cannot be the beginning of the text of another: strings end at their first bare quote, numbers at
the first character that is not theirs, and the kinds of values differ in their first character.
-/

namespace PolarCloud.Json

/-! ## Strings -/

/-- The digit that a hexadecimal character stands for. -/
private def hexValue (char : Char) : ℕ :=
  if char.isDigit then char.toNat - '0'.toNat else char.toNat - 'a'.toNat + 10

/-- Read one character of a string literal back. -/
private def unescape : List Char → Option (Char × List Char)
  | '\\' :: 'u' :: first :: second :: third :: fourth :: rest =>
      some (Char.ofNat (hexValue first * 4096 + hexValue second * 256 + hexValue third * 16 + hexValue fourth), rest)
  | '\\' :: 'n' :: rest => some ('\n', rest)
  | '\\' :: 'r' :: rest => some ('\r', rest)
  | '\\' :: 't' :: rest => some ('\t', rest)
  | '\\' :: char :: rest => some (char, rest)
  | char :: rest => some (char, rest)
  | [] => none

private theorem hexValue_digit {digit : ℕ} (small : digit < 16) :
    hexValue ((Nat.toDigits 16 digit).getLastD '0') = digit := by
  have every : ∀ digit < 16, hexValue ((Nat.toDigits 16 digit).getLastD '0') = digit := by decide
  exact every digit small

private theorem unescape_escape (char : Char) (rest : List Char) :
    unescape (escape char ++ rest) = some (char, rest) := by
  unfold escape
  dsimp only
  split_ifs with quoted backslash newline carriage tab marked
  · rw [quoted]
    rfl
  · rw [backslash]
    rfl
  · rw [newline]
    rfl
  · rw [carriage]
    rfl
  · rw [tab]
    rfl
  · have small : char.toNat ≤ 0x2029 := by
      rcases marked with control | rfl | rfl | rfl | separator | separator
      · omega
      · decide
      · decide
      · decide
      · omega
      · omega
    simp only [List.cons_append, List.nil_append, unescape]
    rw [hexValue_digit (by omega), hexValue_digit (by omega), hexValue_digit (by omega), hexValue_digit (by omega),
      show char.toNat / 4096 * 4096 + char.toNat / 256 % 16 * 256 + char.toNat / 16 % 16 * 16 + char.toNat % 16 =
        char.toNat from by omega, Char.ofNat_toNat]
  · simp [unescape, backslash]

/-- An escaped character is read back whatever follows it. -/
theorem escape_append_inj {first second : Char} {rest rest' : List Char}
    (same : escape first ++ rest = escape second ++ rest') : first = second ∧ rest = rest' := by
  have read := unescape_escape first rest
  rw [same, unescape_escape] at read
  exact Prod.mk.inj (Option.some.inj read.symm)

/-- No escaped character begins with the quote that ends a string. -/
theorem escape_append_ne (char : Char) (rest rest' : List Char) : escape char ++ rest ≠ '"' :: rest' := by
  unfold escape
  dsimp only
  split_ifs with quoted <;> simp [quoted]

private theorem escapes_append_inj {first second rest rest' : List Char}
    (same : first.flatMap escape ++ '"' :: rest = second.flatMap escape ++ '"' :: rest') :
    first = second ∧ rest = rest' := by
  induction first generalizing second with
  | nil =>
    cases second with
    | nil => exact ⟨rfl, List.tail_eq_of_cons_eq same⟩
    | cons char chars =>
      rw [List.flatMap_cons, List.append_assoc] at same
      exact absurd same.symm (escape_append_ne _ _ _)
  | cons head tail ih =>
    cases second with
    | nil =>
      rw [List.flatMap_cons, List.append_assoc] at same
      exact absurd same (escape_append_ne _ _ _)
    | cons char chars =>
      simp only [List.flatMap_cons, List.append_assoc] at same
      obtain ⟨rfl, later⟩ := escape_append_inj same
      obtain ⟨rfl, rest⟩ := ih later
      exact ⟨rfl, rest⟩

theorem quote_append_inj {first second : String} {rest rest' : List Char}
    (same : quote first ++ rest = quote second ++ rest') : first = second ∧ rest = rest' := by
  simp only [quote, List.cons_append, List.append_assoc, List.nil_append, List.cons.injEq, true_and] at same
  obtain ⟨chars, rest⟩ := escapes_append_inj same
  exact ⟨String.toList_injective chars, rest⟩

/-! ## Numbers -/

/-- The characters of a number. -/
def isNumeric (char : Char) : Bool := char.isDigit || char = '-'

/-- What follows a value does not continue a number. -/
def Ended (rest : List Char) : Prop := rest.takeWhile isNumeric = []

private theorem isNumeric_of_mem_repr {value : ℕ} {char : Char} (member : char ∈ value.repr.toList) :
    isNumeric char = true := by
  rw [Nat.repr_eq_ofList_toDigits, String.toList_ofList] at member
  rw [isNumeric, Nat.isDigit_of_mem_toDigits (by decide) (by decide) member, Bool.true_or]

theorem isNumeric_of_mem {value : ℤ} {char : Char} (member : char ∈ (toString value).toList) :
    isNumeric char = true := by
  rw [Int.toString_eq_repr, Int.repr_eq_if] at member
  split_ifs at member with positive
  · exact isNumeric_of_mem_repr member
  · rw [String.toList_append, List.mem_append] at member
    rcases member with sign | digit
    · rw [List.mem_singleton.mp sign]
      rfl
    · exact isNumeric_of_mem_repr digit

private theorem ended_comma (rest : List Char) : Ended (',' :: rest) := rfl

private theorem ended_bracket (rest : List Char) : Ended (']' :: rest) := rfl

private theorem ended_brace (rest : List Char) : Ended ('\x7d' :: rest) := rfl

theorem number_append_inj {first second : ℤ} {rest rest' : List Char} (ended : Ended rest) (ended' : Ended rest')
    (same : (toString first).toList ++ rest = (toString second).toList ++ rest') : first = second ∧ rest = rest' := by
  have digits := congrArg (List.takeWhile isNumeric) same
  rw [List.takeWhile_append_of_pos fun _ => isNumeric_of_mem, List.takeWhile_append_of_pos fun _ => isNumeric_of_mem,
    ended, ended', List.append_nil, List.append_nil] at digits
  rw [digits] at same
  exact ⟨Int.repr_injective (String.toList_injective digits), List.append_cancel_left same⟩

theorem number_ne_nil (value : ℤ) : (toString value).toList ≠ [] := by
  rw [Int.toString_eq_repr, Int.repr_eq_if]
  split_ifs with positive
  · rw [Nat.repr_eq_ofList_toDigits, String.toList_ofList]
    exact Nat.toDigits_ne_nil
  · rw [String.toList_append]
    exact List.cons_ne_nil _ _

/-! ## Values -/

/-- The kinds of values that a first character tells apart. -/
inductive Kind where
  | null
  | bool
  | num
  | str
  | arr
  | obj
deriving DecidableEq

def kind : Json → Kind
  | null => .null
  | bool _ => .bool
  | num _ => .num
  | str _ => .str
  | arr _ => .arr
  | obj _ => .obj

/-- The kind of the values that begin with a character. -/
private def kindOf (char : Char) : Option Kind :=
  if char = 'n' then some .null
  else if char = 't' ∨ char = 'f' then some .bool
  else if char = '"' then some .str
  else if char = '[' then some .arr
  else if char = '\x7b' then some .obj
  else if isNumeric char then some .num
  else none

private theorem kindOf_numeric {char : Char} (numeric : isNumeric char = true) : kindOf char = some .num := by
  have other {letter : Char} (plain : isNumeric letter = false) : char ≠ letter := by
    rintro rfl
    rw [plain] at numeric
    cases numeric
  unfold kindOf
  rw [if_neg (other (by decide)), if_neg (not_or.mpr ⟨other (by decide), other (by decide)⟩),
    if_neg (other (by decide)),
    if_neg (other (by decide)), if_neg (other (by decide)), if_pos numeric]

/-- A text begins with a character of its kind. -/
private theorem kindOf_text (value : Json) (rest : List Char) :
    (value.text ++ rest).head?.bind kindOf = some value.kind := by
  cases value with
  | null => rfl
  | bool value => cases value <;> rfl
  | num value =>
    obtain ⟨first, later, digits⟩ := List.exists_cons_of_ne_nil (number_ne_nil value)
    have numeric : isNumeric first = true := isNumeric_of_mem (by rw [digits]; exact List.mem_cons_self)
    simp only [text, digits, List.cons_append, List.head?_cons, Option.bind_some, kindOf_numeric numeric, kind]
  | str value => rfl
  | arr items => simp [text, kind, kindOf]
  | obj members => simp [text, kind, kindOf]

private theorem kind_eq {first second : Json} {rest rest' : List Char}
    (same : first.text ++ rest = second.text ++ rest') : first.kind = second.kind := by
  have begins := kindOf_text first rest
  rw [same, kindOf_text] at begins
  exact (Option.some.inj begins).symm

/-- No text begins with a character that begins no value. -/
private theorem text_append_ne {char : Char} (none : kindOf char = none) (value : Json) (rest rest' : List Char) :
    value.text ++ rest ≠ char :: rest' := by
  intro same
  have begins := kindOf_text value rest
  rw [same, List.head?_cons, Option.bind_some, none] at begins
  cases begins

private theorem textItems_cons_cons (item next : Json) (later : List Json) :
    textItems (item :: next :: later) = item.text ++ ',' :: textItems (next :: later) := by
  simp [textItems]

private theorem textMembers_cons_cons (key : String) (value : Json) (next : String × Json)
    (later : List (String × Json)) :
    textMembers ((key, value) :: next :: later) =
      quote key ++ ':' :: value.text ++ ',' :: textMembers (next :: later) := by
  simp [textMembers]

mutual

/-- A text is not the beginning of another. -/
theorem text_append_inj : ∀ {first second : Json} {rest rest' : List Char}, Ended rest → Ended rest' →
    first.text ++ rest = second.text ++ rest' → first = second ∧ rest = rest'
  | .null, second, rest, rest', _, _, same => by
    have kinds := kind_eq same
    cases second <;> cases kinds
    exact ⟨rfl, List.append_cancel_left same⟩
  | .bool value, second, rest, rest', _, _, same => by
    have kinds := kind_eq same
    cases second <;> cases kinds
    next other =>
      cases value <;> cases other <;> simp_all [text]
  | .num value, second, rest, rest', ended, ended', same => by
    have kinds := kind_eq same
    cases second <;> cases kinds
    next other =>
      simp only [text] at same
      obtain ⟨rfl, rest⟩ := number_append_inj ended ended' same
      exact ⟨rfl, rest⟩
  | .str value, second, rest, rest', _, _, same => by
    have kinds := kind_eq same
    cases second <;> cases kinds
    next other =>
      simp only [text] at same
      obtain ⟨rfl, rest⟩ := quote_append_inj same
      exact ⟨rfl, rest⟩
  | .arr items, second, rest, rest', _, _, same => by
    have kinds := kind_eq same
    cases second <;> cases kinds
    next others =>
      simp only [text, List.cons_append, List.append_assoc, List.nil_append, List.cons.injEq, true_and] at same
      obtain ⟨rfl, rest⟩ := textItems_append_inj same
      exact ⟨rfl, rest⟩
  | .obj members, second, rest, rest', _, _, same => by
    have kinds := kind_eq same
    cases second <;> cases kinds
    next others =>
      simp only [text, List.cons_append, List.append_assoc, List.nil_append, List.cons.injEq, true_and] at same
      obtain ⟨rfl, rest⟩ := textMembers_append_inj same
      exact ⟨rfl, rest⟩

theorem textItems_append_inj : ∀ {first second : List Json} {rest rest' : List Char},
    textItems first ++ ']' :: rest = textItems second ++ ']' :: rest' → first = second ∧ rest = rest'
  | [], second, rest, rest', same => by
    rcases second with _ | ⟨item, _ | ⟨next, later⟩⟩
    · exact ⟨rfl, List.tail_eq_of_cons_eq same⟩
    · exact absurd same.symm (text_append_ne rfl _ _ _)
    · simp only [textItems, List.append_assoc, List.nil_append] at same
      exact absurd same.symm (text_append_ne rfl _ _ _)
  | [item], second, rest, rest', same => by
    rcases second with _ | ⟨other, _ | ⟨next, later⟩⟩
    · exact absurd same (text_append_ne rfl _ _ _)
    · obtain ⟨rfl, closed⟩ := text_append_inj (ended_bracket _) (ended_bracket _) same
      exact ⟨rfl, List.tail_eq_of_cons_eq closed⟩
    · simp only [textItems, List.append_assoc, List.cons_append] at same
      obtain ⟨-, closed⟩ := text_append_inj (ended_bracket _) (ended_comma _) same
      simp at closed
  | item :: next :: later, second, rest, rest', same => by
    rcases second with _ | ⟨other, _ | ⟨next', later'⟩⟩
    · simp only [textItems, List.append_assoc, List.nil_append] at same
      exact absurd same (text_append_ne rfl _ _ _)
    · simp only [textItems, List.append_assoc, List.cons_append] at same
      obtain ⟨-, closed⟩ := text_append_inj (ended_comma _) (ended_bracket _) same
      simp at closed
    · rw [textItems_cons_cons, textItems_cons_cons, List.append_assoc, List.append_assoc] at same
      obtain ⟨rfl, closed⟩ := text_append_inj (ended_comma _) (ended_comma _) same
      obtain ⟨items, rest⟩ := textItems_append_inj (List.tail_eq_of_cons_eq closed)
      exact ⟨congrArg (item :: ·) items, rest⟩

theorem textMembers_append_inj : ∀ {first second : List (String × Json)} {rest rest' : List Char},
    textMembers first ++ '\x7d' :: rest = textMembers second ++ '\x7d' :: rest' → first = second ∧ rest = rest'
  | [], second, rest, rest', same => by
    rcases second with _ | ⟨⟨key, value⟩, _ | ⟨next, later⟩⟩
    · exact ⟨rfl, List.tail_eq_of_cons_eq same⟩
    · simp [textMembers, quote] at same
    · simp [textMembers, quote] at same
  | [(key, value)], second, rest, rest', same => by
    rcases second with _ | ⟨⟨other, value'⟩, _ | ⟨next, later⟩⟩
    · simp [textMembers, quote] at same
    · simp only [textMembers, List.append_assoc, List.cons_append] at same
      obtain ⟨rfl, values⟩ := quote_append_inj same
      obtain ⟨rfl, closed⟩ := text_append_inj (ended_brace _) (ended_brace _) (List.tail_eq_of_cons_eq values)
      exact ⟨rfl, List.tail_eq_of_cons_eq closed⟩
    · simp only [textMembers, List.append_assoc, List.cons_append] at same
      obtain ⟨-, values⟩ := quote_append_inj same
      obtain ⟨-, closed⟩ := text_append_inj (ended_brace _) (ended_comma _) (List.tail_eq_of_cons_eq values)
      simp at closed
  | (key, value) :: next :: later, second, rest, rest', same => by
    rcases second with _ | ⟨⟨other, value'⟩, _ | ⟨next', later'⟩⟩
    · simp [textMembers, quote] at same
    · simp only [textMembers, List.append_assoc, List.cons_append] at same
      obtain ⟨-, values⟩ := quote_append_inj same
      obtain ⟨-, closed⟩ := text_append_inj (ended_comma _) (ended_brace _) (List.tail_eq_of_cons_eq values)
      simp at closed
    · simp only [textMembers_cons_cons, List.append_assoc, List.cons_append] at same
      obtain ⟨rfl, values⟩ := quote_append_inj same
      obtain ⟨rfl, closed⟩ := text_append_inj (ended_comma _) (ended_comma _) (List.tail_eq_of_cons_eq values)
      obtain ⟨members, rest⟩ := textMembers_append_inj (List.tail_eq_of_cons_eq closed)
      exact ⟨congrArg ((key, value) :: ·) members, rest⟩

end

/-- Values with the same text are the same. -/
theorem text_injective : Function.Injective text := by
  intro first second same
  have ended : Ended [] := rfl
  exact (text_append_inj ended ended (congrArg (· ++ []) same)).1

private theorem utf8_injective : Function.Injective fun chars : List Char => chars.flatMap String.utf8EncodeChar := by
  intro first second same
  have encoded : first.utf8Encode = second.utf8Encode := congrArg List.toByteArray same
  rw [← String.toByteArray_ofList, ← String.toByteArray_ofList, String.toByteArray_inj] at encoded
  exact String.ofList_injective encoded

/-- Values with the same bytes are the same. -/
theorem bytes_injective : Function.Injective bytes := utf8_injective.comp text_injective

end PolarCloud.Json
