import Mathlib.Data.String.Basic
import Mathlib.Data.UInt
import PolarCloud.Base.Base64

/-! # JSON values, their text, and typed reading

A JSON text is kept as its tree. Numbers are the integers: the structures written and read here
have no other numeric fields, and a reader of such a field refuses every other literal. Besides
the text of a tree, three things are fixed: how a value that was read without a target type is
written again (numbers have passed through binary64, the keys of an object are in order), how a
structure is read member by member, and how its fields are.
-/

namespace PolarCloud

namespace Float64

/-- The binary64 nearest to a natural number, ties to the even significand. -/
def nearest (n : ℕ) : ℕ :=
  if n < 2 ^ 53 then n
  else
    let step := 2 ^ (n.log2 - 52)
    let low := n / step * step
    let rest := n % step
    if step < 2 * rest ∨ (step = 2 * rest ∧ n / step % 2 = 1) then low + step else low

/-- The coarsest multiple of a power of ten, at most `10 ^ digits`, that reads back as `value`. -/
def shortest (value : ℕ) : ℕ → ℕ
  | 0 => value
  | digits + 1 =>
      let unit := 10 ^ (digits + 1)
      let candidate := (value + unit / 2) / unit * unit
      if nearest candidate = value then candidate else shortest value digits

/-- An integer of at most twenty-one digits after one reading as binary64 and one writing. -/
def reprint (n : ℤ) : ℤ := n.sign * shortest (nearest n.natAbs) 21

example : reprint (2 ^ 64 - 1) = 18446744073709552000 := by decide

end Float64

inductive Json where
  | null
  | bool (value : Bool)
  | num (value : ℤ)
  | str (value : String)
  | arr (items : List Json)
  | obj (members : List (String × Json))
deriving Inhabited

namespace Json

/-! ## Text -/

/-- A character inside a string literal; markup characters and line separators are escaped too. -/
def escape (char : Char) : List Char :=
  let hex (digit : ℕ) := (Nat.toDigits 16 digit).getLastD '0'
  if char = '"' then ['\\', '"']
  else if char = '\\' then ['\\', '\\']
  else if char = '\n' then ['\\', 'n']
  else if char = '\r' then ['\\', 'r']
  else if char = '\t' then ['\\', 't']
  else if char.toNat < 0x20 ∨ char = '<' ∨ char = '>' ∨ char = '&' ∨
      char.toNat = 0x2028 ∨ char.toNat = 0x2029 then
    let code := char.toNat
    ['\\', 'u', hex (code / 4096), hex (code / 256 % 16), hex (code / 16 % 16), hex (code % 16)]
  else [char]

def quote (value : String) : List Char := '"' :: value.toList.flatMap escape ++ ['"']

mutual

def text : Json → List Char
  | null => "null".toList
  | bool value => if value then "true".toList else "false".toList
  | num value => (toString value).toList
  | str value => quote value
  | arr items => '[' :: textItems items ++ [']']
  | obj members => '\x7b' :: textMembers members ++ ['\x7d']

def textItems : List Json → List Char
  | [] => []
  | [item] => text item
  | item :: rest => text item ++ ',' :: textItems rest

def textMembers : List (String × Json) → List Char
  | [] => []
  | [(key, value)] => quote key ++ ':' :: text value
  | (key, value) :: rest => quote key ++ ':' :: text value ++ ',' :: textMembers rest

end

/-- The bytes of a text. -/
def bytes (value : Json) : Bytes := value.text.flatMap String.utf8EncodeChar

/-! ## Values read without a target type -/

/-- A later member replaces an earlier one of the same key; keys stay in order. -/
def insertKey (key : String) (value : Json) : List (String × Json) → List (String × Json)
  | [] => [(key, value)]
  | (other, old) :: rest =>
      if key = other then (key, value) :: rest
      else if key < other then (key, value) :: (other, old) :: rest
      else (other, old) :: insertKey key value rest

/-- The object written for a map: keys in order. -/
def marshalMap (members : List (String × Json)) : Json :=
  obj (members.foldl (fun map member => insertKey member.1 member.2 map) [])

mutual

/-- A value after a reading without a target type and a writing. -/
def generic : Json → Json
  | num value => num (Float64.reprint value)
  | arr items => arr (genericItems items)
  | obj members => marshalMap (genericMembers members)
  | value => value

def genericItems : List Json → List Json
  | [] => []
  | item :: rest => generic item :: genericItems rest

def genericMembers : List (String × Json) → List (String × Json)
  | [] => []
  | (key, value) :: rest => (key, generic value) :: genericMembers rest

end

/-- The map a structure becomes when its text is read without a target type. -/
def changeMap (members : List (String × Json)) : List (String × Json) := genericMembers members

/-- Remove a key from a map. -/
def deleteKey (key : String) (members : List (String × Json)) : List (String × Json) :=
  members.filter fun member => member.1 ≠ key

/-! ## Typed reading -/

/-- Simple case folding onto the letters that field names use. -/
def foldChar (char : Char) : Char :=
  if char.toNat = 0x212a then 'k' else if char.toNat = 0x17f then 's' else char.toLower

/-- A member belongs to a field when the names agree up to case. -/
def named (key name : String) : Bool := key.toList.map foldChar = name.toList.map foldChar

/-- Read an object into a structure, member by member; `null` leaves the structure as it is. -/
def decodeMembers {σ : Type*} (set : σ → String → Json → Option σ) (start : σ) : Json → Option σ
  | null => some start
  | obj members => members.foldlM (fun state member => set state member.1 member.2) start
  | _ => none

def ofUInt64 (value : UInt64) : Json := num value.toNat

/-- `null` leaves a number as it is. -/
def getUInt64 (old : UInt64) : Json → Option UInt64
  | null => some old
  | num value => if 0 ≤ value ∧ value < 2 ^ 64 then some (UInt64.ofNat value.toNat) else none
  | _ => none

def ofInt64 (value : Int64) : Json := num value.toInt

def getInt64 (old : Int64) : Json → Option Int64
  | null => some old
  | num value => if -2 ^ 63 ≤ value ∧ value < 2 ^ 63 then some (Int64.ofInt value) else none
  | _ => none

/-- Write a list; the empty list and the absent one are the same value. -/
def ofList {α : Type*} (encode : α → Json) : List α → Json
  | [] => null
  | items => arr (items.map encode)

def getList {α : Type*} (decode : Json → Option α) : Json → Option (List α)
  | null => some []
  | arr items => items.mapM decode
  | _ => none

/-- Write a list with an absent value. -/
def ofList? {α : Type*} (encode : α → Json) : Option (List α) → Json
  | none => null
  | some items => arr (items.map encode)

def getList? {α : Type*} (decode : Json → Option α) : Json → Option (Option (List α))
  | null => some none
  | arr items => (items.mapM decode).map some
  | _ => none

private def getByte : Json → Option UInt8
  | null => some 0
  | num value => if 0 ≤ value ∧ value < 256 then some (UInt8.ofNat value.toNat) else none
  | _ => none

/-- A byte string with an absent value: base64 text, or `null`. -/
def ofBytes? : Option Bytes → Json
  | none => null
  | some bytes => str (String.ofList (Base64.encode bytes))

/-- Byte strings are also read from lists of numbers. -/
def getBytes? : Json → Option (Option Bytes)
  | null => some none
  | str value => (Base64.decode value.toList).map some
  | arr items => (items.mapM getByte).map some
  | _ => none

/-- A byte string whose absent value is the empty one. -/
def ofBytes (bytes : Bytes) : Json := ofBytes? (if bytes = [] then none else some bytes)

def getBytes (value : Json) : Option Bytes := (getBytes? value).map (·.getD [])

/-! ## Reading what was written -/

/-- Every item comes back when each of them does. -/
theorem mapM_map_eq_some_iff {α β : Type*} {write : α → β} {read : β → Option α} {items : List α} :
    (items.map write).mapM read = some items ↔ ∀ item ∈ items, read (write item) = some item := by
  induction items with
  | nil => simp
  | cons item rest ih =>
    rw [List.map_cons, List.mapM_cons, List.forall_mem_cons, ← ih]
    cases read (write item) with
    | none => simp
    | some first =>
      cases (rest.map write).mapM read with
      | none => simp
      | some later => simp

@[simp] theorem getUInt64_ofUInt64 (old value : UInt64) : getUInt64 old (ofUInt64 value) = some value := by
  have bound : (value.toNat : ℤ) < 2 ^ 64 := by exact_mod_cast value.toNat_lt
  simp only [ofUInt64, getUInt64]
  rw [if_pos ⟨Int.natCast_nonneg _, bound⟩, Int.toNat_natCast, UInt64.ofNat_toNat]

@[simp] theorem getInt64_ofInt64 (old value : Int64) : getInt64 old (ofInt64 value) = some value := by
  simp only [ofInt64, getInt64]
  rw [if_pos ⟨value.le_toInt, value.toInt_lt⟩, Int64.ofInt_toInt]

@[simp] theorem getBytes?_ofBytes? (bytes : Option Bytes) : getBytes? (ofBytes? bytes) = some bytes := by
  cases bytes with
  | none => rfl
  | some bytes => simp only [ofBytes?, getBytes?, String.toList_ofList, Base64.decode_encode, Option.map_some]

@[simp] theorem getBytes_ofBytes (bytes : Bytes) : getBytes (ofBytes bytes) = some bytes := by
  rw [getBytes, ofBytes, getBytes?_ofBytes?]
  by_cases empty : bytes = [] <;> simp [empty]

/-- A written array is read item by item. -/
theorem getList_arr {α β : Type*} {write : α → Json} {decode : Json → Option β} {read : α → β} {items : List α}
    (reads : ∀ item ∈ items, decode (write item) = some (read item)) :
    getList decode (arr (items.map write)) = some (items.map read) := by
  rw [getList]
  induction items with
  | nil => rfl
  | cons item rest ih =>
    obtain ⟨first, later⟩ := List.forall_mem_cons.mp reads
    rw [List.map_cons, List.mapM_cons, first, ih later]
    rfl

theorem getList?_ofList? {α : Type*} {encode : α → Json} {decode : Json → Option α}
    (inverse : ∀ item, decode (encode item) = some item) (items : Option (List α)) :
    getList? decode (ofList? encode items) = some items := by
  cases items with
  | none => rfl
  | some items => rw [ofList?, getList?, mapM_map_eq_some_iff.mpr fun item _ => inverse item, Option.map_some]

end Json

end PolarCloud
