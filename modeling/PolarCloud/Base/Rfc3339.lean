import Mathlib.Algebra.Ring.Nat
import Mathlib.Tactic.Common

/-! # Points in time as text

A point in time is a date, a time of day down to the nanosecond, and by how many minutes its zone is ahead. Its text
writes every number in a fixed number of places, except for the fraction of a second, which ends at its last digit
that is not zero. Reading what was written returns the point in time.
-/

namespace PolarCloud

namespace Decimal

def digit (d : ℕ) : Char := Char.ofNat (d + 48)

def value? (char : Char) : Option ℕ := if char.isDigit then some (char.toNat - 48) else none

/-- A number in so many places. -/
def pad : ℕ → ℕ → List Char
  | 0, _ => []
  | places + 1, n => digit (n / 10 ^ places) :: pad places (n % 10 ^ places)

/-- Read a number of so many places. -/
def number? : ℕ → List Char → Option (ℕ × List Char)
  | 0, rest => some (0, rest)
  | _ + 1, [] => none
  | places + 1, char :: rest => do
      let d ← value? char
      let (n, rest) ← number? places rest
      some (d * 10 ^ places + n, rest)

/-- A number in so many places, without the zeros at its end. -/
def fraction : ℕ → ℕ → List Char
  | 0, _ => []
  | places + 1, n => if n = 0 then [] else digit (n / 10 ^ places) :: fraction places (n % 10 ^ places)

/-- Read as many digits as there are, and no more than so many. -/
def fraction? : ℕ → List Char → ℕ × List Char
  | 0, rest => (0, rest)
  | _ + 1, [] => (0, [])
  | places + 1, char :: rest =>
      match value? char with
      | none => (0, char :: rest)
      | some d => (d * 10 ^ places + (fraction? places rest).1, (fraction? places rest).2)

theorem value?_digit {d : ℕ} (small : d < 10) : value? (digit d) = some d := by
  have every : ∀ d < 10, value? (digit d) = some d := by decide
  exact every d small

private theorem leading_lt {places n : ℕ} (bound : n < 10 ^ (places + 1)) : n / 10 ^ places < 10 := by
  rw [Nat.div_lt_iff_lt_mul (Nat.pow_pos (by decide)), Nat.mul_comm, ← Nat.pow_succ]
  exact bound

theorem number?_pad {places n : ℕ} (bound : n < 10 ^ places) (rest : List Char) :
    number? places (pad places n ++ rest) = some (n, rest) := by
  induction places generalizing n with
  | zero =>
    have none : n = 0 := by simpa using bound
    rw [none]
    rfl
  | succ places ih =>
    have later := ih (Nat.mod_lt n (Nat.pow_pos (by decide)))
    simp only [pad, List.cons_append, number?, value?_digit (leading_lt bound), later, Option.bind_eq_bind,
      Option.bind_some, Nat.div_add_mod']

theorem fraction?_fraction {places n : ℕ} (bound : n < 10 ^ places) {rest : List Char}
    (ended : ∀ char ∈ rest.head?, value? char = none) : fraction? places (fraction places n ++ rest) = (n, rest) := by
  induction places generalizing n with
  | zero =>
    have none : n = 0 := by simpa using bound
    rw [none]
    rfl
  | succ places ih =>
    rw [fraction]
    split
    · next none =>
      subst none
      cases rest with
      | nil => rfl
      | cons char rest =>
        rw [List.nil_append, fraction?, ended char rfl]
    · next some =>
      have later := ih (Nat.mod_lt n (Nat.pow_pos (by decide)))
      simp only [List.cons_append, fraction?, value?_digit (leading_lt bound), later, Nat.div_add_mod']

end Decimal

open Decimal

structure DateTime where
  year : ℕ
  month : ℕ
  day : ℕ
  hour : ℕ
  minute : ℕ
  second : ℕ
  nanosecond : ℕ
  offset : ℤ
deriving DecidableEq, Repr

namespace DateTime

def isLeap (year : ℕ) : Bool := year % 4 = 0 ∧ (year % 100 ≠ 0 ∨ year % 400 = 0)

def daysIn (year month : ℕ) : ℕ :=
  if month = 2 then if isLeap year then 29 else 28
  else if month = 4 ∨ month = 6 ∨ month = 9 ∨ month = 11 then 30
  else 31

/-- The day is on the calendar, and every number fits its places. -/
def Valid (this : DateTime) : Prop :=
  this.year < 10000 ∧ (1 ≤ this.month ∧ this.month ≤ 12) ∧ (1 ≤ this.day ∧ this.day ≤ daysIn this.year this.month) ∧
    this.hour < 24 ∧ this.minute < 60 ∧ this.second < 60 ∧ this.nanosecond < 1000000000 ∧ this.offset.natAbs < 24 * 60

instance (this : DateTime) : Decidable this.Valid := by
  unfold Valid
  infer_instance

def zone (offset : ℤ) : List Char :=
  if offset = 0 then ['Z']
  else (if offset < 0 then '-' else '+') :: (pad 2 (offset.natAbs / 60) ++ ':' :: pad 2 (offset.natAbs % 60))

def text (this : DateTime) : List Char :=
  pad 4 this.year ++ '-' :: (pad 2 this.month ++ '-' :: (pad 2 this.day ++ 'T' :: (pad 2 this.hour ++ ':' ::
    (pad 2 this.minute ++ ':' :: (pad 2 this.second ++
      ((if this.nanosecond = 0 then [] else '.' :: fraction 9 this.nanosecond) ++ zone this.offset))))))

/-- A character that must be there. -/
def char? (char : Char) : List Char → Option (List Char)
  | [] => none
  | first :: rest => if first = char then some rest else none

def offset? (ahead : Bool) (text : List Char) : Option ℤ := do
  let (hours, rest) ← number? 2 text
  let rest ← char? ':' rest
  let (minutes, rest) ← number? 2 rest
  if minutes < 60 ∧ rest = [] then
    let offset : ℤ := hours * 60 + minutes
    some (if ahead then offset else -offset)
  else none

def zone? : List Char → Option ℤ
  | ['Z'] => some 0
  | '+' :: rest => offset? true rest
  | '-' :: rest => offset? false rest
  | _ => none

/-- A fraction of a second has at least one digit. -/
def nanosecond? : List Char → ℕ × List Char
  | '.' :: char :: rest => if (value? char).isSome then fraction? 9 (char :: rest) else (0, '.' :: char :: rest)
  | text => (0, text)

def read (text : List Char) : Option DateTime := do
  let (year, rest) ← number? 4 text
  let rest ← char? '-' rest
  let (month, rest) ← number? 2 rest
  let rest ← char? '-' rest
  let (day, rest) ← number? 2 rest
  let rest ← char? 'T' rest
  let (hour, rest) ← number? 2 rest
  let rest ← char? ':' rest
  let (minute, rest) ← number? 2 rest
  let rest ← char? ':' rest
  let (second, rest) ← number? 2 rest
  let (nanosecond, rest) := nanosecond? rest
  let offset ← zone? rest
  some { year, month, day, hour, minute, second, nanosecond, offset }

@[simp] private theorem char?_cons (char : Char) (rest : List Char) : char? char (char :: rest) = some rest :=
  if_pos rfl

private theorem zone?_zone {offset : ℤ} (bound : offset.natAbs < 24 * 60) : zone? (zone offset) = some offset := by
  have read (ahead : Bool) : offset? ahead (pad 2 (offset.natAbs / 60) ++ ':' :: pad 2 (offset.natAbs % 60)) =
      some (if ahead then (offset.natAbs : ℤ) else -(offset.natAbs : ℤ)) := by
    have minutes := @number?_pad 2 (offset.natAbs % 60) (by omega) []
    rw [List.append_nil] at minutes
    simp only [offset?, number?_pad (show offset.natAbs / 60 < 10 ^ 2 by omega), char?_cons, minutes,
      Option.bind_eq_bind, Option.bind_some]
    rw [if_pos ⟨Nat.mod_lt _ (by decide), trivial⟩]
    have whole : (↑(offset.natAbs / 60) * 60 + ↑(offset.natAbs % 60) : ℤ) = offset.natAbs := by omega
    rw [whole]
  unfold zone
  split_ifs with utc behind
  · rw [utc]
    rfl
  · rw [zone?, read]
    simp only [Bool.false_eq_true, if_false, Option.some.injEq]
    omega
  · rw [zone?, read]
    simp only [if_true, Option.some.injEq]
    omega

private theorem zone_ended (offset : ℤ) : ∀ char ∈ (zone offset).head?, value? char = none ∧ char ≠ '.' := by
  intro char first
  unfold zone at first
  split_ifs at first
  all_goals
    cases first
    decide

private theorem nanosecond?_text {nanosecond : ℕ} (bound : nanosecond < 1000000000) (offset : ℤ) :
    nanosecond? ((if nanosecond = 0 then [] else '.' :: fraction 9 nanosecond) ++ zone offset) =
      (nanosecond, zone offset) := by
  have ended := zone_ended offset
  split
  · next none =>
    subst none
    rw [List.nil_append]
    cases shape : zone offset with
    | nil => rfl
    | cons char rest =>
      rw [shape] at ended
      unfold nanosecond?
      split
      · next dotted =>
        exact absurd (List.cons.inj dotted).1 (ended char rfl).2
      · rfl
  · next some =>
    have read := @fraction?_fraction 9 nanosecond bound _ fun char first => (ended char first).1
    -- a fraction that is not zero begins with a digit
    have begins : fraction 9 nanosecond = digit (nanosecond / 10 ^ 8) :: fraction 8 (nanosecond % 10 ^ 8) := if_neg some
    rw [begins] at read ⊢
    rw [List.cons_append, List.cons_append, nanosecond?, value?_digit (by omega)]
    exact read

theorem read_text {this : DateTime} (valid : this.Valid) : read this.text = some this := by
  obtain ⟨year, month, day, hour, minute, second, nanosecond, offset⟩ := valid
  have days : daysIn this.year this.month ≤ 31 := by
    unfold daysIn
    split_ifs <;> decide
  simp only [read, text, number?_pad (show this.year < 10 ^ 4 from year),
    number?_pad (show this.month < 10 ^ 2 by omega),
    number?_pad (show this.day < 10 ^ 2 by omega), number?_pad (show this.hour < 10 ^ 2 by omega),
    number?_pad (show this.minute < 10 ^ 2 by omega), number?_pad (show this.second < 10 ^ 2 by omega), char?_cons,
    nanosecond?_text nanosecond, zone?_zone offset, Option.bind_eq_bind, Option.bind_some]

end DateTime

/-- A point in time whose year has four digits. -/
structure Time extends DateTime where
  valid : toDateTime.Valid
deriving DecidableEq, Repr

namespace Time

/-- The beginning of the first year. -/
def zero : Time where
  year := 1
  month := 1
  day := 1
  hour := 0
  minute := 0
  second := 0
  nanosecond := 0
  offset := 0
  valid := by decide

instance : Inhabited Time := ⟨zero⟩

def text (this : Time) : String := String.ofList this.toDateTime.text

def parse (text : String) : Option Time :=
  (DateTime.read text.toList).bind fun read => if valid : read.Valid then some ⟨read, valid⟩ else none

/-- A point in time is read back from its text. -/
@[simp] theorem parse_text (this : Time) : parse this.text = some this := by
  rw [parse, text, String.toList_ofList, DateTime.read_text this.valid, Option.bind_some, dif_pos this.valid]

example : zero.text = "0001-01-01T00:00:00Z" := by decide

end Time

end PolarCloud
