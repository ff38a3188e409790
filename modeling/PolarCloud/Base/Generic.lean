import Mathlib.Tactic.Positivity
import PolarCloud.Base.Json

/-! # Values after a reading without a target type

A value that is read without a target type and written again keeps its byte strings and its lists;
its numbers have passed through binary64 once.
-/

namespace PolarCloud

namespace Float64

theorem nearest_of_lt {n : ℕ} (small : n < 2 ^ 53) : nearest n = n := if_pos small

/-- Rounding keeps a number above the precision above it. -/
theorem le_nearest {n : ℕ} (large : 2 ^ 53 ≤ n) : 2 ^ 53 ≤ nearest n := by
  have positive : n ≠ 0 := by omega
  have exponent : 53 ≤ n.log2 := (Nat.le_log2 positive).mpr large
  have low : 2 ^ 53 ≤ n / 2 ^ (n.log2 - 52) * 2 ^ (n.log2 - 52) := by
    have multiple : 2 ^ (n.log2) = 2 ^ 52 * 2 ^ (n.log2 - 52) := by
      rw [← pow_add]
      congr 1
      omega
    have below : 2 ^ 52 ≤ n / 2 ^ (n.log2 - 52) := by
      rw [Nat.le_div_iff_mul_le (by positivity), ← multiple]
      exact Nat.log2_self_le positive
    calc 2 ^ 53 ≤ 2 ^ n.log2 := Nat.pow_le_pow_right (by decide) exponent
      _ = 2 ^ 52 * 2 ^ (n.log2 - 52) := multiple
      _ ≤ n / 2 ^ (n.log2 - 52) * 2 ^ (n.log2 - 52) := Nat.mul_le_mul_right _ below
  unfold nearest
  rw [if_neg (by omega)]
  dsimp only
  split
  · omega
  · exact low

/-- A number below the precision is written as it is. -/
theorem shortest_of_lt {n : ℕ} (small : n < 2 ^ 53) (digits : ℕ) : shortest n digits = n := by
  induction digits with
  | zero => rfl
  | succ digits ih =>
    rw [shortest]
    generalize (n + 10 ^ (digits + 1) / 2) / 10 ^ (digits + 1) * 10 ^ (digits + 1) = candidate
    split
    · next same =>
      rcases Nat.lt_or_ge candidate (2 ^ 53) with below | above
      · rwa [nearest_of_lt below] at same
      · have := le_nearest above
        omega
    · exact ih

theorem reprint_of_lt {n : ℕ} (small : n < 2 ^ 53) : reprint n = n := by
  rw [reprint, Int.natAbs_natCast, nearest_of_lt small, shortest_of_lt small]
  cases n with
  | zero => rfl
  | succ n => rw [Int.sign_eq_one_of_pos (by positivity), one_mul]

end Float64

open Json

namespace Json

/-! ## Keys in order -/

theorem insertKey_nil (key : String) (value : Json) : insertKey key value [] = [(key, value)] := rfl

theorem insertKey_before {key other : String} (before : key < other) (value old : Json) (rest : List (String × Json)) :
    insertKey key value ((other, old) :: rest) = (key, value) :: (other, old) :: rest := by
  rw [insertKey, if_neg before.ne, if_pos before]

theorem insertKey_behind {key other : String} (behind : other < key) (value old : Json) (rest : List (String × Json)) :
    insertKey key value ((other, old) :: rest) = (other, old) :: insertKey key value rest := by
  rw [insertKey, if_neg behind.ne', if_neg behind.not_gt]

/-! ## Fields after a generic reading -/

theorem genericItems_eq_map (items : List Json) : genericItems items = items.map generic := by
  induction items with
  | nil => rfl
  | cons item rest ih => rw [genericItems, ih, List.map_cons]

@[simp] theorem generic_ofBytes? (bytes : Option Bytes) : generic (ofBytes? bytes) = ofBytes? bytes := by
  cases bytes with
  | none => simp only [ofBytes?, generic]
  | some bytes => simp only [ofBytes?, generic]

theorem generic_ofList? {α : Type*} (encode : α → Json) (items : Option (List α)) :
    generic (ofList? encode items) = ofList? (fun item => generic (encode item)) items := by
  cases items with
  | none => simp only [ofList?, generic]
  | some items =>
    simp only [ofList?, generic, genericItems_eq_map, List.map_map]
    rfl

/-- What a field reads after a generic reading of its number. -/
def reread (value : UInt64) : Option UInt64 := getUInt64 0 (generic (ofUInt64 value))

theorem getUInt64_generic (old value : UInt64) : getUInt64 old (generic (ofUInt64 value)) = reread value := by
  simp only [reread, ofUInt64, generic, getUInt64]

/-- A number comes back from a generic reading exactly when binary64 keeps it. -/
theorem reread_iff {value : UInt64} : reread value = some value ↔ Float64.reprint value.toNat = value.toNat := by
  simp only [reread, ofUInt64, generic, getUInt64]
  generalize Float64.reprint value.toNat = printed
  have bound := value.toNat_lt
  constructor
  · intro read
    split at read
    · next inside =>
      have same := congrArg UInt64.toNat (Option.some.inj read)
      rw [UInt64.toNat_ofNat', Nat.mod_eq_of_lt (by omega)] at same
      omega
    · cases read
  · rintro rfl
    rw [if_pos (by omega), Int.toNat_natCast, UInt64.ofNat_toNat]

theorem getInt64_generic_iff {old value : Int64} :
    getInt64 old (generic (ofInt64 value)) = some value ↔ Float64.reprint value.toInt = value.toInt := by
  simp only [ofInt64, generic, getInt64]
  generalize Float64.reprint value.toInt = printed
  have low := value.le_toInt
  have high := value.toInt_lt
  constructor
  · intro read
    split at read
    · next inside =>
      have same := congrArg Int64.toInt (Option.some.inj read)
      rw [Int64.toInt_ofInt_of_le inside.1 inside.2] at same
      exact same
    · cases read
  · rintro rfl
    rw [if_pos ⟨low, high⟩, Int64.ofInt_toInt]

theorem getList?_generic_iff {α : Type*} {encode : α → Json} {decode : Json → Option α} {items : Option (List α)} :
    getList? decode (generic (ofList? encode items)) = some items ↔
      ∀ item ∈ items.getD [], decode (generic (encode item)) = some item := by
  rw [generic_ofList?]
  cases items with
  | none => simp [ofList?, getList?]
  | some items =>
    rw [ofList?, getList?, Option.map_eq_some_iff, Option.getD_some, ← mapM_map_eq_some_iff]
    simp only [Option.some.injEq, exists_eq_right]

/-! ## Fields that determine what was written -/

theorem ofBytes?_injective : Function.Injective ofBytes? := by
  intro first second same
  have read := getBytes?_ofBytes? first
  rw [same, getBytes?_ofBytes?] at read
  exact (Option.some.inj read).symm

/-- Binary64 prints both numbers alike. -/
def PrintAlike (first second : ℤ) : Prop := Float64.reprint first = Float64.reprint second

instance (first second : ℤ) : Decidable (PrintAlike first second) :=
  inferInstanceAs (Decidable (Float64.reprint first = Float64.reprint second))

theorem generic_ofUInt64_inj {first second : UInt64} :
    generic (ofUInt64 first) = generic (ofUInt64 second) ↔ PrintAlike first.toNat second.toNat := by
  simp only [ofUInt64, generic, num.injEq, PrintAlike]

theorem generic_ofInt64_inj {first second : Int64} :
    generic (ofInt64 first) = generic (ofInt64 second) ↔ PrintAlike first.toInt second.toInt := by
  simp only [ofInt64, generic, num.injEq, PrintAlike]

theorem map_inj_iff {α β : Type*} {write : α → β} {first second : List α} :
    first.map write = second.map write ↔ List.Forall₂ (fun item other => write item = write other) first second := by
  rw [← List.forall₂_eq_eq_eq, List.forall₂_map_left_iff, List.forall₂_map_right_iff]

theorem ofList?_inj {α : Type*} {write : α → Json} {first second : Option (List α)} :
    ofList? write first = ofList? write second ↔
      Option.Rel (List.Forall₂ fun item other => write item = write other) first second := by
  cases first <;> cases second <;> simp [ofList?, map_inj_iff]

end Json

end PolarCloud
