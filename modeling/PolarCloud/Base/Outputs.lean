import PolarCloud.Base.SyncMap

/-! # Unspent outputs of a history

A history is a list of transactions that pay values to keys and spend keys. A table of the unspent
values is kept by a log of writes per transaction, removals before stores; it stays right through a
transaction exactly when the transaction settles against the history.
-/

namespace PolarCloud.Outputs

universe u v w

variable {τ : Type u} {κ : Type v} {ν : Type w}

/-- How a transaction is read: the values it pays to keys, the keys it spends, and the keys that
are removed for it. -/
structure Reading (τ : Type u) (κ : Type v) (ν : Type w) where
  pays : τ → κ → ν → Prop
  spends : τ → κ → Prop
  removes : τ → κ → Prop
  /-- the keys that the table is about -/
  own : κ → Prop

namespace Reading

variable (reading : Reading τ κ ν) (history : List τ)

def Paid (key : κ) (value : ν) : Prop := ∃ tx ∈ history, reading.pays tx key value

def Spent (key : κ) : Prop := ∃ tx ∈ history, reading.spends tx key

/-- Some transaction pays the value to the key, and none spends the key. -/
def Unspent (key : κ) (value : ν) : Prop := reading.Paid history key value ∧ ¬ reading.Spent history key

/-- The table holds exactly the unspent values of its own keys. -/
def Matches (table : κ → Option ν) : Prop :=
  ∀ key, reading.own key → ∀ value, table key = some value ↔ reading.Unspent history key value

/-- A transaction settles: what it pays is paid alike and spent nowhere, what is removed for it is
no unspent value but one that it spends or pays again, and what it spends is removed. -/
structure Settles (tx : τ) : Prop where
  fresh : ∀ key value, reading.own key → reading.pays tx key value → ¬ reading.Spent (history ++ [tx]) key
  agree : ∀ key value, reading.own key → reading.pays tx key value →
    ∀ other, reading.Paid (history ++ [tx]) key other → other = value
  drops : ∀ key, reading.own key → reading.removes tx key → ¬ reading.spends tx key →
    (∀ value, ¬ reading.pays tx key value) → ∀ value, ¬ reading.Unspent history key value
  keyed : ∀ key value, reading.own key → reading.spends tx key → reading.Unspent history key value →
    reading.removes tx key

variable {reading} {history}

theorem paid_append_iff {later : List τ} {key : κ} {value : ν} :
    reading.Paid (history ++ later) key value ↔ reading.Paid history key value ∨ reading.Paid later key value := by
  simp only [Paid, List.mem_append, or_and_right, exists_or]

theorem spent_append_iff {later : List τ} {key : κ} :
    reading.Spent (history ++ later) key ↔ reading.Spent history key ∨ reading.Spent later key := by
  simp only [Spent, List.mem_append, or_and_right, exists_or]

@[simp] theorem paid_singleton {tx : τ} {key : κ} {value : ν} :
    reading.Paid [tx] key value ↔ reading.pays tx key value := by
  simp [Paid]

@[simp] theorem spent_singleton {tx : τ} {key : κ} : reading.Spent [tx] key ↔ reading.spends tx key := by
  simp [Spent]

theorem matches_nil : reading.Matches [] fun _ => none :=
  fun _ _ _ => ⟨fun present => (nomatch present), fun ⟨⟨_, member, _⟩, _⟩ => (nomatch member)⟩

/-- A key that the last transaction does not pay keeps its unspent values unless they are spent. -/
theorem unspent_append_of_not_pays {tx : τ} {key : κ} (unpaid : ∀ value, ¬ reading.pays tx key value) (value : ν) :
    reading.Unspent (history ++ [tx]) key value ↔ reading.Unspent history key value ∧ ¬ reading.spends tx key := by
  simp only [Unspent, paid_append_iff, spent_append_iff, paid_singleton, spent_singleton, unpaid value, or_false,
    not_or, and_assoc]

section Step

variable [DecidableEq κ] {tx : τ} {table next : κ → Option ν} {removals stores : List (κ × Option ν)}

/-- The writes of a transaction, on its own keys. -/
structure Writes (reading : Reading τ κ ν) (tx : τ) (removals stores : List (κ × Option ν)) : Prop where
  removals_iff : ∀ key, reading.own key → ∀ write, (key, write) ∈ removals ↔ write = none ∧ reading.removes tx key
  stores_iff : ∀ key, reading.own key → ∀ write,
    (key, write) ∈ stores ↔ ∃ value, write = some value ∧ reading.pays tx key value

/-- The last write to an own key: a value that the transaction pays, or a removal, or none. -/
theorem Writes.last (writes : Writes reading tx removals stores) {key : κ} (own : reading.own key) :
    (∃ value, reading.pays tx key value ∧ lastWrite (removals ++ stores) key = some (some value)) ∨
      (∀ value, ¬ reading.pays tx key value) ∧
        ((reading.removes tx key ∧ lastWrite (removals ++ stores) key = some none) ∨
          (¬ reading.removes tx key ∧ lastWrite (removals ++ stores) key = none)) := by
  rw [lastWrite_append]
  cases atStores : lastWrite stores key with
  | some write =>
    obtain ⟨value, rfl, pays⟩ := (writes.stores_iff key own write).mp (mem_of_lastWrite atStores)
    exact .inl ⟨value, pays, rfl⟩
  | none =>
    have unpaid (value : ν) : ¬ reading.pays tx key value := fun pays =>
      lastWrite_eq_none_iff.mp atStores _ ((writes.stores_iff key own _).mpr ⟨value, rfl, pays⟩) rfl
    refine .inr ⟨unpaid, ?_⟩
    cases atRemovals : lastWrite removals key with
    | some write =>
      obtain ⟨rfl, removes⟩ := (writes.removals_iff key own write).mp (mem_of_lastWrite atRemovals)
      exact .inl ⟨removes, rfl⟩
    | none =>
      refine .inr ⟨fun removes => ?_, rfl⟩
      exact lastWrite_eq_none_iff.mp atRemovals _ ((writes.removals_iff key own _).mpr ⟨rfl, removes⟩) rfl

/-- The table stays right through a transaction exactly when the transaction settles. -/
theorem Matches.append_iff (matched : reading.Matches history table) (writes : Writes reading tx removals stores)
    (after : ∀ key, reading.own key → next key = (lastWrite (removals ++ stores) key).getD (table key)) :
    reading.Matches (history ++ [tx]) next ↔ reading.Settles history tx := by
  constructor
  · intro matched'
    have entry (key : κ) (value : ν) (own : reading.own key) (pays : reading.pays tx key value) :
        ∃ stored, next key = some stored := by
      rcases writes.last own with ⟨stored, -, last⟩ | ⟨unpaid, -⟩
      · exact ⟨stored, by rw [after key own, last, Option.getD_some]⟩
      · exact absurd pays (unpaid value)
    have fresh (key : κ) (value : ν) (own : reading.own key) (pays : reading.pays tx key value) :
        ¬ reading.Spent (history ++ [tx]) key := by
      obtain ⟨stored, present⟩ := entry key value own pays
      exact ((matched' key own stored).mp present).2
    refine ⟨fresh, fun key value own pays other paid => ?_, fun key own removes unspends unpaid value unspent => ?_,
      fun key value own spends unspent => ?_⟩
    · have unspent := fresh key value own pays
      have first := (matched' key own value).mpr ⟨paid_append_iff.mpr (.inr (paid_singleton.mpr pays)), unspent⟩
      have second := (matched' key own other).mpr ⟨paid, unspent⟩
      exact Option.some.inj (second.symm.trans first)
    · have present := (matched' key own value).mpr ((unspent_append_of_not_pays unpaid value).mpr ⟨unspent, unspends⟩)
      rcases writes.last own with ⟨stored, pays, -⟩ | ⟨-, ⟨-, last⟩ | ⟨kept, -⟩⟩
      · exact unpaid stored pays
      · rw [after key own, last] at present
        cases present
      · exact kept removes
    · rcases writes.last own with ⟨stored, pays, -⟩ | ⟨unpaid, ⟨removes, -⟩ | ⟨-, last⟩⟩
      · exact absurd (spent_append_iff.mpr (.inr (spent_singleton.mpr spends))) (fresh key stored own pays)
      · exact removes
      · have present := (matched key own value).mpr unspent
        have there : next key = some value := by rw [after key own, last, Option.getD_none, present]
        exact absurd spends ((unspent_append_of_not_pays unpaid value).mp ((matched' key own value).mp there)).2
  · intro settles key own value
    rw [after key own]
    rcases writes.last own with ⟨stored, pays, last⟩ | ⟨unpaid, ⟨removes, last⟩ | ⟨kept, last⟩⟩
    · rw [last, Option.getD_some]
      constructor
      · intro same
        cases same
        exact ⟨paid_append_iff.mpr (.inr (paid_singleton.mpr pays)), settles.fresh key _ own pays⟩
      · intro unspent
        rw [settles.agree key stored own pays value unspent.1]
    · rw [last, Option.getD_some, unspent_append_of_not_pays unpaid]
      refine ⟨fun present => (nomatch present), fun ⟨unspent, unspends⟩ => ?_⟩
      exact absurd unspent (settles.drops key own removes unspends unpaid value)
    · rw [last, Option.getD_none, matched key own, unspent_append_of_not_pays unpaid]
      refine ⟨fun unspent => ⟨unspent, fun spends => ?_⟩, And.left⟩
      exact kept (settles.keyed key value own spends unspent)

end Step

/-- Writes that repeat the table leave it as it is, on its own keys. -/
theorem Matches.repeat_iff [DecidableEq κ] {table next : κ → Option ν} {writes : List (κ × Option ν)}
    (matched : reading.Matches history table)
    (after : ∀ key, reading.own key → next key = (lastWrite writes key).getD (table key)) :
    reading.Matches history next ↔ ∀ key, reading.own key → ∀ write, lastWrite writes key = some write →
      ∀ value, write = some value ↔ reading.Unspent history key value := by
  constructor
  · intro matched' key own write last value
    rw [← matched' key own, after key own, last, Option.getD_some]
  · intro repeated key own value
    rw [after key own]
    cases last : lastWrite writes key with
    | none => rw [Option.getD_none, matched key own]
    | some write => rw [Option.getD_some, repeated key own write last]

end Reading

end PolarCloud.Outputs
