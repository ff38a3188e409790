import Mathlib.Data.List.Nodup

/-! # Maps given by their lookups, and the logs of writes replayed on them

A concurrent map and an embedded key-value store are both observed through lookups alone, so
two maps with the same lookups are one value. Iteration order belongs to the visit and not to
the map: `Enumerates` says that a list visits every entry exactly once. A list of writes is
replayed from left to right; the last write to a key decides its lookup, and a map of maps
replays the writes to each inner map separately.
-/

namespace PolarCloud

universe u v w

/-- A map from keys to values, determined by its lookups. -/
@[ext] structure SyncMap (κ : Type u) (α : Type v) where
  load : κ → Option α

namespace SyncMap

variable {κ : Type u} {α : Type v}

/-- The map with no entries. -/
def empty : SyncMap κ α := ⟨fun _ => none⟩

instance : Inhabited (SyncMap κ α) := ⟨empty⟩

@[simp] theorem load_empty (key : κ) : (empty : SyncMap κ α).load key = none := rfl

/-- A list visits the map when it holds every entry exactly once, in any order. -/
structure Enumerates (order : List (κ × α)) (map : SyncMap κ α) : Prop where
  nodup : (order.map Prod.fst).Nodup
  mem_iff : ∀ key value, (key, value) ∈ order ↔ map.load key = some value

theorem enumerates_empty : Enumerates [] (empty : SyncMap κ α) :=
  ⟨List.nodup_nil, fun key value => by simp⟩

variable [DecidableEq κ]

def store (map : SyncMap κ α) (key : κ) (value : α) : SyncMap κ α :=
  ⟨fun other => if other = key then some value else map.load other⟩

def delete (map : SyncMap κ α) (key : κ) : SyncMap κ α :=
  ⟨fun other => if other = key then none else map.load other⟩

theorem load_store (map : SyncMap κ α) (key other : κ) (value : α) :
    (map.store key value).load other = if other = key then some value else map.load other := rfl

theorem load_delete (map : SyncMap κ α) (key other : κ) :
    (map.delete key).load other = if other = key then none else map.load other := rfl

@[simp] theorem load_store_self (map : SyncMap κ α) (key : κ) (value : α) :
    (map.store key value).load key = some value := if_pos rfl

omit [DecidableEq κ] in
/-- Any order of a visit is a visit. -/
theorem Enumerates.perm {order other : List (κ × α)} {map : SyncMap κ α} (enumerates : Enumerates order map)
    (perm : other.Perm order) : Enumerates other map where
  nodup := (perm.map Prod.fst).nodup_iff.mpr enumerates.nodup
  mem_iff key value := perm.mem_iff.trans (enumerates.mem_iff key value)

/-- A visit before an entry is stored, without that entry, and the new one. -/
theorem Enumerates.overwrite {order : List (κ × α)} {map : SyncMap κ α} (enumerates : Enumerates order map) (key : κ)
    (value : α) : Enumerates ((key, value) :: order.filter fun entry => entry.1 ≠ key) (map.store key value) := by
  refine ⟨List.nodup_cons.mpr ⟨fun listed => ?_, ?_⟩, fun other stored => ?_⟩
  · obtain ⟨entry, member, same⟩ := List.mem_map.mp listed
    simp [same] at member
  · exact enumerates.nodup.sublist (List.filter_sublist.map Prod.fst)
  · rw [load_store, List.mem_cons, List.mem_filter, enumerates.mem_iff]
    by_cases same : other = key
    · simp [same, eq_comm]
    · simp [same]

/-- A visit before an entry is stored, and the new entry. -/
theorem Enumerates.store {order : List (κ × α)} {map : SyncMap κ α} (enumerates : Enumerates order map) {key : κ}
    (fresh : map.load key = none) (value : α) : Enumerates ((key, value) :: order) (map.store key value) := by
  have unlisted : key ∉ order.map Prod.fst := by
    intro listed
    obtain ⟨⟨_, old⟩, member, rfl⟩ := List.mem_map.mp listed
    rw [(enumerates.mem_iff _ _).mp member] at fresh
    cases fresh
  refine ⟨List.nodup_cons.mpr ⟨unlisted, enumerates.nodup⟩, fun other stored => ?_⟩
  rw [load_store, List.mem_cons, enumerates.mem_iff]
  split
  · next same => simp [same, fresh, eq_comm]
  · next apart => simp [apart]

/-- One write: a stored value, or a deletion. -/
def write (map : SyncMap κ α) (key : κ) : Option α → SyncMap κ α
  | some value => map.store key value
  | none => map.delete key

theorem load_write (map : SyncMap κ α) (key other : κ) (value : Option α) :
    (map.write key value).load other = if other = key then value else map.load other := by
  cases value <;> rfl

/-- Replay a log of writes from left to right. -/
def replay (map : SyncMap κ α) (log : List (κ × Option α)) : SyncMap κ α :=
  log.foldl (fun map entry => map.write entry.1 entry.2) map

@[simp] theorem replay_cons (map : SyncMap κ α) (entry : κ × Option α) (log : List (κ × Option α)) :
    map.replay (entry :: log) = (map.write entry.1 entry.2).replay log := rfl

end SyncMap

/-- The last write to a key, if the log writes it at all. -/
def lastWrite {κ : Type u} {β : Type v} [DecidableEq κ] : List (κ × β) → κ → Option β
  | [], _ => none
  | (key, value) :: log, query =>
      (lastWrite log query).or (if query = key then some value else none)

section LastWrite

variable {κ : Type u} {β : Type v} [DecidableEq κ]

theorem lastWrite_append (first second : List (κ × β)) (query : κ) :
    lastWrite (first ++ second) query = (lastWrite second query).or (lastWrite first query) := by
  induction first with
  | nil => simp [lastWrite]
  | cons entry rest ih =>
    obtain ⟨key, value⟩ := entry
    simp only [List.cons_append, lastWrite, ih, Option.or_assoc]

theorem mem_of_lastWrite {log : List (κ × β)} {query : κ} {value : β}
    (last : lastWrite log query = some value) : (query, value) ∈ log := by
  induction log with
  | nil => cases last
  | cons entry rest ih =>
    obtain ⟨key, written⟩ := entry
    simp only [lastWrite, Option.or_eq_some_iff] at last
    rcases last with later | ⟨-, here⟩
    · exact List.mem_cons_of_mem _ (ih later)
    · split at here
      · next same =>
        subst same
        cases here
        exact List.mem_cons_self ..
      · cases here

theorem lastWrite_eq_none_iff {log : List (κ × β)} {query : κ} :
    lastWrite log query = none ↔ ∀ entry ∈ log, entry.1 ≠ query := by
  induction log with
  | nil => simp [lastWrite]
  | cons entry rest ih =>
    obtain ⟨key, written⟩ := entry
    simp only [lastWrite, Option.or_eq_none_iff, ih, List.forall_mem_cons]
    constructor
    · rintro ⟨later, here⟩
      exact ⟨fun same => by simp [same] at here, later⟩
    · rintro ⟨here, later⟩
      exact ⟨later, if_neg (fun same => here same.symm)⟩

end LastWrite

namespace SyncMap

variable {κ : Type u} {α : Type v} [DecidableEq κ]

/-- The last write to a key decides its lookup after a replay. -/
theorem load_replay (map : SyncMap κ α) (log : List (κ × Option α)) (query : κ) :
    (map.replay log).load query = (lastWrite log query).getD (map.load query) := by
  induction log generalizing map with
  | nil => rfl
  | cons entry rest ih =>
    obtain ⟨key, value⟩ := entry
    rw [replay_cons, ih, load_write, lastWrite]
    cases lastWrite rest query with
    | some later => rfl
    | none => by_cases same : query = key <;> simp [same]

theorem replay_append (map : SyncMap κ α) (first second : List (κ × Option α)) :
    map.replay (first ++ second) = (map.replay first).replay second := List.foldl_append

/-- A replay leaves the map as it was exactly when the last write to each key repeats what is there. -/
theorem replay_eq_self_iff (map : SyncMap κ α) (log : List (κ × Option α)) :
    map.replay log = map ↔ ∀ key value, lastWrite log key = some value → map.load key = value := by
  constructor
  · intro same key value last
    have replayed := load_replay map log key
    rw [same, last, Option.getD_some] at replayed
    exact replayed
  · intro repeats
    apply SyncMap.ext
    funext key
    rw [load_replay]
    cases last : lastWrite log key with
    | none => rfl
    | some value => exact (repeats key value last).symm

section Nested

variable {ι : Type w} [DecidableEq ι]

/-- The entry of a map of maps under an outer and an inner key. -/
def entry (map : SyncMap κ (SyncMap ι α)) (outer : κ) (inner : ι) : Option α :=
  (map.load outer).bind (fun row => row.load inner)

/-- Write one entry of a map of maps, creating the inner map when it is missing. -/
def writeEntry (map : SyncMap κ (SyncMap ι α)) (outer : κ) (inner : ι) (value : Option α) :
    SyncMap κ (SyncMap ι α) :=
  map.store outer (((map.load outer).getD empty).write inner value)

/-- Replay a log of entry writes from left to right. -/
def replayEntries (map : SyncMap κ (SyncMap ι α)) (log : List ((κ × ι) × Option α)) :
    SyncMap κ (SyncMap ι α) :=
  log.foldl (fun map entry => map.writeEntry entry.1.1 entry.1.2 entry.2) map

@[simp] theorem replayEntries_nil (map : SyncMap κ (SyncMap ι α)) : map.replayEntries [] = map := rfl

theorem replayEntries_append (map : SyncMap κ (SyncMap ι α)) (first second : List ((κ × ι) × Option α)) :
    map.replayEntries (first ++ second) = (map.replayEntries first).replayEntries second :=
  List.foldl_append

theorem entry_writeEntry (map : SyncMap κ (SyncMap ι α)) (outer : κ) (inner : ι) (value : Option α)
    (query : κ × ι) :
    (map.writeEntry outer inner value).entry query.1 query.2 =
      if query = (outer, inner) then value else map.entry query.1 query.2 := by
  obtain ⟨row, column⟩ := query
  simp only [entry, writeEntry, load_store, Prod.mk.injEq]
  by_cases sameRow : row = outer
  · subst sameRow
    simp only [if_pos, Option.bind_some, load_write, true_and]
    cases map.load row <;> rfl
  · simp only [sameRow, if_false, false_and]

/-- The last write to an entry decides it after a replay. -/
theorem entry_replayEntries (map : SyncMap κ (SyncMap ι α)) (log : List ((κ × ι) × Option α))
    (query : κ × ι) :
    (map.replayEntries log).entry query.1 query.2 =
      (lastWrite log query).getD (map.entry query.1 query.2) := by
  induction log generalizing map with
  | nil => rfl
  | cons head rest ih =>
    obtain ⟨⟨outer, inner⟩, value⟩ := head
    change ((map.writeEntry outer inner value).replayEntries rest).entry _ _ = _
    rw [ih, entry_writeEntry, lastWrite]
    cases lastWrite rest query with
    | some later => rfl
    | none => by_cases same : query = (outer, inner) <;> simp [same]

/-- A replay keeps every inner map and creates one for each outer key it writes. -/
theorem isSome_load_replayEntries (map : SyncMap κ (SyncMap ι α)) (log : List ((κ × ι) × Option α))
    (outer : κ) :
    ((map.replayEntries log).load outer).isSome ↔
      (map.load outer).isSome ∨ ∃ write ∈ log, write.1.1 = outer := by
  induction log generalizing map with
  | nil => simp
  | cons head rest ih =>
    change (((map.writeEntry head.1.1 head.1.2 head.2).replayEntries rest).load outer).isSome ↔ _
    rw [ih, writeEntry, load_store]
    by_cases same : outer = head.1.1
    · simp [same]
    · simp [same, Ne.symm same]

omit [DecidableEq κ] [DecidableEq ι] in
/-- Maps of maps agree when they have the same inner maps and the same entries. -/
theorem ext_entry {left right : SyncMap κ (SyncMap ι α)}
    (rows : ∀ outer, (left.load outer).isSome ↔ (right.load outer).isSome)
    (entries : ∀ outer inner, left.entry outer inner = right.entry outer inner) : left = right := by
  apply SyncMap.ext
  funext outer
  have same := rows outer
  cases atLeft : left.load outer with
  | none =>
    rw [atLeft] at same
    exact (Option.not_isSome_iff_eq_none.mp (fun present => by simpa using same.mpr present)).symm
  | some leftRow =>
    obtain ⟨rightRow, atRight⟩ := Option.isSome_iff_exists.mp (same.mp (by simp [atLeft]))
    rw [atRight]
    congr 1
    apply SyncMap.ext
    funext inner
    simpa [entry, atLeft, atRight] using entries outer inner

/-- A replay leaves the map as it was exactly when every row it writes is there and the last
write to each entry repeats what the entry holds. -/
theorem replayEntries_eq_self_iff (map : SyncMap κ (SyncMap ι α)) (log : List ((κ × ι) × Option α)) :
    map.replayEntries log = map ↔
      (∀ write ∈ log, (map.load write.1.1).isSome) ∧
        ∀ query value, lastWrite log query = some value → map.entry query.1 query.2 = value := by
  constructor
  · intro same
    refine ⟨fun write member => ?_, fun query value last => ?_⟩
    · have present := (isSome_load_replayEntries map log write.1.1).mpr (.inr ⟨write, member, rfl⟩)
      rwa [same] at present
    · have replayed := entry_replayEntries map log query
      rw [same, last, Option.getD_some] at replayed
      exact replayed
  · rintro ⟨rows, entries⟩
    apply ext_entry
    · intro outer
      rw [isSome_load_replayEntries]
      exact or_iff_left_of_imp (fun ⟨write, member, same⟩ => same ▸ rows write member)
    · intro outer inner
      rw [entry_replayEntries map log (outer, inner)]
      cases last : lastWrite log (outer, inner) with
      | none => rfl
      | some value => exact (entries _ _ last).symm

end Nested

end SyncMap

end PolarCloud
