import Mathlib.Data.Finset.Dedup
import Mathlib.Data.Finset.Card
import Mathlib.Data.List.Nodup

/-! # Entries in the order of their last use

Entries with different keys, the one that was used last in front: a use puts the entry in front, and only as many are
kept as there is room for. What falls out at the end has no influence on what is kept later, so the entries that are
kept are the first ones of all that were ever used: those since whose last use fewer other keys were used than there
is room for.
-/

namespace PolarCloud.Recency

universe u v

variable {κ : Type u} {α : Type v}

def keys (entries : List (κ × α)) : List κ := entries.map Prod.fst

/-- The first entries, as many as there is room for. -/
def keep (room : Option ℕ) (entries : List (κ × α)) : List (κ × α) :=
  match room with
  | none => entries
  | some n => entries.take n

theorem keep_sublist (room : Option ℕ) (entries : List (κ × α)) : (keep room entries).Sublist entries := by
  cases room with
  | none => exact List.Sublist.refl _
  | some n => exact List.take_sublist ..

theorem keep_some_iff {n : ℕ} {entries : List (κ × α)} : keep (some n) entries = entries ↔ entries.length ≤ n :=
  List.take_eq_self_iff _

theorem keep_keep (room : Option ℕ) (entries : List (κ × α)) : keep room (keep room entries) = keep room entries := by
  cases room with
  | none => rfl
  | some n => rw [keep, keep, List.take_take, min_self]

@[simp] theorem keep_nil (room : Option ℕ) : keep room ([] : List (κ × α)) = [] := by
  cases room <;> simp [keep]

theorem keep_sublist_eq {room : Option ℕ} {entries some_ : List (κ × α)} (fits : keep room entries = entries)
    (sublist : some_.Sublist entries) : keep room some_ = some_ := by
  cases room with
  | none => rfl
  | some n => exact keep_some_iff.mpr (sublist.length_le.trans (keep_some_iff.mp fits))

section Uses

variable [DecidableEq κ]

def drop (key : κ) (entries : List (κ × α)) : List (κ × α) := entries.filter fun entry => entry.1 ≠ key

def find (key : κ) (entries : List (κ × α)) : Option α := (entries.find? fun entry => entry.1 = key).map Prod.snd

/-- An entry is used: it is in front now, in the place of any other with its key. -/
def touch (key : κ) (value : α) (entries : List (κ × α)) : List (κ × α) := (key, value) :: drop key entries

/-- All entries that were ever used, by their last uses. -/
def recents (uses : List (κ × α)) : List (κ × α) := uses.foldl (fun entries use => touch use.1 use.2 entries) []

variable {key other : κ} {value : α} {entries uses : List (κ × α)} {room : Option ℕ}

theorem mem_keys_drop : other ∈ keys (drop key entries) ↔ other ∈ keys entries ∧ other ≠ key := by
  simp only [keys, drop, List.mem_map, List.mem_filter, decide_eq_true_eq]
  constructor
  · rintro ⟨entry, ⟨member, apart⟩, rfl⟩
    exact ⟨⟨entry, member, rfl⟩, apart⟩
  · rintro ⟨⟨entry, member, rfl⟩, apart⟩
    exact ⟨entry, ⟨member, apart⟩, rfl⟩

theorem drop_eq_self (absent : key ∉ keys entries) : drop key entries = entries := by
  refine List.filter_eq_self.mpr fun entry member => decide_eq_true fun same => absent ?_
  exact List.mem_map.mpr ⟨entry, member, same⟩

theorem nodup_drop (nodup : (keys entries).Nodup) (key : κ) : (keys (drop key entries)).Nodup :=
  nodup.sublist (List.filter_sublist.map Prod.fst)

theorem nodup_touch (nodup : (keys entries).Nodup) (key : κ) (value : α) : (keys (touch key value entries)).Nodup :=
  List.nodup_cons.mpr ⟨fun member => (mem_keys_drop.mp member).2 rfl, nodup_drop nodup key⟩

omit [DecidableEq κ] in
theorem nodup_keep (nodup : (keys entries).Nodup) (room : Option ℕ) : (keys (keep room entries)).Nodup :=
  nodup.sublist ((keep_sublist room entries).map Prod.fst)

theorem find_eq_some_iff (nodup : (keys entries).Nodup) : find key entries = some value ↔ (key, value) ∈ entries := by
  induction entries with
  | nil => simp [find]
  | cons entry rest ih =>
    obtain ⟨first, held⟩ := entry
    obtain ⟨absent, nodup⟩ : first ∉ keys rest ∧ (keys rest).Nodup := List.nodup_cons.mp nodup
    obtain rfl | apart := eq_or_ne first key
    · have unlisted : (first, value) ∉ rest := fun member => absent (List.mem_map.mpr ⟨_, member, rfl⟩)
      simp [find, unlisted, eq_comm]
    · have same : find key ((first, held) :: rest) = find key rest := by simp [find, apart]
      rw [same, ih nodup]
      simp [apart.symm]

theorem find_eq_none_iff : find key entries = none ↔ key ∉ keys entries := by
  simp only [find, keys, Option.map_eq_none_iff, List.find?_eq_none, decide_eq_true_eq, List.mem_map, not_exists,
    not_and]

theorem drop_concat (nodup : (keys (entries ++ [(key, value)])).Nodup) :
    drop key (entries ++ [(key, value)]) = entries := by
  rw [keys, List.map_append, List.map_singleton] at nodup
  have absent : key ∉ keys entries := by
    intro member
    exact List.disjoint_of_nodup_append nodup member (List.mem_singleton_self _)
  have gone : drop key (entries ++ [(key, value)]) = drop key entries := by simp [drop]
  rw [gone, drop_eq_self absent]

/-- An entry that is used again takes no more room. -/
theorem keep_touch_of_find {value' : α} (fits : keep room entries = entries) (known : find key entries = some value') :
    keep room (touch key value entries) = touch key value entries := by
  cases room with
  | none => rfl
  | some n =>
    have fewer : (drop key entries).length < entries.length := by
      obtain ⟨one, found, -⟩ := Option.map_eq_some_iff.mp known
      refine List.length_filter_lt_length_iff_exists.mpr ⟨one, List.mem_of_find?_eq_some found, ?_⟩
      simpa using List.find?_some found
    exact keep_some_iff.mpr (fewer.trans_le (keep_some_iff.mp fits))

/-- Among entries of different keys, one is dropped at most. -/
theorem take_drop_take (nodup : (keys entries).Nodup) (n : ℕ) :
    (drop key (entries.take (n + 1))).take n = (drop key entries).take n := by
  induction entries generalizing n with
  | nil => simp
  | cons entry rest ih =>
    obtain ⟨absent, nodup⟩ := List.nodup_cons.mp nodup
    rw [List.take_succ_cons]
    obtain rfl | apart := eq_or_ne entry.1 key
    · have front : entry.1 ∉ keys (rest.take n) :=
        fun member => absent (((List.take_sublist n rest).map Prod.fst).subset member)
      have gone (others : List (κ × α)) : drop entry.1 (entry :: others) = drop entry.1 others := by simp [drop]
      rw [gone, gone, drop_eq_self front, drop_eq_self absent, List.take_take, min_self]
    · have stays (others : List (κ × α)) : drop key (entry :: others) = entry :: drop key others := by
        simp [drop, apart]
      rw [stays, stays]
      cases n with
      | zero => rfl
      | succ n => rw [List.take_succ_cons, List.take_succ_cons, ih nodup]

/-- What has fallen out has no influence on what is kept after another use. -/
theorem keep_touch_keep (nodup : (keys entries).Nodup) (room : Option ℕ) (key : κ) (value : α) :
    keep room (touch key value (keep room entries)) = keep room (touch key value entries) := by
  match room with
  | none => rfl
  | some 0 => rfl
  | some (n + 1) => exact congrArg ((key, value) :: ·) (take_drop_take nodup n)

theorem recents_concat (uses : List (κ × α)) (key : κ) (value : α) :
    recents (uses ++ [(key, value)]) = touch key value (recents uses) := by
  simp [recents, List.foldl_append]

theorem nodup_recents (uses : List (κ × α)) : (keys (recents uses)).Nodup := by
  induction uses using List.reverseRecOn with
  | nil => exact List.nodup_nil
  | append_singleton uses use ih => exact recents_concat uses use.1 use.2 ▸ nodup_touch ih use.1 use.2

/-- Later uses come before earlier ones. -/
theorem recents_append (before after : List (κ × α)) : recents (before ++ after) =
    recents after ++ (recents before).filter fun entry => entry.1 ∉ keys after := by
  induction after using List.reverseRecOn with
  | nil => simp [recents, keys]
  | append_singleton after use ih =>
    obtain ⟨key, value⟩ := use
    rw [← List.append_assoc, recents_concat, recents_concat, ih, touch, touch, List.cons_append]
    congr 1
    simp only [drop, List.filter_append, List.filter_filter]
    congr 1
    refine List.filter_congr fun entry _ => ?_
    rw [← Bool.decide_and, decide_eq_decide]
    simp only [keys, List.map_append, List.map_cons, List.map_nil, List.mem_append, List.mem_singleton, not_or,
      and_comm]

theorem mem_keys_recents : key ∈ keys (recents uses) ↔ key ∈ keys uses := by
  induction uses using List.reverseRecOn with
  | nil => exact Iff.rfl
  | append_singleton uses use ih =>
    obtain ⟨last, value⟩ := use
    have first : key ∈ keys (touch last value (recents uses)) ↔ key = last ∨ key ∈ keys (drop last (recents uses)) :=
      List.mem_cons
    rw [recents_concat, first, mem_keys_drop, ih]
    simp only [keys, List.map_append, List.mem_append, List.map_cons, List.map_nil, List.mem_singleton]
    tauto

/-- There are as many entries as keys that were used. -/
theorem length_recents (uses : List (κ × α)) : (recents uses).length = (keys uses).toFinset.card := by
  have same : (keys (recents uses)).toFinset = (keys uses).toFinset := by
    ext key
    simp only [List.mem_toFinset, mem_keys_recents]
  rw [← same, List.toFinset_card_of_nodup (nodup_recents uses), keys, List.length_map]

/-- A use is the last one of its key, and fewer other keys were used since than there is room for. -/
def Recent (room : Option ℕ) (key : κ) (used : List κ) : Prop :=
  ∃ before after, used = before ++ key :: after ∧ key ∉ after ∧ ∀ n, room = some n → after.toFinset.card < n

omit [DecidableEq κ] in
/-- The last use of a key, and what was used before and after. -/
theorem exists_last (member : key ∈ keys uses) :
    ∃ before value after, uses = before ++ (key, value) :: after ∧ key ∉ keys after := by
  induction uses with
  | nil => exact absurd member List.not_mem_nil
  | cons use rest ih =>
    obtain later | alone := em (key ∈ keys rest)
    · obtain ⟨before, value, after, rfl, absent⟩ := ih later
      exact ⟨use :: before, value, after, rfl, absent⟩
    · obtain rfl := (List.mem_cons.mp member).resolve_right alone
      exact ⟨[], use.2, rest, rfl, alone⟩

/-- An entry stands behind those that were used since. -/
theorem recents_last (before after : List (κ × α)) (value : α) (absent : key ∉ keys after) : ∃ rest,
    recents (before ++ (key, value) :: after) = recents after ++ (key, value) :: rest := by
  have split : before ++ (key, value) :: after = before ++ [(key, value)] ++ after := by simp
  rw [split, recents_append, recents_concat, touch, List.filter_cons, if_pos (decide_eq_true absent)]
  exact ⟨_, rfl⟩

omit [DecidableEq κ] in
theorem mem_take_append_cons {front rest : List κ} (absent : key ∉ front) (n : ℕ) :
    key ∈ (front ++ key :: rest).take n ↔ front.length < n := by
  rw [List.take_append, List.mem_append]
  constructor
  · rintro (early | late)
    · exact absurd ((List.take_sublist ..).subset early) absent
    · refine Nat.lt_of_not_le fun short => ?_
      rw [Nat.sub_eq_zero_of_le short, List.take_zero] at late
      exact absurd late List.not_mem_nil
  · intro fits
    obtain ⟨more, eq⟩ : ∃ more, n - front.length = more + 1 := ⟨n - front.length - 1, by omega⟩
    rw [eq, List.take_succ_cons]
    exact .inr (List.mem_cons_self ..)

theorem mem_keys_keep_last (before after : List (κ × α)) (absent : key ∉ keys after) :
    key ∈ keys (keep room (recents (before ++ (key, value) :: after))) ↔
      ∀ n, room = some n → (keys after).toFinset.card < n := by
  obtain ⟨rest, placed⟩ := recents_last before after value absent
  have unlisted : key ∉ keys (recents after) := fun member => absent (mem_keys_recents.mp member)
  rw [placed, ← length_recents]
  cases room with
  | none => simp [keep, keys]
  | some n =>
    have placed : keys (keep (some n) (recents after ++ (key, value) :: rest)) =
        (keys (recents after) ++ key :: keys rest).take n := by simp [keep, keys, List.map_take]
    rw [placed, mem_take_append_cons unlisted n, keys, List.length_map]
    constructor
    · rintro fits _ ⟨⟩
      exact fits
    · exact fun fits => fits n rfl

/-- The keys that are kept are those of recent uses. -/
theorem mem_keys_keep_recents_iff : key ∈ keys (keep room (recents uses)) ↔ Recent room key (keys uses) := by
  constructor
  · intro kept
    have listed : key ∈ keys (recents uses) := ((keep_sublist room _).map Prod.fst).subset kept
    obtain ⟨before, value, after, rfl, absent⟩ := exists_last (mem_keys_recents.mp listed)
    exact ⟨keys before, keys after, by simp [keys], absent, (mem_keys_keep_last before after absent).mp kept⟩
  · rintro ⟨before, after, same, absent, fits⟩
    obtain ⟨early, later, rfl, rfl, rest⟩ := List.map_eq_append_iff.mp same
    obtain ⟨⟨_, value⟩, late, rfl, rfl, rfl⟩ := List.map_eq_cons_iff.mp rest
    exact (mem_keys_keep_last early late absent).mpr fits

end Uses

end PolarCloud.Recency
