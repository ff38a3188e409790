import PolarCloud.Base.Replay
import PolarCloud.Model.CacheStore.Name

/-! # The addresses of a name as a set

An address is deleted by copying what stands before it into a slice without room, and appending what stands behind it.
So whatever stands before a deleted address is lost with it.
-/

namespace PolarCloud.CacheStore.Name

def pairs (this : Name) : List (Multihash × Multihash) := this.ids.map TempId.pair

/-- What a call should make of a set of pairs, which is kept in the order of insertion. -/
def expected (pairs : List (Multihash × Multihash)) : Call → List (Multihash × Multihash)
  | .addId sid pid _ => if (sid, pid) ∈ pairs then pairs else pairs ++ [(sid, pid)]
  | .delId sid pid => pairs.erase (sid, pid)

/-- After any number of the calls a name holds the pairs that were added and not deleted since, each once and in the
order of insertion; only absent ones are added, and the deletion of an absent one changes nothing. -/
structure SetLike (this : Name) (calls : List Call) : Prop where
  ids : ∀ front back, calls = front ++ back → ∃ name, front.foldl step (some this) = some name ∧
    name.pairs.Nodup ∧ name.pairs = front.foldl expected this.pairs
  added : ∀ front sid pid now back, calls = front ++ .addId sid pid now :: back → ∃ name after,
    front.foldl step (some this) = some name ∧ name.addId sid pid now = some (decide ((sid, pid) ∉ name.pairs), after)
  absent : ∀ front sid pid back, calls = front ++ .delId sid pid :: back → ∃ name,
    front.foldl step (some this) = some name ∧ ((sid, pid) ∉ name.pairs → name.delId sid pid = some name)

/-- A pair that is deleted is the first one. -/
def FirstOnly (this : Name) : Call → Prop
  | .addId _ _ _ => True
  | .delId sid pid => (sid, pid) ∈ this.pairs → this.pairs.head? = some (sid, pid)

/-- A call makes of the pairs what it should. -/
def Follows (state : Option Name) (call : Call) : Prop :=
  ∃ name after, state = some name ∧ name.call call = some after ∧ after.pairs = expected name.pairs call

variable {this name after : Name} {sid pid : Multihash} {now : ℤ} {call : Call}

/-- What stands behind an item is all but the item exactly when it is the first. -/
theorem drop_idxOf_iff {α : Type} [BEq α] [LawfulBEq α] {items : List α} {item : α} (mem : item ∈ items) :
    items.drop (items.idxOf item + 1) = items.erase item ↔ items.head? = some item := by
  constructor
  · intro same
    have lengths := congrArg List.length same
    have inside := List.idxOf_lt_length_of_mem mem
    rw [List.length_drop, List.length_erase_of_mem mem] at lengths
    have zero : items.idxOf item = 0 := by omega
    rw [List.head?_eq_getElem?, ← zero]
    exact List.getElem?_idxOf mem
  · intro first
    obtain ⟨rest, rfl⟩ := List.head?_eq_some_iff.mp first
    rw [List.idxOf_cons_self, List.erase_cons_head]
    rfl

theorem copy_nil {α : Type} (src : List α) : copy [] src = [] := by simp [copy]

theorem any_pair_iff : (this.ids.any fun one => one.pair = (sid, pid)) = true ↔ (sid, pid) ∈ this.pairs := by
  rw [List.any_eq_true, pairs, List.mem_map]
  simp only [decide_eq_true_eq]

theorem findIdx?_pair (ids : List TempId) (pair : Multihash × Multihash) : (ids.findIdx? fun one => one.pair = pair) =
    if pair ∈ ids.map TempId.pair then some ((ids.map TempId.pair).idxOf pair) else none := by
  induction ids with
  | nil => rfl
  | cons one ids ih =>
    rw [List.findIdx?_cons, ih, List.map_cons, List.idxOf_cons]
    by_cases same : one.pair = pair
    · simp [same]
    · have differs : pair ≠ one.pair := Ne.symm same
      have skipped : (one.pair == pair) = false := beq_false_of_ne same
      by_cases mem : pair ∈ ids.map TempId.pair
      · simp [same, mem, skipped]
      · simp [same, mem, differs]

theorem addId_locked (locked : this.lock = true) : ∃ after,
    this.addId sid pid now = some (decide ((sid, pid) ∉ this.pairs), after) ∧ after.lock = true ∧
      after.pairs = expected this.pairs (.addId sid pid now) := by
  rw [addId, if_pos locked, expected]
  by_cases present : (sid, pid) ∈ this.pairs
  · rw [if_pos (any_pair_iff.mpr present), if_pos present]
    exact ⟨this, by simp [present], locked, rfl⟩
  · rw [if_neg (mt any_pair_iff.mp present), if_neg present]
    refine ⟨{ this with ids := this.ids ++ [TempId.newTempId sid pid now] }, by rw [decide_eq_true present], locked, ?_⟩
    exact List.map_append

theorem delId_locked (locked : this.lock = true) : ∃ after, this.delId sid pid = some after ∧ after.lock = true ∧
    ((sid, pid) ∉ this.pairs → after = this) ∧
    ((sid, pid) ∈ this.pairs → after.pairs = this.pairs.drop (this.pairs.idxOf (sid, pid) + 1)) := by
  rw [delId, if_pos locked, findIdx?_pair, ← pairs]
  by_cases present : (sid, pid) ∈ this.pairs
  · rw [if_pos present]
    refine ⟨_, rfl, locked, fun absent => absurd present absent, fun _ => ?_⟩
    rw [copy_nil, List.nil_append]
    exact List.map_drop
  · rw [if_neg present]
    exact ⟨this, rfl, locked, fun _ => rfl, fun mem => absurd mem present⟩

/-- With a lock nothing panics, and the lock stays. -/
theorem call_locked (locked : this.lock = true) (call : Call) :
    ∃ after, this.call call = some after ∧ after.lock = true := by
  cases call with
  | addId sid pid now =>
    obtain ⟨after, called, kept, -⟩ := @addId_locked this sid pid now locked
    exact ⟨after, by rw [Name.call, called]; rfl, kept⟩
  | delId sid pid =>
    obtain ⟨after, called, kept, -⟩ := @delId_locked this sid pid locked
    exact ⟨after, called, kept⟩

/-- Exactly the deletions of a pair that is not the first lose others. -/
theorem follows_iff (locked : this.lock = true) (call : Call) : Follows (some this) call ↔ this.FirstOnly call := by
  cases call with
  | addId sid pid now =>
    obtain ⟨after, called, -, pairs⟩ := @addId_locked this sid pid now locked
    exact iff_of_true ⟨this, after, rfl, by rw [Name.call, called]; rfl, pairs⟩ trivial
  | delId sid pid =>
    obtain ⟨after, called, -, absent, present⟩ := @delId_locked this sid pid locked
    have follows : Follows (some this) (.delId sid pid) ↔ after.pairs = this.pairs.erase (sid, pid) := by
      constructor
      · rintro ⟨_, other, ⟨⟩, called', same⟩
        cases called.symm.trans called'
        exact same
      · exact fun same => ⟨this, after, rfl, called, same⟩
    rw [follows, FirstOnly]
    by_cases mem : (sid, pid) ∈ this.pairs
    · rw [present mem, drop_idxOf_iff mem]
      exact ⟨fun first _ => first, fun first => first mem⟩
    · rw [absent mem, List.erase_of_not_mem mem]
      exact iff_of_true rfl fun present => absurd present mem

theorem nodup_expected {list : List (Multihash × Multihash)} (nodup : list.Nodup) (call : Call) :
    (expected list call).Nodup := by
  cases call with
  | addId sid pid now =>
    rw [expected]
    split
    · exact nodup
    · next absent =>
      rw [← List.concat_eq_append]
      exact nodup.concat absent
  | delId sid pid => exact nodup.erase _

/-! ## Every sequence of calls -/

/-- With a lock every call returns. -/
theorem run_locked (locked : this.lock = true) (calls : List Call) :
    ∃ name, calls.foldl step (some this) = some name ∧ name.lock = true := by
  induction calls using List.reverseRecOn with
  | nil => exact ⟨this, rfl, locked⟩
  | append_singleton calls call ih =>
    obtain ⟨name, reached, locked⟩ := ih
    rw [Replay.foldl_concat, reached]
    exact call_locked locked call

/-- The addresses are a set in the end exactly when they are at first, and every call does to them what it should. -/
theorem setLike_iff_each (locked : this.lock = true) (calls : List Call) :
    this.SetLike calls ↔ this.pairs.Nodup ∧ Replay.Each step (some this) Follows calls := by
  constructor
  · intro setLike
    constructor
    · obtain ⟨_, ⟨⟩, nodup, -⟩ := setLike.ids [] calls rfl
      exact nodup
    · rintro front call back rfl
      obtain ⟨name, reached, -, pairs⟩ := setLike.ids front (call :: back) rfl
      obtain ⟨after, called, -, pairs'⟩ := setLike.ids (front ++ [call]) back (by rw [List.append_assoc]; rfl)
      rw [Replay.foldl_concat, reached] at called
      rw [Replay.foldl_concat, ← pairs] at pairs'
      exact ⟨name, after, reached, called, pairs'⟩
  · rintro ⟨nodup, each⟩
    constructor
    · rintro front back rfl
      induction front using List.reverseRecOn generalizing back with
      | nil => exact ⟨this, rfl, nodup, rfl⟩
      | append_singleton front call ih =>
        rw [List.append_assoc] at each
        obtain ⟨name, reached, nodup, pairs⟩ := ih (call :: back) each
        obtain ⟨_, after, same, called, followed⟩ := each front call back rfl
        cases reached.symm.trans same
        rw [Replay.foldl_concat, Replay.foldl_concat, reached, ← pairs]
        exact ⟨after, called, followed ▸ nodup_expected nodup call, followed⟩
    · intro front sid pid now back split
      obtain ⟨name, reached, locked⟩ := run_locked locked front
      obtain ⟨after, called, -⟩ := @addId_locked name sid pid now locked
      exact ⟨name, after, reached, called⟩
    · intro front sid pid back split
      obtain ⟨name, reached, locked⟩ := run_locked locked front
      obtain ⟨after, called, -, absent, -⟩ := @delId_locked name sid pid locked
      exact ⟨name, reached, fun out => (absent out) ▸ called⟩

/-- The ids of a name are a set over a sequence of calls exactly when the name has a lock, its pairs are distinct at
first, and every pair that is deleted is the first one. -/
theorem setLike_iff (this : Name) (calls : List Call) : this.SetLike calls ↔
    (this.lock = true ∨ calls = []) ∧ this.pairs.Nodup ∧
      Replay.Each step (some this) (fun state call => ∀ name ∈ state, name.FirstOnly call) calls := by
  by_cases locked : this.lock = true
  · rw [setLike_iff_each locked, and_iff_right (Or.inl locked)]
    refine and_congr_right fun _ => ?_
    refine (@Replay.each_iff_each (Option Name) Call step (some this)
      (fun state => ∃ name, state = some name ∧ name.lock = true) Follows _ (fun _ _ => True) ⟨this, rfl, locked⟩
      ?_ ?_ calls fun _ _ _ _ => trivial).1
    · rintro _ call - ⟨name, rfl, locked⟩ -
      exact call_locked locked call
    · rintro _ call - ⟨name, rfl, locked⟩
      rw [follows_iff locked]
      exact ⟨fun first _ same => by cases same; exact first, fun first => first name rfl⟩
  · cases calls with
    | nil =>
      constructor
      · intro setLike
        obtain ⟨_, ⟨⟩, nodup, -⟩ := setLike.ids [] [] rfl
        exact ⟨.inr rfl, nodup, Replay.each_nil⟩
      · rintro ⟨-, nodup, -⟩
        constructor
        · intro front back split
          cases (List.append_eq_nil_iff.mp split.symm).1
          exact ⟨this, rfl, nodup, rfl⟩
        · exact fun front _ _ _ back split => absurd split.symm (by simp)
        · exact fun front _ _ back split => absurd split.symm (by simp)
    | cons call calls =>
      refine iff_of_false (fun setLike => ?_) fun ⟨here, _⟩ => here.elim locked (List.cons_ne_nil _ _)
      obtain ⟨name, reached, -⟩ := setLike.ids [call] calls rfl
      have panics : step (some this) call = none := by
        cases call with
        | addId sid pid now =>
          rw [step, Option.bind_some, Name.call, addId, if_neg locked]
          rfl
        | delId sid pid => exact if_neg locked
      rw [List.foldl_cons, List.foldl_nil, panics] at reached
      cases reached

/-- Two addresses are added, and the second is deleted; the first is lost. -/
theorem first_lost : ¬ (newName "name" [] []).SetLike [.addId [1] [2] 0, .addId [1] [3] 0, .delId [1] [3]] := by
  intro setLike
  obtain ⟨name, reached, -, pairs⟩ :=
    setLike.ids [.addId [1] [2] 0, .addId [1] [3] 0, .delId [1] [3]] [] rfl
  have empty : [Call.addId [1] [2] 0, .addId [1] [3] 0, .delId [1] [3]].foldl step (some (newName "name" [] [])) =
      some (newName "name" [] []) := by decide
  cases reached.symm.trans empty
  exact absurd pairs (by decide)

end PolarCloud.CacheStore.Name
