import PolarCloud.Base.Answers
import PolarCloud.Base.Recency
import PolarCloud.Model.Utils.Lru

/-! # What a cache holds

Read from the front to the back, the list of a cache has the entries by their last uses. Every call does to these
entries what it says: a value that is added or found is in front, and what does not fit has gone from the back.
-/

namespace PolarCloud.Lru

open Recency Answers

universe u v

variable {κ : Type u} {α : Type v}

/-- How many entries there is room for; zero is no limit. -/
def capacity (maxEntries : ℤ) : Option ℕ := if maxEntries = 0 then none else some maxEntries.toNat

/-- What is kept of the entries when there is one more. -/
theorem keep_capacity_cons {maxEntries : ℤ} {entries : List (κ × α)} {one : κ × α}
    (fits : keep (capacity maxEntries) entries = entries) : keep (capacity maxEntries) (one :: entries) =
      if maxEntries ≠ 0 ∧ maxEntries < (entries.length + 1 : ℕ) then (one :: entries).dropLast else one :: entries := by
  unfold capacity at fits ⊢
  split
  · next unlimited => simp [keep, unlimited]
  · next limited =>
    rw [if_neg limited] at fits
    have short := keep_some_iff.mp fits
    split
    · next full =>
      have length : maxEntries.toNat = (one :: entries).length - 1 := by
        rw [List.length_cons]
        omega
      rw [keep, length, List.dropLast_eq_take]
    · next room =>
      rw [keep_some_iff, List.length_cons]
      omega

/-- The entry of an element. -/
def entryAt (elements : List (Entry κ α)) (ele : ℕ) : Option (κ × α) :=
  elements[ele]?.map fun one => (one.key, one.value)

theorem entryAt_eq_some_iff {elements : List (Entry κ α)} {ele : ℕ} {key : κ} {value : α} :
    entryAt elements ele = some (key, value) ↔ elements[ele]? = some ⟨key, value⟩ := by
  rw [entryAt, Option.map_eq_some_iff]
  constructor
  · rintro ⟨⟨_, _⟩, found, ⟨⟩⟩
    exact found
  · exact fun found => ⟨_, found, rfl⟩

namespace Cache

/-- The list has these entries, and the map the elements of their keys. -/
structure Holds (this : Cache κ α) (entries : List (κ × α)) : Prop where
  listed : this.ll.map (entryAt this.elements) = entries.map some
  nodup : (keys entries).Nodup
  loads : ∀ cache, this.cache = some cache → ∀ key ele,
    cache.load key = some ele ↔ ele ∈ this.ll ∧ ∃ value, entryAt this.elements ele = some (key, value)
  cleared : this.cache = none → entries = []

variable {this : Cache κ α} {cache : SyncMap κ ℕ} {entries : List (κ × α)} {key : κ} {value : α} {ele : ℕ}

theorem Holds.nodup_entries (holds : this.Holds entries) : (this.ll.map (entryAt this.elements)).Nodup := by
  rw [holds.listed]
  exact (List.Nodup.of_map _ holds.nodup).map (Option.some_injective _)

theorem Holds.nodup_ll (holds : this.Holds entries) : this.ll.Nodup := List.Nodup.of_map _ holds.nodup_entries

theorem Holds.exists_entry (holds : this.Holds entries) (inside : ele ∈ this.ll) :
    ∃ one ∈ entries, some one = entryAt this.elements ele := by
  have moved : entryAt this.elements ele ∈ entries.map some := holds.listed ▸ List.mem_map_of_mem inside
  exact List.mem_map.mp moved

theorem Holds.mem_iff (holds : this.Holds entries) {one : κ × α} :
    one ∈ entries ↔ ∃ ele ∈ this.ll, entryAt this.elements ele = some one := by
  have same : some one ∈ this.ll.map (entryAt this.elements) ↔ some one ∈ entries.map some := by rw [holds.listed]
  rw [List.mem_map, List.mem_map_of_injective (Option.some_injective _)] at same
  exact same.symm

theorem Holds.length (holds : this.Holds entries) : this.ll.length = entries.length := by
  have same := congrArg List.length holds.listed
  simpa only [List.length_map] using same

/-- Elements of the list are the same when their entries have the same key. -/
theorem Holds.ele_eq (holds : this.Holds entries) {other : ℕ} {value' : α} (member : ele ∈ this.ll)
    (at_ : entryAt this.elements ele = some (key, value)) (member' : other ∈ this.ll)
    (at' : entryAt this.elements other = some (key, value')) : other = ele := by
  have listed : (key, value) ∈ entries := holds.mem_iff.mpr ⟨ele, member, at_⟩
  have listed' : (key, value') ∈ entries := holds.mem_iff.mpr ⟨other, member', at'⟩
  have same : (key, value') = (key, value) := List.inj_on_of_nodup_map holds.nodup listed' listed rfl
  exact List.inj_on_of_nodup_map holds.nodup_entries member' member (by rw [at_, at', same])

theorem holds_newCache (maxEntries : ℤ) : (newCache maxEntries : Cache κ α).Holds [] where
  listed := rfl
  nodup := List.nodup_nil
  loads := by
    rintro _ ⟨⟩ key ele
    simp [newCache]
  cleared := nofun

theorem Holds.load_none (holds : this.Holds entries) (there : this.cache = some cache)
    (unknown : cache.load key = none) : key ∉ keys entries := by
  intro listed
  obtain ⟨⟨_, value⟩, member, rfl⟩ := List.mem_map.mp listed
  obtain ⟨ele, inside, at_⟩ := holds.mem_iff.mp member
  have known := (holds.loads cache there _ ele).mpr ⟨inside, value, at_⟩
  rw [unknown] at known
  cases known

variable [DecidableEq κ]

/-- Without an element, the list has the entries of the other keys. -/
theorem Holds.listed_erase (holds : this.Holds entries) (member : ele ∈ this.ll)
    (at_ : entryAt this.elements ele = some (key, value)) :
    (this.ll.erase ele).map (entryAt this.elements) = (drop key entries).map some := by
  have place (other : ℕ) (inside : other ∈ this.ll) :
      (other != ele) =
        ((fun one : Option (κ × α) => decide (one.map Prod.fst ≠ some key)) ∘ entryAt this.elements) other := by
    obtain ⟨one, -, found⟩ := holds.exists_entry inside
    rw [Function.comp_apply, ← found, Bool.eq_iff_iff, bne_iff_ne, decide_eq_true_eq, Option.map_some, ne_eq, ne_eq,
      Option.some_inj]
    refine not_congr ⟨?_, ?_⟩
    · rintro rfl
      rw [at_] at found
      rw [Option.some.inj found]
    · rintro rfl
      exact holds.ele_eq member at_ inside found.symm
  have kept : (drop key entries).map some =
      (entries.map some).filter fun one => decide (one.map Prod.fst ≠ some key) := by
    rw [List.filter_map, drop]
    congr 1
    refine List.filter_congr fun one _ => ?_
    simp
  rw [kept, ← holds.listed, List.filter_map, holds.nodup_ll.erase_eq_filter]
  exact congrArg _ (List.filter_congr place)

theorem Holds.load_some (holds : this.Holds entries) (there : this.cache = some cache)
    (found : cache.load key = some ele) :
    ele ∈ this.ll ∧ ∃ value, entryAt this.elements ele = some (key, value) ∧ find key entries = some value := by
  obtain ⟨member, value, at_⟩ := (holds.loads cache there key ele).mp found
  exact ⟨member, value, at_, (find_eq_some_iff holds.nodup).mpr (holds.mem_iff.mpr ⟨ele, member, at_⟩)⟩

/-- The list after an element has moved to the front, and its entry may have got another value. -/
theorem Holds.moveToFront (holds : this.Holds entries) (there : this.cache = some cache)
    (found : cache.load key = some ele) {elements : List (Entry κ α)}
    (others : ∀ other, other ≠ ele → elements[other]? = this.elements[other]?)
    (new : elements[ele]? = some ⟨key, value⟩) :
    Holds { this with ll := Lru.moveToFront this.ll ele, elements } (touch key value entries) := by
  obtain ⟨member, value', at_, known⟩ := holds.load_some there found
  have front : entryAt elements ele = some (key, value) := entryAt_eq_some_iff.mpr new
  have rest (other : ℕ) (apart : other ≠ ele) : entryAt elements other = entryAt this.elements other := by
    rw [entryAt, others other apart, entryAt]
  have inside (other : ℕ) : other ∈ Lru.moveToFront this.ll ele ↔ other ∈ this.ll := by
    rw [Lru.moveToFront, List.mem_cons, holds.nodup_ll.mem_erase_iff]
    obtain rfl | apart := eq_or_ne other ele
    · simp [member]
    · simp [apart]
  refine ⟨?_, nodup_touch holds.nodup key value, ?_, fun gone => absurd there (by simp_all)⟩
  · rw [Lru.moveToFront, List.map_cons, front, touch, List.map_cons, ← holds.listed_erase member at_]
    refine congrArg _ (List.map_congr_left fun other listed => rest other ?_)
    exact (holds.nodup_ll.mem_erase_iff.mp listed).1
  · intro index same other ref
    rw [holds.loads index same, inside]
    refine and_congr_right fun listed => ?_
    obtain rfl | apart := eq_or_ne ref ele
    · rw [front, at_]
      simp
    · rw [rest ref apart]

/-- The list after an element has left it, and the map its key. -/
theorem Holds.removeElement (holds : this.Holds entries) (member : ele ∈ this.ll)
    (at_ : entryAt this.elements ele = some (key, value)) : (this.removeElement ele).Holds (drop key entries) := by
  rw [Cache.removeElement, entryAt_eq_some_iff.mp at_]
  refine ⟨holds.listed_erase member at_, nodup_drop holds.nodup key, ?_, ?_⟩
  · intro index same other ref
    obtain ⟨cache, there, rfl⟩ := Option.map_eq_some_iff.mp same
    rw [SyncMap.load_delete]
    split
    · next same =>
      refine ⟨nofun, fun inside => ?_⟩
      obtain ⟨listed, value', at'⟩ := inside
      obtain ⟨apart, listed⟩ := holds.nodup_ll.mem_erase_iff.mp listed
      exact absurd (holds.ele_eq member at_ listed (same ▸ at')) apart
    · next apart =>
      rw [holds.loads cache there, holds.nodup_ll.mem_erase_iff]
      refine and_congr_left fun placed => ⟨fun listed => ⟨?_, listed⟩, And.right⟩
      obtain ⟨value', at'⟩ := placed
      rintro rfl
      have same : some (other, value') = some (key, value) := at'.symm.trans at_
      exact apart (congrArg Prod.fst (Option.some.inj same))
  · intro gone
    rw [holds.cleared (Option.map_eq_none_iff.mp gone)]
    rfl

theorem Holds.removeOldest (holds : this.Holds entries) : this.removeOldest.Holds entries.dropLast := by
  rw [Cache.removeOldest]
  cases there : this.cache with
  | none =>
    obtain rfl := holds.cleared there
    exact holds
  | some cache =>
    simp only
    have last : this.ll.getLast?.map (entryAt this.elements) = entries.getLast?.map some := by
      rw [← List.getLast?_map, ← List.getLast?_map, holds.listed]
    obtain rfl | ⟨front, ⟨key, value⟩, rfl⟩ := List.eq_nil_or_concat' entries
    · have empty : this.ll = [] := List.map_eq_nil_iff.mp holds.listed
      rw [empty]
      exact holds
    · rw [List.getLast?_concat, Option.map_some, Option.map_eq_some_iff] at last
      obtain ⟨ele, back, at_⟩ := last
      rw [back, List.dropLast_concat]
      have dropped := holds.removeElement (List.mem_of_getLast? back) at_
      rwa [drop_concat holds.nodup] at dropped

/-- The list after a new element has been put in front. -/
theorem Holds.push (holds : this.Holds entries) (there : this.cache = some cache) (unknown : cache.load key = none)
    (value : α) :
    Holds { this with
      elements := this.elements ++ [⟨key, value⟩]
      ll := this.elements.length :: this.ll
      cache := some (cache.store key this.elements.length) } ((key, value) :: entries) := by
  have inside (other : ℕ) (listed : other ∈ this.ll) : other < this.elements.length := by
    obtain ⟨one, -, found⟩ := holds.exists_entry listed
    obtain ⟨_, present, -⟩ := Option.map_eq_some_iff.mp found.symm
    exact (List.getElem?_eq_some_iff.mp present).1
  have rest (other : ℕ) (listed : other ∈ this.ll) :
      entryAt (this.elements ++ [⟨key, value⟩]) other = entryAt this.elements other := by
    rw [entryAt, List.getElem?_append_left (inside other listed), entryAt]
  have front : entryAt (this.elements ++ [⟨key, value⟩]) this.elements.length = some (key, value) :=
    entryAt_eq_some_iff.mpr List.getElem?_concat_length
  have absent := holds.load_none there unknown
  refine ⟨?_, List.nodup_cons.mpr ⟨absent, holds.nodup⟩, ?_, nofun⟩
  · rw [List.map_cons, List.map_cons, ← holds.listed, front]
    exact congrArg _ (List.map_congr_left rest)
  · rintro _ ⟨⟩ other ref
    rw [SyncMap.load_store, List.mem_cons]
    obtain rfl | older := eq_or_ne ref this.elements.length
    · have fresh : this.elements.length ∉ this.ll := fun listed => (inside _ listed).false
      rw [front]
      split
      · next same => simp [same]
      · next apart =>
        rw [holds.loads cache there]
        simp [fresh, Ne.symm apart]
    · have placed : (ref = this.elements.length ∨ ref ∈ this.ll) ↔ ref ∈ this.ll := or_iff_right older
      rw [placed]
      split
      · next same =>
        refine ⟨fun new => absurd (Option.some.inj new).symm older, fun placed => ?_⟩
        obtain ⟨listed, value', at'⟩ := placed
        rw [rest ref listed, same] at at'
        exact absurd (List.mem_map_of_mem (holds.mem_iff.mpr ⟨ref, listed, at'⟩)) absent
      · rw [holds.loads cache there]
        refine and_congr_right fun listed => ?_
        rw [rest ref listed]

/-- An entry that is added is in front, and the entries behind it that do not fit are gone. -/
theorem Holds.addIn (holds : this.Holds entries) (there : this.cache = some cache)
    (fits : keep (capacity this.maxEntries) entries = entries) (key : κ) (value : α) :
    (this.addIn cache key value).Holds (keep (capacity this.maxEntries) (touch key value entries)) := by
  rw [Cache.addIn]
  cases found : cache.load key with
  | some ee =>
    obtain ⟨-, value', at_, known⟩ := holds.load_some there found
    rw [keep_touch_of_find fits known]
    have others (other : ℕ) (apart : other ≠ ee) :
        (this.elements.modify ee fun one => { one with value })[other]? = this.elements[other]? :=
      List.getElem?_modify_ne _ _ apart.symm
    have new : (this.elements.modify ee fun one => { one with value })[ee]? = some ⟨key, value⟩ := by
      rw [List.getElem?_modify_eq, entryAt_eq_some_iff.mp at_]
      rfl
    have moved := holds.moveToFront there found others new
    rw [there] at moved
    exact moved
  | none =>
    have pushed := holds.push there found value
    have new : touch key value entries = (key, value) :: entries :=
      congrArg _ (drop_eq_self (holds.load_none there found))
    simp only
    rw [new, List.length_cons, holds.length, keep_capacity_cons fits]
    split
    · exact pushed.removeOldest
    · exact pushed

theorem Holds.add (holds : this.Holds entries) (fits : keep (capacity this.maxEntries) entries = entries) (key : κ)
    (value : α) : (this.add key value).Holds (keep (capacity this.maxEntries) (touch key value entries)) := by
  rw [Cache.add]
  cases there : this.cache with
  | none =>
    obtain rfl := holds.cleared there
    have empty : Cache.Holds { this with ll := [], cache := some .empty } ([] : List (κ × α)) :=
      ⟨rfl, List.nodup_nil, fun cache same key ele => by cases same; simp, nofun⟩
    exact empty.addIn rfl fits key value
  | some cache => exact holds.addIn there fits key value

/-- A look-up finds what is held under the key, and puts it in front. -/
theorem Holds.get (holds : this.Holds entries) (key : κ) :
    (this.get key).2 = find key entries ∧
      (this.get key).1.Holds (match find key entries with
        | some value => touch key value entries
        | none => entries) := by
  rw [Cache.get]
  cases there : this.cache with
  | none =>
    obtain rfl := holds.cleared there
    exact ⟨rfl, holds⟩
  | some cache =>
    cases found : cache.load key with
    | some ele =>
      obtain ⟨-, value, at_, known⟩ := holds.load_some there found
      have held := entryAt_eq_some_iff.mp at_
      rw [known]
      have moved := holds.moveToFront there found (fun _ _ => rfl) held
      rw [there] at moved
      simp only [found, held, Option.map_some]
      exact ⟨trivial, moved⟩
    | none =>
      rw [find_eq_none_iff.mpr (holds.load_none there found)]
      simp only [found, true_and]
      exact holds

theorem Holds.remove (holds : this.Holds entries) (key : κ) : (this.remove key).Holds (drop key entries) := by
  rw [Cache.remove]
  cases there : this.cache with
  | none =>
    obtain rfl := holds.cleared there
    exact holds
  | some cache =>
    cases found : cache.load key with
    | some ele =>
      obtain ⟨member, value, at_, -⟩ := holds.load_some there found
      simp only [found]
      exact holds.removeElement member at_
    | none =>
      simp only [found]
      rwa [drop_eq_self (holds.load_none there found)]

omit [DecidableEq κ] in
theorem Holds.len (holds : this.Holds entries) : this.len = entries.length := by
  rw [Cache.len]
  cases there : this.cache with
  | none =>
    rw [holds.cleared there]
    rfl
  | some cache => exact holds.length

omit [DecidableEq κ] in
theorem holds_clear (this : Cache κ α) : this.clear.Holds [] := ⟨rfl, List.nodup_nil, nofun, fun _ => rfl⟩

theorem maxEntries_removeElement (this : Cache κ α) (ele : ℕ) :
    (this.removeElement ele).maxEntries = this.maxEntries := by
  rw [Cache.removeElement]
  split <;> rfl

theorem maxEntries_removeOldest (this : Cache κ α) : this.removeOldest.maxEntries = this.maxEntries := by
  rw [Cache.removeOldest]
  split
  · rfl
  · split
    · rfl
    · exact maxEntries_removeElement ..

theorem maxEntries_addIn (this : Cache κ α) (cache : SyncMap κ ℕ) (key : κ) (value : α) :
    (this.addIn cache key value).maxEntries = this.maxEntries := by
  rw [Cache.addIn]
  split
  · rfl
  · simp only
    split
    · exact maxEntries_removeOldest _
    · rfl

/-- A call does not change how many entries there is room for. -/
theorem maxEntries_step (this : Cache κ α) (call : Call κ α) : (this.step call).1.maxEntries = this.maxEntries := by
  cases call with
  | add key value =>
    rw [Cache.step, Cache.add]
    split <;> exact maxEntries_addIn ..
  | get key =>
    rw [Cache.step, Cache.get]
    split
    · rfl
    · split <;> rfl
  | remove key =>
    rw [Cache.step, Cache.remove]
    split
    · rfl
    · split
      · exact maxEntries_removeElement ..
      · rfl
  | removeOldest => exact maxEntries_removeOldest this
  | len => rfl
  | clear => rfl

end Cache

section Run

variable [DecidableEq κ] {maxEntries : ℤ}

/-- What a call does to the entries by their last uses, and its answer. -/
def serve (maxEntries : ℤ) (entries : List (κ × α)) : Call κ α → List (κ × α) × Answer α
  | .add key value => (keep (capacity maxEntries) (touch key value entries), .done)
  | .get key =>
      match find key entries with
      | some value => (touch key value entries, .value (some value))
      | none => (entries, .value none)
  | .remove key => (drop key entries, .done)
  | .removeOldest => (entries.dropLast, .done)
  | .len => (entries, .count entries.length)
  | .clear => ([], .done)

/-- A cache holds entries, and there is room for them. -/
structure Keeps (maxEntries : ℤ) (this : Cache κ α) (entries : List (κ × α)) : Prop where
  max : this.maxEntries = maxEntries
  holds : this.Holds entries
  fits : keep (capacity maxEntries) entries = entries

theorem serve_fits {entries : List (κ × α)} (fits : keep (capacity maxEntries) entries = entries) (call : Call κ α) :
    keep (capacity maxEntries) (serve maxEntries entries call).1 = (serve maxEntries entries call).1 := by
  cases call with
  | add key value => exact keep_keep ..
  | get key =>
    rw [serve]
    split
    · next known => exact keep_touch_of_find fits known
    · exact fits
  | remove key => exact keep_sublist_eq fits List.filter_sublist
  | removeOldest => exact keep_sublist_eq fits (List.dropLast_sublist _)
  | len => exact fits
  | clear => exact keep_sublist_eq fits (List.nil_sublist _)

/-- A call does to a cache what it does to the entries that the cache holds. -/
theorem Keeps.step {this : Cache κ α} {entries : List (κ × α)} (keeps : Keeps maxEntries this entries)
    (call : Call κ α) : (this.step call).2 = (serve maxEntries entries call).2 ∧
      Keeps maxEntries (this.step call).1 (serve maxEntries entries call).1 := by
  obtain ⟨rfl, holds, fits⟩ := keeps
  have max := this.maxEntries_step call
  have fits' := serve_fits fits call
  cases call with
  | add key value => exact ⟨rfl, max, holds.add fits key value, fits'⟩
  | get key =>
    obtain ⟨answer, after⟩ := holds.get key
    cases known : find key entries with
    | some value =>
      simp only [serve, known] at fits' answer after ⊢
      exact ⟨congrArg Answer.value answer, max, after, fits'⟩
    | none =>
      simp only [serve, known] at fits' answer after ⊢
      exact ⟨congrArg Answer.value answer, max, after, fits'⟩
  | remove key => exact ⟨rfl, max, holds.remove key, fits'⟩
  | removeOldest => exact ⟨rfl, max, holds.removeOldest, fits'⟩
  | len => exact ⟨congrArg Answer.count holds.len, max, holds, fits'⟩
  | clear => exact ⟨rfl, max, this.holds_clear, fits'⟩

theorem keeps_answers (maxEntries : ℤ) (calls : List (Call κ α)) :
    (answers Cache.step (newCache maxEntries) calls).2 = (answers (serve maxEntries) [] calls).2 ∧
      Keeps maxEntries (answers Cache.step (newCache maxEntries) calls).1 (answers (serve maxEntries) [] calls).1 := by
  have start : Keeps maxEntries (newCache maxEntries : Cache κ α) [] :=
    ⟨rfl, Cache.holds_newCache maxEntries, keep_nil _⟩
  exact answers_refine start (fun _ _ keeps call => keeps.step call) calls

/-- A cache answers every run of calls as the entries by their last uses do. The elements of its list have these
entries, no two of them under one key, and no more of them than it is limited to. -/
theorem answers_by_recency (maxEntries : ℤ) (calls : List (Call κ α)) :
    let (this, given) := answers Cache.step (newCache maxEntries) calls
    let (entries, given') := answers (serve maxEntries) [] calls
    given = given' ∧ this.ll.map (entryAt this.elements) = entries.map some ∧ (keys entries).Nodup ∧
      (maxEntries ≠ 0 → this.ll.length ≤ maxEntries.toNat) := by
  obtain ⟨same, keeps⟩ := keeps_answers maxEntries calls
  refine ⟨same, keeps.holds.listed, keeps.holds.nodup, fun limited => ?_⟩
  have fits := keeps.fits
  rw [capacity, if_neg limited] at fits
  rw [keeps.holds.length]
  exact keep_some_iff.mp fits

/-- Calls that take nothing out. -/
def Call.Keeping : Call κ α → Prop
  | .add .. | .get _ | .len => True
  | _ => False

omit [DecidableEq κ] in
/-- The key that a call uses: one that is added, or looked up and found. -/
def use : Call κ α × Answer α → Option κ
  | (.add key _, _) => some key
  | (.get key, .value (some _)) => some key
  | _ => none

omit [DecidableEq κ] in
/-- The keys that a run uses, one after the other. -/
def used (calls : List (Call κ α)) (given : List (Answer α)) : List κ := (calls.zip given).filterMap use

def Call.added (key : κ) : Call κ α → Option α
  | .add other value => if other = key then some value else none
  | _ => none

/-- The value that was added last under a key. -/
def lastAdded (key : κ) (calls : List (Call κ α)) : Option α := calls.reverse.findSome? (Call.added key)

omit [DecidableEq κ] in
theorem used_concat {calls : List (Call κ α)} {given : List (Answer α)} (same : given.length = calls.length)
    (call : Call κ α) (answer : Answer α) :
    used (calls ++ [call]) (given ++ [answer]) = used calls given ++ (use (call, answer)).toList := by
  rw [used, List.zip_append same.symm, List.filterMap_append]
  congr 1

theorem lastAdded_concat (key : κ) (calls : List (Call κ α)) (call : Call κ α) :
    lastAdded key (calls ++ [call]) = (call.added key).or (lastAdded key calls) := by
  rw [lastAdded, List.reverse_append, List.reverse_singleton, List.singleton_append, List.findSome?_cons]
  cases call.added key <;> rfl

/-- The entries after a run that takes nothing out are the first of those that it used, with the values that were
added last. -/
theorem serve_recents (maxEntries : ℤ) {calls : List (Call κ α)} (keeping : ∀ call ∈ calls, call.Keeping) : ∃ uses,
    (answers (serve maxEntries) [] calls).1 = keep (capacity maxEntries) (recents uses) ∧
      keys uses = used calls (answers (serve maxEntries) [] calls).2 ∧
      ∀ one ∈ recents uses, lastAdded one.1 calls = some one.2 := by
  induction calls using List.reverseRecOn with
  | nil => exact ⟨[], (keep_nil _).symm, rfl, nofun⟩
  | append_singleton calls call ih =>
    obtain ⟨uses, entries, same, values⟩ := ih fun one member => keeping one (List.mem_append_left _ member)
    have last := keeping call (List.mem_append_right _ (List.mem_singleton_self _))
    rw [answers_concat, used_concat (length_answers _), entries, ← same]
    cases call with
    | add key value =>
      refine ⟨uses ++ [(key, value)], ?_, by simp [keys, use], ?_⟩
      · rw [recents_concat, serve, keep_touch_keep (nodup_recents uses)]
      · intro one member
        rw [recents_concat, touch, List.mem_cons] at member
        rw [lastAdded_concat, Call.added]
        obtain rfl | older := member
        · simp
        · have apart := (mem_keys_drop.mp (List.mem_map_of_mem older)).2
          rw [if_neg apart.symm, Option.none_or]
          exact values one (List.mem_of_mem_filter older)
    | get key =>
      have values' (one : κ × α) (member : one ∈ recents uses) :
          lastAdded one.1 (calls ++ [.get key]) = some one.2 := by
        have none_ : (Call.get key : Call κ α).added one.1 = none := rfl
        rw [lastAdded_concat, none_, Option.none_or]
        exact values one member
      cases known : find key (keep (capacity maxEntries) (recents uses)) with
      | none => exact ⟨uses, by simp [serve, known], by simp [serve, known, use], values'⟩
      | some value =>
        have nodup := nodup_recents uses
        have held : (key, value) ∈ recents uses :=
          (keep_sublist _ _).subset ((find_eq_some_iff (nodup_keep nodup _)).mp known)
        refine ⟨uses ++ [(key, value)], ?_, by simp [serve, known, keys, use], ?_⟩
        · rw [recents_concat, serve, known, ← keep_touch_keep nodup]
          exact (keep_touch_of_find (keep_keep _ _) known).symm
        · intro one member
          rw [recents_concat, touch, List.mem_cons] at member
          obtain rfl | older := member
          · exact values' _ held
          · exact values' one (List.mem_of_mem_filter older)
    | len =>
      refine ⟨uses, rfl, by simp [use], fun one member => ?_⟩
      have none_ : (Call.len : Call κ α).added one.1 = none := rfl
      rw [lastAdded_concat, none_, Option.none_or]
      exact values one member
    | remove key => cases last
    | removeOldest => cases last
    | clear => cases last

/-- Where nothing is taken out, a look-up finds a key exactly when since its last use fewer other keys were used than
there is room for, and finds the value that was added last. -/
theorem most_recently_used (maxEntries : ℤ) (calls : List (Call κ α)) (keeping : ∀ call ∈ calls, call.Keeping)
    (key : κ) (value : α) :
    ((answers Cache.step (newCache maxEntries) calls).1.get key).2 = some value ↔
      Recent (capacity maxEntries) key (used calls (answers Cache.step (newCache maxEntries) calls).2) ∧
        lastAdded key calls = some value := by
  obtain ⟨same, keeps⟩ := keeps_answers maxEntries calls
  obtain ⟨uses, entries, names, values⟩ := serve_recents maxEntries keeping
  rw [(keeps.holds.get key).1, same, ← names, ← mem_keys_keep_recents_iff, entries]
  have nodup := nodup_keep (nodup_recents uses) (capacity maxEntries)
  constructor
  · intro found
    have listed := (find_eq_some_iff nodup).mp found
    exact ⟨List.mem_map_of_mem listed, values _ ((keep_sublist _ _).subset listed)⟩
  · rintro ⟨member, last⟩
    obtain ⟨⟨_, held⟩, listed, rfl⟩ := List.mem_map.mp member
    have value_ := values _ ((keep_sublist _ _).subset listed)
    rw [last] at value_
    cases value_
    exact (find_eq_some_iff nodup).mpr listed

theorem hit_keeps :
    ((answers Cache.step (newCache 2) [.add 1 10, .add 2 20, .get 1, .add 3 30]).1.get 1).2 = some 10 := by
  refine (most_recently_used 2 _ (by simp [Call.Keeping]) 1 10).mpr ⟨⟨[1, 2], [3], rfl, by decide, ?_⟩, rfl⟩
  rintro _ ⟨⟩
  decide

end Run

end PolarCloud.Lru
