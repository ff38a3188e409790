import Mathlib.Data.List.Induction
import PolarCloud.Base.Replay
import PolarCloud.Model.Cache.CacheData

/-! # What stays deleted

A record that is marked for deletion is saved where it is received, with the value it had. So a deleted key has a
value again as soon as any record with a value is received for it, the marked one included; and it stays deleted
exactly as long as none is.
-/

namespace PolarCloud.Cache

open NodeStore

variable {buildHash : Bytes → Multihash} {network : Network} {self : Multihash} {key : Bytes}

/-- A node processes the deletion of a key: its own, or one that it receives. -/
inductive Network.Deletes (network : Network) (self : Multihash) (key : Bytes) : Event → Prop
  | own : Deletes network self key (.del self key)
  | received {message now : ℕ} {cachedata : CacheData} (sent : network.messages[message]? = some cachedata)
      (marked : cachedata.del = true)
        (same : cachedata.kbyte = key) : Deletes network self key (.syncData self message now)

/-- A key is added or updated somewhere. -/
def Event.Issues (key : Bytes) : Event → Prop
  | add _ other _ _ => other = key
  | update _ other _ _ => other = key
  | _ => False

/-- A node saves a value under a hash. -/
inductive Network.Saves (buildHash : Bytes → Multihash) (network : Network) (self khash : Multihash)
    (value : Option Bytes) :
    Event → Prop
  | add {other : Bytes} {now : ℕ}
      (same : buildHash other = khash) : Saves buildHash network self khash value (.add self other value now)
  | update {other : Bytes} {now : ℕ} (same : buildHash other = khash) :
      Saves buildHash network self khash value (.update self other value now)
  | received {message now : ℕ} {cachedata : CacheData} (sent : network.messages[message]? = some cachedata)
      (same : cachedata.key = khash) (brings : cachedata.value = value) :
      Saves buildHash network self khash value (.syncData self message now)

namespace CacheStore

variable {store : CacheStore}

theorem get_save {cachedata : CacheData} : (store.save cachedata).get buildHash key =
    if buildHash key = cachedata.key then cachedata.value else store.get buildHash key := by
  rw [get, save, SyncMap.load_store]
  split
  · rfl
  · rfl

theorem get_del {other : Bytes} : (store.del buildHash other).get buildHash key =
    if buildHash key = buildHash other then none else store.get buildHash key := by
  rw [get, del, SyncMap.load_delete]
  split
  · rfl
  · rfl

theorem get_syncData {now : ℕ} {cachedata : CacheData} :
    (store.syncData buildHash self now cachedata).get buildHash key =
    if buildHash key = cachedata.key then cachedata.value
    else if cachedata.del = true ∧ buildHash key = buildHash cachedata.kbyte then none else
      store.get buildHash key := by
  have saved (store : CacheStore) :
      ((store.save (if self ∈ cachedata.ownid then { cachedata with time := now } else cachedata)).upTime
      now).get buildHash key = if buildHash key = cachedata.key then cachedata.value else store.get buildHash key := by
    show (store.save _).get buildHash key = _
    rw [get_save]
    split
    · rfl
    · rfl
  rw [syncData, saved]
  by_cases marked : cachedata.del = true
  · simp only [marked, if_true, true_and, get_del]
  · simp [marked]

theorem get_taskClearCache {now : ℕ} (none : store.get buildHash key = none) :
    (store.taskClearCache now).get buildHash key = Option.none := by
  rw [taskClearCache]
  split
  · rfl
  · exact none

end CacheStore

namespace Network

/-- What a node reads for a key. -/
def get (buildHash : Bytes → Multihash) (network : Network) (self : Multihash) (key : Bytes) : Option Bytes :=
  (network.store self).get buildHash key

theorem get_setStore {other : Multihash} {store : CacheStore} : (network.setStore other store).get buildHash self key =
    if self = other then store.get buildHash key else network.get buildHash self key := by
  rw [get, setStore]
  dsimp only
  split
  · rfl
  · rfl

/-- What is saved is read. -/
theorem Saves.get {value : Option Bytes} {event : Event}
    (saves : network.Saves buildHash self (buildHash key) value event) :
    (network.step buildHash event).get buildHash self key = value := by
  cases saves with
  | @add other now same =>
    have here : buildHash key = (newCacheData buildHash other value now).key := same.symm
    rw [step, get_setStore, if_pos rfl, CacheStore.get_save, if_pos here]
    rfl
  | @update other now same =>
    have here : buildHash key = (newCacheData buildHash other value now).key := same.symm
    rw [step, get_setStore, if_pos rfl, CacheStore.get_save, if_pos here]
    rfl
  | received sent same brings =>
    simp only [step, sent]
    rw [get_setStore, if_pos rfl, CacheStore.get_syncData, if_pos same.symm, brings]

/-- A node's own change keeps a key gone when it saves no value for its hash. -/
theorem get_save_none {other : Multihash} {changed : Bytes} {value : Option Bytes} {now : ℕ}
    (gone : network.get buildHash self key = none)
    (nothing : self = other → buildHash changed = buildHash key → value = none) :
    (network.setStore other ((network.store other).save (newCacheData buildHash changed value now))).get
      buildHash self key =
      none := by
  rw [get_setStore]
  split
  · next here =>
    rw [CacheStore.get_save]
    split
    · next same => exact nothing here same.symm
    · exact here ▸ gone
  · exact gone

/-- After a deletion a key is gone that was gone, or that is the deleted one at this node. -/
private theorem get_del_none {other : Multihash} {changed : Bytes}
    (gone : network.get buildHash self key = none ∨ network.Deletes self key (.del other changed)) :
    (network.step buildHash (.del other changed)).get buildHash self key = none := by
  rw [step, del]
  cases known : (network.store other).data.load (buildHash changed) with
  | none =>
    rcases gone with gone | deletes
    · exact gone
    · cases deletes
      rw [get, CacheStore.get, known]
      rfl
  | some cachedata =>
    show (network.setStore other ((network.store other).del buildHash changed)).get buildHash self key = none
    rw [get_setStore]
    split
    · next here =>
      rw [CacheStore.get_del]
      split
      · rfl
      · next differs =>
        rcases gone with gone | deletes
        · exact here ▸ gone
        · cases deletes
          exact absurd rfl differs
    · next away =>
      refine gone.resolve_right fun deletes => ?_
      cases deletes
      exact away rfl

/-- The same after a message is taken, when it brings no value for the key's hash. -/
private theorem get_syncData_none {other : Multihash} {message now : ℕ}
    (gone : network.get buildHash self key = none ∨ network.Deletes self key (.syncData other message now))
    (nothing : ∀ value, network.Saves buildHash self (buildHash key) value (.syncData other message now) →
    value = none) :
    (network.step buildHash (.syncData other message now)).get buildHash self key = none := by
  cases sent : network.messages[message]? with
  | none =>
    have gone := gone.resolve_right (by rintro ⟨⟩; simp_all)
    simpa only [step, sent] using gone
  | some cachedata =>
    simp only [step, sent]
    rw [get_setStore]
    split
    · next here =>
      subst here
      rw [CacheStore.get_syncData]
      split
      · next same => exact nothing _ (.received sent same.symm rfl)
      · split
        · rfl
        · next kept =>
          rcases gone with gone | deletes
          · exact gone
          · cases deletes with
            | received sent' marked same =>
              cases sent.symm.trans sent'
              exact absurd ⟨marked, by rw [same]⟩ kept
    · next away =>
      refine gone.resolve_right fun deletes => ?_
      cases deletes
      exact away rfl

/-- A key that is gone, or is deleted by a step, is gone after it, when the step saves no value for its hash. -/
theorem get_step {event : Event} (gone : network.get buildHash self key = none ∨ network.Deletes self key event)
    (nothing : ∀ value, network.Saves buildHash self (buildHash key) value event → value = none) :
    (network.step buildHash event).get buildHash self key = none := by
  cases event with
  | add other changed value now =>
    refine get_save_none (gone.resolve_right (by rintro ⟨⟩)) ?_
    rintro rfl same
    exact nothing value (.add same)
  | update other changed value now =>
    refine get_save_none (gone.resolve_right (by rintro ⟨⟩)) ?_
    rintro rfl same
    exact nothing value (.update same)
  | del other changed => exact get_del_none gone
  | sync other khash =>
    have gone := gone.resolve_right (by rintro ⟨⟩)
    rw [step, syncDataToQuarterLogicIds]
    split
    · exact gone
    · exact gone
  | syncData other message now => exact get_syncData_none gone nothing
  | clear other now =>
    have gone := gone.resolve_right (by rintro ⟨⟩)
    rw [step, get_setStore]
    split
    · next here => exact CacheStore.get_taskClearCache (here ▸ gone)
    · exact gone

theorem run_concat (events : List Event) (event : Event) :
    run buildHash (events ++ [event]) = (run buildHash events).step buildHash event :=
  Replay.foldl_concat events event

end Network

/-- From the deletion on, no value is saved under the key's hash at the node, but by adding or updating the key. -/
def Clear (buildHash : Bytes → Multihash) (before rest : List Event) (self : Multihash) (key : Bytes) : Prop :=
  ∀ front event back, rest = front ++ event :: back → ¬ event.Issues key → ∀ value,
    (Network.run buildHash (before ++ front)).Saves buildHash self (buildHash key) value event → value = none

/-- After a node has processed the deletion of a key that nobody adds or updates any more, the key stays deleted
there exactly when no record is received for it that brings a value, the deletion itself included. -/
theorem stays_deleted_iff (before after : List Event) (deletion : Event) (self : Multihash) (key : Bytes)
    (deletes : (Network.run buildHash before).Deletes self key deletion) (quiet : ∀ event ∈ after, ¬ event.Issues key) :
    (∀ front back, after = front ++ back →
        (Network.run buildHash (before ++ deletion :: front)).get buildHash self key = none) ↔
      Clear buildHash before (deletion :: after) self key := by
  constructor
  · intro deleted front event back split _ value saves
    have read := saves.get
    rw [← Network.run_concat, List.append_assoc] at read
    cases front with
    | nil =>
      cases split
      exact read.symm.trans (deleted [] after rfl)
    | cons first front =>
      cases split
      exact read.symm.trans (deleted (front ++ [event]) back (by rw [List.append_assoc]; rfl))
  · intro clear front
    induction front using List.reverseRecOn with
    | nil =>
      intro back split
      rw [Network.run_concat]
      refine Network.get_step (.inr deletes) fun value saves =>
        clear [] deletion after rfl ?_ value (by rwa [List.append_nil])
      cases deletes with
      | own => exact id
      | received => exact id
    | append_singleton front event ih =>
      rintro back rfl
      have gone := ih (event :: back) (by rw [List.append_assoc]; rfl)
      rw [← List.cons_append, ← List.append_assoc, Network.run_concat]
      refine Network.get_step (.inl gone) fun value saves => ?_
      refine clear (deletion :: front) event back (by rw [List.append_assoc]; rfl) (quiet event ?_) value saves
      exact List.mem_append_left _ (List.mem_append_right _ (List.mem_singleton_self _))

/-- The owner of a key deletes it, and sends the key's record again when there is none. -/
theorem stays_deleted_owner :
    (∀ front back, [Event.sync [1] [5]] = front ++ back → (Network.run id
        ([.add [1] [5] (some [7]) 0, .sync [1] [5]] ++ .del [1] [5] :: front)).get id [1] [5] = none) ↔
      Clear id [.add [1] [5] (some [7]) 0, .sync [1] [5]] [.del [1] [5], .sync [1] [5]] [1] [5] :=
  stays_deleted_iff _ _ _ _ _ .own (by simp [Event.Issues])

/-- A key is added at one node, which sends its record and deletes it; another node receives the record. -/
def addAndDelete : List Event := [.add [1] [5] (some [7]) 0, .sync [1] [5], .syncData [2] 0 1, .del [1] [5]]

/-- The other node processes the deletion as well, and has the value still. -/
theorem deletion_keeps_value : (Network.run id addAndDelete).Deletes [2] [5] (.syncData [2] 1 2) ∧
    (Network.run id (addAndDelete ++ [.syncData [2] 1 2])).get id [2] [5] = some [7] := by
  have sent : (Network.run id addAndDelete).messages[1]? =
      some { kbyte := [5], key := [5], value := some [7], time := 0, del := true } := by decide
  exact ⟨.received sent rfl rfl, by decide⟩

end PolarCloud.Cache
