import Mathlib.Data.List.Pairwise
import PolarCloud.Proofs.Cache.Deleted

/-! # Which value the replicas end with

A node saves every record that reaches it over the one it holds, whatever the times of the two are. While keys are
added and updated no record is changed on its way, so a node holds the record that arrived last; it holds the
newest one at every moment exactly when the records arrive in the order of their times.
-/

namespace PolarCloud.Cache

open NodeStore

variable {buildHash : Bytes → Multihash} {network : Network} {events : List Event} {self khash : Multihash}
  {cachedata : CacheData}

/-- What happens while keys are added and updated and their records travel. -/
def Event.Spreads : Event → Prop
  | del _ _ => False
  | clear _ _ => False
  | _ => True

/-- The record that adding or updating a key makes for a hash. -/
def Event.update? (buildHash : Bytes → Multihash) (khash : Multihash) : Event → Option CacheData
  | add _ key value now => if buildHash key = khash then some (newCacheData buildHash key value now) else none
  | update _ key value now => if buildHash key = khash then some (newCacheData buildHash key value now) else none
  | _ => none

/-- All records that a run makes for a hash. -/
def updates (buildHash : Bytes → Multihash) (khash : Multihash) (events : List Event) : List CacheData :=
  events.filterMap (Event.update? buildHash khash)

namespace Network

/-- What a node holds for a hash. -/
def load (network : Network) (self khash : Multihash) : Option CacheData := (network.store self).data.load khash

/-- The record for a hash that an event brings to a node. -/
def arrival? (buildHash : Bytes → Multihash) (network : Network) (self khash : Multihash) : Event → Option CacheData
  | .add other key value now =>
      if other = self ∧ buildHash key = khash then some (newCacheData buildHash key value now) else none
  | .update other key value now =>
      if other = self ∧ buildHash key = khash then some (newCacheData buildHash key value now) else none
  | .syncData other message _ =>
      if other = self then (network.messages[message]?).filter (·.key = khash) else none
  | _ => none

/-- All records for a hash that reach a node, in their order. -/
def arrivals (buildHash : Bytes → Multihash) (network : Network) (self khash : Multihash) : List Event → List CacheData
  | [] => []
  | event :: events =>
      (network.arrival? buildHash self khash event).toList ++
        (network.step buildHash event).arrivals buildHash self khash events

theorem arrivals_append (network : Network) (front back : List Event) :
    network.arrivals buildHash self khash (front ++ back) = network.arrivals buildHash self khash front ++
      (front.foldl (step buildHash) network).arrivals buildHash self khash back := by
  induction front generalizing network with
  | nil => rfl
  | cons event front ih => rw [List.cons_append, arrivals, ih, arrivals, List.append_assoc, List.foldl_cons]

end Network

/-! ## Records are not changed on their way -/

theorem Event.update?_eq {event : Event} (issued : event.update? buildHash khash = some cachedata) :
    cachedata.key = khash ∧ cachedata.ownid = [] ∧ cachedata.del = false := by
  cases event with
  | add other key value now =>
    obtain ⟨same, made⟩ := Option.ite_none_right_eq_some.mp issued
    cases made
    exact ⟨same, rfl, rfl⟩
  | update other key value now =>
    obtain ⟨same, made⟩ := Option.ite_none_right_eq_some.mp issued
    cases made
    exact ⟨same, rfl, rfl⟩
  | del => cases issued
  | sync => cases issued
  | syncData => cases issued
  | clear => cases issued

theorem updates_concat (events : List Event) (event : Event) : updates buildHash khash (events ++ [event]) =
    updates buildHash khash events ++ (event.update? buildHash khash).toList := by
  rw [updates, List.filterMap_append, updates]
  congr 1

theorem mem_updates (issued : cachedata ∈ updates buildHash khash events) :
    cachedata.key = khash ∧ cachedata.ownid = [] ∧ cachedata.del = false := by
  obtain ⟨event, _, issued⟩ := List.mem_filterMap.mp issued
  exact Event.update?_eq issued

/-- A record that was just made is saved as it is. -/
theorem CacheStore.syncData_eq (store : CacheStore) {now : ℕ} (unowned : cachedata.ownid = [])
    (unmarked : cachedata.del = false) :
    store.syncData buildHash self now cachedata = (store.save cachedata).upTime now := by
  simp [syncData, unowned, unmarked]

/-- All that is sent and held are the records that were made. -/
structure Genuine (buildHash : Bytes → Multihash) (network : Network) (events : List Event) : Prop where
  sent : ∀ message ∈ network.messages, message ∈ updates buildHash message.key events
  held : ∀ self khash cachedata, network.load self khash = some cachedata → cachedata ∈ updates buildHash khash events

namespace Network

theorem load_setStore {other : Multihash} {store : CacheStore} : (network.setStore other store).load self khash =
    if self = other then store.data.load khash else network.load self khash := by
  rw [load, setStore]
  dsimp only
  split
  · rfl
  · rfl

/-- A node that saves a record of its own holds it, and nothing else changes. -/
theorem load_save {other key : Multihash} {record : CacheData} {store : CacheStore} (same : record.key = key)
    (saved : store.data = (network.store other).data.store record.key record) :
    (network.setStore other store).load self khash =
      (if other = self ∧ key = khash then some record else none).or (network.load self khash) := by
  rw [load_setStore]
  split
  · next here =>
    subst here
    rw [saved, SyncMap.load_store, same]
    by_cases hash : khash = key
    · simp [hash]
    · simp [hash, Ne.symm hash, load]
  · next away => simp [Ne.symm away]

/-- After an event a node holds what the event brought, or what it held. -/
theorem load_step {event : Event} (genuine : Genuine buildHash network events) (spreads : event.Spreads) :
    (network.step buildHash event).load self khash =
      (network.arrival? buildHash self khash event).or (network.load self khash) := by
  cases event with
  | add other key value now => exact load_save rfl rfl
  | update other key value now => exact load_save rfl rfl
  | del => exact spreads.elim
  | sync other hash =>
    show (network.syncDataToQuarterLogicIds other hash).load self khash = network.load self khash
    rw [syncDataToQuarterLogicIds]
    split
    · rfl
    · rfl
  | syncData other message now =>
    cases sent : network.messages[message]? with
    | none => simp [step, arrival?, sent]
    | some cachedata =>
      obtain ⟨_, unowned, unmarked⟩ := mem_updates (genuine.sent cachedata (List.mem_of_getElem? sent))
      simp only [step, arrival?, sent, CacheStore.syncData_eq _ unowned unmarked]
      refine (@load_save _ _ _ _ _ cachedata _ rfl rfl).trans ?_
      congr 1
      by_cases here : other = self
      · simp [here, Option.filter]
      · simp [here]
  | clear => exact spreads.elim

/-- Only records that are held are sent. -/
theorem mem_messages_step {event : Event} {message : CacheData} (spreads : event.Spreads)
    (sent : message ∈ (network.step buildHash event).messages) :
    message ∈ network.messages ∨ ∃ other hash, network.load other hash = some message := by
  cases event with
  | add => exact .inl sent
  | update => exact .inl sent
  | del => exact spreads.elim
  | sync other hash =>
    simp only [step, syncDataToQuarterLogicIds] at sent
    split at sent
    · exact .inl sent
    · next found =>
      rcases List.mem_append.mp sent with sent | sent
      · exact .inl sent
      · exact .inr ⟨other, hash, by rw [List.mem_singleton.mp sent]; exact found⟩
  | syncData other message now =>
    simp only [step] at sent
    split at sent
    · exact .inl sent
    · exact .inl sent
  | clear => exact spreads.elim

/-- What an event brings is a record that it makes, or one that was sent. -/
theorem issued_of_arrival {event : Event} {cachedata : CacheData}
    (arrives : network.arrival? buildHash self khash event = some cachedata) :
    event.update? buildHash khash = some cachedata ∨ cachedata ∈ network.messages ∧ cachedata.key = khash := by
  cases event with
  | add other key value now =>
    obtain ⟨⟨_, same⟩, made⟩ := Option.ite_none_right_eq_some.mp arrives
    exact .inl (by rw [Event.update?, if_pos same]; exact made)
  | update other key value now =>
    obtain ⟨⟨_, same⟩, made⟩ := Option.ite_none_right_eq_some.mp arrives
    exact .inl (by rw [Event.update?, if_pos same]; exact made)
  | del => cases arrives
  | sync => cases arrives
  | syncData other message now =>
    obtain ⟨_, arrives⟩ := Option.ite_none_right_eq_some.mp arrives
    obtain ⟨sent, same⟩ := Option.filter_eq_some_iff.mp arrives
    exact .inr ⟨List.mem_of_getElem? sent, of_decide_eq_true same⟩
  | clear => cases arrives

end Network

theorem Genuine.step {event : Event} (genuine : Genuine buildHash network events) (spreads : event.Spreads) :
    Genuine buildHash (network.step buildHash event) (events ++ [event]) := by
  have older {hash : Multihash} {record : CacheData} (issued : record ∈ updates buildHash hash events) :
      record ∈ updates buildHash hash (events ++ [event]) := by
    rw [updates_concat]
    exact List.mem_append_left _ issued
  have newer {hash : Multihash} {record : CacheData} (issued : event.update? buildHash hash = some record) :
      record ∈ updates buildHash hash (events ++ [event]) := by
    rw [updates_concat, issued]
    exact List.mem_append_right _ (List.mem_singleton_self _)
  refine ⟨fun message sent => ?_, fun self khash cachedata held => ?_⟩
  · rcases Network.mem_messages_step spreads sent with sent | ⟨other, hash, held⟩
    · exact older (genuine.sent message sent)
    · have issued := genuine.held other hash message held
      exact older ((mem_updates issued).1 ▸ issued)
  · rw [Network.load_step genuine spreads, Option.or_eq_some_iff] at held
    rcases held with arrives | ⟨_, held⟩
    · rcases Network.issued_of_arrival arrives with issued | ⟨sent, same⟩
      · exact newer issued
      · exact older (same ▸ genuine.sent cachedata sent)
    · exact older (genuine.held self khash cachedata held)

theorem genuine_run (spread : ∀ event ∈ events, event.Spreads) :
    Genuine buildHash (Network.run buildHash events) events := by
  induction events using List.reverseRecOn with
  | nil => exact ⟨nofun, nofun⟩
  | append_singleton events event ih =>
    rw [Network.run_concat]
    exact (ih fun event member => spread event (List.mem_append_left _ member)).step
      (spread event (List.mem_append_right _ (List.mem_singleton_self _)))

/-! ## The last one to arrive is held -/

/-- The records for a hash that reach a node in a run. -/
def arrivals (buildHash : Bytes → Multihash) (events : List Event) (self khash : Multihash) : List CacheData :=
  ({} : Network).arrivals buildHash self khash events

theorem arrivals_concat (events : List Event) (event : Event) :
    arrivals buildHash (events ++ [event]) self khash = arrivals buildHash events self khash ++
      ((Network.run buildHash events).arrival? buildHash self khash event).toList := by
  rw [arrivals, Network.arrivals_append, arrivals]
  congr 1
  exact List.append_nil _

theorem load_run (spread : ∀ event ∈ events, event.Spreads) :
    (Network.run buildHash events).load self khash = (arrivals buildHash events self khash).getLast? := by
  induction events using List.reverseRecOn with
  | nil => rfl
  | append_singleton events event ih =>
    have spread' : ∀ event ∈ events, event.Spreads := fun event member => spread event (List.mem_append_left _ member)
    have spreads := spread event (List.mem_append_right _ (List.mem_singleton_self _))
    rw [Network.run_concat, Network.load_step (genuine_run spread') spreads, ih spread', arrivals_concat,
      List.getLast?_append]
    cases (Network.run buildHash events).arrival? buildHash self khash event with
    | none => rfl
    | some record => rfl

/-- What reaches a node is a record that was made for the hash. -/
theorem mem_updates_of_arrivals (spread : ∀ event ∈ events, event.Spreads)
    (arrived : cachedata ∈ arrivals buildHash events self khash) : cachedata ∈ updates buildHash khash events := by
  induction events using List.reverseRecOn with
  | nil => cases arrived
  | append_singleton events event ih =>
    have spread' : ∀ event ∈ events, event.Spreads := fun event member => spread event (List.mem_append_left _ member)
    rw [arrivals_concat] at arrived
    rw [updates_concat]
    rcases List.mem_append.mp arrived with earlier | last
    · exact List.mem_append_left _ (ih spread' earlier)
    · rcases Network.issued_of_arrival (Option.mem_toList.mp last) with issued | ⟨sent, same⟩
      · exact List.mem_append_right _ (Option.mem_toList.mpr issued)
      · exact List.mem_append_left _ (same ▸ (genuine_run spread').sent cachedata sent)

/-! ## Newest wins -/

/-- The replicas of a hash converge: no record ever takes the place of a newer one, and a node that every record has
reached ends with the newest. -/
structure Converges (buildHash : Bytes → Multihash) (events : List Event) (khash : Multihash) : Prop where
  kept : ∀ front event back, events = front ++ event :: back → ∀ self old new,
    (Network.run buildHash front).load self khash = some old →
    ((Network.run buildHash front).step buildHash event).load self khash = some new → old.time ≤ new.time
  ends : ∀ newest ∈ updates buildHash khash events,
    (∀ cachedata ∈ updates buildHash khash events, cachedata.time ≤ newest.time) →
    ∀ self, (∀ cachedata ∈ updates buildHash khash events, cachedata ∈ arrivals buildHash events self khash) →
    (Network.run buildHash events).load self khash = some newest

/-- The last one of a list that is sorted by a key has the greatest key. -/
theorem le_getLast {α : Type*} {key : α → ℕ} {list : List α} {last : α} (sorted : list.Pairwise (key · ≤ key ·))
    (ends : list.getLast? = some last) {one : α} (member : one ∈ list) : key one ≤ key last := by
  obtain ⟨before, rfl⟩ := List.getLast?_eq_some_iff.mp ends
  rcases List.mem_append.mp member with member | is
  · exact (List.pairwise_append.mp sorted).2.2 _ member _ (List.mem_singleton_self _)
  · exact (List.mem_singleton.mp is) ▸ le_refl _

/-- A node whose record is never older than the last one has met them in the order of their times. -/
theorem arrivals_sorted (spread : ∀ event ∈ events, event.Spreads)
    (kept : ∀ front event back, events = front ++ event :: back → ∀ self old new,
      (Network.run buildHash front).load self khash = some old →
      ((Network.run buildHash front).step buildHash event).load self khash = some new → old.time ≤ new.time) :
    (arrivals buildHash events self khash).Pairwise (·.time ≤ ·.time) := by
  induction events using List.reverseRecOn with
  | nil => exact .nil
  | append_singleton events event ih =>
    have spread' : ∀ event ∈ events, event.Spreads := fun event member => spread event (List.mem_append_left _ member)
    have spreads := spread event (List.mem_append_right _ (List.mem_singleton_self _))
    have sorted := ih spread' fun front event back split =>
      kept front event (back ++ [_]) (by rw [split, List.append_assoc]; rfl)
    rw [arrivals_concat]
    cases arrives : (Network.run buildHash events).arrival? buildHash self khash event with
    | none => rwa [Option.toList_none, List.append_nil]
    | some new =>
      refine List.pairwise_append.mpr ⟨sorted, List.pairwise_singleton _ _, fun earlier member later is => ?_⟩
      cases List.mem_singleton.mp is
      obtain ⟨old, last⟩ := Option.ne_none_iff_exists'.mp (mt List.getLast?_eq_none_iff.mp (List.ne_nil_of_mem member))
      have held : (Network.run buildHash events).load self khash = some old := (load_run spread').trans last
      have brought : ((Network.run buildHash events).step buildHash event).load self khash =
          ((Network.run buildHash events).arrival? buildHash self khash event).or
            ((Network.run buildHash events).load self khash) :=
        Network.load_step (genuine_run spread') spreads
      rw [arrives] at brought
      have newer := kept events event [] rfl self old new held brought
      exact (le_getLast sorted last member).trans newer

theorem converges_iff_sorted (spread : ∀ event ∈ events, event.Spreads)
    (distinct : (updates buildHash khash events).Pairwise (·.time ≠ ·.time)) :
    Converges buildHash events khash ↔ ∀ self, (arrivals buildHash events self khash).Pairwise (·.time ≤ ·.time) := by
  constructor
  · intro converges self
    exact arrivals_sorted spread converges.kept
  · intro sorted
    refine ⟨?_, fun newest issued latest self arrived => ?_⟩
    · rintro front event back rfl self old new held then_
      have spread' : ∀ event ∈ front, event.Spreads := fun event member => spread event (List.mem_append_left _ member)
      have spreads := spread event (List.mem_append_right _ (List.mem_cons_self ..))
      have order := sorted self
      rw [show front ++ event :: back = (front ++ [event]) ++ back by rw [List.append_assoc]; rfl, arrivals,
        Network.arrivals_append] at order
      replace order := (List.pairwise_append.mp order).1
      rw [← arrivals, arrivals_concat] at order
      rw [Network.load_step (genuine_run spread') spreads, held] at then_
      rw [load_run spread'] at held
      cases arrives : (Network.run buildHash front).arrival? buildHash self khash event with
      | none =>
        rw [arrives] at then_
        cases then_
        exact le_refl _
      | some record =>
        rw [arrives] at then_ order
        cases then_
        exact (List.pairwise_append.mp order).2.2 _ (List.mem_of_getLast? held) _ (List.mem_singleton_self _)
    · rw [load_run spread]
      obtain ⟨last, holds⟩ := Option.ne_none_iff_exists'.mp
        (mt List.getLast?_eq_none_iff.mp (List.ne_nil_of_mem (arrived newest issued)))
      have made := (genuine_run spread).held self khash last ((load_run spread).trans holds)
      have same : newest.time = last.time :=
        le_antisymm (le_getLast (sorted self) holds (arrived newest issued)) (latest last made)
      have symmetric : Std.Symm fun one other : CacheData => one.time ≠ other.time := ⟨fun _ _ apart => apart.symm⟩
      rw [holds]
      by_contra differs
      exact distinct.forall issued made (fun is => differs (congrArg some is.symm)) same

/-- Records reach a node as they were made, and a node holds the one that came last. The replicas of a hash
converge exactly when the records reach every node in the order of their times. -/
theorem converges_iff (events : List Event) (khash : Multihash) (spread : ∀ event ∈ events, event.Spreads)
    (distinct : (updates buildHash khash events).Pairwise (·.time ≠ ·.time)) :
    (∀ self, ∀ cachedata ∈ arrivals buildHash events self khash, cachedata ∈ updates buildHash khash events) ∧
      (∀ self, (Network.run buildHash events).load self khash = (arrivals buildHash events self khash).getLast?) ∧
        (Converges buildHash events khash ↔
          ∀ self, (arrivals buildHash events self khash).Pairwise (·.time ≤ ·.time)) :=
  ⟨fun _ _ arrived => mem_updates_of_arrivals spread arrived, fun _ => load_run spread,
    converges_iff_sorted spread distinct⟩

/-- A key is added and then updated at one node, and both records reach another node, the newer one first. -/
def newerFirst : List Event :=
  [.add [1] [5] (some [7]) 0, .sync [1] [5], .update [1] [5] (some [8]) 1, .sync [1] [5], .syncData [2] 1 2,
    .syncData [2] 0 3]

/-- The other node ends with the older record. -/
theorem newerFirst_not_converges : (∀ event ∈ newerFirst, event.Spreads) ∧
    (updates id [5] newerFirst).Pairwise (·.time ≠ ·.time) ∧ ¬ Converges id newerFirst [5] := by
  refine ⟨by simp [newerFirst, Event.Spreads], by decide, fun converges => ?_⟩
  have older := converges.kept (newerFirst.take 5) (.syncData [2] 0 3) [] rfl [2]
    { kbyte := [5], key := [5], value := some [8], time := 1 }
    { kbyte := [5], key := [5], value := some [7], time := 0 } (by decide) (by decide)
  exact absurd older (by decide)

/-- The same updates, and both records reach the other node in the order of their times. -/
def olderFirst : List Event :=
  [.add [1] [5] (some [7]) 0, .sync [1] [5], .update [1] [5] (some [8]) 1, .sync [1] [5], .syncData [2] 0 2,
    .syncData [2] 1 3]

theorem olderFirst_sorted (self : Multihash) : (arrivals id olderFirst self [5]).Pairwise (·.time ≤ ·.time) := by
  by_cases maker : [1] = self
  · subst maker
    decide
  · by_cases other : [2] = self
    · subst other
      decide
    · simp [arrivals, Network.arrivals, Network.arrival?, olderFirst, maker, other]

/-- The replicas converge, and the other node ends with the newer record. -/
theorem converges_in_order : Converges id olderFirst [5] ∧ (Network.run id olderFirst).load [2] [5] =
    some { kbyte := [5], key := [5], value := some [8], time := 1 } := by
  obtain ⟨_, last, converges⟩ := @converges_iff id olderFirst [5] (by simp [olderFirst, Event.Spreads]) (by decide)
  exact ⟨converges.mpr olderFirst_sorted, (last [2]).trans (by decide)⟩

end PolarCloud.Cache
