import PolarCloud.Base.Replay
import PolarCloud.Model.CacheStore.NameStore

/-! # Channels of names

A channel is in the map until it is taken, and is new as long; then it has one sender. So whoever waits at a channel
waits for the name that it was made for, and returns what its sender had to send.
-/

namespace PolarCloud.CacheStore

/-! ## Senders and their channels -/

/-- What a sender has left in its channel. -/
structure Sender.Holds (this : Sender) (channel : Channel) : Prop where
  value : ∀ out, channel.buffer = some out → out = this.answer.id
  closed : channel.closed = true → this.answer = .notExist
  ended : this.done = true → this.answer = .notExist → channel.closed = true
  unsent : this.done = false → this.answer ≠ .notExist → channel.buffer = none

section Turns

variable {sender after : Sender} {channel left : Channel} {out : Option TempId}

theorem Sender.Holds.of_new (fresh : sender.done = false) : sender.Holds {} :=
  ⟨nofun, nofun, fun done => absurd (fresh.symm.trans done) nofun, fun _ _ => rfl⟩

/-- A turn changes neither the answer nor where it is sent. -/
theorem turn_same (turned : sender.turn channel = (after, left)) :
    after.name = sender.name ∧ after.channel = sender.channel ∧ after.answer = sender.answer := by
  rw [Sender.turn] at turned
  split at turned
  · cases turned
    exact ⟨rfl, rfl, rfl⟩
  · split at turned
    · cases turned
      exact ⟨rfl, rfl, rfl⟩
    · cases turned
      exact ⟨rfl, rfl, rfl⟩

theorem Sender.Holds.turn (holds : sender.Holds channel) (turned : sender.turn channel = (after, left)) :
    after.Holds left := by
  rw [Sender.turn] at turned
  split at turned
  · next ids n told =>
    split at turned
    · cases turned
      refine ⟨fun _ sent => ?_, holds.closed, fun _ none => absurd (told.symm.trans none) nofun, nofun⟩
      cases sent
      rw [told]
      rfl
    · cases turned
      exact ⟨holds.value, holds.closed, fun _ none => absurd (told.symm.trans none) nofun, nofun⟩
  · next told =>
    split at turned
    · cases turned
      refine ⟨fun _ sent => ?_, holds.closed, holds.ended, fun _ found => absurd told found⟩
      cases sent
      rw [told]
      rfl
    · cases turned
      exact ⟨holds.value, fun _ => told, fun _ _ => rfl, fun _ found => absurd told found⟩

theorem Sender.Holds.receive (holds : sender.Holds channel) (taken : channel.receive = some (out, left)) :
    sender.Holds left ∧ out = sender.answer.id := by
  rw [Channel.receive] at taken
  split at taken
  · next out' full =>
    cases taken
    exact ⟨⟨nofun, holds.closed, holds.ended, fun _ _ => rfl⟩, holds.value _ full⟩
  · next empty =>
    split at taken
    · next closed =>
      cases taken
      exact ⟨holds, by rw [holds.closed closed]; rfl⟩
    · cases taken

end Turns

/-! ## Channels in the map and in the hands of senders -/

namespace NameStore

/-- A sender has the channel, and answers for the name. -/
def Serves (this : NameStore) (name : String) (channel : ℕ) (answer : Answer) : Prop :=
  ∃ (place : ℕ) (sender : Sender), this.senders[place]? = some sender ∧ sender.channel = channel ∧
    sender.name = name ∧ sender.answer = answer

/-- Channels in the map are new and have no sender, and others have one; who has returned was sent what it returned. -/
structure Sound (this : NameStore) : Prop where
  fresh : ∀ name channel, this.nameCacheMap.load name = some channel → this.channels[channel]? = some {}
  untaken : ∀ (place : ℕ) sender, this.senders[place]? = some sender →
    ∀ name, this.nameCacheMap.load name ≠ some sender.channel
  single : ∀ name other channel, this.nameCacheMap.load name = some channel →
    this.nameCacheMap.load other = some channel → name = other
  once : ∀ (place other : ℕ) first second, this.senders[place]? = some first → this.senders[other]? = some second →
    first.channel = second.channel → place = other
  holds : ∀ (place : ℕ) sender, this.senders[place]? = some sender →
    ∃ channel, this.channels[sender.channel]? = some channel ∧ sender.Holds channel
  waiting : ∀ (place : ℕ) caller channel, this.callers[place]? = some caller → caller.stage = .waiting channel →
    this.nameCacheMap.load caller.name = some channel ∨ ∃ answer, this.Serves caller.name channel answer
  returned : ∀ (place : ℕ) caller channel out, this.callers[place]? = some caller →
    caller.stage = .returned (some channel) out → ∃ answer, this.Serves caller.name channel answer ∧ out = answer.id

/-- One turn of a sender. -/
structure SendsAt (this : NameStore) (place : ℕ) (final : NameStore) (sender after : Sender) (channel left : Channel) :
    Prop where
  found : this.senders[place]? = some sender
  undone : sender.done = false
  room : this.channels[sender.channel]? = some channel
  turned : sender.turn channel = (after, left)
  result : final =
    { this with channels := this.channels.set sender.channel left, senders := this.senders.set place after }

/-- One call that returns. -/
structure ReceivesAt (this : NameStore) (place : ℕ) (final : NameStore) (name : String) (ref : ℕ)
    (out : Option TempId) (channel left : Channel) : Prop where
  found : this.callers[place]? = some { name, stage := .waiting ref }
  room : this.channels[ref]? = some channel
  taken : channel.receive = some (out, left)
  result : final =
    { this with
      channels := this.channels.set ref left
      callers := this.callers.set place { name, stage := .returned ref out } }

variable {this final : NameStore} {place : ℕ} {name : String} {ref : ℕ}

theorem sendsAt {sender : Sender} {channel : Channel} (found : this.senders[place]? = some sender)
    (undone : sender.done = false) (room : this.channels[sender.channel]? = some channel) :
    this.SendsAt place (this.send place) sender (sender.turn channel).1 channel (sender.turn channel).2 := by
  refine ⟨found, undone, room, rfl, ?_⟩
  rw [send, found]
  dsimp only
  rw [undone, room]
  rfl

theorem receivesAt {channel left : Channel} {out : Option TempId}
    (found : this.callers[place]? = some { name, stage := .waiting ref }) (room : this.channels[ref]? = some channel)
    (taken : channel.receive = some (out, left)) :
    this.ReceivesAt place (this.receive place) name ref out channel left := by
  refine ⟨found, room, taken, ?_⟩
  rw [receive, found]
  dsimp only
  rw [room, Option.bind_some, taken]

/-- What a step can do with something that has begun. -/
theorem send_cases (this : NameStore) (place : ℕ) : this.send place = this ∨
    ∃ sender after channel left, this.SendsAt place (this.send place) sender after channel left := by
  cases found : this.senders[place]? with
  | none => exact .inl (by rw [send, found])
  | some sender =>
    cases undone : sender.done with
    | true => exact .inl (by rw [send, found]; exact if_pos undone)
    | false =>
      cases room : this.channels[sender.channel]? with
      | none =>
        rw [send, found]
        dsimp only
        rw [undone, room]
        exact .inl rfl
      | some channel => exact .inr ⟨sender, _, channel, _, sendsAt found undone room⟩

theorem receive_cases (this : NameStore) (place : ℕ) : this.receive place = this ∨
    ∃ name ref out channel left, this.ReceivesAt place (this.receive place) name ref out channel left := by
  rw [receive]
  split
  · next name ref found =>
    cases taken : this.channels[ref]?.bind Channel.receive with
    | none => exact .inl rfl
    | some result =>
      obtain ⟨out, left⟩ := result
      obtain ⟨channel, room, taken⟩ := Option.bind_eq_some_iff.mp taken
      exact .inr ⟨name, ref, out, channel, left, found, room, taken, rfl⟩
  · exact .inl rfl

section Sends

variable {sender after : Sender} {channel left : Channel} {out : Option TempId}

/-- The senders and the channels are the same but for one of each. -/
theorem SendsAt.senders (sends : this.SendsAt place final sender after channel left) (k : ℕ) :
    final.senders[k]? = if k = place then some after else this.senders[k]? := by
  rw [sends.result]
  exact Replay.getElem?_set_known sends.found after k

theorem SendsAt.channels (sends : this.SendsAt place final sender after channel left) (ref : ℕ) :
    final.channels[ref]? = if ref = sender.channel then some left else this.channels[ref]? := by
  rw [sends.result]
  exact Replay.getElem?_set_known sends.room left ref

theorem SendsAt.serves_iff (sends : this.SendsAt place final sender after channel left) {answer : Answer} :
    final.Serves name ref answer ↔ this.Serves name ref answer := by
  obtain ⟨sameName, sameChannel, sameAnswer⟩ := turn_same sends.turned
  constructor
  · rintro ⟨k, one, found, rfl, rfl, rfl⟩
    rw [sends.senders] at found
    split at found
    · cases found
      exact ⟨place, sender, sends.found, sameChannel.symm, sameName.symm, sameAnswer.symm⟩
    · exact ⟨k, one, found, rfl, rfl, rfl⟩
  · rintro ⟨k, one, found, rfl, rfl, rfl⟩
    by_cases same : k = place
    · cases (same ▸ found).symm.trans sends.found
      exact ⟨place, after, by rw [sends.senders, if_pos rfl], sameChannel, sameName, sameAnswer⟩
    · exact ⟨k, one, by rw [sends.senders, if_neg same]; exact found, rfl, rfl, rfl⟩

theorem Sound.sends (sound : this.Sound) (sends : this.SendsAt place final sender after channel left) :
    final.Sound := by
  obtain ⟨-, sameChannel, -⟩ := turn_same sends.turned
  have map : final.nameCacheMap = this.nameCacheMap := by rw [sends.result]
  have callers : final.callers = this.callers := by rw [sends.result]
  have channels (ref : ℕ) (other : ref ≠ sender.channel) : final.channels[ref]? = this.channels[ref]? := by
    rw [sends.channels, if_neg other]
  have own : final.channels[sender.channel]? = some left := by rw [sends.channels, if_pos rfl]
  -- a sender has the channel that it had
  have before (k : ℕ) (one : Sender) (found : final.senders[k]? = some one) :
      ∃ old, this.senders[k]? = some old ∧ old.channel = one.channel := by
    rw [sends.senders] at found
    split at found
    · next same =>
      cases found
      exact ⟨sender, same ▸ sends.found, sameChannel.symm⟩
    · exact ⟨one, found, rfl⟩
  constructor
  · intro name ref known
    rw [map] at known
    rw [channels ref fun same => sound.untaken place sender sends.found name (same ▸ known)]
    exact sound.fresh name ref known
  · intro k one found name known
    obtain ⟨old, found, same⟩ := before k one found
    rw [map, ← same] at known
    exact sound.untaken k old found name known
  · rw [map]
    exact sound.single
  · intro j k first second foundFirst foundSecond same
    obtain ⟨_, foundFirst, sameFirst⟩ := before j first foundFirst
    obtain ⟨_, foundSecond, sameSecond⟩ := before k second foundSecond
    exact sound.once j k _ _ foundFirst foundSecond (sameFirst.trans (same.trans sameSecond.symm))
  · intro k one found
    rw [sends.senders] at found
    split at found
    · cases found
      obtain ⟨channel', room, holds⟩ := sound.holds place sender sends.found
      cases room.symm.trans sends.room
      exact ⟨left, sameChannel ▸ own, holds.turn sends.turned⟩
    · next other =>
      have apart : one.channel ≠ sender.channel :=
        fun same => other (sound.once k place one sender found sends.found same)
      rw [channels one.channel apart]
      exact sound.holds k one found
  · intro k caller ref found waits
    rw [callers] at found
    rw [map]
    refine (sound.waiting k caller ref found waits).imp_right fun ⟨answer, serves⟩ => ⟨answer, ?_⟩
    exact sends.serves_iff.mpr serves
  · intro k caller ref out found back
    rw [callers] at found
    obtain ⟨answer, serves, told⟩ := sound.returned k caller ref out found back
    exact ⟨answer, sends.serves_iff.mpr serves, told⟩

/-- What a call returns, a sender was to send; and the sender has it no longer. -/
theorem Sound.receives_from (sound : this.Sound) (receives : this.ReceivesAt place final name ref out channel left) :
    ∃ (k : ℕ) (sender : Sender), this.senders[k]? = some sender ∧ sender.channel = ref ∧ sender.name = name ∧
      sender.Holds channel := by
  rcases sound.waiting place _ ref receives.found rfl with known | ⟨answer, k, sender, found, rfl, same, -⟩
  · have taken := receives.taken
    cases (sound.fresh name ref known).symm.trans receives.room
    cases taken
  · obtain ⟨channel', room, holds⟩ := sound.holds k sender found
    cases room.symm.trans receives.room
    exact ⟨k, sender, found, rfl, same, holds⟩

theorem ReceivesAt.callers (receives : this.ReceivesAt place final name ref out channel left) (k : ℕ) :
    final.callers[k]? = if k = place then some { name, stage := .returned ref out } else this.callers[k]? := by
  rw [receives.result]
  exact Replay.getElem?_set_known receives.found _ k

theorem ReceivesAt.channels (receives : this.ReceivesAt place final name ref out channel left) (other : ℕ) :
    final.channels[other]? = if other = ref then some left else this.channels[other]? := by
  rw [receives.result]
  exact Replay.getElem?_set_known receives.room left other

theorem Sound.receives (sound : this.Sound) (receives : this.ReceivesAt place final name ref out channel left) :
    final.Sound := by
  obtain ⟨j, sender, found, rfl, rfl, holds⟩ := sound.receives_from receives
  have map : final.nameCacheMap = this.nameCacheMap := by rw [receives.result]
  have senders : final.senders = this.senders := by rw [receives.result]
  have channels (ref : ℕ) (other : ref ≠ sender.channel) : final.channels[ref]? = this.channels[ref]? := by
    rw [receives.channels, if_neg other]
  have own : final.channels[sender.channel]? = some left := by rw [receives.channels, if_pos rfl]
  have serves {name : String} {ref : ℕ} {answer : Answer} (serves : this.Serves name ref answer) :
      final.Serves name ref answer := by
    rw [Serves, senders]
    exact serves
  constructor
  · intro name ref known
    rw [map] at known
    rw [channels ref fun same => sound.untaken j sender found name (same ▸ known)]
    exact sound.fresh name ref known
  · rw [senders, map]
    exact sound.untaken
  · rw [map]
    exact sound.single
  · rw [senders]
    exact sound.once
  · intro k one foundOne
    rw [senders] at foundOne
    by_cases same : one.channel = sender.channel
    · cases sound.once k j one sender foundOne found same
      cases foundOne.symm.trans found
      exact ⟨left, own, (holds.receive receives.taken).1⟩
    · rw [channels one.channel same]
      exact sound.holds k one foundOne
  · intro k caller ref foundCaller waits
    rw [receives.callers] at foundCaller
    rw [map]
    split at foundCaller
    · cases foundCaller
      cases waits
    · exact (sound.waiting k caller ref foundCaller waits).imp_right fun ⟨answer, given⟩ => ⟨answer, serves given⟩
  · intro k caller ref out' foundCaller back
    rw [receives.callers] at foundCaller
    split at foundCaller
    · cases foundCaller
      cases back
      exact ⟨sender.answer, serves ⟨j, sender, found, rfl, rfl, rfl⟩, (holds.receive receives.taken).2⟩
    · obtain ⟨answer, given, told⟩ := sound.returned k caller ref out' foundCaller back
      exact ⟨answer, serves given, told⟩

end Sends

theorem Sound.send (sound : this.Sound) (place : ℕ) : (this.send place).Sound := by
  rcases send_cases this place with same | ⟨_, _, _, _, sends⟩
  · rw [same]
    exact sound
  · exact sound.sends sends

theorem Sound.receive (sound : this.Sound) (place : ℕ) : (this.receive place).Sound := by
  rcases receive_cases this place with same | ⟨_, _, _, _, _, receives⟩
  · rw [same]
    exact sound
  · exact sound.receives receives

/-! ## New calls and answers -/

/-- A call that found a channel in the map, or none and returned. -/
theorem Sound.addCaller (sound : this.Sound) {caller : Caller}
    (waits : ∀ ref, caller.stage = .waiting ref → this.nameCacheMap.load caller.name = some ref)
    (back : ∀ ref out, caller.stage ≠ .returned (some ref) out) :
    Sound { this with callers := this.callers ++ [caller] } := by
  refine ⟨sound.fresh, sound.untaken, sound.single, sound.once, sound.holds, fun k one ref found waiting => ?_,
    fun k one ref out found returned => ?_⟩
  · rw [List.getElem?_append] at found
    split at found
    · exact sound.waiting k one ref found waiting
    · cases List.mem_singleton.mp (List.mem_of_getElem? found)
      exact .inl (waits ref waiting)
  · rw [List.getElem?_append] at found
    split at found
    · exact sound.returned k one ref out found returned
    · cases List.mem_singleton.mp (List.mem_of_getElem? found)
      exact absurd returned (back ref out)

/-- A channel is made for a name that has none. -/
theorem Sound.addChannel (sound : this.Sound) (unknown : this.nameCacheMap.load name = none) :
    Sound { this with
      nameCacheMap := this.nameCacheMap.store name this.channels.length
      channels := this.channels ++ [{}] } := by
  have old {ref : ℕ} {channel : Channel} (room : this.channels[ref]? = some channel) : ref < this.channels.length :=
    (List.getElem?_eq_some_iff.mp room).1
  have kept {ref : ℕ} {channel : Channel} (room : this.channels[ref]? = some channel) :
      (this.channels ++ [({} : Channel)])[ref]? = some channel := by
    rw [List.getElem?_append_left (old room)]
    exact room
  constructor
  · intro other ref known
    rw [SyncMap.load_store] at known
    split at known
    · cases known
      exact List.getElem?_concat_length
    · exact kept (sound.fresh other ref known)
  · intro k sender found other known
    obtain ⟨channel, room, -⟩ := sound.holds k sender found
    rw [SyncMap.load_store] at known
    split at known
    · exact absurd (old room) (Option.some.inj known ▸ lt_irrefl _)
    · exact sound.untaken k sender found other known
  · intro first second ref knownFirst knownSecond
    rw [SyncMap.load_store] at knownFirst knownSecond
    split at knownFirst
    · next sameFirst =>
      cases knownFirst
      split at knownSecond
      · next sameSecond => rw [sameFirst, sameSecond]
      · exact absurd (old (sound.fresh second _ knownSecond)) (lt_irrefl _)
    · split at knownSecond
      · cases knownSecond
        exact absurd (old (sound.fresh first _ knownFirst)) (lt_irrefl _)
      · exact sound.single first second ref knownFirst knownSecond
  · exact sound.once
  · intro k sender found
    obtain ⟨channel, room, holds⟩ := sound.holds k sender found
    exact ⟨channel, kept room, holds⟩
  · intro k caller ref found waits
    refine (sound.waiting k caller ref found waits).imp_left fun known => ?_
    rw [SyncMap.load_store, if_neg]
    · exact known
    · intro same
      rw [same, unknown] at known
      cases known
  · exact sound.returned

theorem Sound.take (sound : this.Sound) (name : String) (answer : Answer) : (this.take name answer).Sound := by
  rw [NameStore.take]
  cases known : this.nameCacheMap.load name with
  | none => exact sound
  | some ref =>
    have room := sound.fresh name ref known
    have sender {k : ℕ} {one : Sender} (found : (this.senders ++ [{ name, channel := ref, answer }])[k]? = some one) :
        this.senders[k]? = some one ∨ k = this.senders.length ∧ one = { name, channel := ref, answer } := by
      rw [List.getElem?_append] at found
      split at found
      · exact .inl found
      · next inside =>
        have place := (List.getElem?_eq_some_iff.mp found).1
        rw [List.length_singleton] at place
        exact .inr ⟨by omega, List.mem_singleton.mp (List.mem_of_getElem? found)⟩
    have left {other : String} {channel : ℕ} (kept : (this.nameCacheMap.delete name).load other = some channel) :
        other ≠ name ∧ this.nameCacheMap.load other = some channel := by
      rw [SyncMap.load_delete] at kept
      split at kept
      · cases kept
      · next differs => exact ⟨differs, kept⟩
    have serves {other : String} {channel : ℕ} {one : Answer} (serves : this.Serves other channel one) :
        Serves { this with
          nameCacheMap := this.nameCacheMap.delete name
          senders := this.senders ++ [{ name, channel := ref, answer }] } other channel one := by
      obtain ⟨k, sender, found, same⟩ := serves
      refine ⟨k, sender, ?_, same⟩
      rw [List.getElem?_append_left (List.getElem?_eq_some_iff.mp found).1]
      exact found
    constructor
    · exact fun other channel kept => sound.fresh other channel (left kept).2
    · intro k one found other kept
      rcases sender found with found | ⟨-, rfl⟩
      · exact sound.untaken k one found other (left kept).2
      · exact (left kept).1 (sound.single other name ref (left kept).2 known)
    · exact fun first second channel keptFirst keptSecond =>
        sound.single first second channel (left keptFirst).2 (left keptSecond).2
    · intro j k first second foundFirst foundSecond same
      rcases sender foundFirst with foundFirst | ⟨placeFirst, rfl⟩
      · rcases sender foundSecond with foundSecond | ⟨-, rfl⟩
        · exact sound.once j k first second foundFirst foundSecond same
        · exact absurd (same ▸ known) (sound.untaken j first foundFirst name)
      · rcases sender foundSecond with foundSecond | ⟨placeSecond, rfl⟩
        · exact absurd (same ▸ known) (sound.untaken k second foundSecond name)
        · rw [placeFirst, placeSecond]
    · intro k one found
      rcases sender found with found | ⟨-, rfl⟩
      · exact sound.holds k one found
      · exact ⟨{}, room, .of_new rfl⟩
    · intro k caller channel found waits
      rcases sound.waiting k caller channel found waits with kept | ⟨one, given⟩
      · by_cases same : caller.name = name
        · rw [same, known] at kept
          cases kept
          refine .inr ⟨answer, this.senders.length, _, List.getElem?_concat_length, rfl, same.symm, rfl⟩
        · refine .inl ?_
          rw [SyncMap.load_delete, if_neg same]
          exact kept
      · exact .inr ⟨one, serves given⟩
    · intro k caller channel out found back
      obtain ⟨one, given, told⟩ := sound.returned k caller channel out found back
      exact ⟨one, serves given, told⟩

theorem getAddressInName_cases (this : NameStore) (name : String) (n : ℕ) :
    (∃ out, this.getAddressInName name n =
      { this with callers := this.callers ++ [{ name, stage := .returned none out }] }) ∨
    (∃ ref, this.nameCacheMap.load name = some ref ∧ this.getAddressInName name n =
      { this with callers := this.callers ++ [{ name, stage := .waiting ref }] }) ∨
    this.nameCacheMap.load name = none ∧ this.getAddressInName name n =
      { this with
        nameCacheMap := this.nameCacheMap.store name this.channels.length
        channels := this.channels ++ [{}]
        callers := this.callers ++ [{ name, stage := .waiting this.channels.length }] } := by
  rw [getAddressInName]
  cases this.nameCache.load name with
  | some ids => exact .inl ⟨oneOf ids n, rfl⟩
  | none =>
    cases known : this.nameCacheMap.load name with
    | some ref => exact .inr (.inl ⟨ref, rfl, rfl⟩)
    | none => exact .inr (.inr ⟨rfl, rfl⟩)

theorem Sound.getAddressInName (sound : this.Sound) (name : String) (n : ℕ) :
    (this.getAddressInName name n).Sound := by
  rcases this.getAddressInName_cases name n with ⟨out, same⟩ | ⟨ref, known, same⟩ | ⟨unknown, same⟩
  · rw [same]
    exact sound.addCaller nofun nofun
  · rw [same]
    refine sound.addCaller (fun other waiting => ?_) nofun
    cases waiting
    exact known
  · rw [same]
    refine (sound.addChannel unknown).addCaller (fun other waiting => ?_) nofun
    cases waiting
    exact SyncMap.load_store_self _ _ _

/-- The cache decides neither who waits nor what is sent. -/
theorem Sound.cache (sound : this.Sound) (cache : SyncMap String (List TempId)) :
    Sound { this with nameCache := cache } :=
  ⟨sound.fresh, sound.untaken, sound.single, sound.once, sound.holds, sound.waiting, sound.returned⟩

theorem addAddressInName_eq (this : NameStore) (name : String) (ids : List TempId) (n : ℕ) :
    ∃ cache, this.addAddressInName name ids n = take { this with nameCache := cache } name (.found ids n) := by
  rw [addAddressInName]
  split
  · exact ⟨_, rfl⟩
  · exact ⟨this.nameCache, rfl⟩

theorem start_sound : Sound {} := ⟨nofun, nofun, nofun, nofun, nofun, nofun, nofun⟩

theorem Sound.step (sound : this.Sound) (event : StoreEvent) : (this.step event).Sound := by
  cases event with
  | getAddressInName name n => exact sound.getAddressInName name n
  | noticeNameNotExist name => exact sound.take name .notExist
  | addAddressInName name ids n =>
    obtain ⟨cache, same⟩ := this.addAddressInName_eq name ids n
    rw [NameStore.step, same]
    exact (sound.cache cache).take name _
  | removeOldest name => exact sound.cache _
  | send place => exact sound.send place
  | receive place => exact sound.receive place

end NameStore

end PolarCloud.CacheStore
