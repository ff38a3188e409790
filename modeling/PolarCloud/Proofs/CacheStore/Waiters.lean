import PolarCloud.Proofs.CacheStore.Channels

/-! # Who is answered

A channel that was taken out of the map gets one address, or is closed. So those who wait there are all answered
exactly when the name does not exist, or nobody waits there with another.
-/

namespace PolarCloud.CacheStore

/-- Nothing when the name does not exist or has no address, and else one of its addresses. -/
def Answer.Brings : Answer → Option TempId → Prop
  | .notExist, out => out = none
  | .found ids _, out => if ids = [] then out = none else ∃ id ∈ ids, out = some id

def Stage.waits : Stage → Bool
  | .waiting _ => true
  | .returned _ _ => false

/-- Something that has begun goes on. -/
def StoreEvent.Goes : StoreEvent → Prop
  | .send _ => True
  | .receive _ => True
  | _ => False

namespace NameStore

def Quiescent (this : NameStore) : Prop := ∀ event : StoreEvent, event.Goes → this.step event = this

/-- Who waits is waiting for a name that was not answered since. -/
def NoneLeft (this : NameStore) : Prop :=
  ∀ (place : ℕ) caller channel, this.callers[place]? = some caller → caller.stage = .waiting channel →
    this.nameCacheMap.load caller.name = some channel

/-- Whatever the order in which all goes on, nobody is left over when nothing moves any more. -/
def Answered (this : NameStore) : Prop :=
  ∀ more : List StoreEvent, (∀ event ∈ more, event.Goes) → (more.foldl step this).Quiescent →
    (more.foldl step this).NoneLeft

/-- Every call that returns from a channel returns what was told of its name there. -/
def Told (this : NameStore) : Prop :=
  ∀ (place : ℕ) caller channel out, this.callers[place]? = some caller → caller.stage = .returned (some channel) out →
    ∃ sender ∈ this.senders, sender.channel = channel ∧ sender.name = caller.name ∧ sender.answer.Brings out

/-- How many calls wait at a channel. -/
def waiters (this : NameStore) (channel : ℕ) : ℕ := this.callers.countP fun caller => caller.stage = .waiting channel

/-- A name that is added has at most one call that waits for it. -/
def TakesAlone (this : NameStore) : StoreEvent → Prop
  | .addAddressInName name _ _ => ∀ channel, this.nameCacheMap.load name = some channel → this.waiters channel ≤ 1
  | _ => True

/-- At least as many steps can follow as there are calls and turns left. -/
def rank (this : NameStore) : ℕ :=
  2 * this.callers.countP (fun caller => caller.stage.waits) + this.senders.countP (fun sender => !sender.done) +
    this.channels.countP fun channel => channel.buffer.isNone

end NameStore

theorem oneOf_of_mem {ids : List TempId} {n : ℕ} (some_ : ids ≠ []) : ∃ id ∈ ids, oneOf ids n = some id := by
  match ids with
  | [id] => exact ⟨id, List.mem_singleton_self id, rfl⟩
  | first :: second :: rest =>
    have inside : n % (first :: second :: rest).length < (first :: second :: rest).length :=
      Nat.mod_lt _ (Nat.succ_pos _)
    exact ⟨_, List.getElem_mem inside, List.getElem?_eq_getElem inside⟩

theorem Answer.brings_id (answer : Answer) : answer.Brings answer.id := by
  cases answer with
  | notExist => rfl
  | found ids n =>
    rw [Brings]
    split
    · next none => rw [none]; rfl
    · next some_ => exact oneOf_of_mem some_

/-- How many calls a sender that has an address can still answer. -/
def Sender.supply (this : Sender) (channel : Channel) : ℕ :=
  if this.done then if channel.buffer.isSome then 1 else 0 else 1

section Turns

variable {sender after : Sender} {channel left : Channel} {out : Option TempId}

/-- An address that is sent was to be sent. -/
theorem supply_turn (holds : sender.Holds channel) (undone : sender.done = false) (found : sender.answer ≠ .notExist)
    (turned : sender.turn channel = (after, left)) : after.supply left = sender.supply channel := by
  have room := holds.unsent undone found
  rw [Sender.turn] at turned
  split at turned
  · rw [room] at turned
    cases turned
    rw [Sender.supply, Sender.supply, undone]
    rfl
  · next none => exact absurd none found

/-- What is taken out of a channel that gets an address was the address. -/
theorem supply_receive (holds : sender.Holds channel) (found : sender.answer ≠ .notExist)
    (taken : channel.receive = some (out, left)) : sender.supply channel = 1 + sender.supply left := by
  rw [Channel.receive] at taken
  split at taken
  · next full =>
    cases taken
    cases undone : sender.done with
    | false =>
      rw [holds.unsent undone found] at full
      cases full
    | true =>
      rw [Sender.supply, Sender.supply, undone, full]
      rfl
  · split at taken
    · next closed => exact absurd (holds.closed closed) found
    · cases taken

end Turns

namespace NameStore

variable {this final : NameStore} {place : ℕ} {name : String} {ref : ℕ}

/-! ## Steps of what has begun -/

section Sends

variable {sender after : Sender} {channel left : Channel} {out : Option TempId}

theorem rank_sends (sends : this.SendsAt place final sender after channel left) : final.rank < this.rank := by
  have turns := @Replay.countP_set_add _ (fun sender => !sender.done) _ _ _ after sends.found
  have rooms := @Replay.countP_set_add _ (fun channel => channel.buffer.isNone) _ _ _ left sends.room
  have turned := sends.turned
  rw [rank, rank, sends.result]
  dsimp only
  rw [sends.undone, Bool.not_false, if_pos rfl] at turns
  rw [Sender.turn] at turned
  split at turned
  · split at turned
    · cases turned
      rw [Bool.not_true, if_neg Bool.false_ne_true] at turns
      rw [Option.isNone_some, if_neg Bool.false_ne_true] at rooms
      omega
    · next full =>
      cases turned
      rw [Bool.not_true, if_neg Bool.false_ne_true] at turns
      omega
  · split at turned
    · next empty =>
      cases turned
      rw [empty, if_pos rfl, Option.isNone_some, if_neg Bool.false_ne_true] at rooms
      rw [sends.undone, Bool.not_false, if_pos rfl] at turns
      omega
    · cases turned
      rw [Bool.not_true, if_neg Bool.false_ne_true] at turns
      dsimp only at rooms
      omega

theorem rank_receives (receives : this.ReceivesAt place final name ref out channel left) : final.rank < this.rank := by
  have calls := @Replay.countP_set_add _ (fun caller : Caller => caller.stage.waits) _ _ _
    { name, stage := .returned ref out } receives.found
  have rooms := @Replay.countP_set_add _ (fun channel => channel.buffer.isNone) _ _ _ left receives.room
  rw [rank, rank, receives.result]
  dsimp only
  rw [Stage.waits, Stage.waits, if_pos rfl, if_neg Bool.false_ne_true] at calls
  have most : (if left.buffer.isNone = true then 1 else 0) ≤ 1 := by
    split
    · exact le_rfl
    · exact Nat.zero_le 1
  omega

end Sends

/-- Whatever goes on comes to an end: each step that does anything lowers the rank. -/
theorem rank_step (this : NameStore) {event : StoreEvent} (goes : event.Goes) :
    this.step event = this ∨ (this.step event).rank < this.rank := by
  cases event with
  | send place => exact (send_cases this place).imp_right fun ⟨_, _, _, _, sends⟩ => rank_sends sends
  | receive place => exact (receive_cases this place).imp_right fun ⟨_, _, _, _, _, receives⟩ => rank_receives receives
  | _ => cases goes

/-- A state in which nothing moves any more is reached. -/
theorem exists_quiescent (this : NameStore) :
    ∃ more : List StoreEvent, (∀ event ∈ more, event.Goes) ∧ (more.foldl step this).Quiescent := by
  by_cases quiescent : this.Quiescent
  · exact ⟨[], nofun, quiescent⟩
  · simp only [Quiescent, not_forall] at quiescent
    obtain ⟨event, goes, moves⟩ := quiescent
    have lower := (this.rank_step goes).resolve_left moves
    obtain ⟨more, allGo, ends⟩ := exists_quiescent (this.step event)
    exact ⟨event :: more, List.forall_mem_cons.mpr ⟨goes, allGo⟩, ends⟩
termination_by this.rank

/-! ## Who can be answered -/

/-- A sender that has an address can answer all who wait at its channel. -/
def Enough (this : NameStore) : Prop :=
  ∀ (place : ℕ) sender channel, this.senders[place]? = some sender → sender.answer ≠ .notExist →
    this.channels[sender.channel]? = some channel → this.waiters sender.channel ≤ sender.supply channel

section Sends

variable {sender after : Sender} {channel left : Channel} {out : Option TempId}

/-- A turn changes neither who waits nor who can be answered. -/
theorem enough_sends_iff (sound : this.Sound) (sends : this.SendsAt place final sender after channel left) :
    final.Enough ↔ this.Enough := by
  obtain ⟨-, sameChannel, sameAnswer⟩ := turn_same sends.turned
  obtain ⟨channel', room, holds⟩ := sound.holds place sender sends.found
  cases room.symm.trans sends.room
  have waiters (ref : ℕ) : final.waiters ref = this.waiters ref := by rw [waiters, waiters, sends.result]
  have own : final.channels[sender.channel]? = some left := by rw [sends.channels, if_pos rfl]
  have others {k : ℕ} {one : Sender} (found : this.senders[k]? = some one) (other : k ≠ place) :
      final.channels[one.channel]? = this.channels[one.channel]? := by
    rw [sends.channels, if_neg fun same => other (sound.once k place one sender found sends.found same)]
  constructor
  · intro enough k one channel' found told room
    by_cases same : k = place
    · subst same
      cases found.symm.trans sends.found
      cases room.symm.trans sends.room
      have kept := enough k after left (by rw [sends.senders, if_pos rfl]) (sameAnswer ▸ told) (sameChannel ▸ own)
      rwa [waiters, sameChannel, supply_turn holds sends.undone told sends.turned] at kept
    · rw [← waiters]
      have kept : final.senders[k]? = some one := by rw [sends.senders, if_neg same, found]
      exact enough k one channel' kept told ((others found same).trans room)
  · intro enough k one channel' found told room
    rw [sends.senders] at found
    split at found
    · cases found
      cases (sameChannel ▸ room).symm.trans own
      rw [sameAnswer] at told
      rw [waiters, sameChannel, supply_turn holds sends.undone told sends.turned]
      exact enough place sender channel sends.found told sends.room
    · next same =>
      rw [waiters]
      exact enough k one channel' found told ((others found same).symm.trans room)

theorem waiters_receives (receives : this.ReceivesAt place final name ref out channel left) (other : ℕ) :
    this.waiters other = final.waiters other + if other = ref then 1 else 0 := by
  have calls := @Replay.countP_set_add _ (fun caller : Caller => caller.stage = .waiting other) _ _ _
    { name, stage := .returned ref out } receives.found
  rw [waiters, waiters, receives.result]
  simp only [reduceCtorEq, decide_false, Bool.false_eq_true, if_false, Stage.waiting.injEq, decide_eq_true_eq,
    add_zero] at calls
  simp only [eq_comm, calls]

/-- A call that returns is one less to wait, and one less that can be answered. -/
theorem enough_receives_iff (sound : this.Sound) (receives : this.ReceivesAt place final name ref out channel left) :
    final.Enough ↔ this.Enough := by
  obtain ⟨j, sender, found, rfl, rfl, holds⟩ := sound.receives_from receives
  have senders : final.senders = this.senders := by rw [receives.result]
  have own : final.channels[sender.channel]? = some left := by rw [receives.channels, if_pos rfl]
  have others {one : Sender} (other : one.channel ≠ sender.channel) :
      final.channels[one.channel]? = this.channels[one.channel]? := by
    rw [receives.channels, if_neg other]
  -- every sender has as many left over, or too few, as before
  have balance {k : ℕ} {one : Sender} {before after : Channel} (foundOne : this.senders[k]? = some one)
      (told : one.answer ≠ .notExist) (roomBefore : this.channels[one.channel]? = some before)
      (roomAfter : final.channels[one.channel]? = some after) :
      final.waiters one.channel ≤ one.supply after ↔ this.waiters one.channel ≤ one.supply before := by
    rw [waiters_receives receives one.channel]
    by_cases same : one.channel = sender.channel
    · cases sound.once k j one sender foundOne found same
      cases foundOne.symm.trans found
      cases roomAfter.symm.trans own
      cases roomBefore.symm.trans receives.room
      rw [supply_receive holds told receives.taken, if_pos rfl]
      omega
    · cases (roomAfter.symm.trans (others same)).trans roomBefore
      rw [if_neg same, Nat.add_zero]
  constructor
  · intro enough k one before foundOne told roomBefore
    obtain ⟨after, roomAfter⟩ : ∃ after, final.channels[one.channel]? = some after := by
      by_cases same : one.channel = sender.channel
      · exact ⟨left, same ▸ own⟩
      · exact ⟨before, (others same).trans roomBefore⟩
    exact (balance foundOne told roomBefore roomAfter).mp (enough k one after (senders ▸ foundOne) told roomAfter)
  · intro enough k one after foundOne told roomAfter
    rw [senders] at foundOne
    obtain ⟨before, roomBefore, -⟩ := sound.holds k one foundOne
    exact (balance foundOne told roomBefore roomAfter).mpr (enough k one before foundOne told roomBefore)

end Sends

theorem enough_goes_iff (sound : this.Sound) {event : StoreEvent} (goes : event.Goes) :
    (this.step event).Enough ↔ this.Enough := by
  cases event with
  | send place =>
    rcases send_cases this place with same | ⟨_, _, _, _, sends⟩
    · rw [step, same]
    · exact enough_sends_iff sound sends
  | receive place =>
    rcases receive_cases this place with same | ⟨_, _, _, _, _, receives⟩
    · rw [step, same]
    · exact enough_receives_iff sound receives
  | _ => cases goes

theorem enough_run_iff (sound : this.Sound) {more : List StoreEvent} (allGo : ∀ event ∈ more, event.Goes) :
    (more.foldl step this).Sound ∧ ((more.foldl step this).Enough ↔ this.Enough) := by
  induction more generalizing this with
  | nil => exact ⟨sound, Iff.rfl⟩
  | cons event more ih =>
    obtain ⟨goes, allGo⟩ := List.forall_mem_cons.mp allGo
    obtain ⟨sound', same⟩ := ih (sound.step event) allGo
    exact ⟨sound', same.trans (enough_goes_iff sound goes)⟩

/-- When nothing moves any more, every sender is done. -/
theorem done_of_quiescent (sound : this.Sound) (quiescent : this.Quiescent) {sender : Sender}
    (found : this.senders[place]? = some sender) : sender.done = true := by
  obtain ⟨channel, room, -⟩ := sound.holds place sender found
  cases undone : sender.done with
  | true => rfl
  | false =>
    have lower := rank_sends (sendsAt found undone room)
    rw [show this.send place = this from quiescent (.send place) trivial] at lower
    exact absurd lower (lt_irrefl _)

/-- And who still waits finds its channel empty and open. -/
theorem empty_of_quiescent (quiescent : this.Quiescent) {channel : Channel}
    (found : this.callers[place]? = some { name, stage := .waiting ref }) (room : this.channels[ref]? = some channel) :
    channel.buffer = none ∧ channel.closed = false := by
  cases taken : channel.receive with
  | none =>
    rw [Channel.receive] at taken
    split at taken
    · cases taken
    · next empty =>
      split at taken
      · cases taken
      · next opened => exact ⟨empty, Bool.eq_false_of_not_eq_true opened⟩
  | some result =>
    obtain ⟨out, left⟩ := result
    have lower := rank_receives (receivesAt found room taken)
    rw [show this.receive place = this from quiescent (.receive place) trivial] at lower
    exact absurd lower (lt_irrefl _)

theorem enough_iff_noneLeft (sound : this.Sound) (quiescent : this.Quiescent) : this.Enough ↔ this.NoneLeft := by
  constructor
  · rintro enough place ⟨name, stage⟩ ref found rfl
    refine (sound.waiting place _ ref found rfl).resolve_right ?_
    rintro ⟨answer, k, sender, foundSender, rfl, -, -⟩
    obtain ⟨channel, room, holds⟩ := sound.holds k sender foundSender
    obtain ⟨empty, opened⟩ := empty_of_quiescent quiescent found room
    have done := done_of_quiescent sound quiescent foundSender
    by_cases told : sender.answer = .notExist
    · exact absurd ((holds.ended done told).symm.trans opened) nofun
    · have most := enough k sender channel foundSender told room
      rw [Sender.supply, done, if_pos rfl, empty, Option.isSome_none, if_neg Bool.false_ne_true] at most
      have waits : 0 < this.waiters sender.channel := by
        apply List.countP_pos_iff.mpr
        exact ⟨_, List.mem_of_getElem? found, decide_eq_true rfl⟩
      omega
  · intro noneLeft k sender channel found _ _
    have none : this.waiters sender.channel = 0 := by
      apply List.countP_eq_zero.mpr
      intro caller mem
      obtain ⟨place, foundCaller⟩ := List.mem_iff_getElem?.mp mem
      rw [decide_eq_true_eq]
      intro waits
      exact sound.untaken k sender found _ (noneLeft place caller sender.channel foundCaller waits)
    rw [none]
    exact Nat.zero_le _

/-- In whatever order all goes on, it ends with everyone answered exactly when all can be. -/
theorem answered_iff (sound : this.Sound) : this.Answered ↔ this.Enough := by
  constructor
  · intro answered
    obtain ⟨more, allGo, quiescent⟩ := this.exists_quiescent
    obtain ⟨sound', same⟩ := enough_run_iff sound allGo
    exact same.mp ((enough_iff_noneLeft sound' quiescent).mpr (answered more allGo quiescent))
  · intro enough more allGo quiescent
    obtain ⟨sound', same⟩ := enough_run_iff sound allGo
    exact (enough_iff_noneLeft sound' quiescent).mp (same.mpr enough)

theorem Sound.told (sound : this.Sound) : this.Told := by
  intro place caller ref out found back
  obtain ⟨answer, ⟨k, sender, foundSender, rfl, same, rfl⟩, rfl⟩ := sound.returned place caller ref out found back
  exact ⟨sender, List.mem_of_getElem? foundSender, rfl, same, sender.answer.brings_id⟩

/-- A call does not join those whose channel was taken. -/
theorem enough_addCaller (sound : this.Sound) (enough : this.Enough) {caller : Caller}
    (waits : ∀ ref, caller.stage = .waiting ref → this.nameCacheMap.load caller.name = some ref) :
    Enough { this with callers := this.callers ++ [caller] } := by
  intro k sender channel found told room
  have same : waiters { this with callers := this.callers ++ [caller] } sender.channel =
      this.waiters sender.channel := by
    rw [waiters, List.countP_append, List.countP_singleton, if_neg]
    · rfl
    · rw [decide_eq_true_eq]
      exact fun waiting => sound.untaken k sender found _ (waits _ waiting)
  rw [same]
  exact enough k sender channel found told room

theorem enough_addChannel (sound : this.Sound) (enough : this.Enough) (map : SyncMap String ℕ) :
    Enough { this with nameCacheMap := map, channels := this.channels ++ [{}] } := by
  intro k sender channel found told room
  obtain ⟨channel', room', -⟩ := sound.holds k sender found
  have kept : (this.channels ++ [({} : Channel)])[sender.channel]? = some channel' := by
    rw [List.getElem?_append_left (List.getElem?_eq_some_iff.mp room').1]
    exact room'
  cases kept.symm.trans room
  exact enough k sender channel found told room'

/-- A channel that is taken to send one address to is enough for one call. -/
theorem enough_take_iff (enough : this.Enough) (name : String) (answer : Answer) : (this.take name answer).Enough ↔
    (answer ≠ .notExist → ∀ ref, this.nameCacheMap.load name = some ref → ref < this.channels.length →
      this.waiters ref ≤ 1) := by
  rw [take]
  cases known : this.nameCacheMap.load name with
  | none =>
    refine iff_of_true enough fun _ ref stored => ?_
    cases stored
  | some ref =>
    constructor
    · rintro enough' told _ ⟨⟩ inside
      exact enough' this.senders.length { name, channel := ref, answer } _ List.getElem?_concat_length told
        (List.getElem?_eq_getElem inside)
    · intro alone k one channel found told room
      dsimp only at found room
      rw [List.getElem?_append] at found
      split at found
      · exact enough k one channel found told room
      · cases List.mem_singleton.mp (List.mem_of_getElem? found)
        exact alone told ref rfl (List.getElem?_eq_some_iff.mp room).1

theorem enough_getAddressInName (sound : this.Sound) (enough : this.Enough) (name : String) (n : ℕ) :
    (this.getAddressInName name n).Enough := by
  rcases this.getAddressInName_cases name n with ⟨out, same⟩ | ⟨ref, known, same⟩ | ⟨unknown, same⟩
  · rw [same]
    exact enough_addCaller sound enough nofun
  · rw [same]
    refine enough_addCaller sound enough fun other waiting => ?_
    cases waiting
    exact known
  · rw [same]
    refine enough_addCaller (sound.addChannel unknown) (enough_addChannel sound enough _) fun other waiting => ?_
    cases waiting
    exact SyncMap.load_store_self _ _ _

theorem enough_step_iff (sound : this.Sound) (enough : this.Enough) (event : StoreEvent) :
    (this.step event).Enough ↔ this.TakesAlone event := by
  cases event with
  | getAddressInName name n => exact iff_of_true (enough_getAddressInName sound enough name n) trivial
  | noticeNameNotExist name =>
    exact iff_of_true ((enough_take_iff enough name _).mpr fun told => absurd rfl told) trivial
  | addAddressInName name ids n =>
    obtain ⟨cache, same⟩ := this.addAddressInName_eq name ids n
    have taken := @enough_take_iff { this with nameCache := cache } enough name (.found ids n)
    rw [step, same, taken]
    constructor
    · intro alone ref known
      exact alone (by simp) ref known (List.getElem?_eq_some_iff.mp (sound.fresh name ref known)).1
    · exact fun alone _ ref known _ => alone ref known
  | removeOldest name => exact iff_of_true enough trivial
  | send place => exact iff_of_true ((@enough_goes_iff this sound (.send place) trivial).mpr enough) trivial
  | receive place => exact iff_of_true ((@enough_goes_iff this sound (.receive place) trivial).mpr enough) trivial

/-! ## Every run -/

/-- All who wait for a name are answered exactly when no name is added while two calls wait for it; what they are told
is right, and it does not take longer than there are turns and calls left. -/
theorem answered_iff_alone (events : List StoreEvent) :
    (Replay.Always step {} Answered events ↔ Replay.Each step {} TakesAlone events) ∧
      Replay.Always step {} Told events ∧
      ∀ (this : NameStore) (event : StoreEvent), event.Goes →
        this.step event = this ∨ (this.step event).rank < this.rank := by
  refine ⟨?_, ?_, fun this event => this.rank_step⟩
  · have enough : Enough {} := nofun
    apply Replay.always_iff_each ((answered_iff start_sound).mpr enough) start_sound
    · exact fun this event sound _ => sound.step event
    · intro this event sound answered
      rw [answered_iff (sound.step event)]
      exact enough_step_iff sound ((answered_iff sound).mp answered) event
  · intro front back split
    have sound := Replay.always_of_step start_sound (fun _ event sound => sound.step event) events
    exact (sound front back split).told

/-- Two calls wait for a name, and it is added with an address. -/
def twoWait : List StoreEvent :=
  [.getAddressInName "name" 0, .getAddressInName "name" 0, .addAddressInName "name" [⟨[1], [2], 0⟩] 0]

-- the channel is empty then, and nobody sends to it any more
example : (((twoWait.foldl step {}).send 0).receive 0).callers =
    [{ name := "name", stage := .returned (some 0) (some ⟨[1], [2], 0⟩) },
      { name := "name", stage := .waiting 0 }] := by
  decide

/-- The address that is sent is enough for one of them. -/
theorem one_left : ¬ Replay.Always step {} Answered twoWait := by
  intro always
  have sound : Sound (twoWait.foldl step {}) :=
    (Replay.always_of_step start_sound (fun _ event sound => sound.step event) twoWait).last
  have enough := (answered_iff sound).mp always.last
  have most := enough 0 { name := "name", channel := 0, answer := .found [⟨[1], [2], 0⟩] 0 } {} (by decide) nofun
    (by decide)
  exact absurd most (by decide)

end NameStore

end PolarCloud.CacheStore
