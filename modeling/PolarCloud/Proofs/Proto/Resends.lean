import Mathlib.Data.List.Count
import Mathlib.Data.List.Flatten
import PolarCloud.Proofs.Proto

/-! # Messages that are never answered

The number of a message counts its sendings from one on, so two sendings again bring it beyond `ResendNum`. While no
sending is answered, the messages that left the queue are the first that were queued, each of them sent again twice.
-/

namespace PolarCloud.Proto

/-- A node, the messages in the order in which they were queued, and those that `doing` sent, one for each sending. -/
structure Resends where
  proto : Monitor := {}
  queued : List ℕ := []
  resent : List ℕ := []

namespace Resends

/-- What joins the queue. -/
def joins (proto : Monitor) : Event → List ℕ
  | .finish (some sender) => if proto.senders[sender]? = some (.returned false) then [sender] else []
  | _ => []

/-- What `doing` sends. -/
def sends (proto : Monitor) : Event → List ℕ
  | .send none =>
      match proto.doing with
      | some (msgid, .start) => [msgid]
      | _ => []
  | _ => []

def step (this : Resends) (event : Event) : Resends where
  proto := this.proto.step event
  queued := this.queued ++ joins this.proto event
  resent := this.resent ++ sends this.proto event

/-- Nothing is answered, and `doing` finds no message that is too old. -/
def Unanswered (this : Resends) : Event → Prop
  | .reply _ => False
  | .tick =>
      match this.proto.que.head?.bind this.proto.msg with
      | some quedata => (this.proto.clock - quedata.time) / second ≤ delTimeOut
      | none => True
  | _ => True

instance (this : Resends) (event : Event) : Decidable (this.Unanswered event) := by
  unfold Unanswered
  split
  · exact instDecidableFalse
  · split
    · exact Nat.decLe _ _
    · exact instDecidableTrue
  · exact instDecidableTrue

/-- The messages are sent again one behind the other, as they were queued. -/
def InOrder (this : Resends) : Prop :=
  this.resent = this.queued.flatMap fun msgid => List.replicate (this.resent.count msgid) msgid

/-- A message is sent again `times` times before it leaves the queue, and then it leaves it. -/
structure Retried (this : Resends) (times : ℕ) : Prop where
  left : ∀ msgid ∈ this.queued, msgid ∉ this.proto.que → this.resent.count msgid = times
  most : ∀ msgid, this.resent.count msgid ≤ times
  leaves : this.Unanswered .tick → ∀ msgid, this.proto.que.head? = some msgid → this.proto.doing = none →
    this.resent.count msgid = times → this.proto.tick.que = this.proto.que.tail

/-- Messages are retried in their order, and as often as it is configured. -/
structure AsConfigured (this : Resends) : Prop where
  inOrder : this.InOrder
  retried : this.Retried resendNum

/-- `doing` finds no message at the head whose number is beyond `ResendNum`. -/
def KeepsHead (this : Resends) : Event → Prop
  | .tick => this.proto.doing = none → ∀ quedata, this.proto.que.head?.bind this.proto.msg = some quedata →
      quedata.num ≤ resendNum
  | _ => True

/-! ## What is known of every state -/

/-- The number of a message. -/
def num (proto : Monitor) (msgid : ℕ) : Option ℕ := (proto.msg msgid).map QueueData.num

/-- Where a goroutine of `SendMsg` is, by the number of its message. -/
def Sending (number : Option ℕ) : Stage → Prop
  | .start => number = some 1
  | .sending | .returned false => number = some 2
  | .done => True
  | .delivering | .returned true => False

/-- The goroutine of `timing` is busy with the head, which was sent again some times. -/
def Doing (head? : Option ℕ) (again : ℕ) (doing : Option (ℕ × Stage)) : Prop :=
  ∀ msgid stage, doing = some (msgid, stage) →
    head? = some msgid ∧ (stage = .start ∧ again ≤ 1 ∨ stage = .sending ∨ stage = .returned false)

/-- What left the queue was sent again twice; the head was sent again some times, and its number says so. -/
structure Known (this : Resends) (gone : List ℕ) (again : ℕ) : Prop where
  queued : this.queued = gone ++ this.proto.que
  resent : this.resent = gone.flatMap (List.replicate 2) ++ this.proto.que.head?.toList.flatMap (List.replicate again)
  nodup : this.queued.Nodup
  done : ∀ msgid, msgid ∈ this.queued ↔ this.proto.senders[msgid]? = some .done
  sending : ∀ (msgid : ℕ) stage, this.proto.senders[msgid]? = some stage → Sending (num this.proto msgid) stage
  head : ∀ msgid, this.proto.que.head? = some msgid → num this.proto msgid = some (2 + again)
  tail : ∀ msgid ∈ this.proto.que.tail, num this.proto msgid = some 2
  few : again ≤ 2
  empty : this.proto.que = [] → again = 0
  doing : Doing this.proto.que.head? again this.proto.doing
  waiters : ∀ waiter ∈ this.proto.waiters, waiter.phase ≠ .received

theorem start_known : Known {} [] 0 where
  queued := rfl
  resent := rfl
  nodup := .nil
  done _ := iff_of_false List.not_mem_nil nofun
  sending := nofun
  head := nofun
  tail := nofun
  few := Nat.zero_le 2
  empty _ := rfl
  doing := nofun
  waiters := nofun

section Steps

variable {this : Resends} {gone : List ℕ} {again msgid sender : ℕ} {old new : Stage} {proto : Monitor}

theorem num_update (msg : ℕ → Option QueueData) (msgid other : ℕ) (quedata : QueueData) :
    (Function.update msg msgid (some quedata) other).map QueueData.num =
      if other = msgid then some quedata.num else (msg other).map QueueData.num := by
  rw [Function.update_apply]
  split <;> rfl

theorem num_updateNum (proto : Monitor) (msgid more other : ℕ) :
    num (proto.updateNum msgid more) other =
      if other = msgid then (num proto msgid).map (· + more) else num proto other := by
  cases found : proto.msg msgid with
  | none =>
    rw [Monitor.updateNum, found]
    by_cases same : other = msgid
    · simp [num, same, found]
    · rw [if_neg same]
  | some quedata =>
    rw [Monitor.updateNum, found]
    refine (num_update proto.msg msgid other _).trans ?_
    rw [num, num, found]
    rfl

theorem Known.not_done_of_sending (known : Known this gone again) (found : this.proto.senders[sender]? = some old)
    (going : old ≠ .done) : sender ∉ this.queued := by
  intro queued
  exact going (Option.some.inj (found.symm.trans ((known.done sender).mp queued)))

theorem Known.mem_queued (known : Known this gone again) (mem : msgid ∈ this.proto.que) : msgid ∈ this.queued := by
  rw [known.queued]
  exact List.mem_append_right _ mem

/-- Nothing that is known has changed. -/
theorem Known.frame (known : Known this gone again) (que : proto.que = this.proto.que)
    (doing : proto.doing = this.proto.doing) (senders : proto.senders = this.proto.senders)
    (nums : ∀ msgid, num proto msgid = num this.proto msgid)
    (waiters : ∀ waiter ∈ proto.waiters, waiter.phase ≠ .received) : Known { this with proto } gone again where
  queued := by rw [que]; exact known.queued
  resent := by rw [que]; exact known.resent
  nodup := known.nodup
  done := by rw [senders]; exact known.done
  sending := by rw [senders]; simpa only [nums] using known.sending
  head := by rw [que]; simpa only [nums] using known.head
  tail := by rw [que]; simpa only [nums] using known.tail
  few := known.few
  empty := by rw [que]; exact known.empty
  doing := by rw [que, doing]; exact known.doing
  waiters := waiters

/-- The goroutines of `SendMsg` go on, each with its own message; none of them is queued, nor was it. -/
theorem Known.senders (known : Known this gone again) (que : proto.que = this.proto.que)
    (doing : proto.doing = this.proto.doing)
    (done : ∀ msgid : ℕ, proto.senders[msgid]? = some .done ↔ this.proto.senders[msgid]? = some .done)
    (sending : ∀ (msgid : ℕ) stage, proto.senders[msgid]? = some stage → Sending (num proto msgid) stage)
    (nums : ∀ msgid ∈ this.queued, num proto msgid = num this.proto msgid)
    (waiters : proto.waiters = this.proto.waiters) : Known { this with proto } gone again where
  queued := by rw [que]; exact known.queued
  resent := by rw [que]; exact known.resent
  nodup := known.nodup
  done msgid := (known.done msgid).trans (done msgid).symm
  sending := sending
  head msgid is := by
    rw [que] at is
    exact (nums msgid (known.mem_queued (List.mem_of_mem_head? is))).trans (known.head msgid is)
  tail msgid mem := by
    rw [que] at mem
    exact (nums msgid (known.mem_queued (List.mem_of_mem_tail mem))).trans (known.tail msgid mem)
  few := known.few
  empty := by rw [que]; exact known.empty
  doing := by rw [que, doing]; exact known.doing
  waiters := by rw [waiters]; exact known.waiters

/-- One of them goes on. -/
theorem Known.setSender (known : Known this gone again) (found : this.proto.senders[sender]? = some old)
    (going : old ≠ .done) (going' : new ≠ .done) {msg : ℕ → Option QueueData}
    (own : Sending ((msg sender).map QueueData.num) new)
    (nums : ∀ other, other ≠ sender → (msg other).map QueueData.num = num this.proto other) :
    Known { this with proto := { this.proto with msg, senders := this.proto.senders.set sender new } } gone again := by
  have stage (msgid : ℕ) := Replay.getElem?_set_known found new msgid
  refine known.senders rfl rfl (fun msgid => ?_) (fun msgid after is => ?_) (fun msgid queued => ?_) rfl
  · rw [stage]
    split
    · next same =>
      rw [same, found]
      exact iff_of_false (fun is => going' (Option.some.inj is)) fun is => going (Option.some.inj is)
    · rfl
  · rw [stage] at is
    split at is
    · next same =>
      cases is
      exact same ▸ own
    · next apart =>
      rw [num, nums msgid apart]
      exact known.sending msgid after is
  · refine nums msgid ?_
    rintro rfl
    exact known.not_done_of_sending found going queued

theorem Known.sendMsg (known : Known this gone again) :
    Known { this with proto := this.proto.sendMsg } gone again := by
  have stage (msgid : ℕ) : this.proto.sendMsg.senders[msgid]? =
      if msgid = this.proto.senders.length then some .start else this.proto.senders[msgid]? := by
    show (this.proto.senders ++ [.start])[msgid]? = _
    exact Replay.getElem?_concat _ _ msgid
  have number (msgid : ℕ) : num this.proto.sendMsg msgid =
      if msgid = this.proto.senders.length then some 1 else num this.proto msgid := by
    exact num_update this.proto.msg _ msgid _
  have there : this.proto.senders[this.proto.senders.length]? = none := List.getElem?_eq_none (Nat.le_refl _)
  refine known.senders rfl rfl (fun msgid => ?_) (fun msgid after is => ?_) (fun msgid queued => ?_) rfl
  · rw [stage]
    split
    · next same =>
      rw [same, there]
      exact iff_of_false nofun nofun
    · rfl
  · rw [stage] at is
    rw [number]
    split at is
    · next same =>
      cases is
      rw [if_pos same]
      rfl
    · next apart =>
      rw [if_neg apart]
      exact known.sending msgid after is
  · rw [number, if_neg]
    rintro rfl
    exact absurd ((known.done _).mp queued) (by rw [there]; exact nofun)

/-- A number that is known to be there is counted on. -/
theorem num_counted {number : ℕ} (is : num proto msgid = some number) (other : ℕ) :
    num (proto.updateNum msgid 1) other = if other = msgid then some (number + 1) else num proto other := by
  rw [num_updateNum, is]
  rfl

theorem Known.sendSender (known : Known this gone again) (sender : ℕ) :
    Known { this with proto := this.proto.send (some sender) } gone again := by
  rw [Monitor.send]
  split
  · next msgid found =>
    obtain ⟨_, here, same⟩ := Option.map_eq_some_iff.mp found
    cases same
    have counted := num_counted (known.sending _ _ here)
    rw [(updateNum_msg this.proto sender 1).1]
    refine @Known.setSender this gone again sender .start .sending known here (by decide) (by decide) _ ?_
      fun other apart => ?_
    · exact (counted sender).trans (if_pos rfl)
    · exact (counted other).trans (if_neg apart)
  · exact known

theorem Known.failSender (known : Known this gone again) (sender : ℕ) :
    Known { this with proto := this.proto.fail (some sender) } gone again := by
  rw [Monitor.fail]
  split
  · next msgid found =>
    obtain ⟨_, here, same⟩ := Option.map_eq_some_iff.mp found
    cases same
    have number : num this.proto sender = some 2 := known.sending _ _ here
    exact @Known.setSender this gone again sender .sending (.returned false) known here (by decide) (by decide) _ number
      fun _ _ => rfl
  · exact known

/-- A message whose first sending failed is queued. -/
theorem Known.queue (known : Known this gone again)
    (found : this.proto.senders[sender]? = some (.returned false)) :
    Known { this with
      proto := { this.proto with que := this.proto.que ++ [sender], senders := this.proto.senders.set sender .done }
      queued := this.queued ++ [sender] } gone again := by
  have fresh := known.not_done_of_sending found (by decide)
  have stage (msgid : ℕ) := Replay.getElem?_set_known found Stage.done msgid
  have number : num this.proto sender = some 2 := known.sending _ _ found
  constructor
  · show this.queued ++ [sender] = gone ++ (this.proto.que ++ [sender])
    rw [known.queued, List.append_assoc]
  · show this.resent = _ ++ (this.proto.que ++ [sender]).head?.toList.flatMap _
    rw [known.resent]
    cases que : this.proto.que with
    | nil => rw [known.empty que]; rfl
    | cons msgid rest => rfl
  · exact List.nodup_append.mpr ⟨known.nodup, List.nodup_singleton _, fun one mem other is same =>
      fresh (List.mem_singleton.mp is ▸ same ▸ mem)⟩
  · intro msgid
    rw [List.mem_append, List.mem_singleton, known.done, stage]
    split
    · next same => exact iff_of_true (.inr same) rfl
    · next apart => exact or_iff_left apart
  · intro msgid after is
    rw [stage] at is
    split at is
    · cases is
      exact trivial
    · exact known.sending msgid after is
  · intro msgid is
    cases que : this.proto.que with
    | nil =>
      rw [que] at is
      cases is
      rw [known.empty que]
      exact number
    | cons first rest =>
      rw [que] at is
      cases is
      exact known.head _ (by rw [que]; rfl)
  · intro msgid mem
    cases que : this.proto.que with
    | nil =>
      rw [que] at mem
      cases mem
    | cons first rest =>
      rw [que] at mem
      rcases List.mem_append.mp mem with mem | mem
      · exact known.tail msgid (by rw [que]; exact mem)
      · rw [List.mem_singleton.mp mem]
        exact number
  · exact known.few
  · exact fun none => absurd none (List.append_ne_nil_of_right_ne_nil _ (List.cons_ne_nil _ _))
  · intro msgid stage busy
    obtain ⟨head, is⟩ := known.doing msgid stage busy
    refine ⟨?_, is⟩
    show (this.proto.que ++ [sender]).head? = _
    rw [List.head?_append, head]
    rfl
  · exact known.waiters

/-- The goroutine of `timing` goes on. -/
theorem Known.resume (known : Known this gone again) {doing : Option (ℕ × Stage)}
    (busy : Doing this.proto.que.head? again doing) :
    Known { this with proto := { this.proto with doing } } gone again :=
  ⟨known.queued, known.resent, known.nodup, known.done, known.sending, known.head, known.tail, known.few, known.empty,
    busy, known.waiters⟩

/-- The head is sent again. -/
theorem Known.resend (known : Known this gone again) (head : this.proto.que.head? = some msgid) (few : again ≤ 1) :
    Known { this with
      proto := { this.proto with msg := (this.proto.updateNum msgid 1).msg, doing := some (msgid, .sending) }
      resent := this.resent ++ [msgid] } gone (again + 1) := by
  have counted := num_counted (known.head msgid head)
  obtain ⟨rest, que⟩ : ∃ rest, this.proto.que = msgid :: rest := List.head?_eq_some_iff.mp head
  have nodup : this.proto.que.Nodup := (List.nodup_append.mp (known.queued ▸ known.nodup)).2.1
  constructor
  · exact known.queued
  · show this.resent ++ [msgid] = _ ++ this.proto.que.head?.toList.flatMap _
    rw [known.resent, head, List.append_assoc]
    simp [List.replicate_succ']
  · exact known.nodup
  · exact known.done
  · intro other stage found
    show Sending (num (this.proto.updateNum msgid 1) other) stage
    rw [counted]
    split
    · next same =>
      rw [same, (known.done msgid).mp (known.mem_queued (List.mem_of_mem_head? head))] at found
      cases found
      exact trivial
    · exact known.sending other stage found
  · intro other first
    cases head.symm.trans first
    exact (counted msgid).trans (if_pos rfl)
  · intro other mem
    have apart : other ≠ msgid := by
      rintro rfl
      change other ∈ this.proto.que.tail at mem
      rw [que] at nodup mem
      exact (List.nodup_cons.mp nodup).1 mem
    exact ((counted other).trans (if_neg apart)).trans (known.tail other mem)
  · exact Nat.succ_le_succ few
  · intro none
    cases que.symm.trans none
  · intro other stage is
    cases is
    exact ⟨head, .inr (.inl rfl)⟩
  · exact known.waiters

/-- The head leaves the queue. -/
theorem Known.drop (known : Known this gone 2) {rest : List ℕ} (que : this.proto.que = msgid :: rest)
    (resting : this.proto.doing = none) :
    Known { this with proto := { this.proto with que := rest } } (gone ++ [msgid]) 0 := by
  have nodup := known.nodup
  rw [known.queued, que] at nodup
  constructor
  · show this.queued = gone ++ [msgid] ++ rest
    rw [known.queued, que, List.append_assoc]
    rfl
  · show this.resent = _ ++ rest.head?.toList.flatMap _
    rw [known.resent, que, List.flatMap_append]
    simp
  · exact known.nodup
  · exact known.done
  · exact known.sending
  · intro other first
    exact known.tail other (by rw [que]; exact List.mem_of_mem_head? first)
  · intro other mem
    exact known.tail other (by rw [que]; exact List.mem_of_mem_tail mem)
  · exact Nat.zero_le 2
  · exact fun _ => rfl
  · intro other stage busy
    cases resting.symm.trans busy
  · exact known.waiters

/-! ## Events -/

theorem step_eq (event : Event) (joined : joins this.proto event = []) (sent : sends this.proto event = []) :
    this.step event = { this with proto := this.proto.step event } := by
  rw [step, joined, sent, List.append_nil, List.append_nil]

theorem Known.finishSender (known : Known this gone again) (sender : ℕ) :
    Known (this.step (.finish (some sender))) gone again := by
  have sent : sends this.proto (.finish (some sender)) = [] := rfl
  rw [step, sent, List.append_nil, Monitor.step, Monitor.finish, joins]
  cases found : this.proto.senders[sender]? with
  | none => simpa using known
  | some stage =>
    cases stage with
    | start => simpa using known
    | sending => simpa using known
    | delivering => simpa using known
    | done => simpa using known
    | returned ok =>
      cases ok with
      | true => exact absurd (known.sending sender _ found) id
      | false => simpa using known.queue found

theorem Known.sendHead (known : Known this gone again) : ∃ again, Known (this.step (.send none)) gone again := by
  have joined : joins this.proto (.send none) = [] := rfl
  rw [step, joined, List.append_nil, Monitor.step, Monitor.send, sends, Monitor.stage]
  cases busy : this.proto.doing with
  | none => exact ⟨again, by simpa using known⟩
  | some doing =>
    obtain ⟨msgid, stage⟩ := doing
    obtain ⟨head, ⟨rfl, few⟩ | rfl | rfl⟩ := known.doing msgid stage busy
    · refine ⟨again + 1, ?_⟩
      have resent := known.resend head few
      dsimp only
      rw [(updateNum_msg this.proto msgid 1).1, Monitor.setStage, busy]
      exact resent
    · exact ⟨again, by simpa using known⟩
    · exact ⟨again, by simpa using known⟩

theorem Known.failHead (known : Known this gone again) :
    Known { this with proto := this.proto.fail none } gone again := by
  rw [Monitor.fail, Monitor.stage]
  cases busy : this.proto.doing with
  | none => exact known
  | some doing =>
    obtain ⟨msgid, stage⟩ := doing
    obtain ⟨head, ⟨rfl, few⟩ | rfl | rfl⟩ := known.doing msgid stage busy
    · exact known
    · dsimp only
      rw [Monitor.setStage, busy]
      exact known.resume (by rintro other stage ⟨⟩; exact ⟨head, .inr (.inr rfl)⟩)
    · exact known

theorem Known.finishHead (known : Known this gone again) :
    Known { this with proto := this.proto.finish none } gone again := by
  rw [Monitor.finish]
  cases busy : this.proto.doing with
  | none => exact known
  | some doing =>
    obtain ⟨msgid, stage⟩ := doing
    obtain ⟨head, ⟨rfl, few⟩ | rfl | rfl⟩ := known.doing msgid stage busy
    · exact known
    · exact known
    · apply known.resume
      intro _ _ resting
      cases resting

/-- What `doing` does with the head: it is sent again, or it leaves the queue. -/
theorem tick_young {rest : List ℕ} (known : Known this gone again) (young : this.Unanswered .tick)
    (resting : this.proto.doing = none) (que : this.proto.que = msgid :: rest) :
    this.proto.tick = if again = 2 then { this.proto with que := rest } else
      { this.proto with doing := some (msgid, .start) } := by
  have number := known.head msgid (by rw [que]; rfl)
  obtain ⟨quedata, found, counted⟩ := Option.map_eq_some_iff.mp number
  have few := known.few
  rw [Unanswered, que, List.head?_cons, Option.bind_some, found] at young
  rw [Monitor.tick, resting, que]
  dsimp only
  rw [found]
  dsimp only
  rw [if_neg (Nat.not_lt.mpr young), counted, resendNum]
  split_ifs with often twice
  · simp [resting]
  · omega
  · omega
  · simp [que]

/-- The head stays in the queue exactly when its number is not beyond `ResendNum`. -/
theorem Known.tick (known : Known this gone again) (young : this.Unanswered .tick) :
    this.KeepsHead .tick ∧ Known { this with proto := this.proto.tick } gone again ∨
      ¬ this.KeepsHead .tick ∧ ∃ msgid, Known { this with proto := this.proto.tick } (gone ++ [msgid]) 0 := by
  cases resting : this.proto.doing with
  | some busy =>
    refine .inl ⟨fun idle => ?_, by rw [Monitor.tick, resting]; exact known⟩
    cases resting.symm.trans idle
  | none =>
    cases que : this.proto.que with
    | nil =>
      refine .inl ⟨fun _ quedata is => ?_, by rw [Monitor.tick, resting, que]; exact known⟩
      rw [que] at is
      cases is
    | cons msgid rest =>
      have number := known.head msgid (by rw [que]; rfl)
      obtain ⟨quedata, found, counted⟩ := Option.map_eq_some_iff.mp number
      have looked : this.proto.que.head?.bind this.proto.msg = some quedata := by
        rw [que]
        exact found
      have few := known.few
      rw [tick_young known young resting que]
      split
      · next twice =>
        subst twice
        refine .inr ⟨fun keeps => ?_, msgid, known.drop que resting⟩
        have rarely := keeps resting quedata looked
        rw [counted] at rarely
        exact absurd rarely (by decide)
      · next fewer =>
        refine .inl ⟨fun _ other is => ?_, known.resume ?_⟩
        · cases looked.symm.trans is
          rw [counted, resendNum]
          omega
        · rintro other stage ⟨⟩
          exact ⟨by rw [que]; rfl, .inl ⟨rfl, by omega⟩⟩

theorem Known.waitState (known : Known this gone again) (msgid : ℕ) :
    Known { this with proto := this.proto.waitState msgid } gone again := by
  refine known.frame rfl rfl rfl (fun _ => rfl) fun waiter mem => ?_
  rcases List.mem_append.mp mem with mem | mem
  · exact known.waiters waiter mem
  · rw [List.mem_singleton.mp mem]
    dsimp only
    split
    · split <;> decide
    · decide

/-- Nobody delivers an answer. -/
theorem Known.receive (known : Known this gone again) (w : ℕ) (process : Option ℕ) :
    Known { this with proto := this.proto.receive w process } gone again := by
  rw [Monitor.receive]
  split
  · next waiter msgid waits delivering =>
    cases process with
    | none =>
      obtain ⟨-, ⟨is, -⟩ | is | is⟩ := known.doing msgid _ delivering
      · cases is
      · cases is
      · cases is
    | some sender =>
      obtain ⟨_, found, same⟩ := Option.map_eq_some_iff.mp delivering
      cases same
      exact (known.sending _ _ found).elim
  · exact known

theorem Known.delete (known : Known this gone again) (w : ℕ) :
    Known { this with proto := this.proto.delete w } gone again := by
  rw [Monitor.delete]
  split
  · next waiter waits =>
    rw [if_neg (known.waiters waiter (List.mem_of_getElem? waits))]
    exact known
  · exact known

theorem Known.timeout (known : Known this gone again) (w : ℕ) :
    Known { this with proto := this.proto.timeout w } gone again := by
  rw [Monitor.timeout]
  split
  · next waiter waits =>
    split
    · refine known.frame rfl rfl rfl (fun _ => rfl) fun other mem => ?_
      rcases List.mem_or_eq_of_mem_set mem with mem | rfl
      · exact known.waiters other mem
      · simp
    · exact known
  · exact known

/-- Every other event leaves in the queue what is there. -/
theorem Known.other (known : Known this gone again) {event : Event} (unanswered : this.Unanswered event)
    (other : event ≠ .tick) : ∃ again, Known (this.step event) gone again := by
  cases event with
  | finish process =>
    cases process with
    | none =>
      rw [step_eq (.finish none) rfl rfl]
      exact ⟨again, known.finishHead⟩
    | some sender => exact ⟨again, known.finishSender sender⟩
  | send process =>
    cases process with
    | none => exact known.sendHead
    | some sender =>
      rw [step_eq (.send (some sender)) rfl rfl]
      exact ⟨again, known.sendSender sender⟩
  | fail process =>
    rw [step_eq (.fail process) rfl rfl]
    cases process with
    | none => exact ⟨again, known.failHead⟩
    | some sender => exact ⟨again, known.failSender sender⟩
  | reply process => exact unanswered.elim
  | sendMsg =>
    rw [step_eq .sendMsg rfl rfl]
    exact ⟨again, known.sendMsg⟩
  | tick => exact absurd rfl other
  | waitState msgid =>
    rw [step_eq (.waitState msgid) rfl rfl]
    exact ⟨again, known.waitState msgid⟩
  | receive w process =>
    rw [step_eq (.receive w process) rfl rfl]
    exact ⟨again, known.receive w process⟩
  | delete w =>
    rw [step_eq (.delete w) rfl rfl]
    exact ⟨again, known.delete w⟩
  | timeout w =>
    rw [step_eq (.timeout w) rfl rfl]
    exact ⟨again, known.timeout w⟩
  | elapse nanoseconds =>
    rw [step_eq (.elapse nanoseconds) rfl rfl]
    exact ⟨again, known.frame rfl rfl rfl (fun _ => rfl) known.waiters⟩

/-- What one event does while nothing is answered: only `doing` takes a message out of the queue. -/
theorem Known.step (known : Known this gone again) {event : Event} (unanswered : this.Unanswered event) :
    this.KeepsHead event ∧ (∃ again, Known (this.step event) gone again) ∨
      ¬ this.KeepsHead event ∧ ∃ msgid, Known (this.step event) (gone ++ [msgid]) 0 := by
  by_cases tick : event = .tick
  · subst tick
    rw [step_eq .tick rfl rfl]
    exact (known.tick unanswered).imp_left fun ⟨keeps, known⟩ => ⟨keeps, again, known⟩
  · refine .inl ⟨?_, known.other unanswered tick⟩
    cases event with
    | tick => exact absurd rfl tick
    | _ => exact trivial

end Steps

end Resends

end PolarCloud.Proto
