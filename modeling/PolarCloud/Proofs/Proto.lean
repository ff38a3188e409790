import Mathlib.Data.List.Nodup
import PolarCloud.Base.Replay
import PolarCloud.Model.Proto

/-! # The head of the resend queue

What is queued was sent once without success, and is stored until its own resending deletes it or succeeds. So the head
can be removed unless its entry is gone when it is looked at, or its result is delivered to nobody.
-/

namespace PolarCloud.Proto

/-- The message is not acknowledged, and its goroutine has not given it to the queue. -/
def Stage.Open : Stage → Prop
  | .start | .sending | .delivering | .returned false => True
  | .returned true | .done => False

/-- What is known in every state. -/
structure Coherent (proto : Monitor) : Prop where
  nodup : proto.que.Nodup
  queued : ∀ msgid ∈ proto.que, proto.senders[msgid]? = some .done
  busy : ∀ msgid stage, proto.doing = some (msgid, stage) → proto.que.head? = some msgid ∧ stage ≠ .done
  stored : ∀ msgid ∈ proto.que.tail, proto.msg msgid ≠ none
  unsent : ∀ msgid stage, proto.senders[msgid]? = some stage → stage.Open → proto.msg msgid ≠ none
  received : ∀ (w : ℕ) waiter, proto.waiters[w]? = some waiter → waiter.phase = .received →
    (∃ stage, proto.senders[waiter.msgid]? = some stage ∧ ¬ stage.Open) ∧
      (waiter.msgid ∈ proto.que → proto.doing = some (waiter.msgid, .returned true))

/-- Somebody waits for the result of a message. -/
def Awaited (proto : Monitor) (msgid : ℕ) : Prop :=
  ∃ (w : ℕ) (waiter : Waiter), proto.waiters[w]? = some waiter ∧ waiter.phase = .waiting ∧ waiter.msgid = msgid

/-- The head is stored where it is looked at next, and its result is awaited while it is delivered. -/
def Free (proto : Monitor) : Prop :=
  match proto.doing with
  | none | some (_, .returned false) => ∀ msgid, proto.que.head? = some msgid → proto.msg msgid ≠ none
  | some (msgid, .delivering) => Awaited proto msgid
  | some (_, .start) | some (_, .sending) | some (_, .returned true) | some (_, .done) => True

/-- No resending fails after its message has left `Msg`, and a result is delivered to the queue's goroutine only while
somebody waits for it. -/
def Safe (proto : Monitor) : Event → Prop
  | .fail none => ∀ msgid, proto.doing = some (msgid, .sending) → proto.msg msgid ≠ none
  | .reply none => ∀ msgid, proto.doing = some (msgid, .sending) → proto.msg msgid ≠ none → Awaited proto msgid
  | .timeout w => ∀ waiter, proto.waiters[w]? = some waiter → waiter.phase = .waiting → waiter.deadline ≤ proto.clock →
      proto.doing = some (waiter.msgid, .delivering) →
      ∃ (v : ℕ) (other : Waiter), v ≠ w ∧ proto.waiters[v]? = some other ∧ other.phase = .waiting ∧
        other.msgid = waiter.msgid
  | _ => True

section Steps

variable {proto : Monitor} {msgid sender w : ℕ} {old new : Stage} {process : Option ℕ} {waiter : Waiter}

/-- A message that is being sent by its own goroutine is not queued. -/
theorem Coherent.not_queued (known : Coherent proto) (found : proto.senders[sender]? = some old) (open_ : old.Open) :
    sender ∉ proto.que := by
  intro member
  cases found.symm.trans (known.queued sender member)
  exact open_

/-- More is stored. -/
theorem Coherent.store (known : Coherent proto) (msg : ℕ → Option QueueData)
    (grows : ∀ msgid, proto.msg msgid ≠ none → msg msgid ≠ none) : Coherent { proto with msg } :=
  ⟨known.nodup, known.queued, known.busy, fun msgid member => grows _ (known.stored msgid member),
    fun msgid stage found open_ => grows _ (known.unsent msgid stage found open_), known.received⟩

/-- A sending goes on. -/
theorem Coherent.setStage (known : Coherent proto) (found : proto.stage process = some (msgid, old)) (open_ : old.Open)
    (going : new ≠ .done) : Coherent (proto.setStage process new) := by
  cases process with
  | none =>
    have doing : proto.doing = some (msgid, old) := found
    have after : (proto.setStage none new).doing = some (msgid, new) := by
      show Option.map _ proto.doing = _
      rw [doing]
      rfl
    refine ⟨known.nodup, known.queued, fun other stage is => ?_, known.stored, known.unsent,
      fun w waiter held received => ?_⟩
    · cases after.symm.trans is
      exact ⟨(known.busy _ _ doing).1, going⟩
    · obtain ⟨answered, queued⟩ := known.received w waiter held received
      refine ⟨answered, fun member => ?_⟩
      cases doing.symm.trans (queued member)
      exact open_.elim
  | some sender =>
    obtain ⟨_, held, same⟩ := Option.map_eq_some_iff.mp found
    cases same
    have bound := (List.getElem?_eq_some_iff.mp held).1
    refine ⟨known.nodup, fun other member => ?_, known.busy, known.stored, fun other stage is opened => ?_,
      fun w waiter waits received => ?_⟩
    · have apart : msgid ≠ other := by
        rintro rfl
        exact known.not_queued held open_ member
      exact (List.getElem?_set_ne apart).trans (known.queued other member)
    · by_cases same : msgid = other
      · cases same
        exact known.unsent msgid _ held open_
      · exact known.unsent other stage ((List.getElem?_set_ne same).symm.trans is) opened
    · obtain ⟨⟨stage, answered, closed⟩, queued⟩ := known.received w waiter waits received
      have apart : msgid ≠ waiter.msgid := by
        rintro rfl
        cases held.symm.trans answered
        exact closed open_
      exact ⟨⟨stage, (List.getElem?_set_ne apart).trans answered, closed⟩, queued⟩

theorem updateNum_msg (proto : Monitor) (msgid num : ℕ) :
    (proto.updateNum msgid num) = { proto with msg := (proto.updateNum msgid num).msg } ∧
    ∀ other, (proto.updateNum msgid num).msg other = none ↔ proto.msg other = none := by
  rw [Monitor.updateNum]
  split
  · next quedata found =>
    refine ⟨rfl, fun other => ?_⟩
    show Function.update proto.msg msgid _ other = none ↔ _
    rw [Function.update_apply]
    split_ifs with is
    · rw [is, found]
      exact iff_of_false nofun nofun
    · rfl
  · exact ⟨rfl, fun _ => Iff.rfl⟩

theorem Coherent.sendMsg (known : Coherent proto) : Coherent proto.sendMsg := by
  have grows : ∀ msgid, proto.msg msgid ≠ none → proto.sendMsg.msg msgid ≠ none := by
    intro msgid stored
    show Function.update proto.msg proto.senders.length _ msgid ≠ none
    rw [Function.update_apply]
    split_ifs
    · exact nofun
    · exact stored
  have earlier {msgid : ℕ} {stage : Stage} (found : proto.senders[msgid]? = some stage) :
      proto.sendMsg.senders[msgid]? = some stage :=
    (List.getElem?_append_left (List.getElem?_eq_some_iff.mp found).1).trans found
  refine ⟨known.nodup, fun msgid member => earlier (known.queued msgid member), known.busy,
    fun msgid member => grows _ (known.stored msgid member), fun msgid stage found open_ => ?_,
    fun w waiter held received => ?_⟩
  · by_cases new : msgid = proto.senders.length
    · show Function.update proto.msg proto.senders.length _ msgid ≠ none
      rw [new, Function.update_self]
      exact nofun
    · have bound : msgid < proto.senders.length := by
        have within := (List.getElem?_eq_some_iff.mp found).1
        rw [show proto.sendMsg.senders = proto.senders ++ [.start] from rfl, List.length_append,
          List.length_singleton] at within
        omega
      exact grows _ (known.unsent msgid stage ((List.getElem?_append_left bound).symm.trans found) open_)
  · obtain ⟨⟨stage, answered, closed⟩, queued⟩ := known.received w waiter held received
    exact ⟨⟨stage, earlier answered, closed⟩, queued⟩

/-- The calls of `WaitState` that have a result to delete are as before. -/
theorem Coherent.setWaiters (known : Coherent proto) {waiters : List Waiter}
    (before : ∀ (w : ℕ) waiter, waiters[w]? = some waiter → waiter.phase = .received → ∃ v : ℕ,
    proto.waiters[v]? = some waiter) :
    Coherent { proto with waiters } := by
  refine ⟨known.nodup, known.queued, known.busy, known.stored, known.unsent, fun w waiter held received => ?_⟩
  obtain ⟨v, held⟩ := before w waiter held received
  exact known.received v waiter held received

theorem Coherent.waitState (known : Coherent proto) (msgid : ℕ) : Coherent (proto.waitState msgid) := by
  refine known.setWaiters fun w waiter held received => ?_
  rw [List.getElem?_append] at held
  split at held
  · exact ⟨w, held⟩
  · have is := List.mem_singleton.mp (List.mem_of_getElem? held)
    rw [is] at received
    dsimp only at received
    split at received
    · split at received <;> cases received
    · cases received

/-- One call of `WaitState` goes on, without a result. -/
theorem Coherent.setWaiter (known : Coherent proto) (away : waiter.phase ≠ .received) :
    Coherent { proto with waiters := proto.waiters.set w waiter } := by
  refine known.setWaiters fun v other held received => ?_
  by_cases is : w = v
  · cases is
    rw [List.getElem?_set_self'] at held
    obtain ⟨_, _, rfl⟩ := Option.map_eq_some_iff.mp held
    exact absurd received away
  · exact ⟨v, (List.getElem?_set_ne is).symm.trans held⟩

theorem Coherent.timeout (known : Coherent proto) (w : ℕ) : Coherent (proto.timeout w) := by
  rw [Monitor.timeout]
  split
  · split_ifs
    · exact known.setWaiter nofun
    · exact known
  · exact known

/-- An entry is deleted that is neither sent any more nor queued behind the head. -/
theorem Coherent.erase (known : Coherent proto) (closed : ∀ stage, proto.senders[msgid]? = some stage → ¬ stage.Open)
    (front : msgid ∉ proto.que.tail) : Coherent { proto with msg := Function.update proto.msg msgid none } := by
  refine ⟨known.nodup, known.queued, known.busy, fun other member => ?_, fun other stage found open_ => ?_,
    known.received⟩
  · have apart : other ≠ msgid := by
      rintro rfl
      exact front member
    show Function.update proto.msg msgid none other ≠ none
    rw [Function.update_of_ne apart]
    exact known.stored other member
  · have apart : other ≠ msgid := by
      rintro rfl
      exact closed stage found open_
    show Function.update proto.msg msgid none other ≠ none
    rw [Function.update_of_ne apart]
    exact known.unsent other stage found open_

theorem Coherent.not_mem_tail (known : Coherent proto) (head : proto.que.head? = some msgid) :
    msgid ∉ proto.que.tail := by
  obtain ⟨tail, split⟩ := List.head?_eq_some_iff.mp head
  have nodup := known.nodup
  rw [split] at nodup ⊢
  exact (List.nodup_cons.mp nodup).1

theorem Coherent.delete (known : Coherent proto) (w : ℕ) : Coherent (proto.delete w) := by
  rw [Monitor.delete]
  split
  · next waiter held =>
    split_ifs with received
    · obtain ⟨⟨stage, answered, closed⟩, queued⟩ := known.received w waiter held received
      refine (known.erase (fun other found => ?_) fun member => ?_).setWaiter nofun
      · cases answered.symm.trans found
        exact closed
      · exact known.not_mem_tail (known.busy _ _ (queued (List.mem_of_mem_tail member))).1 member
    · exact known
  · exact known

/-- The head leaves the queue, and the queue's goroutine rests. -/
theorem Coherent.remove (known : Coherent proto) (head : proto.que.head? = some msgid)
    (idle : ∀ (w : ℕ) waiter, proto.waiters[w]? = some waiter → waiter.phase = .received → waiter.msgid ∈ proto.que →
    waiter.msgid = msgid) :
    Coherent { proto with que := proto.que.tail, doing := none } := by
  refine ⟨known.nodup.tail, fun other member => known.queued other (List.mem_of_mem_tail member), nofun,
    fun other member => known.stored other (List.mem_of_mem_tail member), known.unsent,
      fun w waiter held received => ?_⟩
  obtain ⟨answered, -⟩ := known.received w waiter held received
  refine ⟨answered, fun member => ?_⟩
  exact absurd (idle w waiter held received (List.mem_of_mem_tail member) ▸ member) (known.not_mem_tail head)

/-- `doing` looks at a head that is stored: its entry may be cleared away, then it is removed or sent again. -/
theorem tick_head {rest : List ℕ} {quedata : QueueData} (resting : proto.doing = none)
    (split : proto.que = msgid :: rest) (found : proto.msg msgid = some quedata) :
    ∃ msg, (msg = proto.msg ∨ msg = Function.update proto.msg msgid none) ∧
      ((resendNum < quedata.num ∧ proto.tick = { proto with msg, que := rest }) ∨
        (quedata.num ≤ resendNum ∧ proto.tick = { proto with msg, doing := some (msgid, .start) })) := by
  refine ⟨if (proto.clock - quedata.time) / second > delTimeOut then Function.update proto.msg msgid none
    else proto.msg,
    (ite_eq_or_eq _ _ _).symm, ?_⟩
  rw [Monitor.tick, resting, split]
  dsimp only
  rw [found]
  dsimp only
  rcases Nat.lt_or_ge resendNum quedata.num with often | rarely
  · refine .inl ⟨often, ?_⟩
    rw [if_pos often]
    split_ifs <;> simp [resting]
  · refine .inr ⟨rarely, ?_⟩
    rw [if_neg (Nat.not_lt.mpr rarely)]
    split_ifs <;> simp [split]

theorem tick_cases (proto : Monitor) : proto.tick = proto ∨ ∃ msgid rest quedata msg, proto.doing = none ∧
    proto.que = msgid :: rest ∧ proto.msg msgid = some quedata ∧
      (msg = proto.msg ∨ msg = Function.update proto.msg msgid none) ∧
    ((resendNum < quedata.num ∧ proto.tick = { proto with msg, que := rest }) ∨
      (quedata.num ≤ resendNum ∧ proto.tick = { proto with msg, doing := some (msgid, .start) })) := by
  cases resting : proto.doing with
  | some busy => exact .inl (by rw [Monitor.tick, resting])
  | none =>
    cases split : proto.que with
    | nil => exact .inl (by rw [Monitor.tick, resting, split])
    | cons msgid rest =>
      cases found : proto.msg msgid with
      | none => exact .inl (by rw [Monitor.tick, resting, split]; dsimp only; rw [found])
      | some quedata =>
        obtain ⟨msg, cleared, ends⟩ := tick_head resting split found
        rw [resting, split] at *
        exact .inr ⟨msgid, rest, quedata, msg, rfl, rfl, found, cleared, ends⟩

theorem Coherent.tick (known : Coherent proto) : Coherent proto.tick := by
  rcases tick_cases proto with same | ⟨msgid, rest, quedata, msg, resting, split, found, cleared, cases_⟩
  · rw [same]
    exact known
  · have head : proto.que.head? = some msgid := by rw [split, List.head?_cons]
    have queued : msgid ∈ proto.que := List.mem_of_mem_head? head
    have known' : Coherent { proto with msg } := by
      rcases cleared with rfl | rfl
      · exact known
      · refine known.erase (fun stage is => ?_) (known.not_mem_tail head)
        cases is.symm.trans (known.queued msgid queued)
        exact id
    have quiet (w : ℕ) (waiter : Waiter) (held : proto.waiters[w]? = some waiter)
      (received : waiter.phase = .received) :
        waiter.msgid ∉ proto.que := by
      intro member
      cases resting.symm.trans ((known.received w waiter held received).2 member)
    rcases cases_ with ⟨-, is⟩ | ⟨-, is⟩
    · rw [is]
      have removed :=
        known'.remove head fun w waiter held received member => absurd member (quiet w waiter held received)
      rw [show ({ proto with msg } : Monitor).que.tail = rest from congrArg List.tail split] at removed
      have rests : ({ proto with msg, que := rest } : Monitor) = { proto with msg, que := rest, doing := none } :=
        by rw [resting]
      rw [rests]
      exact removed
    · rw [is]
      refine ⟨known'.nodup, known'.queued, fun other stage busy => ?_, known'.stored, known'.unsent,
        fun w waiter held received => ?_⟩
      · cases busy
        exact ⟨head, nofun⟩
      · exact ⟨(known.received w waiter held received).1, fun member => absurd member (quiet w waiter held received)⟩

/-- The goroutine of a `SendMsg` ends. -/
theorem Coherent.close (known : Coherent proto) (found : proto.senders[sender]? = some old) :
    Coherent { proto with senders := proto.senders.set sender .done } := by
  have bound := (List.getElem?_eq_some_iff.mp found).1
  have self : (proto.senders.set sender .done)[sender]? = some .done := List.getElem?_set_self bound
  refine ⟨known.nodup, fun other member => ?_, known.busy, known.stored, fun other stage is open_ => ?_,
    fun w waiter held received => ?_⟩
  · by_cases same : sender = other
    · exact same ▸ self
    · exact (List.getElem?_set_ne same).trans (known.queued other member)
  · have apart : sender ≠ other := by
      rintro rfl
      cases self.symm.trans is
      exact open_
    exact known.unsent other stage ((List.getElem?_set_ne apart).symm.trans is) open_
  · obtain ⟨⟨stage, answered, closed⟩, queued⟩ := known.received w waiter held received
    refine ⟨?_, queued⟩
    by_cases same : sender = waiter.msgid
    · exact ⟨.done, same ▸ self, id⟩
    · exact ⟨stage, (List.getElem?_set_ne same).trans answered, closed⟩

theorem Coherent.finish (known : Coherent proto) (process : Option ℕ) : Coherent (proto.finish process) := by
  cases process with
  | none =>
    rw [Monitor.finish]
    split
    · next msgid doing =>
      refine known.remove (known.busy _ _ doing).1 fun w waiter held received member => ?_
      cases doing.symm.trans ((known.received w waiter held received).2 member)
      rfl
    · next msgid doing =>
      refine ⟨known.nodup, known.queued, nofun, known.stored, known.unsent, fun w waiter held received => ?_⟩
      obtain ⟨answered, queued⟩ := known.received w waiter held received
      refine ⟨answered, fun member => ?_⟩
      cases doing.symm.trans (queued member)
    · exact known
  | some sender =>
    rw [Monitor.finish]
    split
    · next answered => exact known.close answered
    · next failed =>
      have fresh : sender ∉ proto.que := known.not_queued failed trivial
      have stored : proto.msg sender ≠ none := known.unsent sender _ failed trivial
      have closed := known.close failed
      have bound := (List.getElem?_eq_some_iff.mp failed).1
      refine ⟨?_, fun other member => ?_, fun msgid stage busy => ?_, fun other member => ?_, closed.unsent,
        fun w waiter held received => ?_⟩
      · exact List.nodup_append.mpr ⟨known.nodup, List.nodup_singleton _, fun other member last is same =>
          fresh ((List.mem_singleton.mp is) ▸ same ▸ member)⟩
      · rcases List.mem_append.mp member with member | is
        · exact closed.queued other member
        · rw [List.mem_singleton.mp is]
          exact List.getElem?_set_self bound
      · obtain ⟨head, going⟩ := known.busy msgid stage busy
        refine ⟨?_, going⟩
        show (proto.que ++ [sender]).head? = _
        rw [List.head?_append, head]
        rfl
      · have within : other ∈ proto.que.tail ∨ other = sender := by
          cases split : proto.que with
          | nil =>
            rw [split] at member
            cases member
          | cons head tail =>
            rw [split] at member
            exact (List.mem_append.mp member).imp_right List.mem_singleton.mp
        rcases within with member | rfl
        · exact known.stored other member
        · exact stored
      · refine ⟨(closed.received w waiter held received).1, fun member => ?_⟩
        obtain ⟨⟨stage, answered, ended⟩, queued⟩ := known.received w waiter held received
        rcases List.mem_append.mp member with member | is
        · exact queued member
        · rw [List.mem_singleton.mp is] at answered
          cases failed.symm.trans answered
          exact absurd trivial ended
    · exact known

theorem Coherent.send (known : Coherent proto) (process : Option ℕ) : Coherent (proto.send process) := by
  rw [Monitor.send]
  split
  · next msgid found =>
    obtain ⟨is, same⟩ := updateNum_msg proto msgid 1
    rw [is]
    have counted := known.store (proto.updateNum msgid 1).msg fun other stored => mt (same other).mp stored
    have found' : ({ proto with msg := (proto.updateNum msgid 1).msg } : Monitor).stage process =
      some (msgid, .start) := by
      cases process with
      | none => exact found
      | some sender => exact found
    exact counted.setStage found' trivial nofun
  · exact known

theorem Coherent.fail (known : Coherent proto) (process : Option ℕ) : Coherent (proto.fail process) := by
  rw [Monitor.fail]
  split
  · next msgid found => exact known.setStage found trivial nofun
  · exact known

theorem Coherent.reply (known : Coherent proto) (process : Option ℕ) : Coherent (proto.reply process) := by
  rw [Monitor.reply]
  split
  · next msgid found =>
    split
    · exact known.setStage found trivial nofun
    · next quedata held =>
      have marked := known.store (Function.update proto.msg msgid (some { quedata with isSend := true }))
        fun other stored => by
        rw [Function.update_apply]
        split_ifs
        · exact nofun
        · exact stored
      have found' :
          ({ proto with msg := Function.update proto.msg msgid (some { quedata with isSend := true }) } : Monitor).stage
          process = some (msgid, .sending) := by
        cases process with
        | none => exact found
        | some sender => exact found
      exact marked.setStage found' trivial nofun
  · exact known

theorem Coherent.receive (known : Coherent proto) (w : ℕ) (process : Option ℕ) :
    Coherent (proto.receive w process) := by
  rw [Monitor.receive]
  split
  · next waiter msgid held found =>
    split_ifs with waits
    · have moved : Coherent (proto.setStage process (.returned true)) := known.setStage found trivial nofun
      have commutes (waiters : List Waiter) : ({ proto with waiters } : Monitor).setStage process (.returned true) =
          { proto.setStage process (.returned true) with waiters } := by cases process <;> rfl
      rw [commutes]
      have given : (∃ stage, (proto.setStage process (.returned true)).senders[msgid]? = some stage ∧ ¬ stage.Open) ∧
          (msgid ∈ (proto.setStage process (.returned true)).que →
            (proto.setStage process (.returned true)).doing = some (msgid, .returned true)) := by
        cases process with
        | none =>
          have queued := List.mem_of_mem_head? (known.busy msgid _ found).1
          refine ⟨⟨.done, known.queued msgid queued, id⟩, fun _ => ?_⟩
          show Option.map _ proto.doing = _
          rw [show proto.doing = some (msgid, .delivering) from found]
          rfl
        | some sender =>
          obtain ⟨_, stage, same⟩ := Option.map_eq_some_iff.mp found
          cases same
          refine ⟨⟨.returned true, List.getElem?_set_self (List.getElem?_eq_some_iff.mp stage).1, id⟩, fun queued => ?_⟩
          exact absurd queued (known.not_queued stage trivial)
      refine ⟨moved.nodup, moved.queued, moved.busy, moved.stored, moved.unsent, fun v other held' received => ?_⟩
      by_cases is : w = v
      · cases is
        rw [List.getElem?_set_self'] at held'
        obtain ⟨_, _, rfl⟩ := Option.map_eq_some_iff.mp held'
        exact waits.2 ▸ given
      · have before : (proto.setStage process (.returned true)).waiters = proto.waiters := by cases process <;> rfl
        refine moved.received v other ?_ received
        rw [before]
        exact (List.getElem?_set_ne is).symm.trans held'
    · exact known
  · exact known

theorem step_coherent (event : Event) (known : Coherent proto) : Coherent (proto.step event) := by
  cases event with
  | sendMsg => exact known.sendMsg
  | waitState msgid => exact known.waitState msgid
  | tick => exact known.tick
  | send process => exact known.send process
  | fail process => exact known.fail process
  | reply process => exact known.reply process
  | receive w process => exact known.receive w process
  | delete w => exact known.delete w
  | timeout w => exact known.timeout w
  | finish process => exact known.finish process
  | elapse nanoseconds => exact ⟨known.nodup, known.queued, known.busy, known.stored, known.unsent, known.received⟩

/-! ## What frees the head -/

theorem Free.mono {other : Monitor} (free : Free proto) (doing : other.doing = proto.doing)
    (head : ∀ msgid, other.que.head? = some msgid → proto.que.head? = some msgid ∨ other.msg msgid ≠ none)
    (msg : ∀ msgid, proto.que.head? = some msgid → proto.msg msgid ≠ none → other.msg msgid ≠ none)
    (awaited : ∀ msgid, proto.doing = some (msgid, .delivering) → Awaited proto msgid → Awaited other msgid) :
    Free other := by
  have front (stored : ∀ msgid, proto.que.head? = some msgid → proto.msg msgid ≠ none) (msgid : ℕ)
      (first : other.que.head? = some msgid) : other.msg msgid ≠ none :=
    (head msgid first).elim (fun before => msg msgid before (stored msgid before)) id
  rw [Free] at free ⊢
  rw [doing]
  split
  · next resting =>
    rw [resting] at free
    exact front free
  · next busy =>
    rw [busy] at free
    exact front free
  · next msgid busy =>
    rw [busy] at free
    exact awaited msgid busy free
  · exact trivial
  · exact trivial
  · exact trivial
  · exact trivial

/-- A call of `WaitState` that goes on leaves the others waiting. -/
theorem Awaited.set {v : ℕ} {other : Waiter} (waits : proto.waiters[v]? = some other) (waiting : other.phase = .waiting)
    (apart : v ≠ w) {waiters : List Waiter} (is : waiters = proto.waiters.set w waiter) :
    Awaited { proto with waiters } other.msgid := by
  refine ⟨v, other, ?_, waiting, rfl⟩
  rw [is]
  exact (List.getElem?_set_ne apart.symm).trans waits

theorem sendMsg_free (free : Free proto) : Free proto.sendMsg := by
  refine free.mono rfl (fun _ => .inl) (fun msgid _ stored => ?_) fun _ _ => id
  show Function.update proto.msg proto.senders.length _ msgid ≠ none
  rw [Function.update_apply]
  split_ifs
  · exact nofun
  · exact stored

theorem waitState_free (free : Free proto) : Free (proto.waitState msgid) := by
  refine free.mono rfl (fun _ => .inl) (fun _ _ => id) fun msgid _ ⟨w, waiter, waits, waiting, is⟩ => ?_
  exact ⟨w, waiter, (List.getElem?_append_left (List.getElem?_eq_some_iff.mp waits).1).trans waits, waiting, is⟩

theorem tick_free (known : Coherent proto) (free : Free proto) : Free proto.tick := by
  rcases tick_cases proto with same | ⟨msgid, rest, quedata, msg, resting, split, found, cleared, ⟨-, is⟩ | ⟨-, is⟩⟩
  · rw [same]
    exact free
  · have others (other : ℕ) (member : other ∈ rest) : msg other ≠ none := by
      have stored := known.stored other (by rw [split]; exact member)
      have apart : other ≠ msgid := by
        rintro rfl
        exact known.not_mem_tail (by rw [split, List.head?_cons]) (by rw [split]; exact member)
      rcases cleared with rfl | rfl
      · exact stored
      · rwa [Function.update_of_ne apart]
    rw [is, Free]
    dsimp only
    rw [resting]
    exact fun other first => others other (List.mem_of_mem_head? first)
  · rw [is]
    exact trivial

/-- Only the queue's own sending touches what makes the head free. -/
theorem setStage_some_free {stage : Stage} (free : Free proto) : Free (proto.setStage (some sender) stage) :=
  free.mono rfl (fun _ => .inl) (fun _ _ => id) fun _ _ => id

theorem send_free (free : Free proto) (process : Option ℕ) : Free (proto.send process) := by
  rw [Monitor.send]
  split
  · next msgid found =>
    obtain ⟨is, same⟩ := updateNum_msg proto msgid 1
    rw [is]
    cases process with
    | none =>
      rw [Free, Monitor.setStage, show proto.doing = some (msgid, .start) from found]
      exact trivial
    | some sender =>
      refine setStage_some_free (free.mono rfl (fun _ => .inl) (fun other _ stored => ?_) fun _ _ => id)
      exact mt (same other).mp stored
  · exact free

theorem fail_free_iff (known : Coherent proto) (free : Free proto) :
    Free (proto.fail process) ↔ Safe proto (.fail process) := by
  cases process with
  | some sender =>
    refine iff_of_true ?_ trivial
    rw [Monitor.fail]
    split
    · exact setStage_some_free free
    · exact free
  | none =>
    rw [Monitor.fail]
    split
    · next msgid found =>
      have doing : proto.doing = some (msgid, .sending) := found
      have head := (known.busy _ _ doing).1
      rw [Free, Monitor.setStage, doing]
      show (∀ other, proto.que.head? = some other → proto.msg other ≠ none) ↔ _
      constructor
      · intro stored other here
        cases doing.symm.trans here
        exact stored msgid head
      · intro safe other first
        cases head.symm.trans first
        exact safe msgid doing
    · next away =>
      exact iff_of_true free fun msgid doing => absurd doing (away msgid)

theorem reply_free_iff (free : Free proto) : Free (proto.reply process) ↔ Safe proto (.reply process) := by
  cases process with
  | some sender =>
    refine iff_of_true ?_ trivial
    rw [Monitor.reply]
    split
    · next msgid found =>
      split
      · exact setStage_some_free free
      · refine setStage_some_free (free.mono rfl (fun _ => .inl) (fun other _ stored => ?_) fun _ _ => id)
        show Function.update proto.msg msgid _ other ≠ none
        rw [Function.update_apply]
        split_ifs
        · exact nofun
        · exact stored
    · exact free
  | none =>
    rw [Monitor.reply]
    split
    · next msgid found =>
      have doing : proto.doing = some (msgid, .sending) := found
      split
      · next absent =>
        refine iff_of_true ?_ fun other here stored => ?_
        · rw [Free, Monitor.setStage, doing]
          exact trivial
        · cases doing.symm.trans here
          exact absurd absent stored
      · next quedata held =>
        rw [Free, Monitor.setStage, doing]
        show Awaited proto msgid ↔ _
        constructor
        · intro awaited other here _
          cases doing.symm.trans here
          exact awaited
        · intro safe
          exact safe msgid doing (by rw [held]; exact nofun)
    · next away =>
      exact iff_of_true free fun msgid doing => absurd doing (away msgid)

theorem receive_free (known : Coherent proto) (free : Free proto) (w : ℕ) (process : Option ℕ) :
    Free (proto.receive w process) := by
  rw [Monitor.receive]
  split
  · next waiter msgid held found =>
    split_ifs with waits
    · cases process with
      | none =>
        rw [Free, Monitor.setStage, show proto.doing = some (msgid, .delivering) from found]
        exact trivial
      | some sender =>
        obtain ⟨_, stage, same⟩ := Option.map_eq_some_iff.mp found
        cases same
        refine setStage_some_free (free.mono rfl (fun _ => .inl) (fun _ _ => id) fun other busy awaited => ?_)
        obtain ⟨v, two, waits', waiting, rfl⟩ := awaited
        refine Awaited.set waits' waiting ?_ rfl
        rintro rfl
        cases held.symm.trans waits'
        exact known.not_queued stage trivial (waits.2 ▸ List.mem_of_mem_head? (known.busy _ _ busy).1)
    · exact free
  · exact free

theorem delete_free (known : Coherent proto) (free : Free proto) (w : ℕ) : Free (proto.delete w) := by
  rw [Monitor.delete]
  split
  · next waiter held =>
    split_ifs with received
    · obtain ⟨-, queued⟩ := known.received w waiter held received
      by_cases answered : proto.doing = some (waiter.msgid, .returned true)
      · rw [Free]
        dsimp only
        rw [answered]
        exact trivial
      · refine free.mono rfl (fun _ => .inl) (fun other head stored => ?_) fun other _ awaited => ?_
        · show Function.update proto.msg waiter.msgid none other ≠ none
          have apart : other ≠ waiter.msgid := by
            rintro rfl
            exact answered (queued (List.mem_of_mem_head? head))
          rwa [Function.update_of_ne apart]
        · obtain ⟨v, two, waits, waiting, rfl⟩ := awaited
          refine ⟨v, two, ?_, waiting, rfl⟩
          have apart : w ≠ v := by
            rintro rfl
            cases held.symm.trans waits
            cases received.symm.trans waiting
          exact (List.getElem?_set_ne apart).trans waits
    · exact free
  · exact free

theorem timeout_free_iff (free : Free proto) : Free (proto.timeout w) ↔ Safe proto (.timeout w) := by
  rw [Monitor.timeout]
  split
  · next waiter held =>
    split_ifs with ended
    · by_cases busy : proto.doing = some (waiter.msgid, .delivering)
      · rw [Free]
        dsimp only
        rw [busy]
        constructor
        · rintro ⟨v, two, waits, waiting, same⟩ one here _ _ _
          cases held.symm.trans here
          have apart : w ≠ v := by
            rintro rfl
            rw [List.getElem?_set_self'] at waits
            obtain ⟨_, _, rfl⟩ := Option.map_eq_some_iff.mp waits
            cases waiting
          exact ⟨v, two, apart.symm, (List.getElem?_set_ne apart).symm.trans waits, waiting, same⟩
        · intro safe
          obtain ⟨v, two, apart, waits, waiting, same⟩ := safe waiter held ended.1 ended.2 busy
          exact ⟨v, two, (List.getElem?_set_ne apart.symm).trans waits, waiting, same⟩
      · refine iff_of_true (free.mono rfl (fun _ => .inl) (fun _ _ => id) fun other here awaited => ?_)
          fun one here _ _ busy' => ?_
        · obtain ⟨v, two, waits, waiting, rfl⟩ := awaited
          refine Awaited.set waits waiting ?_ rfl
          rintro rfl
          cases held.symm.trans waits
          exact busy here
        · cases held.symm.trans here
          exact absurd busy' busy
    · exact iff_of_true free
        fun one here waiting late => absurd (by cases held.symm.trans here; exact ⟨waiting, late⟩) ended
  · next absent =>
    exact iff_of_true free fun one here => nomatch absent.symm.trans here

theorem finish_free (known : Coherent proto) (free : Free proto) (process : Option ℕ) :
    Free (proto.finish process) := by
  cases process with
  | none =>
    rw [Monitor.finish]
    split
    · exact fun msgid first => known.stored msgid (List.mem_of_mem_head? first)
    · next msgid failed =>
      rw [Free, failed] at free
      exact free
    · exact free
  | some sender =>
    rw [Monitor.finish]
    split
    · exact free.mono rfl (fun _ => .inl) (fun _ _ => id) fun _ _ => id
    · next failed =>
      refine free.mono rfl (fun msgid first => ?_) (fun _ _ => id) fun _ _ => id
      rw [List.head?_append] at first
      cases head : proto.que.head? with
      | some front =>
        rw [head] at first
        exact .inl first
      | none =>
        rw [head] at first
        cases first
        exact .inr (known.unsent sender _ failed trivial)
    · exact free

theorem step_free_iff (event : Event) (known : Coherent proto) (free : Free proto) :
    Free (proto.step event) ↔ Safe proto event := by
  cases event with
  | sendMsg => exact iff_of_true (sendMsg_free free) trivial
  | waitState msgid => exact iff_of_true (waitState_free free) trivial
  | tick => exact iff_of_true (tick_free known free) trivial
  | send process => exact iff_of_true (send_free free process) trivial
  | fail process => exact fail_free_iff known free
  | reply process => exact reply_free_iff free
  | receive w process => exact iff_of_true (receive_free known free w process) trivial
  | delete w => exact iff_of_true (delete_free known free w) trivial
  | timeout w => exact timeout_free_iff free
  | finish process => exact iff_of_true (finish_free known free process) trivial
  | elapse nanoseconds => exact iff_of_true (free.mono rfl (fun _ => .inl) (fun _ _ => id) fun _ _ => id) trivial

end Steps

/-! ## The head can be removed exactly when it is free -/

/-- A step of the node or of its peers, not a call of its clients. -/
def Event.Own : Event → Prop
  | .sendMsg | .waitState _ => False
  | _ => True

/-- The node can come to remove the head of its queue without a further call of its clients. -/
def Removable (proto : Monitor) : Prop :=
  ∃ events : List Event, (∀ event ∈ events, event.Own) ∧ (events.foldl Monitor.step proto).que = proto.que.tail

section Removable

variable {proto : Monitor} {msgid : ℕ}

theorem Removable.of_step (event : Event) (own : event.Own) (same : (proto.step event).que = proto.que)
    (removable : Removable (proto.step event)) : Removable proto := by
  obtain ⟨events, owns, removed⟩ := removable
  exact ⟨event :: events, List.forall_mem_cons.mpr ⟨own, owns⟩, removed.trans (congrArg List.tail same)⟩

theorem Removable.of_last (event : Event) (own : event.Own) (removed : (proto.step event).que = proto.que.tail) :
    Removable proto :=
  ⟨[event], List.forall_mem_singleton.mpr own, removed⟩

theorem removable_of_answered (doing : proto.doing = some (msgid, .returned true)) : Removable proto := by
  refine .of_last (.finish none) trivial ?_
  rw [Monitor.step, Monitor.finish, doing]

theorem removable_of_awaited (doing : proto.doing = some (msgid, .delivering)) (awaited : Awaited proto msgid) :
    Removable proto := by
  obtain ⟨w, waiter, waits, waiting, same⟩ := awaited
  have received : proto.step (.receive w none) =
    ({ proto with waiters := proto.waiters.set w { waiter with phase := .received } } :
      Monitor).setStage none (.returned true) := by
    rw [Monitor.step, Monitor.receive, waits, show proto.stage none = some (msgid, .delivering) from doing]
    exact if_pos ⟨waiting, same⟩
  refine .of_step (.receive w none) trivial (by rw [received]; rfl) ?_
  refine @removable_of_answered _ msgid ?_
  rw [received, Monitor.setStage, doing]
  rfl

/-- A message that is no longer stored is acknowledged without a waiter. -/
theorem removable_of_cleared (doing : proto.doing = some (msgid, .sending)) (cleared : proto.msg msgid = none) :
    Removable proto := by
  have answered : proto.step (.reply none) = proto.setStage none (.returned true) := by
    rw [Monitor.step, Monitor.reply, show proto.stage none = some (msgid, .sending) from doing]
    dsimp only
    rw [cleared]
  refine .of_step (.reply none) trivial (by rw [answered]; rfl) (@removable_of_answered _ msgid ?_)
  rw [answered, Monitor.setStage, doing]
  rfl

theorem Removable.of_failed (doing : proto.doing = some (msgid, .returned false))
    (rests : Removable { proto with doing := none }) :
    Removable proto := by
  have ended : proto.step (.finish none) = { proto with doing := none } := by rw [Monitor.step, Monitor.finish, doing]
  exact .of_step (.finish none) trivial (by rw [ended]) (ended ▸ rests)

theorem Removable.of_failing (doing : proto.doing = some (msgid, .sending))
    (rests : Removable { proto with doing := none }) :
    Removable proto := by
  have failed : proto.step (.fail none) = { proto with doing := some (msgid, .returned false) } := by
    rw [Monitor.step, Monitor.fail, show proto.stage none = some (msgid, .sending) from doing]
    dsimp only
    rw [Monitor.setStage, doing]
    rfl
  refine .of_step (.fail none) trivial (by rw [failed]) ?_
  rw [failed]
  exact @Removable.of_failed _ msgid rfl rests

/-- A head that is stored is sent until it has been sent often enough. -/
theorem removable_of_resting (left : ℕ) {rest : List ℕ} {quedata : QueueData} (resting : proto.doing = none)
    (split : proto.que = msgid :: rest) (found : proto.msg msgid = some quedata)
    (often : resendNum < quedata.num + left) :
    Removable proto := by
  induction left generalizing proto quedata with
  | zero =>
    obtain ⟨msg, -, ⟨-, is⟩ | ⟨rarely, -⟩⟩ := tick_head resting split found
    · refine .of_last .tick trivial ?_
      rw [Monitor.step, is, split, List.tail_cons]
    · omega
  | succ left ih =>
    obtain ⟨msg, cleared, ⟨-, is⟩ | ⟨-, is⟩⟩ := tick_head resting split found
    · refine .of_last .tick trivial ?_
      rw [Monitor.step, is, split, List.tail_cons]
    · refine .of_step .tick trivial (by rw [Monitor.step, is]) ?_
      rw [Monitor.step, is]
      obtain ⟨counted, same⟩ := updateNum_msg { proto with msg, doing := some (msgid, .start) } msgid 1
      have sent : ({ proto with msg, doing := some (msgid, .start) } : Monitor).step (.send none) =
          { proto with
            msg := (({ proto with msg } : Monitor).updateNum msgid 1).msg, doing := some (msgid, .sending) } := by
        rw [Monitor.step, Monitor.send, Monitor.stage]
        dsimp only
        rw [counted, Monitor.updateNum, Monitor.updateNum]
        dsimp only
        split <;> rfl
      refine .of_step (.send none) trivial (by rw [sent]) ?_
      rw [sent]
      rcases cleared with rfl | rfl
      · refine @Removable.of_failing _ msgid rfl (@ih _ { quedata with num := quedata.num + 1 } rfl split ?_ ?_)
        · show (({ proto with msg := proto.msg } : Monitor).updateNum msgid 1).msg msgid = _
          rw [Monitor.updateNum, found]
          exact Function.update_self ..
        · show resendNum < quedata.num + 1 + left
          omega
      · refine @removable_of_cleared _ msgid rfl ?_
        show (({ proto with msg := Function.update proto.msg msgid none } : Monitor).updateNum msgid 1).msg msgid = none
        exact ((updateNum_msg _ msgid 1).2 msgid).mpr (Function.update_self ..)

theorem removable_of_stored (resting : proto.doing = none)
    (stored : ∀ msgid, proto.que.head? = some msgid → proto.msg msgid ≠ none) :
    Removable proto := by
  cases split : proto.que with
  | nil => exact ⟨[], nofun, by rw [List.foldl_nil, split, List.tail_nil]⟩
  | cons msgid rest =>
    obtain ⟨quedata, found⟩ := Option.ne_none_iff_exists'.mp (stored msgid (by rw [split, List.head?_cons]))
    exact removable_of_resting (resendNum + 1) resting split found (by omega)

theorem removable_of_free (known : Coherent proto) (free : Free proto) : Removable proto := by
  rw [Free] at free
  cases doing : proto.doing with
  | none =>
    rw [doing] at free
    exact removable_of_stored doing free
  | some busy =>
    obtain ⟨msgid, stage⟩ := busy
    rw [doing] at free
    obtain ⟨head, going⟩ := known.busy msgid stage doing
    have of_sending {other : Monitor} (sending : other.doing = some (msgid, .sending))
      (front : other.que.head? = some msgid) :
        Removable other := by
      cases found : other.msg msgid with
      | none => exact removable_of_cleared sending found
      | some quedata =>
        refine .of_failing sending (removable_of_stored rfl fun first is => ?_)
        cases front.symm.trans is
        show other.msg msgid ≠ none
        rw [found]
        exact nofun
    cases stage with
    | start =>
      obtain ⟨counted, -⟩ := updateNum_msg proto msgid 1
      have sent : proto.step (.send none) =
        { proto with msg := (proto.updateNum msgid 1).msg, doing := some (msgid, .sending) } := by
        rw [Monitor.step, Monitor.send, show proto.stage none = some (msgid, .start) from doing]
        dsimp only
        rw [counted, Monitor.setStage]
        dsimp only
        rw [doing]
        rfl
      refine .of_step (.send none) trivial (by rw [sent]) ?_
      rw [sent]
      exact of_sending rfl head
    | sending => exact of_sending doing head
    | delivering => exact removable_of_awaited doing free
    | returned ok =>
      cases ok with
      | true => exact removable_of_answered doing
      | false => exact .of_failed doing (removable_of_stored rfl free)
    | done => exact absurd rfl going

/-- The head is not stored where it is looked at next, or its result is delivered to nobody. -/
def Stuck (proto : Monitor) (msgid : ℕ) : Prop :=
  ((proto.doing = none ∨ proto.doing = some (msgid, .returned false)) ∧ proto.msg msgid = none) ∨
    (proto.doing = some (msgid, .delivering) ∧ ¬ Awaited proto msgid)

theorem stuck_of_not_free (known : Coherent proto) (busy : ¬ Free proto) :
    ∃ msgid, proto.que.head? = some msgid ∧ Stuck proto msgid := by
  rw [Free] at busy
  cases doing : proto.doing with
  | none =>
    rw [doing] at busy
    push Not at busy
    obtain ⟨msgid, head, absent⟩ := busy
    exact ⟨msgid, head, .inl ⟨.inl doing, absent⟩⟩
  | some here =>
    obtain ⟨msgid, stage⟩ := here
    have head := (known.busy msgid stage doing).1
    rw [doing] at busy
    refine ⟨msgid, head, ?_⟩
    cases stage with
    | delivering => exact .inr ⟨doing, busy⟩
    | returned ok =>
      cases ok with
      | true => exact absurd trivial busy
      | false =>
        push Not at busy
        obtain ⟨other, first, absent⟩ := busy
        cases head.symm.trans first
        exact .inl ⟨.inr doing, absent⟩
    | start | sending | done => exact absurd trivial busy

theorem Stuck.mono {other : Monitor} (stuck : Stuck proto msgid) (doing : other.doing = proto.doing)
    (msg : proto.msg msgid = none → other.msg msgid = none) (awaited : Awaited other msgid → Awaited proto msgid) :
    Stuck other msgid := by
  rw [Stuck, doing]
  exact stuck.imp (And.imp_right msg) (And.imp_right (mt awaited))

/-- The queue's goroutine takes no further step of its own. -/
theorem Stuck.stage (stuck : Stuck proto msgid) :
    proto.stage none = none ∨ proto.stage none = some (msgid, .returned false) ∨
    proto.stage none = some (msgid, .delivering) := by
  obtain ⟨resting | failed, -⟩ | ⟨delivering, -⟩ := stuck
  · exact .inl resting
  · exact .inr (.inl failed)
  · exact .inr (.inr delivering)

/-- A call of `WaitState` that goes on is awaited no longer. -/
theorem Awaited.of_set {w : ℕ} {waiter : Waiter} {waiters : List Waiter} (is : waiters = proto.waiters.set w waiter)
    (away : waiter.phase ≠ .waiting) (awaited : Awaited { proto with waiters } msgid) : Awaited proto msgid := by
  obtain ⟨v, other, waits, waiting, same⟩ := awaited
  rw [is] at waits
  by_cases here : w = v
  · cases here
    rw [List.getElem?_set_self'] at waits
    obtain ⟨_, _, rfl⟩ := Option.map_eq_some_iff.mp waits
    exact absurd waiting away
  · exact ⟨v, other, (List.getElem?_set_ne here).symm.trans waits, waiting, same⟩

/-- The head is stuck after the step, and nothing has left the queue. -/
def Stays (proto next : Monitor) (msgid : ℕ) : Prop := Stuck next msgid ∧ proto.que <+: next.que

theorem Stuck.same {next : Monitor} (stuck : Stuck proto msgid) (same : next = proto) : Stays proto next msgid := by
  rw [same]
  exact ⟨stuck, List.prefix_refl _⟩

theorem Stuck.tick (stuck : Stuck proto msgid) (head : proto.que.head? = some msgid) :
    Stays proto proto.tick msgid := by
  apply stuck.same
  rw [Monitor.tick]
  obtain ⟨rest, split⟩ := List.head?_eq_some_iff.mp head
  obtain ⟨resting | failed, absent⟩ | ⟨delivering, -⟩ := stuck
  · rw [resting, split]
    dsimp only
    rw [absent]
  · rw [failed]
  · rw [delivering]

theorem Stuck.send (stuck : Stuck proto msgid) (process : Option ℕ) : Stays proto (proto.send process) msgid := by
  cases process with
  | none =>
    apply stuck.same
    rw [Monitor.send]
    obtain is | is | is := stuck.stage <;> rw [is]
  | some sender =>
    rw [Monitor.send]
    split
    · next other found =>
      obtain ⟨counted, same⟩ := updateNum_msg proto other 1
      rw [counted]
      exact ⟨stuck.mono rfl (same msgid).mpr id, List.prefix_refl _⟩
    · exact stuck.same rfl

theorem Stuck.fail (stuck : Stuck proto msgid) (process : Option ℕ) : Stays proto (proto.fail process) msgid := by
  cases process with
  | none =>
    apply stuck.same
    rw [Monitor.fail]
    obtain is | is | is := stuck.stage <;> rw [is]
  | some sender =>
    rw [Monitor.fail]
    split
    · exact ⟨stuck.mono rfl id id, List.prefix_refl _⟩
    · exact stuck.same rfl

theorem Stuck.reply (stuck : Stuck proto msgid) (process : Option ℕ) : Stays proto (proto.reply process) msgid := by
  cases process with
  | none =>
    apply stuck.same
    rw [Monitor.reply]
    obtain is | is | is := stuck.stage <;> rw [is]
  | some sender =>
    rw [Monitor.reply]
    split
    · next other found =>
      split
      · exact ⟨stuck.mono rfl id id, List.prefix_refl _⟩
      · next quedata held =>
        refine ⟨stuck.mono rfl (fun absent => ?_) id, List.prefix_refl _⟩
        show Function.update proto.msg other _ msgid = none
        have apart : msgid ≠ other := by
          rintro rfl
          cases absent.symm.trans held
        rwa [Function.update_of_ne apart]
    · exact stuck.same rfl

theorem Stuck.receive (stuck : Stuck proto msgid) (w : ℕ) (process : Option ℕ) :
    Stays proto (proto.receive w process) msgid := by
  rw [Monitor.receive]
  split
  · next waiter other held found =>
    split_ifs with waits
    · cases process with
      | none =>
        obtain ⟨resting | failed, -⟩ | ⟨delivering, unawaited⟩ := stuck
        · cases resting.symm.trans found
        · cases failed.symm.trans found
        · cases delivering.symm.trans found
          exact absurd ⟨w, waiter, held, waits⟩ unawaited
      | some sender => exact ⟨stuck.mono rfl id (Awaited.of_set rfl nofun), List.prefix_refl _⟩
    · exact stuck.same rfl
  · exact stuck.same rfl

theorem Stuck.delete (stuck : Stuck proto msgid) (w : ℕ) : Stays proto (proto.delete w) msgid := by
  rw [Monitor.delete]
  split
  · next waiter held =>
    split_ifs
    · refine ⟨stuck.mono rfl (fun absent => ?_) (Awaited.of_set rfl nofun), List.prefix_refl _⟩
      show Function.update proto.msg waiter.msgid none msgid = none
      rw [Function.update_apply]
      split_ifs
      · rfl
      · exact absent
    · exact stuck.same rfl
  · exact stuck.same rfl

theorem Stuck.timeout (stuck : Stuck proto msgid) (w : ℕ) : Stays proto (proto.timeout w) msgid := by
  rw [Monitor.timeout]
  split
  · split_ifs
    · exact ⟨stuck.mono rfl id (Awaited.of_set rfl nofun), List.prefix_refl _⟩
    · exact stuck.same rfl
  · exact stuck.same rfl

theorem Stuck.finish (stuck : Stuck proto msgid) (process : Option ℕ) : Stays proto (proto.finish process) msgid := by
  cases process with
  | none =>
    rw [Monitor.finish]
    obtain ⟨resting | failed, absent⟩ | ⟨delivering, unawaited⟩ := stuck
    · rw [resting]
      exact ⟨.inl ⟨.inl resting, absent⟩, List.prefix_refl _⟩
    · rw [failed]
      exact ⟨.inl ⟨.inl rfl, absent⟩, List.prefix_refl _⟩
    · rw [delivering]
      exact ⟨.inr ⟨delivering, unawaited⟩, List.prefix_refl _⟩
  | some sender =>
    rw [Monitor.finish]
    split
    · exact ⟨stuck.mono rfl id id, List.prefix_refl _⟩
    · exact ⟨stuck.mono rfl id id, List.prefix_append _ _⟩
    · exact stuck.same rfl

/-- A stuck head stays where it is, and stuck, whatever the node and its peers do. -/
theorem Stuck.step (stuck : Stuck proto msgid) (head : proto.que.head? = some msgid) (event : Event) (own : event.Own) :
    Stays proto (proto.step event) msgid := by
  cases event with
  | sendMsg | waitState => exact own.elim
  | tick => exact stuck.tick head
  | send process => exact stuck.send process
  | fail process => exact stuck.fail process
  | reply process => exact stuck.reply process
  | receive w process => exact stuck.receive w process
  | delete w => exact stuck.delete w
  | timeout w => exact stuck.timeout w
  | finish process => exact stuck.finish process
  | elapse nanoseconds => exact ⟨stuck.mono rfl id id, List.prefix_refl _⟩

theorem Stuck.not_removable (stuck : Stuck proto msgid) (head : proto.que.head? = some msgid) : ¬ Removable proto := by
  rintro ⟨events, own, removed⟩
  have stays : ∀ (events : List Event) (other : Monitor), Stuck other msgid → other.que.head? = some msgid →
      (∀ event ∈ events, event.Own) → other.que <+: (events.foldl Monitor.step other).que := by
    intro events
    induction events with
    | nil => exact fun _ _ _ _ => List.prefix_refl _
    | cons event events ih =>
      intro other stuck head own
      obtain ⟨first, others⟩ := List.forall_mem_cons.mp own
      obtain ⟨stuck', longer⟩ := stuck.step head event first
      have head' : (other.step event).que.head? = some msgid := by
        obtain ⟨rest, split⟩ := List.head?_eq_some_iff.mp head
        obtain ⟨more, is⟩ := longer
        rw [← is, split]
        rfl
      exact longer.trans (ih _ stuck' head' others)
  have longer := (stays events proto stuck head own).length_le
  obtain ⟨rest, split⟩ := List.head?_eq_some_iff.mp head
  rw [removed, split, List.tail_cons, List.length_cons] at longer
  omega

theorem removable_iff_free (known : Coherent proto) : Removable proto ↔ Free proto := by
  refine ⟨fun removable => ?_, removable_of_free known⟩
  by_contra busy
  obtain ⟨msgid, head, stuck⟩ := stuck_of_not_free known busy
  exact stuck.not_removable head removable

end Removable

/-! ## Every run -/

theorem start_coherent : Coherent {} :=
  ⟨.nil, nofun, nofun, nofun, nofun, nofun⟩

/-- The resend queue never gets stuck in a run exactly when every event is safe where it happens. -/
theorem never_stuck_iff (events : List Event) :
    Replay.Always Monitor.step {} Removable events ↔ Replay.Each Monitor.step {} Safe events := by
  refine Replay.always_iff_each ⟨[], nofun, rfl⟩ start_coherent (fun _ event known _ => step_coherent event known)
    (fun proto event known removable => ?_) events
  rw [removable_iff_free (step_coherent event known)]
  exact step_free_iff event known ((removable_iff_free known).mp removable)

/-- Two messages cannot be sent and are queued; the first is sent again when it is older than it may get, and fails. -/
def cleared : List Event :=
  [.sendMsg, .sendMsg, .send (some 0), .fail (some 0), .finish (some 0), .send (some 1), .fail (some 1),
    .finish (some 1), .elapse (301 * second), .tick, .send none, .fail none, .finish none]

/-- The first is acknowledged when it is sent again, and nobody waits for the result. -/
def unawaited : List Event :=
  [.sendMsg, .sendMsg, .send (some 0), .fail (some 0), .finish (some 0), .send (some 1), .fail (some 1),
    .finish (some 1), .tick, .send none, .reply none]

/-- In both cases the first stays at the head for ever, before the second. -/
theorem cleared_and_unawaited_stuck : ¬ Removable (run cleared) ∧ ¬ Removable (run unawaited) ∧
    (run cleared).que = [0, 1] ∧ (run unawaited).que = [0, 1] := by
  refine ⟨@Stuck.not_removable _ 0 (.inl ⟨.inl (by decide), by decide⟩) (by decide),
    @Stuck.not_removable _ 0 (.inr ⟨by decide, ?_⟩) (by decide), by decide, by decide⟩
  rintro ⟨w, waiter, waits, -, -⟩
  cases waits

end PolarCloud.Proto
