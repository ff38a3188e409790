import Mathlib.Logic.Function.Basic
import Mathlib.Data.List.Basic

/-! # Messages that are sent until they are acknowledged

`SendMsg` stores a message in `Msg` and sends it in a goroutine of its own; a message whose sending fails
joins the queue `Que`, whose head the goroutine of `timing` sends again, once in an interval. `WaitState`
waits for the result of a message on its unbuffered channel. A message is named by the number of its
`SendMsg` call: the hash that names it in the program covers a number that is drawn once. Who answers a
message answers with its hash, so a sending that is answered acknowledges its own message. The goroutines
take their steps in any order.
-/

namespace PolarCloud.Proto

def resendNum : ℕ := 3

/-- Seconds that `WaitState` waits. -/
def timeOut : ℕ := 90

/-- Seconds after which a message is cleared away. -/
def delTimeOut : ℕ := 300

/-- Nanoseconds in a second. -/
def second : ℕ := 1000000000

structure QueueData where
  time : ℕ
  num : ℕ
  isSend : Bool
deriving DecidableEq

/-- Where a goroutine is in `sendMessage`. -/
inductive Stage
  | start
  /-- the message is on its way -/
  | sending
  /-- in `result <- true` -/
  | delivering
  | returned (ok : Bool)
  | done
deriving DecidableEq

/-- Where a call of `WaitState` is. -/
inductive Wait
  | waiting
  /-- it has the result, and is about to delete the message from `Msg` -/
  | received
  | returned (result : Bool)
deriving DecidableEq

structure Waiter where
  msgid : ℕ
  deadline : ℕ
  phase : Wait
deriving DecidableEq

/-- The state of a node: what it stores, the goroutines of `SendMsg`, that of `timing` while it sends a message again,
the calls of `WaitState`, and the clock in nanoseconds. -/
structure Monitor where
  que : List ℕ := []
  msg : ℕ → Option QueueData := fun _ => none
  senders : List Stage := []
  doing : Option (ℕ × Stage) := none
  waiters : List Waiter := []
  clock : ℕ := 0

namespace Monitor

/-- Who runs `sendMessage`, the goroutine of a `SendMsg` or that of `timing`, for which message, and where it is. -/
def stage (proto : Monitor) : Option ℕ → Option (ℕ × Stage)
  | none => proto.doing
  | some sender => proto.senders[sender]?.map (sender, ·)

def setStage (proto : Monitor) (process : Option ℕ) (stage : Stage) : Monitor :=
  match process with
  | none => { proto with doing := proto.doing.map fun (msgid, _) => (msgid, stage) }
  | some sender => { proto with senders := proto.senders.set sender stage }

def updateNum (proto : Monitor) (msgid num : ℕ) : Monitor :=
  match proto.msg msgid with
  | some quedata =>
      { proto with msg := Function.update proto.msg msgid (some { quedata with num := quedata.num + num }) }
  | none => proto

def sendMsg (proto : Monitor) : Monitor :=
  { proto with
    msg := Function.update proto.msg proto.senders.length (some { time := proto.clock, num := 1, isSend := false })
    senders := proto.senders ++ [.start] }

/-- `waitState`, up to its select. -/
def waitState (proto : Monitor) (msgid : ℕ) : Monitor :=
  let phase : Wait :=
    match proto.msg msgid with
    | some quedata => if quedata.num > resendNum then .returned false else .waiting
    | none => .returned false
  { proto with waiters := proto.waiters ++ [{ msgid, deadline := proto.clock + timeOut * second, phase }] }

def getState (proto : Monitor) (msgid : ℕ) : Bool :=
  match proto.msg msgid with
  | some quedata => quedata.isSend
  | none => true

/-- `doing`, up to `sendMessage`. -/
def tick (proto : Monitor) : Monitor :=
  match proto.doing, proto.que with
  | none, msgid :: rest =>
      match proto.msg msgid with
      | none => proto
      | some quedata =>
          let cleared : Monitor :=
            if (proto.clock - quedata.time) / second > delTimeOut then
              { proto with msg := Function.update proto.msg msgid none }
            else proto
          if quedata.num > resendNum then { cleared with que := rest }
          else { cleared with doing := some (msgid, .start) }
  | _, _ => proto

/-- `sendMessage` counts the sending and sends. -/
def send (proto : Monitor) (process : Option ℕ) : Monitor :=
  match proto.stage process with
  | some (msgid, .start) => (proto.updateNum msgid 1).setStage process .sending
  | _ => proto

/-- Nothing can be sent, or no answer comes in time. -/
def fail (proto : Monitor) (process : Option ℕ) : Monitor :=
  match proto.stage process with
  | some (_, .sending) => proto.setStage process (.returned false)
  | _ => proto

/-- The answer comes: `callbackSuccess`. -/
def reply (proto : Monitor) (process : Option ℕ) : Monitor :=
  match proto.stage process with
  | some (msgid, .sending) =>
      match proto.msg msgid with
      | none => proto.setStage process (.returned true)
      | some quedata =>
          { proto with msg := Function.update proto.msg msgid (some { quedata with isSend := true }) }.setStage
            process .delivering
  | _ => proto

/-- A call of `WaitState` receives the result that a goroutine sends on the channel of its message. -/
def receive (proto : Monitor) (w : ℕ) (process : Option ℕ) : Monitor :=
  match proto.waiters[w]?, proto.stage process with
  | some waiter, some (msgid, .delivering) =>
      if waiter.phase = .waiting ∧ waiter.msgid = msgid then
        { proto with waiters := proto.waiters.set w { waiter with phase := .received } }.setStage process
          (.returned true)
      else proto
  | _, _ => proto

/-- It deletes the message and returns. -/
def delete (proto : Monitor) (w : ℕ) : Monitor :=
  match proto.waiters[w]? with
  | some waiter =>
      if waiter.phase = .received then
        { proto with
          msg := Function.update proto.msg waiter.msgid none
          waiters := proto.waiters.set w { waiter with phase := .returned true } }
      else proto
  | none => proto

/-- Its time is over. -/
def timeout (proto : Monitor) (w : ℕ) : Monitor :=
  match proto.waiters[w]? with
  | some waiter =>
      if waiter.phase = .waiting ∧ waiter.deadline ≤ proto.clock then
        { proto with waiters := proto.waiters.set w { waiter with phase := .returned false } }
      else proto
  | none => proto

/-- What a goroutine does after `sendMessage`. -/
def finish (proto : Monitor) : Option ℕ → Monitor
  | none =>
      match proto.doing with
      | some (_, .returned true) => { proto with que := proto.que.tail, doing := none }
      | some (_, .returned false) => { proto with doing := none }
      | _ => proto
  | some sender =>
      match proto.senders[sender]? with
      | some (.returned true) => { proto with senders := proto.senders.set sender .done }
      | some (.returned false) => { proto with que := proto.que ++ [sender], senders := proto.senders.set sender .done }
      | _ => proto

end Monitor

/-- What can happen at a node. -/
inductive Event
  | sendMsg
  | waitState (msgid : ℕ)
  | tick
  | send (process : Option ℕ)
  | fail (process : Option ℕ)
  | reply (process : Option ℕ)
  | receive (w : ℕ) (process : Option ℕ)
  | delete (w : ℕ)
  | timeout (w : ℕ)
  | finish (process : Option ℕ)
  | elapse (nanoseconds : ℕ)
deriving DecidableEq

def Monitor.step (proto : Monitor) : Event → Monitor
  | .sendMsg => proto.sendMsg
  | .waitState msgid => proto.waitState msgid
  | .tick => proto.tick
  | .send process => proto.send process
  | .fail process => proto.fail process
  | .reply process => proto.reply process
  | .receive w process => proto.receive w process
  | .delete w => proto.delete w
  | .timeout w => proto.timeout w
  | .finish process => proto.finish process
  | .elapse nanoseconds => { proto with clock := proto.clock + nanoseconds }

/-- A node after a run. -/
def run (events : List Event) : Monitor := events.foldl Monitor.step {}

end PolarCloud.Proto
