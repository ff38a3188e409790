import PolarCloud.Model.Engine.Ikcp

/-! # Two ends of a transport

Two control blocks with the same conversation number speak over a network that loses, repeats and reorders datagrams:
what one end has output may be given to the other at any time, any number of times, or never. The programs at both
ends call the functions of the block in any order, and clocks show any time.
-/

namespace PolarCloud.Engine.Ikcp

/-- One end: its block, the messages that `send` took, the messages that `recv` gave, the datagrams that were output,
and how many segments were queued. -/
structure Side where
  kcp : Ikcpcb
  sent : List Bytes := []
  received : List Bytes := []
  output : List Bytes := []
  queued : ℕ := 0
deriving DecidableEq, Repr

inductive Call where
  | send (message : Bytes)
  | recv (buffer : Bytes) (len : ℤ)
  | input (datagram : Bytes)
  | flush
  | update (current : UInt32)
  | setmtu (mtu : ℤ)
  | nodelay (nodelay interval resend nc : ℤ)
  | wndsize (sndwnd rcvwnd : ℤ)
deriving DecidableEq, Repr

namespace Side

/-- Keep what a flush has output. -/
def flushed (this : Side) (flushed : Option (List Bytes × Ikcpcb)) : Option Side :=
  flushed.map fun (output, kcp) => { this with kcp, output := this.output ++ output }

/-- A call of one end. A peek hands nothing out. -/
def call (this : Side) : Call → Option Side
  | .send message =>
      (this.kcp.send (some message) message.length).map fun (code, kcp) =>
        { this with
          kcp
          sent := if code = 0 then this.sent ++ [message] else this.sent
          queued := this.queued + (kcp.sndQueue.length - this.kcp.sndQueue.length) }
  | .recv buffer len =>
      (this.kcp.recv buffer len).map fun (code, filled, kcp) =>
        { this with
          kcp
          received := if 0 ≤ code ∧ 0 ≤ len then this.received ++ [filled.take code.toNat] else this.received }
  | .input datagram => some { this with kcp := (this.kcp.input datagram).2 }
  | .flush => this.flushed this.kcp.flush
  | .update current => this.flushed (this.kcp.update current)
  | .setmtu mtu => some { this with kcp := (this.kcp.setmtu mtu).2 }
  | .nodelay nodelay interval resend nc =>
      some { this with kcp := this.kcp.setNodelay nodelay interval resend nc }
  | .wndsize sndwnd rcvwnd => some { this with kcp := this.kcp.wndsize sndwnd rcvwnd }

def start (conv : UInt32) : Side := ⟨create conv, [], [], [], 0⟩

def run (this : Side) (calls : List Call) : Option Side := calls.foldlM call this

end Side

structure Link where
  a : Side
  b : Side
deriving DecidableEq, Repr

/-- An end makes a call, or the network gives it a datagram that the other end has output. -/
inductive Event where
  | callA (call : Call)
  | callB (call : Call)
  | toA (n : ℕ)
  | toB (n : ℕ)
deriving DecidableEq, Repr

namespace Link

def start (conv : UInt32) : Link := ⟨.start conv, .start conv⟩

def step (this : Link) : Event → Option Link
  | .callA call => (this.a.call call).map fun a => { this with a }
  | .callB call => (this.b.call call).map fun b => { this with b }
  | .toA n =>
      match this.b.output[n]? with
      | none => some this
      | some datagram => (this.a.call (.input datagram)).map fun a => { this with a }
  | .toB n =>
      match this.a.output[n]? with
      | none => some this
      | some datagram => (this.b.call (.input datagram)).map fun b => { this with b }

def run (this : Link) (events : List Event) : Option Link := events.foldlM step this

end Link

/-- A call with a message whose length an `int32` keeps, a buffer that is as long as the program says, and a unit within
a limit; a program calls `input` with nothing of its own. -/
def Call.Proper (unit : ℤ) : Call → Prop
  | .send message => message.length ≤ 2 ^ 30
  | .recv buffer len => len ≤ buffer.length
  | .input _ => False
  | .setmtu mtu => mtu ≤ unit
  | _ => True

def Event.Proper (unit : ℤ) : Event → Prop
  | .callA call => call.Proper unit
  | .callB call => call.Proper unit
  | .toA _ => True
  | .toB _ => True

/-- A call with a window within a limit, or any bytes that are not longer than a datagram. -/
def Call.Within (window : ℤ) (size : ℕ) : Call → Prop
  | .input datagram => datagram.length ≤ size
  | .wndsize _ rcvwnd => rcvwnd ≤ window
  | _ => True

/-- A call with a unit, a window and a datagram within limits, and a buffer that is as long as the program says. -/
def Call.Safe : Call → Prop
  | .recv buffer len => len.natAbs ≤ buffer.length
  | .input datagram => datagram.length ≤ 2 ^ 16
  | .setmtu mtu => mtu ≤ 2 ^ 29
  | .wndsize _ rcvwnd => rcvwnd ≤ 2 ^ 14
  | _ => True

/-- The unit that a call sets. -/
def Call.unit : Call → Option ℤ
  | .setmtu mtu => if mtu < 50 then none else some mtu
  | _ => none

instance (unit : ℤ) : DecidablePred (Call.Proper unit) := fun call => by
  cases call
  all_goals
    unfold Call.Proper
    infer_instance

instance (window : ℤ) (size : ℕ) : DecidablePred (Call.Within window size) := fun call => by
  cases call
  all_goals
    unfold Call.Within
    infer_instance

instance : DecidablePred Call.Safe := fun call => by
  cases call
  all_goals
    unfold Call.Safe
    infer_instance

instance (unit : ℤ) : DecidablePred (Event.Proper unit) := fun event => by
  cases event
  all_goals
    unfold Event.Proper
    infer_instance

end PolarCloud.Engine.Ikcp
