import PolarCloud.Base.LittleEndian
import PolarCloud.Base.Pieces

/-! # Packets on a connection

A packet is one frame: its length and the length of its inner part, eight bytes each, then the
network id, the message id and the data as the inner part, and the rest of the frame behind it. What
a read brings beyond a frame waits in `temp` for the next call. A slice may reach beyond the length
of `temp` into its array; how much of the array is there, and what it holds, is up to the runtime.
-/

namespace PolarCloud.Engine

/-- The largest length of a packet. -/
def maxSize : ℕ := 1024 * 1024 * 1024

def netid : ℕ := 2

structure Packet where
  msgID : UInt64 := 0
  size : UInt64 := 0
  temp : Bytes := []
  data : Bytes := []
  dataplus : Bytes := []
deriving DecidableEq, Repr

/-- The pieces in which the peer's bytes arrive; after the last one a read fails. -/
abbrev Conn := List Bytes

inductive RecvError where
  | read
  | text (value : String)
deriving DecidableEq, Repr

namespace RecvError

def tooLarge : RecvError := text "包头错误 包长度大于最大值"
def tooSmall : RecvError := text "包头错误 包长度太小"
def otherNet : RecvError := text "网络号错误"

end RecvError

/-- Slice an array; bounds that do not fit are a panic. -/
def slice? (array : Bytes) (low high : ℕ) : Option Bytes :=
  if low ≤ high ∧ high ≤ array.length then some ((array.take high).drop low) else none

def uint64 (bytes : Bytes) : UInt64 := UInt64.ofNat (LittleEndian.get bytes)

/-- The second part of `RecvPackage`, when all of the frame is in `temp`. A panic is recovered by the
deferred `PrintPanicStack`: what was set stays set, and the result is nil. -/
def readFrame (spare : Bytes) (packet : Packet) : Option RecvError × Packet :=
  let array := packet.temp ++ spare
  let dataSize := uint64 ((packet.temp.drop 8).take 8)
  let high := (dataSize + 16).toNat
  match slice? array 16 high with
  | none => (none, packet)
  | some data =>
      -- a slice of a slice may reach beyond its length as well
      let inner := array.drop 16
      match slice? inner 0 4, slice? inner 4 12 with
      | some net, some msgID =>
          if LittleEndian.get net ≠ netid then (some .otherNet, packet)
          else
            let packet := { packet with msgID := uint64 msgID }
            match slice? inner 12 data.length with
            | none => (none, packet)
            | some content =>
                let packet := { packet with data := content }
                match slice? array high packet.size.toNat with
                | none => (none, packet)
                | some dataplus =>
                    (none, { packet with dataplus, temp := packet.temp.drop packet.size.toNat })
      | _, _ => (none, packet)

/-- Receive one packet; an error or nil, the packet, and what is left of the connection. -/
def recvPackage (spare : Bytes) (packet : Packet) (conn : Conn) : Option RecvError × Packet × Conn :=
  let (temp, conn) := Pieces.fill 16 16 packet.temp conn
  let packet := { packet with temp }
  if temp.length < 16 then (some .read, packet, conn)
  else
    let packet := { packet with size := uint64 (temp.take 8) }
    if maxSize < packet.size.toNat then (some .tooLarge, packet, conn)
    else if packet.size < 8 + 8 + 4 + 8 then (some .tooSmall, packet, conn)
    else
      let (temp, conn) := Pieces.fill (packet.size.toNat - 16) packet.size.toNat temp conn
      let packet := { packet with temp }
      if temp.length < packet.size.toNat then (some .read, packet, conn)
      else
        let (err, packet) := readFrame spare packet
        (err, packet, conn)

def marshalPacket (msgID : UInt64) (data dataplus : Option Bytes) : Bytes :=
  let bs := LittleEndian.put 4 netid ++ LittleEndian.put 8 msgID.toNat ++ data.getD []
  LittleEndian.put 8 (8 + 8 + bs.length + (dataplus.getD []).length) ++ LittleEndian.put 8 bs.length ++ bs ++
    dataplus.getD []

/-! ## The receive loops -/

/-- Where a received packet goes: to a caller that waits for it, to the handler of its message id, or
nowhere when there is none. -/
inductive Handed where
  | waiter (packet : Packet)
  | handler (packet : Packet)
  | unregistered (packet : Packet)
deriving DecidableEq, Repr

def Handed.packet : Handed → Packet
  | waiter packet => packet
  | handler packet => packet
  | unregistered packet => packet

/-- One side of a connection: the packet that every call fills, the connection, what was handed on so
far, and whether the loop has ended and closed the connection. -/
structure Link where
  packet : Packet := {}
  conn : Conn
  handed : List Handed := []
  closed : Bool := false
deriving DecidableEq, Repr

/-- One turn of the loop; `isWait` says that a sender waits for the packet when the call returns. -/
def Link.turn (registered : UInt64 → Bool) (spare : Bytes) (isWait : Bool) (link : Link) : Link :=
  if link.closed then link
  else
    match recvPackage spare link.packet link.conn with
    | (some _, packet, conn) => { link with packet, conn, closed := true }
    | (none, packet, conn) =>
        let handed := if isWait then .waiter packet
          else if registered packet.msgID then .handler packet else .unregistered packet
        { link with packet, conn, handed := link.handed ++ [handed] }

/-- The receive loop of a `ServerConn`, turn by turn. -/
abbrev ServerConn.recv := Link.turn

/-- The receive loop of a `Client` differs in what follows the close only. -/
abbrev Client.recv := Link.turn

example : (recvPackage [] {} [marshalPacket 7 (some [1, 2]) (some [3])]).2.1.data = [1, 2] := by decide

end PolarCloud.Engine
