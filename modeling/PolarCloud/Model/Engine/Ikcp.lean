import Mathlib.Data.List.Basic
import PolarCloud.Base.LittleEndian
import PolarCloud.Base.Serial

/-! # The reliable transport

A control block cuts messages into segments, numbers them, and sends every segment again until the other side has
acknowledged it. What arrives is sorted by number and merged into messages. Datagrams carry several segments, each
with a header of 24 bytes. Counters are of 32 bits and compare as serial numbers.

A slice or a buffer that is too short is a panic, which is `none`.
-/

namespace PolarCloud.Engine.Ikcp

def rtoNdl : UInt32 := 30
def rtoMin : UInt32 := 100
def rtoDef : UInt32 := 200
def rtoMax : UInt32 := 60000
def cmdPush : UInt32 := 81
def cmdAck : UInt32 := 82
def cmdWask : UInt32 := 83
def cmdWins : UInt32 := 84
def wndSnd : UInt32 := 32
def wndRcv : UInt32 := 32
def mtuDef : UInt32 := 1400
def overhead : UInt32 := 24
def threshInit : UInt32 := 2
def threshMin : UInt32 := 2
def probeInit : UInt32 := 7000
def probeLimit : UInt32 := 120000

/-- A conversion to `int32`. -/
def int32 (n : ℤ) : ℤ := n.bmod (2 ^ 32)

def itimediff (later earlier : UInt32) : ℤ := Serial.diff later earlier

def ibound (lower middle upper : UInt32) : UInt32 := min (max lower middle) upper

structure IkcpSeg where
  conv : UInt32 := 0
  cmd : UInt32 := 0
  frg : UInt32 := 0
  wnd : UInt32 := 0
  ts : UInt32 := 0
  sn : UInt32 := 0
  una : UInt32 := 0
  len : UInt32 := 0
  resendts : UInt32 := 0
  rto : UInt32 := 0
  fastack : UInt32 := 0
  xmit : UInt32 := 0
  data : Bytes := []
deriving DecidableEq, Repr

/-- The control block. The list of acknowledgements is what `ackcount` says of the array, and `buffer` is the length
of the buffer in which datagrams are put together. -/
structure Ikcpcb where
  conv : UInt32
  mtu : UInt32 := mtuDef
  mss : UInt32 := mtuDef - overhead
  sndUna : UInt32 := 0
  sndNxt : UInt32 := 0
  rcvNxt : UInt32 := 0
  ssthresh : UInt32 := threshInit
  rxRttval : UInt32 := 0
  rxSrtt : UInt32 := 0
  rxRto : UInt32 := rtoDef
  rxMinrto : UInt32 := rtoMin
  sndWnd : UInt32 := wndSnd
  rcvWnd : UInt32 := wndRcv
  rmtWnd : UInt32 := wndRcv
  cwnd : UInt32 := 0
  askSend : Bool := false
  askTell : Bool := false
  current : UInt32 := 0
  interval : UInt32 := 100
  tsFlush : UInt32 := 100
  nrcvBuf : UInt32 := 0
  nsndBuf : UInt32 := 0
  nrcvQue : UInt32 := 0
  nsndQue : UInt32 := 0
  nodelay : UInt32 := 0
  updated : Bool := false
  tsProbe : UInt32 := 0
  probeWait : UInt32 := 0
  incr : UInt32 := 0
  sndQueue : List IkcpSeg := []
  rcvQueue : List IkcpSeg := []
  sndBuf : List IkcpSeg := []
  rcvBuf : List IkcpSeg := []
  acklist : List (UInt32 × UInt32) := []
  buffer : ℕ := ((mtuDef + overhead) * 3).toNat
  fastresend : ℤ := 0
  nocwnd : Bool := false
deriving DecidableEq, Repr

def create (conv : UInt32) : Ikcpcb := { conv }

/-- The bytes of a header, the lowest byte of a number first. -/
def encodeSeg (seg : IkcpSeg) : Bytes :=
  LittleEndian.put 4 seg.conv.toNat ++ LittleEndian.put 1 seg.cmd.toNat ++ LittleEndian.put 1 seg.frg.toNat ++
    LittleEndian.put 2 seg.wnd.toNat ++ LittleEndian.put 4 seg.ts.toNat ++ LittleEndian.put 4 seg.sn.toNat ++
    LittleEndian.put 4 seg.una.toNat ++ LittleEndian.put 4 seg.len.toNat

/-- A number of `size` bytes at a place. -/
def decode (size : ℕ) (data : Bytes) (place : ℕ) : UInt32 :=
  .ofNat (LittleEndian.get ((data.drop place).take size))

/-- The header at the front of a datagram. -/
def decodeSeg (data : Bytes) : IkcpSeg where
  conv := decode 4 data 0
  cmd := decode 1 data 4
  frg := decode 1 data 5
  wnd := decode 2 data 6
  ts := decode 4 data 8
  sn := decode 4 data 12
  una := decode 4 data 16
  len := decode 4 data 20

/-- The segments of the first message, up to the one that has no fragment behind it, and those that follow. -/
def merge : List IkcpSeg → List IkcpSeg × List IkcpSeg
  | [] => ([], [])
  | seg :: rest =>
      if seg.frg = 0 then ([seg], rest)
      else
        let (front, behind) := merge rest
        (seg :: front, behind)

/-- Copy the data of segments into a buffer; into an empty buffer nothing is copied. -/
def copyOut : Bytes → List IkcpSeg → Option Bytes
  | buffer, [] => some buffer
  | buffer, seg :: rest =>
      if buffer.length = 0 then copyOut buffer rest
      else if buffer.length < seg.len.toNat ∨ seg.data.length < seg.len.toNat then none
      else (copyOut (buffer.drop seg.len.toNat) rest).map (seg.data.take seg.len.toNat ++ ·)

namespace Ikcpcb

def peeksize (this : Ikcpcb) : ℤ :=
  match this.rcvQueue with
  | [] => -1
  | seg :: _ =>
      if seg.frg = 0 then int32 seg.len.toNat
      else if this.nrcvQue < seg.frg + 1 then -1
      else int32 ((merge this.rcvQueue).1.map fun seg => (seg.len.toNat : ℤ)).sum

/-- Move the segments that are next from the buffer to the queue, while the window has room. -/
def moveAvailable : List IkcpSeg → Ikcpcb → Ikcpcb
  | [], this => { this with rcvBuf := [] }
  | seg :: rest, this =>
      if seg.sn = this.rcvNxt ∧ this.nrcvQue < this.rcvWnd then
        moveAvailable rest { this with
          nrcvBuf := this.nrcvBuf - 1
          rcvQueue := this.rcvQueue ++ [seg]
          nrcvQue := this.nrcvQue + 1
          rcvNxt := this.rcvNxt + 1 }
      else { this with rcvBuf := seg :: rest }

/-- Take the first message into a buffer; a negative length is a peek. The result, the buffer and the block. -/
def recv (this : Ikcpcb) (buffer : Bytes) (len : ℤ) : Option (ℤ × Bytes × Ikcpcb) :=
  if this.rcvQueue = [] then some (-1, buffer, this)
  else
    let room := if len < 0 then int32 (-len) else len
    let peeksize := this.peeksize
    if peeksize < 0 then some (-2, buffer, this)
    else if room < peeksize then some (-3, buffer, this)
    else
      let recover := this.rcvWnd ≤ this.nrcvQue
      let (front, behind) := merge this.rcvQueue
      match copyOut buffer front with
      | none => none
      | some buffer =>
          let taken :=
            if len < 0 then this
            else { this with rcvQueue := behind, nrcvQue := this.nrcvQue - .ofNat front.length }
          let moved := moveAvailable taken.rcvBuf taken
          let next :=
            if moved.nrcvQue < moved.rcvWnd ∧ recover then { moved with askTell := true } else moved
          some (int32 (front.map fun seg => (seg.len.toNat : ℤ)).sum, buffer, next)

/-- The number of fragments of a message. -/
def count (this : Ikcpcb) (len : ℤ) : ℤ :=
  if len ≤ this.mss.toNat then 1
  else
    let count := (int32 (int32 (int32 len + int32 this.mss.toNat) - 1)).tdiv (int32 this.mss.toNat)
    if count = 0 then 1 else count

/-- The fragments of a message, numbered down to zero; without a buffer their data is zero. -/
def fragments (mss : ℕ) : ℕ → Option Bytes → ℤ → Option (List IkcpSeg)
  | 0, _, _ => some []
  | count + 1, buffer, len =>
      let size := if len ≤ mss then len.toNat else mss
      let data : Option Bytes :=
        match buffer with
        | some bytes => if bytes.length < size then none else some (bytes.take size)
        | none => some (List.replicate size 0)
      match data with
      | none => none
      | some data =>
          (fragments mss count (buffer.map (List.drop size)) (len - size)).map fun rest =>
            { frg := .ofNat count, len := .ofNat size, data } :: rest

def send (this : Ikcpcb) (buffer : Option Bytes) (len : ℤ) : Option (ℤ × Ikcpcb) :=
  if len < 0 then some (-1, this)
  else
    let count := this.count len
    if 255 < count then some (-2, this)
    else
      (fragments this.mss.toNat count.toNat buffer len).map fun segs =>
        (0, { this with
          sndQueue := this.sndQueue ++ segs
          nsndQue := this.nsndQue + .ofNat segs.length })

/-- A round trip that was measured. The difference is unsigned, and never negative. -/
def updateAck (this : Ikcpcb) (rtt : ℤ) : Ikcpcb :=
  let rtt : UInt32 := .ofInt rtt
  let this :=
    if this.rxSrtt = 0 then { this with rxSrtt := rtt, rxRttval := rtt / 2 }
    else
      let delta := rtt - this.rxSrtt
      let srtt := (7 * this.rxSrtt + rtt) / 8
      { this with rxRttval := (3 * this.rxRttval + delta) / 4, rxSrtt := if srtt < 1 then 1 else srtt }
  { this with rxRto := ibound this.rxMinrto (this.rxSrtt + max 1 (4 * this.rxRttval)) rtoMax }

def shrinkBuf (this : Ikcpcb) : Ikcpcb :=
  { this with sndUna := match this.sndBuf with | seg :: _ => seg.sn | [] => this.sndNxt }

/-- Take the segment with a number out of a list, and count the acknowledgement for those in front of it. -/
def removeAcked (sn : UInt32) : List IkcpSeg → List IkcpSeg
  | [] => []
  | seg :: rest =>
      if sn = seg.sn then rest else { seg with fastack := seg.fastack + 1 } :: removeAcked sn rest

def parseAck (this : Ikcpcb) (sn : UInt32) : Ikcpcb :=
  if itimediff sn this.sndUna < 0 ∨ 0 ≤ itimediff sn this.sndNxt then this
  else
    let sndBuf := removeAcked sn this.sndBuf
    { this with sndBuf, nsndBuf := this.nsndBuf - .ofNat (this.sndBuf.length - sndBuf.length) }

def parseUna (this : Ikcpcb) (una : UInt32) : Ikcpcb :=
  let sndBuf := this.sndBuf.dropWhile fun seg => 0 < itimediff una seg.sn
  { this with sndBuf, nsndBuf := this.nsndBuf - .ofNat (this.sndBuf.length - sndBuf.length) }

def ackPush (this : Ikcpcb) (sn ts : UInt32) : Ikcpcb := { this with acklist := this.acklist ++ [(sn, ts)] }

/-- Put a segment into its place in a list that is read from its end; nothing for a number that is there. -/
def insertBack (newseg : IkcpSeg) : List IkcpSeg → Option (List IkcpSeg)
  | [] => some [newseg]
  | seg :: rest =>
      if seg.sn = newseg.sn then none
      else if 0 < itimediff newseg.sn seg.sn then some (newseg :: seg :: rest)
      else (insertBack newseg rest).map (seg :: ·)

def parseData (this : Ikcpcb) (newseg : IkcpSeg) : Ikcpcb :=
  if 0 ≤ itimediff newseg.sn (this.rcvNxt + this.rcvWnd) ∨ itimediff newseg.sn this.rcvNxt < 0 then this
  else
    let this :=
      match insertBack newseg this.rcvBuf.reverse with
      | none => this
      | some back => { this with rcvBuf := back.reverse, nrcvBuf := this.nrcvBuf + 1 }
    moveAvailable this.rcvBuf this

/-- What one segment of a datagram does. -/
def accept (this : Ikcpcb) (seg : IkcpSeg) : Ikcpcb :=
  let this := (parseUna { this with rmtWnd := seg.wnd } seg.una).shrinkBuf
  if seg.cmd = cmdAck then
    let this := if 0 ≤ itimediff this.current seg.ts then this.updateAck (itimediff this.current seg.ts) else this
    (this.parseAck seg.sn).shrinkBuf
  else if seg.cmd = cmdPush then
    if itimediff seg.sn (this.rcvNxt + this.rcvWnd) < 0 then
      let this := this.ackPush seg.sn seg.ts
      if 0 ≤ itimediff seg.sn this.rcvNxt then this.parseData seg else this
    else this
  else if seg.cmd = cmdWask then { this with askTell := true }
  else this

/-- The segments of a datagram one after the other; each takes at least the bytes of its header. -/
def inputLoop : ℕ → Bytes → Ikcpcb → ℤ × Ikcpcb
  | 0, _, this => (0, this)
  | fuel + 1, data, this =>
      if data.length < overhead.toNat then (0, this)
      else
        let seg := decodeSeg data
        let data := data.drop overhead.toNat
        if seg.conv ≠ this.conv then (-1, this)
        else if UInt32.ofNat data.length < seg.len then (-2, this)
        else if seg.cmd ≠ cmdPush ∧ seg.cmd ≠ cmdAck ∧ seg.cmd ≠ cmdWask ∧ seg.cmd ≠ cmdWins then (-3, this)
        else
          inputLoop fuel (data.drop seg.len.toNat) (this.accept { seg with data := data.take seg.len.toNat })

/-- The window grows when the datagram acknowledged something. -/
def grow (this : Ikcpcb) (una : UInt32) : Ikcpcb :=
  if 0 < itimediff this.sndUna una ∧ this.cwnd < this.rmtWnd then
    let mss := this.mss
    let this : Ikcpcb :=
      if this.cwnd < this.ssthresh then { this with cwnd := this.cwnd + 1, incr := this.incr + mss }
      else
        let incr := if this.incr < mss then mss else this.incr
        let incr := incr + (mss * mss / incr + mss / 16)
        { this with incr, cwnd := if incr ≤ (this.cwnd + 1) * mss then this.cwnd + 1 else this.cwnd }
    if this.rmtWnd < this.cwnd then { this with cwnd := this.rmtWnd, incr := this.rmtWnd * mss } else this
  else this

def input (this : Ikcpcb) (data : Bytes) : ℤ × Ikcpcb :=
  if data.length < 24 then (0, this)
  else
    let (code, next) := inputLoop data.length data this
    if code = 0 then (0, next.grow this.sndUna) else (code, next)

def wndUnused (this : Ikcpcb) : UInt32 := if this.nrcvQue < this.rcvWnd then this.rcvWnd - this.nrcvQue else 0

end Ikcpcb

/-- The buffer in which datagrams are put together: how long it is, what was output from it, and what is in it. -/
structure Writer where
  capacity : ℕ
  output : List Bytes := []
  pending : Bytes := []
deriving DecidableEq, Repr

namespace Writer

def put (this : Writer) (bytes : Bytes) : Option Writer :=
  if this.pending.length + bytes.length ≤ this.capacity then
    some { this with pending := this.pending ++ bytes }
  else none

/-- Output what is in the buffer, unless it is empty, and begin again at its front. -/
def release (this : Writer) : Writer :=
  if this.pending = [] then this else { this with output := this.output ++ [this.pending], pending := [] }

/-- A header without data is put behind more than the unit that the network takes only after what is there. -/
def putHead (mtu : UInt32) (this : Writer) (seg : IkcpSeg) : Option Writer :=
  (if int32 mtu.toNat < this.pending.length then this.release else this).put (encodeSeg seg)

end Writer

/-- Why a segment of the buffer is sent. -/
inductive Need where
  | no
  | first
  | timeout
  | fast
deriving DecidableEq, Repr

namespace Ikcpcb

/-- Ask for the other side's window when it is closed, after longer and longer waits. -/
def probe (this : Ikcpcb) : Ikcpcb :=
  if this.rmtWnd = 0 then
    if this.probeWait = 0 then { this with probeWait := probeInit, tsProbe := this.current + probeInit }
    else if 0 ≤ itimediff this.current this.tsProbe then
      let wait := if this.probeWait < probeInit then probeInit else this.probeWait
      let wait := wait + wait / 2
      let wait := if probeLimit < wait then probeLimit else wait
      { this with probeWait := wait, tsProbe := this.current + wait, askSend := true }
    else this
  else { this with tsProbe := 0, probeWait := 0 }

/-- The number of segments that may be without an acknowledgement. -/
def window (this : Ikcpcb) : UInt32 :=
  let cwnd := min this.sndWnd this.rmtWnd
  if this.nocwnd then cwnd else min this.cwnd cwnd

/-- Number segments and move them from the queue to the buffer, while the window has room. -/
def moveQueue (cwnd wnd : UInt32) : List IkcpSeg → Ikcpcb → Ikcpcb
  | [], this => { this with sndQueue := [] }
  | newseg :: rest, this =>
      if 0 ≤ itimediff this.sndNxt (this.sndUna + cwnd) then { this with sndQueue := newseg :: rest }
      else
        moveQueue cwnd wnd rest { this with
          sndBuf := this.sndBuf ++ [{ newseg with
            conv := this.conv
            cmd := cmdPush
            wnd
            ts := this.current
            sn := this.sndNxt
            una := this.rcvNxt
            resendts := this.current
            rto := this.rxRto
            fastack := 0
            xmit := 0 }]
          nsndQue := this.nsndQue - 1
          nsndBuf := this.nsndBuf + 1
          sndNxt := this.sndNxt + 1 }

/-- How many later acknowledgements make a segment lost. -/
def resent (this : Ikcpcb) : UInt32 := if this.fastresend ≤ 0 then 0xffffffff else .ofInt this.fastresend

def need (this : Ikcpcb) (segment : IkcpSeg) : Need :=
  if segment.xmit = 0 then .first
  else if 0 ≤ itimediff this.current segment.resendts then .timeout
  else if this.resent ≤ segment.fastack then .fast
  else .no

/-- A segment as it is sent, or as it stays in the buffer. -/
def resend (this : Ikcpcb) (wnd : UInt32) (segment : IkcpSeg) : IkcpSeg :=
  let rtomin : UInt32 := if this.nodelay ≠ 0 then 0 else this.rxRto >>> 3
  let sent : IkcpSeg := { segment with xmit := segment.xmit + 1, ts := this.current, wnd, una := this.rcvNxt }
  match this.need segment with
  | .no => segment
  | .first => { sent with rto := this.rxRto, resendts := this.current + this.rxRto + rtomin }
  | .timeout =>
      let rto := segment.rto + if this.nodelay = 0 then this.rxRto else this.rxRto / 2
      { sent with rto, resendts := this.current + rto }
  | .fast => { sent with fastack := 0, resendts := this.current + segment.rto }

/-- Write a segment of the buffer behind the others, unless the datagram becomes too long. -/
def putSegment (this : Ikcpcb) (wnd : UInt32) (writer : Writer) (segment : IkcpSeg) : Option Writer :=
  if this.need segment = .no then some writer
  else
    let sent := this.resend wnd segment
    let need := int32 (overhead + sent.len).toNat
    let writer := if int32 this.mtu.toNat ≤ int32 (writer.pending.length + need) then writer.release else writer
    if sent.data.length < sent.len.toNat then none
    else writer.put (encodeSeg sent ++ sent.data.take sent.len.toNat)

/-- What the sending did to the threshold and the window: segments sent early, and segments whose time was over. -/
def congest (this : Ikcpcb) (cwnd : UInt32) (change lost : Bool) : Ikcpcb :=
  let this :=
    if change then
      let ssthresh := max ((this.sndNxt - this.sndUna) / 2) threshMin
      { this with ssthresh, cwnd := ssthresh + this.resent, incr := (ssthresh + this.resent) * this.mss }
    else this
  let this :=
    if lost then { this with ssthresh := max (cwnd / 2) threshMin, cwnd := 1, incr := this.mss } else this
  if this.cwnd < 1 then { this with cwnd := 1, incr := this.mss } else this

/-- The header of a segment without data, about what has been received. -/
def head (this : Ikcpcb) (cmd : UInt32) (ack : UInt32 × UInt32) : IkcpSeg :=
  { conv := this.conv, cmd, wnd := this.wndUnused, una := this.rcvNxt, sn := ack.1, ts := ack.2 }

def putAcks (this : Ikcpcb) : Option Writer :=
  this.acklist.foldlM (fun writer ack => writer.putHead this.mtu (this.head cmdAck ack)) { capacity := this.buffer }

/-- A question about a window; its header still names the last number that was acknowledged. -/
def putProbe (this : Ikcpcb) (ask : Bool) (cmd : UInt32) (last : UInt32 × UInt32) (writer : Writer) : Option Writer :=
  if ask then writer.putHead this.mtu (this.head cmd last) else some writer

/-- The questions are asked, and the queue moves on. -/
def number (this : Ikcpcb) (wnd : UInt32) : Ikcpcb :=
  moveQueue this.window wnd this.sndQueue { this with askSend := false, askTell := false }

/-- The buffer after its segments were sent, and what follows for the window. -/
def sent (this : Ikcpcb) (cwnd wnd : UInt32) : Ikcpcb :=
  let change := this.sndBuf.any fun segment => this.need segment = .fast
  let lost := this.sndBuf.any fun segment => this.need segment = .timeout
  congest { this with sndBuf := this.sndBuf.map (this.resend wnd) } cwnd change lost

/-- Send what is due: acknowledgements, questions about windows, and segments. -/
def flush (this : Ikcpcb) : Option (List Bytes × Ikcpcb) :=
  if this.updated then do
    let wnd := this.wndUnused
    let writer ← this.putAcks
    let last := this.acklist.getLast?.getD (0, 0)
    let asking := probe { this with acklist := [] }
    let writer ← asking.putProbe asking.askSend cmdWask last writer
    let writer ← asking.putProbe asking.askTell cmdWins last writer
    let numbered := asking.number wnd
    let writer ← numbered.sndBuf.foldlM (numbered.putSegment wnd) writer
    return (writer.release.output, numbered.sent asking.window wnd)
  else some ([], this)

/-- Tell the time; a flush when it is due. -/
def update (this : Ikcpcb) (current : UInt32) : Option (List Bytes × Ikcpcb) :=
  let this := { this with current }
  let this := if this.updated then this else { this with updated := true, tsFlush := current }
  let slap := itimediff current this.tsFlush
  let late := 10000 ≤ slap ∨ slap < -10000
  let this := if late then { this with tsFlush := current } else this
  if late ∨ 0 ≤ slap then
    let tsFlush := this.tsFlush + this.interval
    flush { this with tsFlush := if 0 ≤ itimediff current tsFlush then current + this.interval else tsFlush }
  else some ([], this)

/-- When to call `update` again. -/
def check (this : Ikcpcb) (current : UInt32) : UInt32 :=
  if this.updated then
    let far := itimediff current this.tsFlush
    let tsFlush := if 10000 ≤ far ∨ far < -10000 then current else this.tsFlush
    if 0 ≤ itimediff current tsFlush then current
    else if this.sndBuf.any fun seg => itimediff seg.resendts current ≤ 0 then current
    else
      let tmFlush := itimediff tsFlush current
      let tmPacket := this.sndBuf.foldl (fun least seg => min least (itimediff seg.resendts current)) 0x7fffffff
      let minimal := min tmPacket tmFlush
      let minimal := if (this.interval.toNat : ℤ) ≤ minimal then (this.interval.toNat : ℤ) else minimal
      current + .ofInt minimal
  else current

def setmtu (this : Ikcpcb) (mtu : ℤ) : ℤ × Ikcpcb :=
  if mtu < 50 then (-1, this)
  else
    let size : UInt32 := .ofInt mtu
    (0, { this with mtu := size, mss := size - overhead, buffer := ((size + overhead) * 3).toNat })

/-- An interval within its bounds. -/
def bounded (interval : ℤ) : UInt32 := .ofInt (if 5000 < interval then 5000 else if interval < 10 then 10 else interval)

def setNodelay (this : Ikcpcb) (nodelay interval resend nc : ℤ) : Ikcpcb :=
  let this :=
    if 0 ≤ nodelay then
      { this with nodelay := .ofInt nodelay, rxMinrto := if nodelay ≠ 0 then rtoNdl else rtoMin }
    else this
  let this := if 0 ≤ interval then { this with interval := bounded interval } else this
  let this := if 0 ≤ resend then { this with fastresend := resend } else this
  if 0 ≤ nc then { this with nocwnd := nc ≠ 0 } else this

def wndsize (this : Ikcpcb) (sndwnd rcvwnd : ℤ) : Ikcpcb :=
  { this with
    sndWnd := if 0 < sndwnd then .ofInt sndwnd else this.sndWnd
    rcvWnd := if 0 < rcvwnd then .ofInt rcvwnd else this.rcvWnd }

def waitsnd (this : Ikcpcb) : ℤ := int32 (this.nsndBuf + this.nsndQue).toNat

end Ikcpcb

end PolarCloud.Engine.Ikcp
