import Mathlib.Data.List.Induction
import PolarCloud.Base.Replay
import PolarCloud.Proofs.Engine.Frames

/-! # Malformed frames

A call that returns nil should have taken one frame off the stream. A frame whose inner part does not fit
makes it panic instead, and the panic is recovered with a nil error: the frame stays in `temp`, and the
loop hands on the packet once more. Exactly the streams on which no such frame is reached are received
as they should be, and a frame whose inner part is too short does no harm when its network id is refused.
-/

namespace PolarCloud.Engine

/-- A whole frame whose inner part does not fit. -/
def Malformed (stream : Bytes) : Prop := Complete stream ∧ ¬ Fits stream

/-- A whole frame that is received. -/
structure Received (stream : Bytes) : Prop where
  complete : Complete stream
  fits : Fits stream
  net : frameNet stream = netid

/-- The contents of the frames at the front of a stream, and the stream behind them. -/
inductive Frames (start : Bytes) : List Content → Bytes → Prop
  | none : Frames start [] start
  | more {contents rest} (front : Frames start contents rest) (received : Received rest) :
      Frames start (contents ++ [frameContent rest]) (rest.drop (frameSize rest).toNat)

/-- What a call has to keep to. -/
structure Sound (spare : Bytes) (packet : Packet) (conn : Conn) : Prop where
  consumes : (recvPackage spare packet conn).1 = none → Complete (stream packet conn) ∧
    (recvPackage spare packet conn).2.1.size = frameSize (stream packet conn) ∧
    stream (recvPackage spare packet conn).2.1 (recvPackage spare packet conn).2.2 =
      (stream packet conn).drop (recvPackage spare packet conn).2.1.size.toNat
  sets : (recvPackage spare packet conn).1 = none →
    (recvPackage spare packet conn).2.1.content = frameContent (stream packet conn)
  refuses : Malformed (stream packet conn) → (recvPackage spare packet conn).1 ≠ none

namespace Link

/-- What was handed on, and to whom. -/
def contents (link : Link) : List Content := link.handed.map (·.packet.content)

def rest (link : Link) : Bytes := stream link.packet link.conn

/-- Turn by turn; the runtime and the senders decide what lies behind `temp` and who waits. -/
def run (registered : UInt64 → Bool) (turns : List (Bytes × Bool)) (link : Link) : Link :=
  turns.foldl (fun link (spare, isWait) => turn registered spare isWait link) link

/-- Every call of a loop is sound, what was handed on are the frames of the stream, each of them once, and a
malformed frame closes the connection. -/
structure Faithful (start : Bytes) (registered : UInt64 → Bool) (link : Link) : Prop where
  sound : link.closed = false → ∀ spare, Sound spare link.packet link.conn
  once : ∃ rest, Frames start link.contents rest ∧ (link.closed = false → rest = link.rest)
  closes : Malformed link.rest → ∀ spare isWait,
    (turn registered spare isWait link).closed = true ∧ (turn registered spare isWait link).handed = link.handed

end Link

/-- No frame that is reached takes the calls into a panic: it fits, or its inner part is too short and its
network id is refused. -/
def WellFormed (start : Bytes) : Prop :=
  ∀ contents rest, Frames start contents rest → Malformed rest →
    (frameDataSize rest).toNat < 12 ∧ frameNet rest ≠ netid

section Calls

variable {spare : Bytes} {packet : Packet} {conn : Conn}

theorem recvPackage_incomplete (incomplete : ¬ Complete (stream packet conn)) :
    (recvPackage spare packet conn).1 ≠ none := by
  cases call_cases spare packet conn with
  | failed _ err => exact err
  | framed _ _ complete => exact absurd complete incomplete

/-- A short inner part ends inside its frame. -/
theorem Complete.short_inside {bytes : Bytes} (complete : Complete bytes) (short : (frameDataSize bytes).toNat < 12) :
    16 + (frameDataSize bytes).toNat ≤ (frameSize bytes).toNat := by
  have least := complete.least
  omega

/-- A nil result is a received frame, when the frame at the front does no harm. -/
theorem received_of_nil (harmless : Malformed (stream packet conn) →
      (frameDataSize (stream packet conn)).toNat < 12 ∧ frameNet (stream packet conn) ≠ netid)
    (nil : (recvPackage spare packet conn).1 = none) : Received (stream packet conn) := by
  by_cases complete : Complete (stream packet conn)
  · by_cases fits : Fits (stream packet conn)
    · by_cases net : frameNet (stream packet conn) = netid
      · exact ⟨complete, fits, net⟩
      · rw [recvPackage_otherNet complete fits.most net] at nil
        cases nil
    · obtain ⟨short, net⟩ := harmless ⟨complete, fits⟩
      rw [recvPackage_otherNet complete (complete.short_inside short) net] at nil
      cases nil
  · exact absurd nil (recvPackage_incomplete complete)

theorem sound_of_harmless (harmless : Malformed (stream packet conn) →
      (frameDataSize (stream packet conn)).toNat < 12 ∧ frameNet (stream packet conn) ≠ netid) :
    Sound spare packet conn where
  consumes nil := by
    obtain ⟨complete, fits, net⟩ := received_of_nil harmless nil
    obtain ⟨packet', conn', call, -, size, rest⟩ := recvPackage_fits spare complete fits net
    rw [call]
    exact ⟨complete, size, by rw [size, rest]⟩
  sets nil := by
    obtain ⟨complete, fits, net⟩ := received_of_nil harmless nil
    obtain ⟨packet', conn', call, content, -, -⟩ := recvPackage_fits spare complete fits net
    rw [call]
    exact content
  refuses malformed nil := malformed.2 (received_of_nil harmless nil).fits

end Calls

namespace Link

variable {registered : UInt64 → Bool}

/-- A turn on a connection that is open: the loop ends, or the packet is handed on. -/
theorem turn_cases (registered : UInt64 → Bool) {link : Link} (isOpen : link.closed = false) (spare : Bytes)
    (isWait : Bool) :
    ((recvPackage spare link.packet link.conn).1 ≠ none ∧ (turn registered spare isWait link).closed = true ∧
        (turn registered spare isWait link).handed = link.handed) ∨
      ((recvPackage spare link.packet link.conn).1 = none ∧ (turn registered spare isWait link).closed = false ∧
        (turn registered spare isWait link).packet = (recvPackage spare link.packet link.conn).2.1 ∧
        (turn registered spare isWait link).conn = (recvPackage spare link.packet link.conn).2.2 ∧
        (turn registered spare isWait link).contents =
          link.contents ++ [(recvPackage spare link.packet link.conn).2.1.content]) := by
  rcases call : recvPackage spare link.packet link.conn with ⟨err, packet, conn⟩
  cases err with
  | some err => simp [turn, isOpen, call]
  | none =>
    cases isWait with
    | true => simp [turn, isOpen, call, contents, Handed.packet]
    | false =>
      cases known : registered packet.msgID with
      | true => simp [turn, isOpen, call, contents, Handed.packet, known]
      | false => simp [turn, isOpen, call, contents, Handed.packet, known]

theorem turn_closed {link : Link} (closed : link.closed = true) (spare : Bytes) (isWait : Bool) :
    turn registered spare isWait link = link := by
  rw [turn, if_pos closed]

theorem run_concat (turns : List (Bytes × Bool)) (spare : Bytes) (isWait : Bool) (link : Link) :
    run registered (turns ++ [(spare, isWait)]) link = turn registered spare isWait (run registered turns link) :=
  Replay.foldl_concat turns (spare, isWait)

/-- Up to its end a loop hands on the frames of the stream. -/
theorem run_once (registered : UInt64 → Bool) {pieces : Conn} (wellFormed : WellFormed pieces.flatten)
    (turns : List (Bytes × Bool)) :
    ∃ rest, Frames pieces.flatten (run registered turns { conn := pieces }).contents rest ∧
      ((run registered turns { conn := pieces }).closed = false →
        rest = (run registered turns { conn := pieces }).rest) := by
  induction turns using List.reverseRecOn with
  | nil => exact ⟨_, .none, fun _ => rfl⟩
  | append_singleton turns last ih =>
    obtain ⟨spare, isWait⟩ := last
    obtain ⟨rest, frames, same⟩ := ih
    rw [run_concat]
    generalize run registered turns { conn := pieces } = link at frames same
    by_cases closed : link.closed = true
    · rw [turn_closed closed]
      exact ⟨rest, frames, same⟩
    · have isOpen : link.closed = false := by simpa using closed
      cases same isOpen
      rcases turn_cases registered isOpen spare isWait with
        ⟨-, ended, handed⟩ | ⟨nil, open', packet, conn, contents⟩
      · refine ⟨link.rest, ?_, fun isOpen => absurd isOpen (by simp [ended])⟩
        rw [Link.contents, handed]
        exact frames
      · have received := received_of_nil (wellFormed _ _ frames) nil
        have sound : Sound spare link.packet link.conn := sound_of_harmless (wellFormed _ _ frames)
        rw [contents, sound.sets nil, Link.rest, packet, conn]
        refine ⟨_, .more frames received, fun _ => ?_⟩
        obtain ⟨-, size, left⟩ := sound.consumes nil
        rw [left, size]

theorem run_faithful {pieces : Conn} (wellFormed : WellFormed pieces.flatten) (turns : List (Bytes × Bool)) :
    Faithful pieces.flatten registered (run registered turns { conn := pieces }) := by
  have once := run_once registered wellFormed turns
  generalize run registered turns { conn := pieces } = link at once
  obtain ⟨rest, frames, same⟩ := once
  by_cases closed : link.closed = true
  · refine ⟨fun isOpen => absurd isOpen (by simp [closed]), ⟨rest, frames, same⟩, fun _ spare isWait => ?_⟩
    rw [turn_closed closed]
    exact ⟨closed, rfl⟩
  · have isOpen : link.closed = false := by simpa using closed
    cases same isOpen
    have sound (spare : Bytes) : Sound spare link.packet link.conn := sound_of_harmless (wellFormed _ _ frames)
    refine ⟨fun _ => sound, ⟨_, frames, fun _ => rfl⟩, fun malformed spare isWait => ?_⟩
    rcases turn_cases registered isOpen spare isWait with ⟨-, ended, handed⟩ | ⟨nil, -⟩
    · exact ⟨ended, handed⟩
    · exact absurd nil ((sound spare).refuses malformed)

end Link

/-! ## Frames that arrive byte by byte -/

section Bytewise

variable {packet : Packet} {bytes : Bytes}

theorem stream_bytewise (empty : packet.temp = []) (bytes : Bytes) : stream packet (bytes.map ([·])) = bytes := by
  rw [stream, empty, List.nil_append, ← List.flatMap_def, List.flatMap_singleton']

/-- Byte by byte a call loads one frame, and nothing of what follows it. -/
theorem call_bytewise (empty : packet.temp = []) (complete : Complete bytes) :
    recvPackage [] packet (bytes.map ([·])) =
      ((readFrame [] { packet with size := frameSize bytes, temp := bytes.take (frameSize bytes).toNat }).1,
        (readFrame [] { packet with size := frameSize bytes, temp := bytes.take (frameSize bytes).toNat }).2,
        (bytes.drop (frameSize bytes).toNat).map ([·])) := by
  have least := complete.least
  have whole := complete.whole
  cases call_cases [] packet (bytes.map ([·])) with
  | failed incomplete => exact absurd (by rwa [stream_bytewise empty]) incomplete
  | framed temp rest _ _ _ filled call =>
    have header : Pieces.fill 16 16 packet.temp (bytes.map ([·])) = (bytes.take 16, (bytes.drop 16).map ([·])) := by
      rw [empty]
      exact Pieces.fill_singletons (by omega) (by rw [List.length_nil]; omega) (Nat.zero_le _)
    have length : (bytes.take 16).length = 16 := by
      rw [List.length_take]
      omega
    rw [stream_bytewise empty, header] at filled
    dsimp only at filled
    rw [Pieces.fill_singletons (by omega) (by rw [length, List.length_drop]; omega) (by omega), length,
      ← List.take_add, List.drop_drop, Nat.add_sub_cancel' (by omega), Prod.mk.injEq] at filled
    rw [call, stream_bytewise empty, ← filled.1, ← filled.2]

theorem frameDataSize_take (complete : Complete bytes) :
    frameDataSize (bytes.take (frameSize bytes).toNat) = frameDataSize bytes := by
  have least := complete.least
  rw [frameDataSize, List.drop_take, List.take_take, Nat.min_eq_left (by omega), ← frameDataSize.eq_1]

/-- A received frame leaves nothing in `temp`. -/
theorem received_bytewise (empty : packet.temp = []) (received : Received bytes) :
    ∃ packet', recvPackage [] packet (bytes.map ([·])) =
      (none, packet', (bytes.drop (frameSize bytes).toNat).map ([·])) ∧ packet'.temp = [] := by
  have same := stream_bytewise empty bytes
  obtain ⟨packet', conn', call, -, -, left⟩ := recvPackage_fits [] (by rw [same]; exact received.complete)
    (by rw [same]; exact received.fits) (by rw [same]; exact received.net)
  rw [same, stream] at left
  rw [call_bytewise empty received.complete, Prod.mk.injEq, Prod.mk.injEq] at call
  rw [call_bytewise empty received.complete, call.1, call.2.1]
  rw [← call.2.2, ← List.flatMap_def, List.flatMap_singleton', List.append_left_eq_self] at left
  exact ⟨packet', rfl, left⟩

/-- A malformed frame brings a nil result, unless its inner part is too short and its network id is refused. -/
theorem malformed_bytewise (empty : packet.temp = []) (malformed : Malformed bytes)
    (harmful : (frameDataSize bytes).toNat < 12 → frameNet bytes = netid) :
    (recvPackage [] packet (bytes.map ([·]))).1 = none := by
  obtain ⟨complete, unfit⟩ := malformed
  have same := stream_bytewise empty bytes
  have whole := complete.whole
  by_cases short : (frameDataSize bytes).toNat < 12
  · exact recvPackage_small (by rwa [same]) (by rwa [same]) (by rw [same]; exact harmful short)
  · have large : (frameSize bytes).toNat < 16 + (frameDataSize bytes).toNat :=
      not_le.mp fun most => unfit ⟨not_lt.mp short, most⟩
    rw [call_bytewise empty complete, readFrame_large (by rwa [frameDataSize_take complete])]
    rw [List.append_nil, List.length_take]
    exact Nat.min_le_left ..

/-- Byte by byte the loop gets to every frame that is reached. -/
theorem run_bytewise (registered : UInt64 → Bool) {start rest : Bytes} {contents : List Content}
    (frames : Frames start contents rest) :
    ∃ turns, (Link.run registered turns { conn := start.map ([·]) }).closed = false ∧
      (Link.run registered turns { conn := start.map ([·]) }).packet.temp = [] ∧
      (Link.run registered turns { conn := start.map ([·]) }).conn = rest.map ([·]) := by
  induction frames with
  | none => exact ⟨[], rfl, rfl, rfl⟩
  | more _ received ih =>
    obtain ⟨turns, isOpen, empty, conn⟩ := ih
    refine ⟨turns ++ [([], false)], ?_⟩
    rw [Link.run_concat]
    generalize Link.run registered turns { conn := start.map ([·]) } = link at isOpen empty conn
    obtain ⟨packet', call, none⟩ := received_bytewise empty received
    rw [← conn] at call
    rcases Link.turn_cases registered isOpen [] false with ⟨err, -⟩ | ⟨-, isOpen', packet, conn', -⟩
    · exact absurd (by rw [call]) err
    · exact ⟨isOpen', by rw [packet, call]; exact none, by rw [conn', call]⟩

end Bytewise

/-- A stream is received as it should be, however it is cut and whoever waits, exactly when no frame that is
reached takes the calls into a panic. -/
theorem faithful_iff_wellFormed (start : Bytes) :
    (∀ (pieces : Conn), pieces.flatten = start → ∀ registered turns,
        Link.Faithful start registered (Link.run registered turns { conn := pieces })) ↔ WellFormed start := by
  constructor
  · intro faithful contents rest frames malformed
    by_contra harmful
    obtain ⟨turns, isOpen, empty, conn⟩ := run_bytewise (fun _ => true) frames
    have sound :=
      (faithful (start.map ([·])) (by rw [← List.flatMap_def, List.flatMap_singleton']) _ turns).sound isOpen []
    rw [conn] at sound
    have same := stream_bytewise empty rest
    refine sound.refuses (by rwa [same]) (malformed_bytewise empty malformed fun short => ?_)
    by_contra net
    exact harmful ⟨short, net⟩
  · rintro wellFormed pieces rfl registered turns
    exact Link.run_faithful wellFormed turns

/-- A packet, and behind it a frame of 28 bytes whose inner length is 0. -/
def zeroFrame : Conn :=
  [marshalPacket 7 (some [1, 2]) none,
    [28, 0, 0, 0, 0, 0, 0, 0, 0, 0, 0, 0, 0, 0, 0, 0, 2, 0, 0, 0, 7, 0, 0, 0, 0, 0, 0, 0]]

/-- The frame is taken for the packet before it, again and again. -/
theorem handed_again :
    Link.contents (Link.run (fun _ => true) [([], false), ([], false), ([], false)] { conn := zeroFrame }) =
        [⟨7, [1, 2], []⟩, ⟨7, [1, 2], []⟩, ⟨7, [1, 2], []⟩] ∧
      (Link.run (fun _ => true) [([], false), ([], false), ([], false)] { conn := zeroFrame }).closed = false ∧
      ¬ ∀ registered turns, Link.Faithful zeroFrame.flatten registered
        (Link.run registered turns { conn := zeroFrame }) := by
  refine ⟨by decide, by decide, fun faithful => ?_⟩
  have malformed : Malformed (Link.run (fun _ => true) [([], false)] { conn := zeroFrame }).rest :=
    ⟨by decide, by decide⟩
  exact ((faithful (fun _ => true) [([], false)]).sound (by decide) []).refuses malformed (by decide)

end PolarCloud.Engine
