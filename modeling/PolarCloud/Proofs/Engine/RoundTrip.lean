import PolarCloud.Proofs.Engine.Frames

/-! # What is sent arrives

A marshalled packet is a whole frame that fits, and its content is the packet. The bytes of the packets
still to be received are those in `temp` and on the connection, however the calls before have cut them.
-/

namespace PolarCloud.Engine

/-- A packet as it is given to be sent. -/
structure Outgoing where
  msgID : UInt64
  data : Option Bytes
  dataplus : Option Bytes
deriving DecidableEq, Repr

namespace Outgoing

def marshal (packet : Outgoing) : Bytes := marshalPacket packet.msgID packet.data packet.dataplus

/-- What is not there is sent as nothing. -/
def content (packet : Outgoing) : Content := ⟨packet.msgID, packet.data.getD [], packet.dataplus.getD []⟩

end Outgoing

/-- One call after the other on one packet, and what each brings. -/
def receive : List Bytes → Packet → Conn → List (Option RecvError × Content) × Packet × Conn
  | [], packet, conn => ([], packet, conn)
  | spare :: spares, packet, conn =>
      let first := recvPackage spare packet conn
      let rest := receive spares first.2.1 first.2.2
      ((first.1, first.2.1.content) :: rest.1, rest.2)

section Marshal

variable (packet : Outgoing) (rest : Bytes)

/-- The length of the inner part. -/
def Outgoing.inner : ℕ := 12 + (packet.data.getD []).length

/-- The length of the frame. -/
def Outgoing.size : ℕ := 16 + packet.inner + (packet.dataplus.getD []).length

theorem Outgoing.length_marshal : packet.marshal.length = packet.size := by
  simp only [marshal, marshalPacket, size, inner, List.length_append, LittleEndian.length_put]

/-- The parts of a frame. -/
theorem Outgoing.marshal_parts :
    packet.marshal ++ rest = LittleEndian.put 8 packet.size ++ (LittleEndian.put 8 packet.inner ++
      (LittleEndian.put 4 netid ++ (LittleEndian.put 8 packet.msgID.toNat ++
        (packet.data.getD [] ++ (packet.dataplus.getD [] ++ rest))))) := by
  have length : (LittleEndian.put 4 netid ++ LittleEndian.put 8 packet.msgID.toNat ++ packet.data.getD []).length =
      packet.inner := by
    simp only [inner, List.length_append, LittleEndian.length_put]
  simp only [marshal, marshalPacket, length]
  simp only [size, List.append_assoc]

theorem take_put (n x : ℕ) (tail : Bytes) : (LittleEndian.put n x ++ tail).take n = LittleEndian.put n x := by
  rw [List.take_append_of_le_length (LittleEndian.length_put n x).ge,
    List.take_of_length_le (LittleEndian.length_put n x).le]

theorem drop_put (n x m : ℕ) (tail : Bytes) : (LittleEndian.put n x ++ tail).drop (n + m) = tail.drop m := by
  rw [← List.drop_drop, List.drop_append_of_le_length (LittleEndian.length_put n x).ge,
    List.drop_of_length_le (LittleEndian.length_put n x).le, List.nil_append]

theorem uint64_put {x : ℕ} (small : x ≤ maxSize) : (uint64 (LittleEndian.put 8 x)).toNat = x := by
  rw [maxSize] at small
  rw [uint64, LittleEndian.get_put (by omega), UInt64.toNat_ofNat_of_lt']
  exact small.trans_lt (by decide)

theorem Outgoing.frameNet_marshal : frameNet (packet.marshal ++ rest) = netid := by
  rw [frameNet, marshal_parts, drop_put 8 _ 8, drop_put 8 _ 0, List.drop_zero, take_put,
    LittleEndian.get_put (by decide)]

variable {packet} (small : packet.marshal.length ≤ maxSize)

include small

theorem Outgoing.frameSize_marshal : (frameSize (packet.marshal ++ rest)).toNat = packet.size := by
  rw [length_marshal] at small
  rw [frameSize, marshal_parts, take_put, uint64_put small]

theorem Outgoing.frameDataSize_marshal : (frameDataSize (packet.marshal ++ rest)).toNat = packet.inner := by
  have inside : packet.inner ≤ maxSize := by
    rw [length_marshal, size] at small
    omega
  rw [frameDataSize, marshal_parts, drop_put 8 _ 0, List.drop_zero, take_put, uint64_put inside]

theorem Outgoing.marshal_complete : Complete (packet.marshal ++ rest) := by
  have size := frameSize_marshal rest small
  have length := packet.length_marshal
  refine ⟨?_, ?_, ?_⟩
  · rw [size, Outgoing.size, inner]
    omega
  · omega
  · rw [List.length_append]
    omega

theorem Outgoing.marshal_fits : Fits (packet.marshal ++ rest) := by
  refine ⟨?_, ?_⟩
  · rw [frameDataSize_marshal rest small, inner]
    omega
  · rw [frameSize_marshal rest small, frameDataSize_marshal rest small, size]
    omega

/-- The content of a frame is the packet it was made of. -/
theorem Outgoing.frameContent_marshal : frameContent (packet.marshal ++ rest) = packet.content := by
  rw [frameContent, frameSize_marshal rest small, frameDataSize_marshal rest small]
  have front : packet.marshal.length = packet.size := packet.length_marshal
  have parts := packet.marshal_parts []
  rw [List.append_nil, List.append_nil] at parts
  rw [content, Content.mk.injEq]
  refine ⟨?_, ?_, ?_⟩
  · rw [marshal_parts, drop_put 8 _ 12, drop_put 8 _ 4, drop_put 4 _ 0, List.drop_zero, take_put, uint64,
      LittleEndian.get_put packet.msgID.toNat_lt, UInt64.ofNat_toNat]
  · rw [marshal_parts, drop_put 8 _ 20, drop_put 8 _ 12, drop_put 4 _ 8, drop_put 8 _ 0, List.drop_zero, inner,
      Nat.add_sub_cancel_left, List.take_left]
  · rw [List.take_append_of_le_length front.ge, List.take_of_length_le front.le, parts, inner,
      show 16 + (12 + (packet.data.getD []).length) = 8 + (8 + (4 + (8 + (packet.data.getD []).length))) by omega,
      drop_put, drop_put, drop_put, drop_put, List.drop_left]

theorem Outgoing.drop_marshal : (packet.marshal ++ rest).drop (frameSize (packet.marshal ++ rest)).toNat = rest := by
  rw [frameSize_marshal rest small, ← length_marshal, List.drop_left]

end Marshal

/-- The calls take the packets off the stream one by one. -/
theorem receive_marshal {packets : List Outgoing} (small : ∀ packet ∈ packets, packet.marshal.length ≤ maxSize)
    {rest : Bytes} {spares : List Bytes} (calls : spares.length = packets.length) {packet : Packet} {conn : Conn}
    (holds : stream packet conn = packets.flatMap Outgoing.marshal ++ rest) :
    (receive spares packet conn).1 = packets.map (fun packet => (none, packet.content)) ∧
      stream (receive spares packet conn).2.1 (receive spares packet conn).2.2 = rest := by
  induction packets generalizing spares packet conn with
  | nil =>
    rw [List.length_nil, List.length_eq_zero_iff] at calls
    rw [calls]
    exact ⟨rfl, holds⟩
  | cons head tail ih =>
    cases spares with
    | nil => simp at calls
    | cons spare spares =>
      have most : head.marshal.length ≤ maxSize := small head List.mem_cons_self
      rw [List.flatMap_cons, List.append_assoc] at holds
      obtain ⟨packet', conn', call, content, -, left⟩ := recvPackage_fits spare
        (holds ▸ Outgoing.marshal_complete _ most) (holds ▸ Outgoing.marshal_fits _ most)
        (holds ▸ Outgoing.frameNet_marshal _ _)
      rw [holds, Outgoing.drop_marshal _ most] at left
      rw [holds, Outgoing.frameContent_marshal _ most] at content
      obtain ⟨results, done⟩ := ih (fun packet mem => small packet (List.mem_cons_of_mem _ mem))
        (Nat.succ.inj calls) left
      rw [receive, call]
      exact ⟨by rw [List.map_cons, ← results, ← content], done⟩

/-- Packets that are sent one after the other arrive as they were sent, however the bytes are cut. -/
theorem packets_arrive (packets : List Outgoing) (small : ∀ packet ∈ packets, packet.marshal.length ≤ maxSize)
    {pieces : Conn} (sent : pieces.flatten = packets.flatMap Outgoing.marshal) {spares : List Bytes}
    (calls : spares.length = packets.length) {packet : Packet} (empty : packet.temp = []) :
    (receive spares packet pieces).1 = packets.map (fun packet => (none, packet.content)) ∧
      (receive spares packet pieces).2.1.temp = [] ∧ (receive spares packet pieces).2.2.flatten = [] := by
  have holds : stream packet pieces = packets.flatMap Outgoing.marshal ++ [] := by
    rw [stream, empty, sent, List.nil_append, List.append_nil]
  obtain ⟨results, done⟩ := receive_marshal small calls holds
  exact ⟨results, List.append_eq_nil_iff.mp done⟩

/-- Two packets whose bytes are cut within both headers. -/
theorem packets_arrive_cut :
    (receive [[], [0, 0]] {}
      [[29, 0, 0], [0, 0, 0, 0, 0, 13, 0, 0, 0, 0, 0, 0, 0, 2, 0, 0, 0, 7, 0, 0, 0, 0, 0, 0, 0, 5, 30],
      [0, 0, 0, 0, 0, 0, 0, 12, 0, 0, 0, 0, 0, 0, 0, 2, 0, 0, 0, 8, 0, 0, 0, 0, 0, 0], [0, 1], [2]]).1 =
        [(none, ⟨7, [5], []⟩), (none, ⟨8, [], [1, 2]⟩)] :=
  (packets_arrive [⟨7, some [5], none⟩, ⟨8, none, some [1, 2]⟩] (by decide) (by decide) rfl rfl).1

end PolarCloud.Engine
