import PolarCloud.Proofs.Engine.Ikcp.Flow

/-! # What is under way

A segment under way carries a piece of its sender's stream, or names a number that its sender has received; and it
names a number below which its sender has everything. Accepting such segments keeps both directions, however late or
often they come.
-/

namespace PolarCloud.Engine.Ikcp

open Fragments IkcpSeg

/-- A segment that a block has put into a datagram: its own stream, the stream that it receives, and how far. -/
structure Packet (conv : UInt32) (mine theirs : List Piece) (got : ℕ) (kcp : Ikcpcb) (seg : IkcpSeg) : Prop where
  conv : seg.conv = conv
  known : seg.Known
  proper : seg.Proper
  push : seg.cmd = cmdPush → ∃ i, seg.Carries mine i
  ack : seg.cmd = cmdAck → ∃ i < theirs.length, seg.sn = .ofNat i ∧ Received got kcp i
  una : ∃ u ≤ got, seg.una = .ofNat u

variable {conv : UInt32} {mine theirs delivered : List Piece} {got got' : ℕ} {kcp kcp' : Ikcpcb} {seg : IkcpSeg}

/-- What has been received stays so. -/
theorem Packet.later (packet : Packet conv mine theirs got kcp seg) (keeps : Keeps theirs got got' kcp kcp') :
    Packet conv mine theirs got' kcp' seg where
  conv := packet.conv
  known := packet.known
  proper := packet.proper
  push := packet.push
  ack := by
    intro ack
    obtain ⟨i, inside, sn, has⟩ := packet.ack ack
    exact ⟨i, inside, sn, keeps.2 i inside has⟩
  una := by
    obtain ⟨u, le, una⟩ := packet.una
    exact ⟨u, le.trans keeps.1, una⟩

/-- The stream of the segment's own end may grow. -/
theorem Packet.grow (packet : Packet conv mine theirs got kcp seg) (more : List Piece) :
    Packet conv (mine ++ more) theirs got kcp seg where
  conv := packet.conv
  known := packet.known
  proper := packet.proper
  push := by
    intro push
    obtain ⟨i, carries⟩ := packet.push push
    exact ⟨i, carries.extend more⟩
  ack := packet.ack
  una := packet.una

/-- The other end's stream may grow. -/
theorem Packet.extend (packet : Packet conv mine theirs got kcp seg) (more : List Piece) :
    Packet conv mine (theirs ++ more) got kcp seg where
  conv := packet.conv
  known := packet.known
  proper := packet.proper
  push := packet.push
  ack := by
    intro ack
    obtain ⟨i, inside, sn, has⟩ := packet.ack ack
    exact ⟨i, by rw [List.length_append]; omega, sn, has⟩
  una := packet.una

/-- What arrives of a segment says the same. -/
theorem Packet.arrival (packet : Packet conv mine theirs got kcp seg) :
    Packet conv mine theirs got kcp seg.arrival := by
  have cmd := arrival_cmd packet.known
  have frg := arrival_frg packet.proper.small
  have data : seg.arrival.data = seg.data := List.take_of_length_le packet.proper.sized.le
  refine ⟨packet.conv, ?_, ⟨?_, ?_⟩, ?_, ?_, packet.una⟩
  · rw [Known, cmd]
    exact packet.known
  · rw [Sized, data]
    exact packet.proper.sized
  · rw [frg]
    exact packet.proper.small
  · intro push
    obtain ⟨i, carries⟩ := packet.push (cmd ▸ push)
    refine ⟨i, carries.sn, ?_⟩
    rw [piece, frg, data]
    exact carries.piece
  · intro ack
    exact packet.ack (cmd ▸ ack)

section Accept

variable {peer : Ikcpcb} {reached : ℕ}

/-- The part of `accept` that every segment has. -/
def acknowledged (kcp : Ikcpcb) (seg : IkcpSeg) : Ikcpcb :=
  (Ikcpcb.parseUna { kcp with rmtWnd := seg.wnd } seg.una).shrinkBuf

theorem accept_ack (ack : seg.cmd = cmdAck) :
    kcp.accept seg = (((if 0 ≤ itimediff kcp.current seg.ts
      then (acknowledged kcp seg).updateAck (itimediff kcp.current seg.ts) else acknowledged kcp seg).parseAck
        seg.sn).shrinkBuf) := by
  rw [Ikcpcb.accept, if_pos ack]
  rfl

theorem accept_push (push : seg.cmd = cmdPush) :
    kcp.accept seg = if itimediff seg.sn (kcp.rcvNxt + kcp.rcvWnd) < 0 then pushed (acknowledged kcp seg) seg
      else acknowledged kcp seg := by
  have other : seg.cmd ≠ cmdAck := by
    rw [push]
    decide
  rw [Ikcpcb.accept, if_neg other, if_pos push]
  rfl

theorem accept_other (push : seg.cmd ≠ cmdPush) (ack : seg.cmd ≠ cmdAck) :
    (kcp.accept seg).frame = (acknowledged kcp seg).frame := by
  rw [Ikcpcb.accept, if_neg ack, if_neg push]
  split_ifs <;> rfl

theorem config_accept (kcp : Ikcpcb) (seg : IkcpSeg) : (kcp.accept seg).config = kcp.config := by
  by_cases ack : seg.cmd = cmdAck
  · rw [accept_ack ack]
    change (Ikcpcb.parseAck _ _).config = _
    rw [Ikcpcb.config_parseAck]
    split_ifs
    · exact congrArg Prod.fst (Ikcpcb.frame_updateAck _ _)
    · rfl
  · by_cases push : seg.cmd = cmdPush
    · rw [accept_push push, pushed]
      split_ifs
      · rw [Ikcpcb.config_parseData]
        rfl
      · rfl
      · rfl
    · exact congrArg Prod.fst (accept_other push ack)

/-- Only an acknowledgement takes more from the sending part than what is below its number. -/
theorem sending_accept (ack : seg.cmd ≠ cmdAck) : (kcp.accept seg).sending = (acknowledged kcp seg).sending := by
  by_cases push : seg.cmd = cmdPush
  · rw [accept_push push, pushed]
    split_ifs
    · exact Ikcpcb.sending_parseData _ _
    · rfl
    · rfl
  · exact congrArg (fun frame => frame.2.1) (accept_other push ack)

theorem receiving_accept_ack (ack : seg.cmd = cmdAck) : (kcp.accept seg).receiving = kcp.receiving := by
  rw [accept_ack ack]
  change (Ikcpcb.parseAck _ _).receiving = _
  rw [Ikcpcb.receiving_parseAck]
  split_ifs
  · exact congrArg (fun frame => frame.2.2) (Ikcpcb.frame_updateAck _ _)
  · rfl

theorem sndQueue_accept (kcp : Ikcpcb) (seg : IkcpSeg) : (kcp.accept seg).sndQueue = kcp.sndQueue := by
  by_cases ack : seg.cmd = cmdAck
  · rw [accept_ack ack]
    change (Ikcpcb.parseAck _ _).sndQueue = _
    rw [Ikcpcb.sndQueue_parseAck]
    split_ifs
    · exact congrArg (fun frame => frame.2.1.2.2.2.1) (Ikcpcb.frame_updateAck _ _)
    · rfl
  · exact congrArg (fun sending => sending.2.2.2.1) (sending_accept ack)

/-- What comes from the receiver takes away only what it has. -/
theorem Sender.accept (sender : Sender theirs (Received got kcp) peer) (few : theirs.length ≤ most)
    (le : got ≤ theirs.length) (packet : Packet conv mine theirs got kcp seg) :
    Sender theirs (Received got kcp) (peer.accept seg) := by
  obtain ⟨u, below, una⟩ := packet.una
  have first : Sender theirs (Received got kcp) (acknowledged peer seg) := by
    have same : Sender theirs (Received got kcp) { peer with rmtWnd := seg.wnd } := sender.congr rfl
    rw [acknowledged, una]
    exact (same.parseUna (fun i less => .inl (by omega)) (by omega) few).shrinkBuf
  by_cases ack : seg.cmd = cmdAck
  · obtain ⟨i, inside, sn, has⟩ := packet.ack ack
    rw [accept_ack ack, sn]
    apply Sender.shrinkBuf
    apply Sender.parseAck _ has inside few
    split_ifs
    · exact first.congr (congrArg (fun frame => frame.2.1) (Ikcpcb.frame_updateAck _ _))
    · exact first
  · exact first.congr (sending_accept ack)

/-- What comes from the sender is the piece that it names. -/
theorem Receiver.accept (receiver : Receiver mine delivered reached peer) (few : mine.length ≤ most)
    (packet : Packet conv mine theirs got kcp seg) :
    ∃ reached', Receiver mine delivered reached' (peer.accept seg) ∧
      Keeps mine reached reached' peer (peer.accept seg) := by
  have first : Receiver mine delivered reached (acknowledged peer seg) := receiver.congr rfl
  have same {kcp' : Ikcpcb} (equal : kcp'.receiving = (acknowledged peer seg).receiving) :
      ∃ reached', Receiver mine delivered reached' kcp' ∧ Keeps mine reached reached' peer kcp' := by
    refine ⟨reached, first.congr equal, .of_buf ?_⟩
    exact congrArg (fun receiving => receiving.2.2.2.1) equal
  by_cases ack : seg.cmd = cmdAck
  · exact same (receiving_accept_ack ack)
  · by_cases push : seg.cmd = cmdPush
    · obtain ⟨i, carries⟩ := packet.push push
      rw [accept_push push]
      split_ifs with below
      · exact first.push few packet.proper carries below
      · exact same rfl
    · exact same (congrArg (fun frame => frame.2.2) (accept_other push ack))

end Accept

end PolarCloud.Engine.Ikcp
