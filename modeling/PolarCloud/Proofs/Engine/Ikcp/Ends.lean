import PolarCloud.Model.Engine.IkcpLink
import PolarCloud.Proofs.Engine.Ikcp.Calls

/-! # One end of a link

The messages that one end has sent are cut into its stream and the queue behind it; the messages that it has received
are cut into the front of the other end's stream; and all datagrams that it has output say nothing else. A call of one
end keeps this.
-/

namespace PolarCloud.Engine.Ikcp

open Fragments IkcpSeg

/-- One end, its stream, the other end's stream, how much of that it has, and what the other end has of its own. -/
structure End (number : UInt32) (limit : ℕ) (mine theirs : List Piece) (got : ℕ) (has : ℕ → Prop) (side : Side) :
    Prop where
  conv : side.kcp.conv = number
  tuned : Tuned limit side.kcp
  sender : Sender mine has side.kcp
  cuts : Cuts side.sent (mine ++ side.kcp.sndQueue.map piece)
  pieces : ∀ part ∈ mine ++ side.kcp.sndQueue.map piece, part.2.length ≤ limit - 24
  short : ∀ message ∈ side.sent, message.length ≤ most
  queued : side.queued = mine.length + side.kcp.sndQueue.length
  received : ∃ delivered, Receiver theirs delivered got side.kcp ∧ Cuts side.received delivered
  output : ∀ datagram ∈ side.output, datagram.length < 2 ^ 32 ∧ Made (Packet number mine theirs got side.kcp) datagram

section Tuned

variable {limit : ℕ} {kcp : Ikcpcb}

theorem tuned_create (conv : UInt32) (large : 1400 ≤ limit) : Tuned limit (create conv) where
  mss := rfl
  lower := by change 50 ≤ 1400; omega
  upper := large
  buffer := UInt32.toNat_lt _

theorem Tuned.setmtu (tuned : Tuned limit kcp) (low : limit ≤ most) {mtu : ℤ} (small : mtu ≤ limit) :
    Tuned limit (kcp.setmtu mtu).2 := by
  unfold most at low
  rw [Ikcpcb.setmtu]
  split_ifs with least
  · exact tuned
  · have number : (UInt32.ofInt mtu).toNat = mtu.toNat := Serial.toNat_ofInt_of_lt (by omega) (by omega)
    refine ⟨rfl, ?_, ?_, UInt32.toNat_lt _⟩
    · change 50 ≤ (UInt32.ofInt mtu).toNat
      omega
    · change (UInt32.ofInt mtu).toNat ≤ limit
      omega

theorem frame_setNodelay (kcp : Ikcpcb) (nodelay interval resend nc : ℤ) :
    (kcp.setNodelay nodelay interval resend nc).frame = kcp.frame := by
  unfold Ikcpcb.setNodelay
  dsimp only
  split_ifs <;> rfl

end Tuned

section Call

variable {number : UInt32} {limit : ℕ} {mine theirs behind : List Piece} {got got' : ℕ} {has : ℕ → Prop}
  {side next : Side}

/-- What was output before stays true. -/
theorem End.outputs {kcp : Ikcpcb} (this : End number limit mine theirs got has side)
    (keeps : Keeps theirs got got' side.kcp kcp) (moved : List Piece) :
    ∀ datagram ∈ side.output, datagram.length < 2 ^ 32 ∧
      Made (Packet number (mine ++ moved) theirs got' kcp) datagram := by
  intro datagram member
  obtain ⟨short, made⟩ := this.output datagram member
  exact ⟨short, made.imp fun seg packet => (packet.grow moved).later keeps⟩

/-- A call that leaves the segments of both directions alone. -/
theorem End.still {kcp : Ikcpcb} (this : End number limit mine theirs got has side) (tuned : Tuned limit kcp)
    (sending : kcp.sending = side.kcp.sending) (receiving : kcp.receiving = side.kcp.receiving) :
    End number limit mine theirs got has { side with kcp } ∧ Keeps theirs got got side.kcp kcp := by
  have buf : kcp.rcvBuf = side.kcp.rcvBuf := congrArg (fun receiving => receiving.2.2.2.1) receiving
  have queue : kcp.sndQueue = side.kcp.sndQueue := congrArg (fun sending => sending.2.2.2.1) sending
  have outputs := this.outputs (.of_buf buf) []
  rw [List.append_nil] at outputs
  obtain ⟨delivered, receiver, cuts⟩ := this.received
  refine ⟨⟨(congrArg Prod.fst sending).trans this.conv, tuned, this.sender.congr sending, ?_, ?_, this.short, ?_,
    ⟨delivered, receiver.congr receiving, cuts⟩, outputs⟩, .of_buf buf⟩
  · change Cuts side.sent (mine ++ kcp.sndQueue.map piece)
    rw [queue]
    exact this.cuts
  · rw [queue]
    exact this.pieces
  · change side.queued = mine.length + kcp.sndQueue.length
    rw [queue]
    exact this.queued

/-- A message that is sent lies behind the queue. -/
theorem End.send {message : Bytes} (this : End number limit mine theirs got has side) (low : limit ≤ most)
    (short : message.length ≤ most) (called : side.call (.send message) = some next) :
    End number limit mine theirs got has next ∧ Keeps theirs got got side.kcp next.kcp := by
  obtain ⟨⟨code, kcp⟩, sends, rfl⟩ := Option.map_eq_some_iff.mp called
  obtain ⟨delivered, receiver, received⟩ := this.received
  rcases send_spec this.tuned low short sends with ⟨rfl, segs, cut, proper, rfl⟩ | ⟨failed, rfl⟩
  · refine ⟨⟨this.conv, this.tuned.congr rfl, ?_, ?_, ?_, ?_, ?_, ⟨delivered, receiver.congr rfl, received⟩, ?_⟩,
      .of_buf rfl⟩
    · refine { this.sender with queue := ?_, nque := ?_ }
      · intro seg member
        rcases List.mem_append.mp member with old | new
        · exact this.sender.queue seg old
        · exact (proper seg new).1
      · change side.kcp.nsndQue + _ = .ofNat (side.kcp.sndQueue ++ segs).length
        rw [this.sender.nque, List.length_append, UInt32.ofNat_add]
    · change Cuts (side.sent ++ [message]) (mine ++ (side.kcp.sndQueue ++ segs).map piece)
      rw [List.map_append, ← List.append_assoc]
      exact this.cuts.concat cut
    · change ∀ part ∈ mine ++ (side.kcp.sndQueue ++ segs).map piece, part.2.length ≤ limit - 24
      intro part member
      rw [List.map_append, ← List.append_assoc] at member
      rcases List.mem_append.mp member with old | new
      · exact this.pieces part old
      · obtain ⟨seg, found, rfl⟩ := List.mem_map.mp new
        have upper := this.tuned.upper
        have mss := this.tuned.mss_toNat
        exact (proper seg found).2.trans (by omega)
    · intro other member
      rcases List.mem_append.mp member with old | new
      · exact this.short other old
      · rw [List.mem_singleton.mp new]
        exact short
    · change side.queued + ((side.kcp.sndQueue ++ segs).length - side.kcp.sndQueue.length) =
        mine.length + (side.kcp.sndQueue ++ segs).length
      rw [this.queued, List.length_append]
      omega
    · intro datagram member
      obtain ⟨small, made⟩ := this.output datagram member
      exact ⟨small, made.imp fun seg packet => packet.later (.of_buf rfl)⟩
  · simp only [if_neg failed, Nat.sub_self, Nat.add_zero]
    exact ⟨this, .refl _ _ _⟩

/-- A flush numbers what leaves the queue, and what it outputs is true. -/
theorem End.flushed {output : List Bytes} {kcp kcp' : Ikcpcb} (this : End number limit mine theirs got has side)
    (frame : kcp.frame = side.kcp.frame) (flushed : kcp.flush = some (output, kcp')) :
    ∃ moved, Keeps theirs got got side.kcp kcp' ∧
      End number limit (mine ++ moved) theirs got has { side with kcp := kcp', output := side.output ++ output } := by
  obtain ⟨delivered, receiver, received⟩ := this.received
  have sending : kcp.sending = side.kcp.sending := congrArg (fun frame => frame.2.1) frame
  have receiving : kcp.receiving = side.kcp.receiving := congrArg (fun frame => frame.2.2) frame
  have tuned : Tuned limit kcp := this.tuned.congr (congrArg Prod.fst frame)
  have conv : kcp.conv = number := (congrArg Prod.fst sending).trans this.conv
  have queue : kcp.sndQueue = side.kcp.sndQueue := congrArg (fun sending => sending.2.2.2.1) sending
  have buf : kcp.rcvBuf = side.kcp.rcvBuf := congrArg (fun receiving => receiving.2.2.2.1) receiving
  obtain ⟨moved, split, sender, receives, config, same, written⟩ :=
    flush_spec (this.sender.congr sending) (receiver.congr receiving) flushed
  have keeps : Keeps theirs got got side.kcp kcp' := .of_buf (same.trans buf)
  rw [queue] at split
  refine ⟨moved, keeps, ⟨(congrArg Prod.fst config).trans conv, tuned.congr config, sender, ?_, ?_, this.short, ?_,
    ⟨delivered, receives, received⟩, ?_⟩⟩
  · change Cuts side.sent (mine ++ moved ++ kcp'.sndQueue.map piece)
    rw [List.append_assoc, ← split]
    exact this.cuts
  · rw [List.append_assoc, ← split]
    exact this.pieces
  · have lengths := congrArg List.length split
    rw [List.length_append, List.length_map, List.length_map] at lengths
    change side.queued = (mine ++ moved).length + kcp'.sndQueue.length
    rw [this.queued, List.length_append]
    omega
  · intro datagram member
    rcases List.mem_append.mp member with old | new
    · exact this.outputs keeps moved datagram old
    · obtain ⟨short, made⟩ := written datagram new
      rw [conv] at made
      exact ⟨short.trans_lt tuned.buffer, made⟩

/-- A message that is received is the next one that the other end has sent. -/
theorem End.recv {buffer : Bytes} {len : ℤ} {messages : List Bytes} (this : End number limit mine theirs got has side)
    (few : theirs.length ≤ most) (cuts : Cuts messages (theirs ++ behind))
    (short : ∀ message ∈ messages, message.length ≤ most) (room : len ≤ buffer.length)
    (called : side.call (.recv buffer len) = some next) :
    ∃ got', End number limit mine theirs got' has next ∧ Keeps theirs got got' side.kcp next.kcp := by
  obtain ⟨⟨code, filled, kcp⟩, receives, rfl⟩ := Option.map_eq_some_iff.mp called
  obtain ⟨delivered, receiver, received⟩ := this.received
  have stream : theirs ++ behind = delivered ++ (side.kcp.rcvQueue.map piece ++ (theirs.drop got ++ behind)) := by
    rw [← List.append_assoc, receiver.taken, ← List.append_assoc, List.take_append_drop]
  rw [stream] at cuts
  obtain ⟨more, rfl, left⟩ := received.of_front cuts
  obtain ⟨got', part, after, keeps, sending, config, handed⟩ := recv_spec receiver few left
    (fun message member => short message (List.mem_append_right _ member)) room receives
  have queue : kcp.sndQueue = side.kcp.sndQueue := congrArg (fun sending => sending.2.2.2.1) sending
  have outputs := this.outputs keeps []
  rw [List.append_nil] at outputs
  refine ⟨got', ⟨(congrArg Prod.fst sending).trans this.conv, this.tuned.congr config, this.sender.congr sending, ?_,
    ?_, this.short, ?_, ⟨delivered ++ part, after, ?_⟩, outputs⟩, keeps⟩
  · change Cuts side.sent (mine ++ kcp.sndQueue.map piece)
    rw [queue]
    exact this.cuts
  · change ∀ part ∈ mine ++ kcp.sndQueue.map piece, part.2.length ≤ limit - 24
    rw [queue]
    exact this.pieces
  · change side.queued = mine.length + kcp.sndQueue.length
    rw [queue]
    exact this.queued
  · dsimp only
    split_ifs at handed ⊢
    · exact received.concat handed
    · rw [handed, List.append_nil]
      exact received

/-- A datagram that the other end has output is accepted. -/
theorem End.input {datagram : Bytes} {reached : ℕ} {peer : Ikcpcb}
    (this : End number limit mine theirs got (Received reached peer) side) (fewMine : mine.length ≤ most)
    (fewTheirs : theirs.length ≤ most) (le : reached ≤ mine.length) (small : datagram.length < 2 ^ 32)
    (made : Made (Packet number theirs mine reached peer) datagram) :
    (side.kcp.input datagram).1 = 0 ∧ ∃ got' kcp, (side.kcp.input datagram).2 = kcp ∧
      End number limit mine theirs got' (Received reached peer) { side with kcp } ∧
      Keeps theirs got got' side.kcp kcp := by
  obtain ⟨delivered, receiver, received⟩ := this.received
  obtain ⟨got', kcp, accepts, sends, receives, keeps, config, queue⟩ :=
    input_spec made small this.conv this.sender receiver fewTheirs fewMine le
  have outputs := this.outputs keeps []
  rw [List.append_nil] at outputs
  rw [accepts]
  refine ⟨rfl, got', kcp, rfl, ⟨(congrArg Prod.fst config).trans this.conv, this.tuned.congr config, sends, ?_,
    ?_, this.short, ?_, ⟨delivered, receives, received⟩, outputs⟩, keeps⟩
  · change Cuts side.sent (mine ++ kcp.sndQueue.map piece)
    rw [queue]
    exact this.cuts
  · change ∀ part ∈ mine ++ kcp.sndQueue.map piece, part.2.length ≤ limit - 24
    rw [queue]
    exact this.pieces
  · change side.queued = mine.length + kcp.sndQueue.length
    rw [queue]
    exact this.queued

/-- A call of one end, whatever the other end has sent. -/
theorem End.call {call : Call} {messages : List Bytes} (this : End number limit mine theirs got has side)
    (low : limit ≤ most) (few : theirs.length ≤ most) (cuts : Cuts messages (theirs ++ behind))
    (short : ∀ message ∈ messages, message.length ≤ most) (proper : call.Proper limit)
    (called : side.call call = some next) :
    ∃ moved got', End number limit (mine ++ moved) theirs got' has next ∧ Keeps theirs got got' side.kcp next.kcp := by
  have still {kcp : Ikcpcb} (tuned : Tuned limit kcp) (sending : kcp.sending = side.kcp.sending)
      (receiving : kcp.receiving = side.kcp.receiving) (same : next = { side with kcp }) :
      ∃ moved got', End number limit (mine ++ moved) theirs got' has next ∧
        Keeps theirs got got' side.kcp next.kcp := by
    subst same
    refine ⟨[], got, ?_⟩
    rw [List.append_nil]
    exact this.still tuned sending receiving
  cases call with
  | send message =>
    refine ⟨[], got, ?_⟩
    rw [List.append_nil]
    exact this.send low proper called
  | recv buffer len =>
    obtain ⟨got', after⟩ := this.recv few cuts short proper called
    refine ⟨[], got', ?_⟩
    rw [List.append_nil]
    exact after
  | input datagram => exact proper.elim
  | flush =>
    obtain ⟨⟨output, kcp⟩, flushes, rfl⟩ := Option.map_eq_some_iff.mp called
    obtain ⟨moved, keeps, after⟩ := this.flushed rfl flushes
    exact ⟨moved, got, after, keeps⟩
  | update current =>
    obtain ⟨⟨output, kcp⟩, updated, rfl⟩ := Option.map_eq_some_iff.mp called
    obtain ⟨told, frame, flushes | ⟨rfl, rfl⟩⟩ := update_cases updated
    · obtain ⟨moved, keeps, after⟩ := this.flushed frame flushes
      exact ⟨moved, got, after, keeps⟩
    · apply still (this.tuned.congr (congrArg Prod.fst frame)) (congrArg (fun frame => frame.2.1) frame)
        (congrArg (fun frame => frame.2.2) frame)
      simp only [List.append_nil]
  | setmtu mtu =>
    have same : (side.kcp.setmtu mtu).2.sending = side.kcp.sending ∧
        (side.kcp.setmtu mtu).2.receiving = side.kcp.receiving := by
      rw [Ikcpcb.setmtu]
      split_ifs <;> exact ⟨rfl, rfl⟩
    exact still (this.tuned.setmtu low proper) same.1 same.2 (Option.some.inj called).symm
  | nodelay nodelay interval resend nc =>
    have frame := frame_setNodelay side.kcp nodelay interval resend nc
    exact still (this.tuned.congr (congrArg Prod.fst frame)) (congrArg (fun frame => frame.2.1) frame)
      (congrArg (fun frame => frame.2.2) frame) (Option.some.inj called).symm
  | wndsize sndwnd rcvwnd =>
    have tuned : Tuned limit (side.kcp.wndsize sndwnd rcvwnd) := ⟨this.tuned.mss, this.tuned.lower, this.tuned.upper,
      this.tuned.buffer⟩
    exact still tuned rfl rfl (Option.some.inj called).symm

/-- The other end's step: its stream may have grown, and it may have more. -/
theorem End.other {has' : ℕ → Prop} (this : End number limit mine theirs got has side)
    (more : ∀ i < mine.length, has i → has' i) (moved : List Piece) :
    End number limit mine (theirs ++ moved) got has' side where
  conv := this.conv
  tuned := this.tuned
  sender := this.sender.mono more
  cuts := this.cuts
  pieces := this.pieces
  short := this.short
  queued := this.queued
  received := by
    obtain ⟨delivered, receiver, cuts⟩ := this.received
    exact ⟨delivered, receiver.extend moved, cuts⟩
  output := by
    intro datagram member
    obtain ⟨short, made⟩ := this.output datagram member
    exact ⟨short, made.imp fun seg packet => packet.extend moved⟩

end Call

end PolarCloud.Engine.Ikcp
