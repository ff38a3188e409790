import PolarCloud.Proofs.Engine.Ikcp.Packets

/-! # What a flush writes

The datagrams of a flush are put together from whole segments, each of which is an acknowledgement, a question about a
window, or a numbered piece of the buffer.
-/

namespace PolarCloud.Engine.Ikcp

open Fragments IkcpSeg

/-- Bytes that are put together from segments with a property. -/
def Made (P : IkcpSeg → Prop) (bytes : Bytes) : Prop :=
  ∃ segs : List IkcpSeg, bytes = segs.flatMap wire ∧ ∀ seg ∈ segs, P seg

variable {P Q : IkcpSeg → Prop}

theorem Made.nil : Made P [] := ⟨[], rfl, fun _ member => (List.not_mem_nil member).elim⟩

theorem Made.concat {bytes : Bytes} {seg : IkcpSeg} (made : Made P bytes) (holds : P seg) :
    Made P (bytes ++ seg.wire) := by
  obtain ⟨segs, rfl, all⟩ := made
  refine ⟨segs ++ [seg], ?_, ?_⟩
  · rw [List.flatMap_append, List.flatMap_singleton]
  · intro other member
    rcases List.mem_append.mp member with old | new
    · exact all other old
    · rw [List.mem_singleton.mp new]
      exact holds

theorem Made.imp {bytes : Bytes} (made : Made P bytes) (weaker : ∀ seg, P seg → Q seg) : Made Q bytes := by
  obtain ⟨segs, rfl, all⟩ := made
  exact ⟨segs, rfl, fun seg member => weaker seg (all seg member)⟩

namespace Writer

/-- All that was written consists of whole segments, and fits into the buffer. -/
structure Whole (P : IkcpSeg → Prop) (size : ℕ) (this : Writer) : Prop where
  capacity : this.capacity = size
  output : ∀ datagram ∈ this.output, datagram.length ≤ size ∧ Made P datagram
  pending : this.pending.length ≤ size ∧ Made P this.pending

variable {size : ℕ} {this next : Writer} {seg : IkcpSeg}

theorem Whole.empty (P : IkcpSeg → Prop) (size : ℕ) : Whole P size { capacity := size } :=
  ⟨rfl, fun _ member => (List.not_mem_nil member).elim, Nat.zero_le _, .nil⟩

theorem Whole.imp (whole : Whole P size this) (weaker : ∀ seg, P seg → Q seg) : Whole Q size this where
  capacity := whole.capacity
  output := fun datagram member => ⟨(whole.output datagram member).1, (whole.output datagram member).2.imp weaker⟩
  pending := ⟨whole.pending.1, whole.pending.2.imp weaker⟩

theorem Whole.release (whole : Whole P size this) : Whole P size this.release := by
  rw [Writer.release]
  split_ifs
  · exact whole
  · refine ⟨whole.capacity, ?_, Nat.zero_le _, .nil⟩
    intro datagram member
    rcases List.mem_append.mp member with old | new
    · exact whole.output datagram old
    · rw [List.mem_singleton.mp new]
      exact whole.pending

theorem Whole.put (whole : Whole P size this) (holds : P seg) (puts : this.put seg.wire = some next) :
    Whole P size next := by
  rw [Writer.put] at puts
  split_ifs at puts with fits
  cases puts
  refine ⟨whole.capacity, whole.output, ?_, whole.pending.2.concat holds⟩
  rw [List.length_append, ← whole.capacity]
  exact fits

theorem Whole.putHead {mtu : UInt32} (whole : Whole P size this) (holds : P seg) (none : seg.len = 0)
    (puts : this.putHead mtu seg = some next) : Whole P size next := by
  have head : encodeSeg seg = seg.wire := by
    rw [wire, none]
    exact (List.append_nil _).symm
  rw [Writer.putHead, head] at puts
  split_ifs at puts
  · exact whole.release.put holds puts
  · exact whole.put holds puts

/-- Heads that are put one after the other. -/
theorem Whole.foldlM {α : Type} (items : List α) (f : Writer → α → Option Writer)
    (each : ∀ item ∈ items, ∀ before after, Whole P size before → f before item = some after → Whole P size after)
    (whole : Whole P size this) (puts : items.foldlM f this = some next) : Whole P size next := by
  induction items generalizing this with
  | nil =>
    cases puts
    exact whole
  | cons item rest ih =>
    rw [List.foldlM_cons] at puts
    obtain ⟨middle, first, later⟩ := Option.bind_eq_some_iff.mp puts
    exact ih (fun other member => each other (List.mem_cons_of_mem _ member))
      (each item (List.mem_cons_self ..) _ _ whole first) later

end Writer

theorem putSegment_whole {size : ℕ} {kcp : Ikcpcb} {wnd : UInt32} {seg : IkcpSeg} {before after : Writer}
    (whole : before.Whole P size) (holds : kcp.need seg ≠ .no → P (kcp.resend wnd seg))
    (puts : kcp.putSegment wnd before seg = some after) : after.Whole P size := by
  unfold Ikcpcb.putSegment at puts
  dsimp only at puts
  split_ifs at puts with idle
  · cases puts
    exact whole
  · exact whole.release.put (holds idle) puts
  · exact whole.put (holds idle) puts

section Flush

variable {mine theirs delivered : List Piece} {received : ℕ → Prop} {got : ℕ} {kcp next : Ikcpcb}

/-- A header without data says what has been received. -/
theorem packet_head (receiver : Receiver theirs delivered got kcp) {cmd : UInt32} {ack : UInt32 × UInt32}
    (known : (kcp.head cmd ack).Known) (push : cmd ≠ cmdPush)
    (has : cmd = cmdAck → ∃ i < theirs.length, ack.1 = .ofNat i ∧ Received got kcp i) :
    Packet kcp.conv mine theirs got kcp (kcp.head cmd ack) where
  conv := rfl
  known := known
  proper := ⟨rfl, Nat.zero_lt_succ 255⟩
  push := fun same => absurd same push
  ack := has
  una := ⟨got, le_rfl, receiver.nxt⟩

/-- A segment of the buffer, as it is sent. -/
theorem packet_resend (sender : Sender mine received kcp) (receiver : Receiver theirs delivered got kcp)
    {seg : IkcpSeg} (member : seg ∈ kcp.sndBuf) (wnd : UInt32) (due : kcp.need seg ≠ .no) :
    Packet kcp.conv mine theirs got kcp (kcp.resend wnd seg) := by
  obtain ⟨conv, cmd⟩ := sender.head seg member
  obtain ⟨proper, i, carries⟩ := sender.buf seg member
  have same := same_resend kcp wnd seg
  have push : (kcp.resend wnd seg).cmd = cmdPush := same.cmd.trans cmd
  have una : (kcp.resend wnd seg).una = kcp.rcvNxt := by
    unfold Ikcpcb.resend
    cases need : kcp.need seg with
    | no => exact absurd need due
    | first => rfl
    | timeout => rfl
    | fast => rfl
  refine ⟨same.conv.trans conv, .inl push, same.proper proper, fun _ => ⟨i, same.carries carries⟩, ?_, ?_⟩
  · intro ack
    rw [push] at ack
    exact absurd ack (by decide)
  · exact ⟨got, le_rfl, una.trans receiver.nxt⟩

theorem putAcks_whole {writer : Writer} (receiver : Receiver theirs delivered got kcp)
    (puts : kcp.putAcks = some writer) :
    writer.Whole (Packet kcp.conv mine theirs got kcp) kcp.buffer := by
  refine Writer.Whole.foldlM _ _ ?_ (.empty _ _) puts
  intro ack member before after whole head
  exact whole.putHead (packet_head receiver (.inr (.inl rfl)) (by decide) fun _ => receiver.acks ack member) rfl head

theorem putProbe_whole {size : ℕ} {ask : Bool} {cmd : UInt32} {last : UInt32 × UInt32} {before after : Writer}
    (receiver : Receiver theirs delivered got kcp) (question : cmd = cmdWask ∨ cmd = cmdWins)
    (whole : before.Whole (Packet kcp.conv mine theirs got kcp) size)
    (puts : kcp.putProbe ask cmd last before = some after) :
    after.Whole (Packet kcp.conv mine theirs got kcp) size := by
  have other : cmd ≠ cmdPush ∧ cmd ≠ cmdAck := by
    rcases question with rfl | rfl <;> decide
  rw [Ikcpcb.putProbe] at puts
  split_ifs at puts
  · exact whole.putHead (packet_head receiver (.inr (.inr question)) other.1 fun ack => absurd ack other.2) rfl puts
  · cases puts
    exact whole

/-- Numbering the queue adds to the stream what leaves the queue. -/
theorem number_spec (sender : Sender mine received kcp) (receiver : Receiver theirs delivered got kcp) (wnd : UInt32) :
    ∃ moved, kcp.sndQueue.map piece = moved ++ (kcp.number wnd).sndQueue.map piece ∧
      Sender (mine ++ moved) received (kcp.number wnd) ∧ Receiver theirs delivered got (kcp.number wnd) ∧
      (kcp.number wnd).config = kcp.config ∧ (kcp.number wnd).rcvBuf = kcp.rcvBuf := by
  have asked : Sender mine received { kcp with askSend := false, askTell := false } := sender.congr rfl
  obtain ⟨moved, split, numbered⟩ := asked.advance kcp.window wnd
  have receiving := kcp.receiving_number wnd
  exact ⟨moved, split, numbered, receiver.congr receiving, kcp.config_number wnd,
    congrArg (fun receiving => receiving.2.2.2.1) receiving⟩

/-- What a flush does to a block, and what it outputs. -/
theorem flush_spec {output : List Bytes} (sender : Sender mine received kcp)
    (receiver : Receiver theirs delivered got kcp) (flushed : kcp.flush = some (output, next)) :
    ∃ moved, kcp.sndQueue.map piece = moved ++ next.sndQueue.map piece ∧
      Sender (mine ++ moved) received next ∧ Receiver theirs delivered got next ∧ next.config = kcp.config ∧
      next.rcvBuf = kcp.rcvBuf ∧ ∀ datagram ∈ output, datagram.length ≤ kcp.buffer ∧
        Made (Packet kcp.conv (mine ++ moved) theirs got next) datagram := by
  unfold Ikcpcb.flush at flushed
  split_ifs at flushed
  · simp only [bind, Option.bind_eq_some_iff, pure, Option.some.injEq, Prod.mk.injEq] at flushed
    obtain ⟨acked, acks, asked, asks, told, tells, written, writes, rfl, rfl⟩ := flushed
    generalize probes : Ikcpcb.probe { kcp with acklist := [] } = asking at asks tells writes ⊢
    have frame : asking.frame = ({ kcp with acklist := [] } : Ikcpcb).frame := probes ▸ Ikcpcb.frame_probe _
    have asker : Receiver theirs delivered got asking := by
      have cleared : Receiver theirs delivered got { kcp with acklist := [] } :=
        { receiver with acks := fun _ member => (List.not_mem_nil member).elim }
      exact cleared.congr (congrArg (fun frame => frame.2.2) frame)
    have sends : asking.sending = kcp.sending := congrArg (fun frame => frame.2.1) frame
    have queue : asking.sndQueue = kcp.sndQueue := congrArg (fun sending => sending.2.2.2.1) sends
    have config : asking.config = kcp.config := congrArg Prod.fst frame
    have buf : asking.rcvBuf = kcp.rcvBuf := congrArg (fun frame => frame.2.2.2.2.2.1) frame
    obtain ⟨moved, split, numbered, receives, configured, same⟩ := number_spec (sender.congr sends) asker kcp.wndUnused
    generalize asking.number kcp.wndUnused = number at writes split numbered receives configured same ⊢
    have asks_conv : asking.conv = kcp.conv := congrArg Prod.fst config
    have conv : number.conv = kcp.conv := congrArg Prod.fst (configured.trans config)
    have all : number.rcvBuf = kcp.rcvBuf := same.trans buf
    have after := number.frame_sent asking.window kcp.wndUnused
    have final : (number.sent asking.window kcp.wndUnused).rcvBuf = number.rcvBuf :=
      congrArg (fun frame => frame.2.2.2.2.2.1) after
    refine ⟨moved, ?_, ?_, ?_, ?_, final.trans all, ?_⟩
    · rw [← queue, split]
      congr 2
      exact (congrArg (fun frame => frame.2.1.2.2.2.1) after).symm
    · exact (numbered.resend number kcp.wndUnused).congr (congrArg (fun frame => frame.2.1) after)
    · exact receives.congr (congrArg (fun frame => frame.2.2) after)
    · exact (congrArg Prod.fst after).trans (configured.trans config)
    · have acked_whole : acked.Whole (Packet kcp.conv mine theirs got kcp) kcp.buffer := putAcks_whole receiver acks
      have first : asked.Whole (Packet kcp.conv mine theirs got asking) kcp.buffer := by
        rw [← asks_conv] at acked_whole ⊢
        exact putProbe_whole asker (.inl rfl) (acked_whole.imp fun seg packet => packet.later (.of_buf buf)) asks
      have second : told.Whole (Packet kcp.conv mine theirs got asking) kcp.buffer := by
        rw [← asks_conv] at first ⊢
        exact putProbe_whole asker (.inr rfl) first tells
      have third : told.Whole (Packet number.conv (mine ++ moved) theirs got number) kcp.buffer := by
        rw [conv]
        exact second.imp fun seg packet => (packet.grow moved).later (.of_buf same)
      have written_whole : written.Whole (Packet number.conv (mine ++ moved) theirs got number) kcp.buffer := by
        refine Writer.Whole.foldlM _ _ ?_ third writes
        intro seg member before after whole puts
        exact putSegment_whole whole (packet_resend numbered receives member kcp.wndUnused) puts
      intro datagram member
      obtain ⟨short, made⟩ := written_whole.release.output datagram member
      refine ⟨short, made.imp fun seg packet => ?_⟩
      rw [conv] at packet
      exact packet.later (.of_buf final)
  · cases flushed
    refine ⟨[], rfl, ?_, receiver, rfl, rfl, fun _ member => (List.not_mem_nil member).elim⟩
    rw [List.append_nil]
    exact sender

end Flush

end PolarCloud.Engine.Ikcp
