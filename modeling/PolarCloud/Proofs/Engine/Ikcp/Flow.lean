import Mathlib.Data.List.TakeWhile
import PolarCloud.Proofs.Engine.Ikcp.Steps

/-! # From one end to the other

Behind the numbers of one direction there is a stream of pieces: the piece with number `i` is the `i`-th that was
ever numbered. The sender's buffer, what is under way and the receiver's buffer hold pieces of the stream under their
numbers, and the receiver has got a front part of the stream. Nothing is forgotten before the receiver has it.
-/

namespace PolarCloud.Engine.Ikcp

open Fragments

abbrev Piece := ℕ × List UInt8

/-- How far numbers may grow while their differences tell which is ahead of which. -/
def most : ℕ := 2 ^ 30

namespace IkcpSeg

def piece (this : IkcpSeg) : Piece := (this.frg.toNat, this.data)

structure Proper (this : IkcpSeg) : Prop where
  sized : this.Sized
  small : this.frg.toNat < 256

structure Carries (stream : List Piece) (i : ℕ) (this : IkcpSeg) : Prop where
  sn : this.sn = .ofNat i
  piece : stream[i]? = some this.piece

variable {stream : List Piece} {i : ℕ} {seg old : IkcpSeg}

theorem Same.piece (same : seg.Same old) : seg.piece = old.piece := by
  rw [IkcpSeg.piece, IkcpSeg.piece, same.frg, same.data]

theorem Same.proper (same : seg.Same old) (proper : old.Proper) : seg.Proper :=
  ⟨by rw [Sized, same.data, same.len]; exact proper.sized, by rw [same.frg]; exact proper.small⟩

theorem Same.carries (same : seg.Same old) (carries : old.Carries stream i) : seg.Carries stream i :=
  ⟨same.sn.trans carries.sn, by rw [same.piece]; exact carries.piece⟩

theorem Carries.lt (carries : seg.Carries stream i) : i < stream.length := by
  by_contra beyond
  have none := carries.piece
  rw [List.getElem?_eq_none (Nat.le_of_not_lt beyond)] at none
  cases none

theorem Carries.extend (carries : seg.Carries stream i) (more : List Piece) : seg.Carries (stream ++ more) i :=
  ⟨carries.sn, by rw [List.getElem?_append_left carries.lt]; exact carries.piece⟩

end IkcpSeg

open IkcpSeg

/-- The receiver has a number: in its queue or handed out, or in its buffer. -/
def Received (got : ℕ) (kcp : Ikcpcb) (i : ℕ) : Prop := i < got ∨ ∃ seg ∈ kcp.rcvBuf, seg.sn = .ofNat i

/-- The sender's part of a block. -/
structure Sender (stream : List Piece) (received : ℕ → Prop) (kcp : Ikcpcb) : Prop where
  nxt : kcp.sndNxt = .ofNat stream.length
  head : ∀ seg ∈ kcp.sndBuf, seg.conv = kcp.conv ∧ seg.cmd = cmdPush
  buf : ∀ seg ∈ kcp.sndBuf, seg.Proper ∧ ∃ i, seg.Carries stream i
  queue : ∀ seg ∈ kcp.sndQueue, seg.Proper
  kept : ∀ i < stream.length, (∃ seg ∈ kcp.sndBuf, seg.sn = .ofNat i) ∨ received i
  few : kcp.sndBuf.length ≤ stream.length
  nbuf : kcp.nsndBuf = .ofNat kcp.sndBuf.length
  nque : kcp.nsndQue = .ofNat kcp.sndQueue.length

/-- The receiver's part of a block, when it has handed out some pieces. -/
structure Receiver (stream delivered : List Piece) (got : ℕ) (kcp : Ikcpcb) : Prop where
  nxt : kcp.rcvNxt = .ofNat got
  le : got ≤ stream.length
  taken : delivered ++ kcp.rcvQueue.map IkcpSeg.piece = stream.take got
  queue : ∀ seg ∈ kcp.rcvQueue, seg.Proper
  que : kcp.nrcvQue = .ofNat kcp.rcvQueue.length
  buf : ∀ seg ∈ kcp.rcvBuf, seg.Proper ∧ ∃ i, seg.Carries stream i
  acks : ∀ ack ∈ kcp.acklist, ∃ i < stream.length, ack.1 = .ofNat i ∧ Received got kcp i

section Sending

variable {stream : List Piece} {received received' : ℕ → Prop} {kcp kcp' : Ikcpcb}

/-- A counter from which what has left is taken off. -/
theorem ofNat_sub_sub {old new : ℕ} (less : new ≤ old) : UInt32.ofNat old - .ofNat (old - new) = .ofNat new := by
  obtain ⟨gone, rfl⟩ := Nat.exists_eq_add_of_le less
  rw [Nat.add_sub_cancel_left, UInt32.ofNat_add, UInt32.add_sub_cancel]

theorem Sender.congr (sender : Sender stream received kcp) (same : kcp'.sending = kcp.sending) :
    Sender stream received kcp' := by
  simp only [Ikcpcb.sending, Prod.mk.injEq] at same
  obtain ⟨conv, nxt, buf, queue, nbuf, nque⟩ := same
  refine ⟨nxt.trans sender.nxt, ?_, ?_, ?_, ?_, ?_, ?_, ?_⟩
  · rw [buf, conv]
    exact sender.head
  · rw [buf]
    exact sender.buf
  · rw [queue]
    exact sender.queue
  · rw [buf]
    exact sender.kept
  · rw [buf]
    exact sender.few
  · rw [nbuf, buf]
    exact sender.nbuf
  · rw [nque, queue]
    exact sender.nque

theorem Sender.mono (sender : Sender stream received kcp) (more : ∀ i < stream.length, received i → received' i) :
    Sender stream received' kcp :=
  { sender with kept := fun i small => (sender.kept i small).imp_right (more i small) }

/-- Numbers below one that the receiver waits for need not be kept. -/
theorem Sender.parseUna (sender : Sender stream received kcp) {u : ℕ} (before : ∀ i < u, received i)
    (small : u ≤ most) (few : stream.length ≤ most) : Sender stream received (kcp.parseUna (.ofNat u)) where
  nxt := sender.nxt
  head := fun seg member => sender.head seg ((List.dropWhile_sublist _).subset member)
  buf := fun seg member => sender.buf seg ((List.dropWhile_sublist _).subset member)
  queue := sender.queue
  kept := by
    intro i inside
    rcases sender.kept i inside with ⟨seg, member, sn⟩ | got
    · rw [← List.takeWhile_append_dropWhile (p := fun seg => 0 < itimediff (.ofNat u) seg.sn) (l := kcp.sndBuf),
        List.mem_append] at member
      rcases member with gone | stays
      · have passed := List.mem_takeWhile_imp gone
        have ahead : 0 < Serial.diff (.ofNat u) (.ofNat i) := sn ▸ of_decide_eq_true passed
        rw [Serial.diff_ofNat (by unfold most at small; omega) (by unfold most at few; omega)] at ahead
        exact .inr (before i (by omega))
      · exact .inl ⟨seg, stays, sn⟩
    · exact .inr got
  few := (List.dropWhile_sublist _).length_le.trans sender.few
  nbuf := by
    change kcp.nsndBuf - _ = _
    rw [sender.nbuf, ofNat_sub_sub (List.dropWhile_sublist _).length_le]
    rfl
  nque := sender.nque

theorem Sender.shrinkBuf (sender : Sender stream received kcp) : Sender stream received kcp.shrinkBuf :=
  sender.congr rfl

/-- A number that the receiver has need not be kept. -/
theorem Sender.parseAck (sender : Sender stream received kcp) {i : ℕ} (has : received i) (inside : i < stream.length)
    (few : stream.length ≤ most) : Sender stream received (kcp.parseAck (.ofNat i)) := by
  rw [Ikcpcb.parseAck]
  split_ifs
  · exact sender
  · refine ⟨sender.nxt, ?_, ?_, sender.queue, ?_, (Ikcpcb.length_removeAcked _ _).trans sender.few, ?_, sender.nque⟩
    · intro seg member
      obtain ⟨old, found, same⟩ := Ikcpcb.mem_removeAcked member
      rw [same.conv, same.cmd]
      exact sender.head old found
    · intro seg member
      obtain ⟨old, found, same⟩ := Ikcpcb.mem_removeAcked member
      obtain ⟨proper, j, carries⟩ := sender.buf old found
      exact ⟨same.proper proper, j, same.carries carries⟩
    · intro j small
      rcases sender.kept j small with ⟨seg, member, sn⟩ | got
      · rcases eq_or_ne j i with rfl | other
        · exact .inr has
        · refine .inl ?_
          have differs : seg.sn ≠ .ofNat i := by
            rw [sn, Ne, Serial.ofNat_inj (by unfold most at few; omega) (by unfold most at few; omega)]
            exact other
          obtain ⟨stays, found, equal⟩ := Ikcpcb.kept_removeAcked member differs
          exact ⟨stays, found, equal.trans sn⟩
      · exact .inr got
    · change kcp.nsndBuf - _ = _
      rw [sender.nbuf, ofNat_sub_sub (Ikcpcb.length_removeAcked _ _)]

/-- Segments that are sent again are the segments that were there. -/
theorem same_resend (kcp : Ikcpcb) (wnd : UInt32) (seg : IkcpSeg) : (kcp.resend wnd seg).Same seg := by
  rw [Ikcpcb.resend]
  split <;> exact ⟨rfl, rfl, rfl, rfl, rfl, rfl⟩

theorem Sender.resend (sender : Sender stream received kcp) (other : Ikcpcb) (wnd : UInt32) :
    Sender stream received { kcp with sndBuf := kcp.sndBuf.map (other.resend wnd) } where
  nxt := sender.nxt
  head := by
    intro seg member
    obtain ⟨old, found, rfl⟩ := List.mem_map.mp member
    have same := same_resend other wnd old
    rw [same.conv, same.cmd]
    exact sender.head old found
  buf := by
    intro seg member
    obtain ⟨old, found, rfl⟩ := List.mem_map.mp member
    obtain ⟨proper, i, carries⟩ := sender.buf old found
    have same := same_resend other wnd old
    exact ⟨same.proper proper, i, same.carries carries⟩
  queue := sender.queue
  kept := by
    intro i inside
    rcases sender.kept i inside with ⟨seg, member, sn⟩ | got
    · exact .inl ⟨_, List.mem_map_of_mem member, (same_resend other wnd seg).sn.trans sn⟩
    · exact .inr got
  few := (List.length_map ..).trans_le sender.few
  nbuf := sender.nbuf.trans (by rw [List.length_map])
  nque := sender.nque

/-- Segments that leave the queue get the next numbers of the stream. -/
theorem Sender.moveQueue (cwnd wnd : UInt32) {queue : List IkcpSeg}
    (sender : Sender stream received { kcp with sndQueue := queue }) :
    ∃ moved, queue.map IkcpSeg.piece =
        moved ++ (Ikcpcb.moveQueue cwnd wnd queue kcp).sndQueue.map IkcpSeg.piece ∧
      Sender (stream ++ moved) received (Ikcpcb.moveQueue cwnd wnd queue kcp) := by
  induction queue generalizing stream kcp with
  | nil => exact ⟨[], rfl, (List.append_nil stream).symm ▸ sender⟩
  | cons newseg rest ih =>
    rw [Ikcpcb.moveQueue]
    split_ifs with full
    · exact ⟨[], rfl, (List.append_nil stream).symm ▸ sender⟩
    · have nxt : kcp.sndNxt = .ofNat stream.length := sender.nxt
      have proper := sender.queue newseg (List.mem_cons_self ..)
      generalize moves : ({ kcp with
          sndBuf := kcp.sndBuf ++ [{ newseg with
            conv := kcp.conv
            cmd := cmdPush
            wnd
            ts := kcp.current
            sn := kcp.sndNxt
            una := kcp.rcvNxt
            resendts := kcp.current
            rto := kcp.rxRto
            fastack := 0
            xmit := 0 }]
          nsndQue := kcp.nsndQue - 1
          nsndBuf := kcp.nsndBuf + 1
          sndNxt := kcp.sndNxt + 1 } : Ikcpcb) = next
      have step : Sender (stream ++ [newseg.piece]) received { next with sndQueue := rest } := by
        subst moves
        refine ⟨?_, ?_, ?_, ?_, ?_, ?_, ?_, ?_⟩
        · change kcp.sndNxt + 1 = _
          rw [nxt, Serial.ofNat_succ, List.length_append, List.length_singleton]
        · intro seg member
          rcases List.mem_append.mp member with old | new
          · exact sender.head seg old
          · rw [List.mem_singleton.mp new]
            exact ⟨rfl, rfl⟩
        · intro seg member
          rcases List.mem_append.mp member with old | new
          · obtain ⟨kept, i, carries⟩ := sender.buf seg old
            exact ⟨kept, i, carries.extend _⟩
          · rw [List.mem_singleton.mp new]
            refine ⟨⟨proper.sized, proper.small⟩, stream.length, nxt, ?_⟩
            exact List.getElem?_concat_length
        · intro seg member
          exact sender.queue seg (List.mem_cons_of_mem _ member)
        · intro i inside
          rw [List.length_append, List.length_singleton] at inside
          rcases Nat.lt_succ_iff_lt_or_eq.mp inside with old | rfl
          · rcases sender.kept i old with ⟨seg, member, sn⟩ | got
            · exact .inl ⟨seg, List.mem_append_left _ member, sn⟩
            · exact .inr got
          · exact .inl ⟨_, List.mem_append_right _ (List.mem_singleton_self _), nxt⟩
        · have few : kcp.sndBuf.length ≤ stream.length := sender.few
          rw [List.length_append, List.length_append]
          exact Nat.succ_le_succ few
        · have nbuf : kcp.nsndBuf = .ofNat kcp.sndBuf.length := sender.nbuf
          change kcp.nsndBuf + 1 = _
          rw [nbuf, Serial.ofNat_succ, List.length_append, List.length_singleton]
        · have nque : kcp.nsndQue = .ofNat (rest.length + 1) := sender.nque
          change kcp.nsndQue - 1 = .ofNat rest.length
          rw [nque, ← Serial.ofNat_succ, UInt32.add_sub_cancel]
      obtain ⟨moved, pieces, after⟩ := @ih (stream ++ [newseg.piece]) next step
      refine ⟨newseg.piece :: moved, by rw [List.map_cons, pieces, List.cons_append], ?_⟩
      rw [List.append_cons]
      exact after

theorem Sender.advance (cwnd wnd : UInt32) (sender : Sender stream received kcp) :
    ∃ moved, kcp.sndQueue.map IkcpSeg.piece =
        moved ++ (Ikcpcb.moveQueue cwnd wnd kcp.sndQueue kcp).sndQueue.map IkcpSeg.piece ∧
      Sender (stream ++ moved) received (Ikcpcb.moveQueue cwnd wnd kcp.sndQueue kcp) :=
  @Sender.moveQueue stream received kcp cwnd wnd kcp.sndQueue sender

end Sending

section Receiving

variable {stream delivered : List Piece} {got : ℕ} {kcp kcp' : Ikcpcb}

theorem Receiver.congr (receiver : Receiver stream delivered got kcp) (same : kcp'.receiving = kcp.receiving) :
    Receiver stream delivered got kcp' := by
  simp only [Ikcpcb.receiving, Prod.mk.injEq] at same
  obtain ⟨nxt, queue, que, buf, acks, -⟩ := same
  refine ⟨nxt.trans receiver.nxt, receiver.le, ?_, ?_, ?_, ?_, ?_⟩
  · rw [queue]
    exact receiver.taken
  · rw [queue]
    exact receiver.queue
  · rw [que, queue]
    exact receiver.que
  · rw [buf]
    exact receiver.buf
  · rw [acks]
    unfold Received
    rw [buf]
    exact receiver.acks

/-- The stream may grow behind what the receiver has. -/
theorem Receiver.extend (receiver : Receiver stream delivered got kcp) (more : List Piece) :
    Receiver (stream ++ more) delivered got kcp where
  nxt := receiver.nxt
  le := by
    rw [List.length_append]
    exact receiver.le.trans (Nat.le_add_right ..)
  taken := by rw [receiver.taken, List.take_append_of_le_length receiver.le]
  queue := receiver.queue
  que := receiver.que
  buf := by
    intro seg member
    obtain ⟨proper, i, carries⟩ := receiver.buf seg member
    exact ⟨proper, i, carries.extend more⟩
  acks := by
    intro ack member
    obtain ⟨i, inside, sn, has⟩ := receiver.acks ack member
    exact ⟨i, by rw [List.length_append]; omega, sn, has⟩

/-- What the receiver has, it has after a step as well. -/
def Keeps (stream : List Piece) (got got' : ℕ) (kcp kcp' : Ikcpcb) : Prop :=
  got ≤ got' ∧ ∀ i < stream.length, Received got kcp i → Received got' kcp' i

theorem Keeps.refl (stream : List Piece) (got : ℕ) (kcp : Ikcpcb) : Keeps stream got got kcp kcp :=
  ⟨le_rfl, fun _ _ has => has⟩

theorem Keeps.of_buf {stream : List Piece} {got : ℕ} {kcp kcp' : Ikcpcb} (buf : kcp'.rcvBuf = kcp.rcvBuf) :
    Keeps stream got got kcp kcp' :=
  ⟨le_rfl, fun _ _ has => by rw [Received, buf]; exact has⟩

theorem Keeps.trans {stream : List Piece} {got₁ got₂ got₃ : ℕ} {kcp₁ kcp₂ kcp₃ : Ikcpcb}
    (first : Keeps stream got₁ got₂ kcp₁ kcp₂) (second : Keeps stream got₂ got₃ kcp₂ kcp₃) :
    Keeps stream got₁ got₃ kcp₁ kcp₃ :=
  ⟨first.1.trans second.1, fun i inside has => second.2 i inside (first.2 i inside has)⟩

/-- A segment with the next number is the next piece. -/
theorem Receiver.take_next (receiver : Receiver stream delivered got kcp) (few : stream.length ≤ most)
    {seg : IkcpSeg} (sn : seg.sn = kcp.rcvNxt) {i : ℕ} (carries : seg.Carries stream i) :
    i = got ∧ delivered ++ (kcp.rcvQueue ++ [seg]).map IkcpSeg.piece = stream.take (got + 1) := by
  have inside := carries.lt
  have small := receiver.le
  have number : UInt32.ofNat i = .ofNat got := by rw [← carries.sn, sn, receiver.nxt]
  obtain rfl := (Serial.ofNat_inj (by unfold most at few; omega) (by unfold most at few; omega)).mp number
  refine ⟨rfl, ?_⟩
  rw [List.map_append, ← List.append_assoc, receiver.taken, List.map_singleton, List.take_add_one, carries.piece]
  rfl

/-- Segments that move to the queue are the next ones of the stream. -/
theorem Receiver.moveAvailable (few : stream.length ≤ most) {buf : List IkcpSeg}
    (receiver : Receiver stream delivered got { kcp with rcvBuf := buf }) :
    ∃ got', Receiver stream delivered got' (Ikcpcb.moveAvailable buf kcp) ∧
      Keeps stream got got' { kcp with rcvBuf := buf } (Ikcpcb.moveAvailable buf kcp) := by
  induction buf generalizing got kcp with
  | nil => exact ⟨got, receiver, .refl _ _ _⟩
  | cons seg rest ih =>
    rw [Ikcpcb.moveAvailable]
    split_ifs with next
    · obtain ⟨-, i, carries⟩ := receiver.buf seg (List.mem_cons_self ..)
      obtain ⟨rfl, taken⟩ := receiver.take_next few next.1 carries
      have inside := carries.lt
      generalize moves : ({ kcp with
          nrcvBuf := kcp.nrcvBuf - 1
          rcvQueue := kcp.rcvQueue ++ [seg]
          nrcvQue := kcp.nrcvQue + 1
          rcvNxt := kcp.rcvNxt + 1 } : Ikcpcb) = moved
      have keeps : Keeps stream i (i + 1) { kcp with rcvBuf := seg :: rest } { moved with rcvBuf := rest } := by
        refine ⟨Nat.le_succ i, ?_⟩
        rintro j small (less | ⟨other, member, sn⟩)
        · exact .inl (Nat.lt_succ_of_lt less)
        · rcases List.mem_cons.mp member with rfl | member
          · rw [carries.sn, Serial.ofNat_inj (by unfold most at few; omega) (by unfold most at few; omega)] at sn
            exact .inl (by omega)
          · exact .inr ⟨other, member, sn⟩
      have step : Receiver stream delivered (i + 1) { moved with rcvBuf := rest } := by
        refine ⟨?_, inside, ?_, ?_, ?_, ?_, ?_⟩
        · subst moves
          change kcp.rcvNxt + 1 = _
          have nxt : kcp.rcvNxt = .ofNat i := receiver.nxt
          rw [nxt, Serial.ofNat_succ]
        · subst moves
          exact taken
        · subst moves
          intro other member
          rcases List.mem_append.mp member with old | new
          · exact receiver.queue other old
          · rw [List.mem_singleton.mp new]
            exact (receiver.buf seg (List.mem_cons_self ..)).1
        · subst moves
          change kcp.nrcvQue + 1 = .ofNat (kcp.rcvQueue ++ [seg]).length
          have que : kcp.nrcvQue = .ofNat kcp.rcvQueue.length := receiver.que
          rw [que, Serial.ofNat_succ, List.length_append, List.length_singleton]
        · intro other member
          exact receiver.buf other (List.mem_cons_of_mem _ member)
        · subst moves
          intro ack member
          obtain ⟨j, small, sn, has⟩ := receiver.acks ack member
          exact ⟨j, small, sn, keeps.2 j small has⟩
      obtain ⟨got', after, later⟩ := @ih (i + 1) moved step
      exact ⟨got', after, keeps.trans later⟩
    · exact ⟨got, receiver, .refl _ _ _⟩

theorem Receiver.advance (receiver : Receiver stream delivered got kcp) (few : stream.length ≤ most) :
    ∃ got', Receiver stream delivered got' (Ikcpcb.moveAvailable kcp.rcvBuf kcp) ∧
      Keeps stream got got' kcp (Ikcpcb.moveAvailable kcp.rcvBuf kcp) :=
  @Receiver.moveAvailable stream delivered got kcp few kcp.rcvBuf receiver

/-- An acknowledgement for what the receiver has, and perhaps a segment more in the buffer. -/
theorem Receiver.store (receiver : Receiver stream delivered got kcp) {buf : List IkcpSeg} (nrcvBuf ts : UInt32)
    (known : ∀ seg ∈ buf, seg.Proper ∧ ∃ i, seg.Carries stream i)
    (keeps : Keeps stream got got kcp { kcp with rcvBuf := buf }) {i : ℕ} (inside : i < stream.length)
    (has : Received got { kcp with rcvBuf := buf } i) :
    Receiver stream delivered got
      { kcp with rcvBuf := buf, nrcvBuf, acklist := kcp.acklist ++ [(.ofNat i, ts)] } where
  nxt := receiver.nxt
  le := receiver.le
  taken := receiver.taken
  queue := receiver.queue
  que := receiver.que
  buf := known
  acks := by
    intro ack member
    rcases List.mem_append.mp member with old | new
    · obtain ⟨j, small, sn, had⟩ := receiver.acks ack old
      exact ⟨j, small, sn, keeps.2 j small had⟩
    · rw [List.mem_singleton.mp new]
      exact ⟨i, inside, rfl, has⟩

/-- What becomes of a segment that is not beyond the window. -/
def pushed (kcp : Ikcpcb) (seg : IkcpSeg) : Ikcpcb :=
  if 0 ≤ itimediff seg.sn kcp.rcvNxt then (kcp.ackPush seg.sn seg.ts).parseData seg else kcp.ackPush seg.sn seg.ts

/-- A segment that arrives under its number is acknowledged, and the receiver has it from then on. -/
theorem Receiver.push (receiver : Receiver stream delivered got kcp) (few : stream.length ≤ most)
    {seg : IkcpSeg} (proper : seg.Proper) {i : ℕ} (carries : seg.Carries stream i)
    (below : itimediff seg.sn (kcp.rcvNxt + kcp.rcvWnd) < 0) :
    ∃ got', Receiver stream delivered got' (pushed kcp seg) ∧ Keeps stream got got' kcp (pushed kcp seg) := by
  have inside := carries.lt
  have le := receiver.le
  have gap : itimediff seg.sn kcp.rcvNxt = (i : ℤ) - got := by
    rw [itimediff, carries.sn, receiver.nxt]
    exact Serial.diff_ofNat (by unfold most at few; omega) (by unfold most at few; omega)
  rw [pushed]
  split_ifs with ahead
  · rw [Ikcpcb.parseData, if_neg]
    · cases inserted : Ikcpcb.insertBack seg kcp.rcvBuf.reverse with
      | none =>
        obtain ⟨old, member, same⟩ := Ikcpcb.insertBack_none inserted
        have stored := receiver.store kcp.nrcvBuf seg.ts receiver.buf (.refl _ _ _) inside
          (.inr ⟨old, List.mem_reverse.mp member, same.trans carries.sn⟩)
        rw [← carries.sn] at stored
        simp only [Ikcpcb.ackPush, inserted]
        exact stored.advance few
      | some back =>
        have perm := Ikcpcb.insertBack_perm inserted
        have mem (other : IkcpSeg) : other ∈ back.reverse ↔ other = seg ∨ other ∈ kcp.rcvBuf := by
          rw [List.mem_reverse, perm.mem_iff, List.mem_cons, List.mem_reverse]
        have keeps : Keeps stream got got kcp { kcp with rcvBuf := back.reverse } := by
          refine ⟨le_rfl, ?_⟩
          rintro j - (less | ⟨other, member, sn⟩)
          · exact .inl less
          · exact .inr ⟨other, (mem other).mpr (.inr member), sn⟩
        have known : ∀ other ∈ back.reverse, other.Proper ∧ ∃ j, other.Carries stream j := by
          intro other member
          rcases (mem other).mp member with rfl | member
          · exact ⟨proper, i, carries⟩
          · exact receiver.buf other member
        have stored := receiver.store (kcp.nrcvBuf + 1) seg.ts known keeps inside
          (.inr ⟨seg, (mem seg).mpr (.inl rfl), carries.sn⟩)
        rw [← carries.sn] at stored
        obtain ⟨got', after, later⟩ := stored.advance few
        simp only [Ikcpcb.ackPush, inserted]
        exact ⟨got', after, keeps.trans later⟩
    · rintro (beyond | behind)
      · exact absurd below (not_lt.mpr beyond)
      · exact absurd ahead (not_le.mpr behind)
  · refine ⟨got, ?_, .of_buf rfl⟩
    have stored := receiver.store kcp.nrcvBuf seg.ts receiver.buf (.refl _ _ _) inside (.inl (by omega))
    rw [← carries.sn] at stored
    exact stored

end Receiving

end PolarCloud.Engine.Ikcp
