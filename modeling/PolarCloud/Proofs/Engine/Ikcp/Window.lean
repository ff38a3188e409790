import Mathlib.Data.List.Range
import PolarCloud.Proofs.Engine.Ikcp.Link

/-! # What a receiver keeps

Whatever bytes arrive, a block keeps at most as many segments in its buffer, and at most as many in its queue, as the
largest window it ever had; the buffer is sorted, without a number twice; and the counters say how many there are.
-/

namespace PolarCloud.Engine.Ikcp

open IkcpSeg

/-- The place of a segment behind the next number. -/
def place (nxt : UInt32) (seg : IkcpSeg) : ℕ := Serial.ahead seg.sn nxt

/-- The part of a block that keeps what arrives. -/
structure Holding (window size : ℕ) (kcp : Ikcpcb) : Prop where
  wnd : kcp.rcvWnd.toNat ≤ window
  que : kcp.nrcvQue = .ofNat kcp.rcvQueue.length
  queue : kcp.rcvQueue.length ≤ window
  nbuf : kcp.nrcvBuf = .ofNat kcp.rcvBuf.length
  sorted : kcp.rcvBuf.Pairwise fun seg other => place kcp.rcvNxt seg < place kcp.rcvNxt other
  near : ∀ seg ∈ kcp.rcvBuf, place kcp.rcvNxt seg < window
  sized : ∀ seg ∈ kcp.rcvQueue ++ kcp.rcvBuf, seg.Sized ∧ seg.data.length ≤ size

section Holding

variable {window size : ℕ} {kcp kcp' : Ikcpcb}

theorem holding_create (number : UInt32) (large : 32 ≤ window) : Holding window size (create number) :=
  ⟨large, rfl, Nat.zero_le _, rfl, .nil, fun _ member => (List.not_mem_nil member).elim,
    fun _ member => (List.not_mem_nil member).elim⟩

theorem Holding.congr (holding : Holding window size kcp) (wnd : kcp'.rcvWnd = kcp.rcvWnd)
    (same : kcp'.receiving = kcp.receiving) : Holding window size kcp' := by
  simp only [Ikcpcb.receiving, Prod.mk.injEq] at same
  obtain ⟨nxt, queue, que, buf, -, nbuf⟩ := same
  refine ⟨wnd ▸ holding.wnd, ?_, ?_, ?_, ?_, ?_, ?_⟩
  · rw [que, queue]
    exact holding.que
  · rw [queue]
    exact holding.queue
  · rw [nbuf, buf]
    exact holding.nbuf
  · rw [buf, nxt]
    exact holding.sorted
  · rw [buf, nxt]
    exact holding.near
  · rw [queue, buf]
    exact holding.sized

theorem Holding.frame (holding : Holding window size kcp) (frame : kcp'.frame = kcp.frame) : Holding window size kcp' :=
  holding.congr (congrArg (fun frame => frame.1.2.2.2.1) frame) (congrArg (fun frame => frame.2.2) frame)

/-- No number is there twice, and all are in the window. -/
theorem Holding.length_le (holding : Holding window size kcp) : kcp.rcvBuf.length ≤ window := by
  have distinct : (kcp.rcvBuf.map (place kcp.rcvNxt)).Nodup :=
    List.pairwise_map.mpr (holding.sorted.imp fun less => less.ne)
  have inside : kcp.rcvBuf.map (place kcp.rcvNxt) ⊆ List.range window := by
    intro i member
    obtain ⟨seg, found, rfl⟩ := List.mem_map.mp member
    exact List.mem_range.mpr (holding.near seg found)
  have length := (List.subperm_of_subset distinct inside).length_le
  rwa [List.length_map, List.length_range] at length

/-- The segments that are next move to the queue while it has room. -/
theorem Holding.moveAvailable (small : window < 2 ^ 31) {buf : List IkcpSeg}
    (holding : Holding window size { kcp with rcvBuf := buf }) :
    Holding window size (Ikcpcb.moveAvailable buf kcp) := by
  induction buf generalizing kcp with
  | nil => exact holding
  | cons seg rest ih =>
    rw [Ikcpcb.moveAvailable]
    split_ifs with next
    · generalize moves : ({ kcp with
          nrcvBuf := kcp.nrcvBuf - 1
          rcvQueue := kcp.rcvQueue ++ [seg]
          nrcvQue := kcp.nrcvQue + 1
          rcvNxt := kcp.rcvNxt + 1 } : Ikcpcb) = moved
      obtain ⟨first, sorted⟩ := List.pairwise_cons.mp holding.sorted
      have que : kcp.nrcvQue = .ofNat kcp.rcvQueue.length := holding.que
      have queue : kcp.rcvQueue.length ≤ window := holding.queue
      have wnd : kcp.rcvWnd.toNat ≤ window := holding.wnd
      have nbuf : kcp.nrcvBuf = .ofNat (rest.length + 1) := holding.nbuf
      have room : kcp.rcvQueue.length < kcp.rcvWnd.toNat := by
        have less := UInt32.lt_iff_toNat_lt.mp next.2
        rwa [que, Serial.toNat_ofNat_of_lt (by omega)] at less
      have behind : ∀ other ∈ rest, place (kcp.rcvNxt + 1) other + 1 = place kcp.rcvNxt other := by
        intro other member
        have less : 0 < place kcp.rcvNxt other := Nat.zero_lt_of_lt (first other member)
        rw [place, Serial.ahead_succ less]
        exact Nat.sub_add_cancel less
      apply ih
      subst moves
      refine ⟨wnd, ?_, ?_, ?_, ?_, ?_, ?_⟩
      · change kcp.nrcvQue + 1 = .ofNat (kcp.rcvQueue ++ [seg]).length
        rw [que, Serial.ofNat_succ, List.length_append, List.length_singleton]
      · change (kcp.rcvQueue ++ [seg]).length ≤ window
        rw [List.length_append, List.length_singleton]
        omega
      · change kcp.nrcvBuf - 1 = .ofNat rest.length
        rw [nbuf, ← Serial.ofNat_succ, UInt32.add_sub_cancel]
      · refine sorted.imp_of_mem ?_
        intro one other memberOne memberOther less
        have less : place kcp.rcvNxt one < place kcp.rcvNxt other := less
        have one_behind := behind one memberOne
        have other_behind := behind other memberOther
        change place (kcp.rcvNxt + 1) one < place (kcp.rcvNxt + 1) other
        omega
      · intro other member
        have near : place kcp.rcvNxt other < window := holding.near other (List.mem_cons_of_mem _ member)
        have other_behind := behind other member
        change place (kcp.rcvNxt + 1) other < window
        omega
      · intro other member
        apply holding.sized
        rw [List.append_assoc] at member
        exact member
    · exact holding

theorem Holding.advance (holding : Holding window size kcp) (small : window < 2 ^ 31) :
    Holding window size (Ikcpcb.moveAvailable kcp.rcvBuf kcp) :=
  @Holding.moveAvailable window size kcp small kcp.rcvBuf holding

/-- A segment gets its place in a sorted list that is read from the end. -/
theorem sorted_insertBack {nxt : UInt32} {seg : IkcpSeg} {back placed : List IkcpSeg}
    (seg_near : place nxt seg < 2 ^ 31) (near : ∀ other ∈ back, place nxt other < 2 ^ 31)
    (sorted : back.Pairwise fun one other => place nxt other < place nxt one)
    (inserted : Ikcpcb.insertBack seg back = some placed) :
    placed.Pairwise fun one other => place nxt other < place nxt one := by
  induction back generalizing placed with
  | nil =>
    cases inserted
    exact List.pairwise_singleton _ _
  | cons last rest ih =>
    obtain ⟨first, sorted_rest⟩ := List.pairwise_cons.mp sorted
    have last_near := near last (List.mem_cons_self ..)
    have gap : itimediff seg.sn last.sn = (place nxt seg : ℤ) - place nxt last :=
      Serial.diff_of_ahead seg_near last_near
    rw [Ikcpcb.insertBack] at inserted
    split_ifs at inserted with same later
    · cases inserted
      refine List.pairwise_cons.mpr ⟨?_, sorted⟩
      intro other member
      rcases List.mem_cons.mp member with rfl | member
      · omega
      · have less := first other member
        omega
    · obtain ⟨placed', later', rfl⟩ := Option.map_eq_some_iff.mp inserted
      refine List.pairwise_cons.mpr ⟨?_, ih (fun other member => near other (List.mem_cons_of_mem _ member))
        sorted_rest later'⟩
      intro other member
      rcases List.mem_cons.mp ((Ikcpcb.insertBack_perm later').mem_iff.mp member) with rfl | member
      · have apart : place nxt last ≠ place nxt other := fun equal => same (Serial.ahead_inj.mp equal)
        omega
      · exact first other member

/-- What arrives is kept only within the window. -/
theorem Holding.parseData (holding : Holding window size kcp) (small : window < 2 ^ 31) {seg : IkcpSeg}
    (sized : seg.Sized ∧ seg.data.length ≤ size) : Holding window size (kcp.parseData seg) := by
  have wnd := holding.wnd
  rw [Ikcpcb.parseData]
  split_ifs with outside
  · exact holding
  · obtain ⟨below, ahead⟩ := not_or.mp outside
    have seg_near : place kcp.rcvNxt seg < 2 ^ 31 := by
      rw [itimediff, Serial.diff_eq] at ahead
      split_ifs at ahead with near
      · exact near
      · have less := (seg.sn - kcp.rcvNxt).toNat_lt
        exact absurd (by unfold Serial.ahead; omega) ahead
    have inside : place kcp.rcvNxt seg < kcp.rcvWnd.toNat := by
      have edge : Serial.ahead (kcp.rcvNxt + kcp.rcvWnd) kcp.rcvNxt < 2 ^ 31 := by
        rw [Serial.ahead_add]
        omega
      rw [itimediff, Serial.diff_of_ahead seg_near edge, Serial.ahead_add] at below
      rw [place]
      omega
    cases inserted : Ikcpcb.insertBack seg kcp.rcvBuf.reverse with
    | none => exact holding.advance small
    | some back =>
      have perm := Ikcpcb.insertBack_perm inserted
      have mem (other : IkcpSeg) : other ∈ back.reverse ↔ other = seg ∨ other ∈ kcp.rcvBuf := by
        rw [List.mem_reverse, perm.mem_iff, List.mem_cons, List.mem_reverse]
      have back_sorted := sorted_insertBack seg_near
        (fun other member => (holding.near other (List.mem_reverse.mp member)).trans small)
        (List.pairwise_reverse.mpr holding.sorted) inserted
      have stored : Holding window size { kcp with rcvBuf := back.reverse, nrcvBuf := kcp.nrcvBuf + 1 } := by
        refine ⟨holding.wnd, holding.que, holding.queue, ?_, List.pairwise_reverse.mpr back_sorted, ?_, ?_⟩
        · change kcp.nrcvBuf + 1 = .ofNat back.reverse.length
          rw [holding.nbuf, Serial.ofNat_succ, List.length_reverse, perm.length_eq, List.length_cons,
            List.length_reverse]
        · intro other member
          rcases (mem other).mp member with rfl | member
          · exact inside.trans_le wnd
          · exact holding.near other member
        · intro other member
          rcases List.mem_append.mp member with queued | member
          · exact holding.sized other (List.mem_append_left _ queued)
          · rcases (mem other).mp member with rfl | member
            · exact sized
            · exact holding.sized other (List.mem_append_right _ member)
      exact stored.advance small

theorem Holding.accept (holding : Holding window size kcp) (small : window < 2 ^ 31) {seg : IkcpSeg}
    (sized : seg.Sized ∧ seg.data.length ≤ size) : Holding window size (kcp.accept seg) := by
  have first : Holding window size (acknowledged kcp seg) := holding.congr rfl rfl
  by_cases ack : seg.cmd = cmdAck
  · exact holding.congr (congrArg (fun config => config.2.2.2.1) (config_accept kcp seg)) (receiving_accept_ack ack)
  · by_cases push : seg.cmd = cmdPush
    · rw [accept_push push, pushed]
      have listed : Holding window size ((acknowledged kcp seg).ackPush seg.sn seg.ts) := { first with }
      split_ifs
      · exact listed.parseData small sized
      · exact listed
      · exact first
    · exact first.frame (accept_other push ack)

/-- Bytes from anywhere. -/
theorem Holding.inputLoop (holding : Holding window size kcp) (small : window < 2 ^ 31) (fuel : ℕ) {data : Bytes}
    (low : size < 2 ^ 32) (short : data.length ≤ size) : Holding window size (Ikcpcb.inputLoop fuel data kcp).2 := by
  induction fuel generalizing data kcp with
  | zero => exact holding
  | succ fuel ih =>
    rw [Ikcpcb.inputLoop]
    split_ifs with empty
    · exact holding
    · dsimp only
      split_ifs with other long unknown
      · exact holding
      · exact holding
      · exact holding
      · have rest : (data.drop overhead.toNat).length ≤ size := (List.drop_sublist _ _).length_le.trans short
        have enough := not_lt.mp fun less => long (UInt32.lt_iff_toNat_lt.mpr less)
        rw [Serial.toNat_ofNat_of_lt (rest.trans_lt low)] at enough
        apply ih
        · apply holding.accept small
          refine ⟨?_, (List.take_sublist _ _).length_le.trans rest⟩
          change (List.take _ _).length = _
          rw [List.length_take, min_eq_left enough]
        · rw [List.length_drop]
          omega

theorem Holding.input (holding : Holding window size kcp) (small : window < 2 ^ 31) {data : Bytes}
    (low : size < 2 ^ 32) (short : data.length ≤ size) : Holding window size (kcp.input data).2 := by
  have after := holding.inputLoop small data.length low short
  rw [Ikcpcb.input]
  split_ifs
  · exact holding
  · dsimp only
    split_ifs
    · exact after.frame (Ikcpcb.frame_grow _ _)
    · exact after

theorem Holding.handOut (holding : Holding window size kcp) : Holding window size (handOut kcp) := by
  have whole := merge_append kcp.rcvQueue
  have lengths := congrArg List.length whole
  rw [List.length_append] at lengths
  refine { holding with que := ?_, queue := ?_, sized := ?_ }
  · change kcp.nrcvQue - _ = .ofNat (merge kcp.rcvQueue).2.length
    rw [holding.que, ← lengths, UInt32.ofNat_add, UInt32.add_comm, UInt32.add_sub_cancel]
  · have queue := holding.queue
    change (merge kcp.rcvQueue).2.length ≤ window
    omega
  · intro seg member
    apply holding.sized
    rw [← whole, List.append_assoc]
    exact List.mem_append_right _ member

theorem Holding.recv (holding : Holding window size kcp) (small : window < 2 ^ 31) {buffer filled : Bytes}
    {len code : ℤ} (receives : kcp.recv buffer len = some (code, filled, kcp')) : Holding window size kcp' := by
  rcases recv_cases receives with ⟨-, rfl⟩ | ⟨-, -, -, -, -, taken, takes, frame⟩
  · exact holding
  · have holds : Holding window size taken := by
      rw [takes]
      split_ifs
      · exact holding
      · exact holding.handOut
    exact (holds.advance small).frame frame

/-- What a flush does to the receiving part: the acknowledgements are sent. -/
theorem receiving_flush {output : List Bytes} (flushed : kcp.flush = some (output, kcp')) :
    kcp'.config = kcp.config ∧ ∃ acks, kcp'.receiving = ({ kcp with acklist := acks } : Ikcpcb).receiving := by
  unfold Ikcpcb.flush at flushed
  split_ifs at flushed
  · simp only [bind, Option.bind_eq_some_iff, pure, Option.some.injEq, Prod.mk.injEq] at flushed
    obtain ⟨-, -, -, -, -, -, -, -, -, rfl⟩ := flushed
    have probed := Ikcpcb.frame_probe { kcp with acklist := [] }
    generalize Ikcpcb.probe { kcp with acklist := [] } = asking at probed ⊢
    have sent := (asking.number kcp.wndUnused).frame_sent asking.window kcp.wndUnused
    refine ⟨?_, [], ?_⟩
    · exact (congrArg Prod.fst sent).trans ((asking.config_number _).trans (congrArg Prod.fst probed))
    · exact (congrArg (fun frame => frame.2.2) sent).trans
        ((asking.receiving_number _).trans (congrArg (fun frame => frame.2.2) probed))
  · cases flushed
    exact ⟨rfl, kcp.acklist, rfl⟩

theorem Holding.flush (holding : Holding window size kcp) {output : List Bytes}
    (flushed : kcp.flush = some (output, kcp')) : Holding window size kcp' := by
  obtain ⟨config, acks, receiving⟩ := receiving_flush flushed
  have listed : Holding window size { kcp with acklist := acks } := { holding with }
  exact listed.congr (congrArg (fun config => config.2.2.2.1) config) receiving

/-- Any call, with any bytes. -/
theorem Holding.call {side next : Side} {call : Call} (holding : Holding window size side.kcp)
    (small : window < 2 ^ 31) (low : size < 2 ^ 32) (within : call.Within window size)
    (called : side.call call = some next) : Holding window size next.kcp := by
  cases call with
  | send message =>
    obtain ⟨⟨code, kcp⟩, sends, rfl⟩ := Option.map_eq_some_iff.mp called
    unfold Ikcpcb.send at sends
    dsimp only at sends
    split_ifs at sends
    · cases sends
      exact holding
    · cases sends
      exact holding
    · obtain ⟨segs, -, ended⟩ := Option.map_eq_some_iff.mp sends
      cases ended
      exact holding.congr rfl rfl
  | recv buffer len =>
    obtain ⟨⟨code, filled, kcp⟩, receives, rfl⟩ := Option.map_eq_some_iff.mp called
    exact holding.recv small receives
  | input datagram =>
    cases called
    exact holding.input small low within
  | flush =>
    obtain ⟨⟨output, kcp⟩, flushes, rfl⟩ := Option.map_eq_some_iff.mp called
    exact holding.flush flushes
  | update current =>
    obtain ⟨⟨output, kcp⟩, updated, rfl⟩ := Option.map_eq_some_iff.mp called
    obtain ⟨told, frame, flushes | ⟨-, rfl⟩⟩ := update_cases updated
    · exact (holding.frame frame).flush flushes
    · exact holding.frame frame
  | setmtu mtu =>
    cases called
    change Holding window size (side.kcp.setmtu mtu).2
    rw [Ikcpcb.setmtu]
    split_ifs
    · exact holding
    · exact holding.congr rfl rfl
  | nodelay nodelay interval resend nc =>
    cases called
    exact holding.frame (frame_setNodelay _ _ _ _ _)
  | wndsize sndwnd rcvwnd =>
    cases called
    have bound : rcvwnd ≤ window := within
    refine { holding with wnd := ?_ }
    change (if 0 < rcvwnd then UInt32.ofInt rcvwnd else side.kcp.rcvWnd).toNat ≤ window
    split_ifs with positive
    · rw [Serial.toNat_ofInt_of_lt (by omega) (by omega)]
      omega
    · exact holding.wnd

end Holding

/-- Whatever bytes arrive and whatever calls are made, a block keeps no more than its window, sorted and counted. -/
theorem window_bounds_block (conv : UInt32) (window size : ℕ) (large : 32 ≤ window) (small : window < 2 ^ 31)
    (low : size < 2 ^ 32) (calls : List Call) (within : ∀ call ∈ calls, call.Within window size) (side : Side)
    (run : (Side.start conv).run calls = some side) :
    side.kcp.rcvBuf.length ≤ window ∧ side.kcp.rcvQueue.length ≤ window ∧
      side.kcp.nrcvBuf.toNat = side.kcp.rcvBuf.length ∧ side.kcp.nrcvQue.toNat = side.kcp.rcvQueue.length ∧
      side.kcp.rcvBuf.Pairwise fun seg other => itimediff seg.sn other.sn < 0 := by
  have holding : Holding window size side.kcp :=
    @Attempts.kept _ _ _ _ _ _ (fun side : Side => Holding window size side.kcp) (fun call => call.Within window size)
      (holding_create conv large) (fun before call after within called holding => holding.call small low within called)
      within run
  have length := holding.length_le
  have queue := holding.queue
  refine ⟨length, queue, ?_, ?_, ?_⟩
  · rw [holding.nbuf, Serial.toNat_ofNat_of_lt (by omega)]
  · rw [holding.que, Serial.toNat_ofNat_of_lt (by omega)]
  · refine holding.sorted.imp_of_mem ?_
    intro seg other member member' less
    have near := holding.near seg member
    have near' := holding.near other member'
    have gap : itimediff seg.sn other.sn = (place _ seg : ℤ) - place _ other :=
      Serial.diff_of_ahead (near.trans small) (near'.trans small)
    rw [gap]
    omega

/-- Segments that arrive out of order: the first three are handed on, the fourth has not arrived. -/
theorem window_bounds_block_stored : ∃ side,
    (Side.start 7).run
      [.wndsize 0 40,
        .input (encodeSeg { conv := 7, cmd := cmdPush, sn := 2 } ++ encodeSeg { conv := 7, cmd := cmdPush, sn := 1 }),
        .input (encodeSeg { conv := 7, cmd := cmdPush, sn := 0 } ++ encodeSeg { conv := 7, cmd := cmdPush, sn := 4 })] =
      some side ∧
      side.kcp.rcvQueue.map IkcpSeg.sn = [0, 1, 2] ∧ side.kcp.rcvBuf.map IkcpSeg.sn = [4] ∧
      side.kcp.rcvQueue.length ≤ 40 ∧ side.kcp.nrcvBuf.toNat = side.kcp.rcvBuf.length := by
  have computed : ((Side.start 7).run
      [.wndsize 0 40,
        .input (encodeSeg { conv := 7, cmd := cmdPush, sn := 2 } ++ encodeSeg { conv := 7, cmd := cmdPush, sn := 1 }),
        .input (encodeSeg { conv := 7, cmd := cmdPush, sn := 0 } ++ encodeSeg { conv := 7, cmd := cmdPush, sn := 4 })]).any
        (fun side => side.kcp.rcvQueue.map IkcpSeg.sn = [0, 1, 2] ∧ side.kcp.rcvBuf.map IkcpSeg.sn = [4]) := by
    decide +kernel
  obtain ⟨side, run, facts⟩ := (Option.any_eq_true _ _).mp computed
  obtain ⟨queue, buf⟩ := of_decide_eq_true facts
  obtain ⟨-, short, counted, -⟩ :=
    window_bounds_block 7 40 1500 (by decide) (by decide) (by decide) _ (by decide) side run
  exact ⟨side, run, queue, buf, short, counted⟩

section Blocked

variable {number : UInt32} {limit window : ℕ} {a b b' : Side}

/-- The messages that an end has received fit into the largest window that it had. -/
structure Fitting (window size : ℕ) (side : Side) : Prop where
  holding : Holding window (2 ^ 32 - 1) side.kcp
  received : ∀ message ∈ side.received, message.length ≤ window * size

theorem Joined.queue_short (joined : Joined number limit a b) :
    ∀ seg ∈ b.kcp.rcvQueue, seg.Sized ∧ seg.data.length ≤ limit - 24 := by
  obtain ⟨mine, theirs, got, reached, left, right⟩ := joined
  obtain ⟨delivered, receiver, -⟩ := right.received
  intro seg member
  have inside : piece seg ∈ mine.take reached := by
    rw [← receiver.taken]
    exact List.mem_append_right _ (List.mem_map_of_mem member)
  exact ⟨(receiver.queue seg member).sized, left.pieces _ (List.mem_append_left _ (List.mem_of_mem_take inside))⟩

/-- A message that is handed out was in the queue. -/
theorem Fitting.call {call : Call} (joined : Joined number limit a b) (fitting : Fitting window (limit - 24) b)
    (small : window < 2 ^ 31) (within : call.Within window (2 ^ 32 - 1)) (called : b.call call = some b') :
    Fitting window (limit - 24) b' := by
  refine ⟨fitting.holding.call small (by omega) within called, ?_⟩
  cases call with
  | recv buffer len =>
    obtain ⟨⟨code, filled, kcp⟩, receives, rfl⟩ := Option.map_eq_some_iff.mp called
    dsimp only
    split_ifs with gives
    · intro message member
      rcases List.mem_append.mp member with old | new
      · exact fitting.received message old
      · rcases recv_cases receives with ⟨negative, -⟩ | ⟨-, -, -, -, gives', -⟩
        · omega
        · have queue := fitting.holding.queue
          have front := congrArg List.length (merge_append b.kcp.rcvQueue)
          rw [List.length_append] at front
          have bytes : total (merge b.kcp.rcvQueue).1 ≤ (merge b.kcp.rcvQueue).1.length * (limit - 24) := by
            apply total_le
            intro seg member
            apply joined.queue_short seg
            rw [← merge_append b.kcp.rcvQueue]
            exact List.mem_append_left _ member
          have fewer : (merge b.kcp.rcvQueue).1.length * (limit - 24) ≤ window * (limit - 24) :=
            Nat.mul_le_mul_right _ (by omega)
          have less := int32_le (Int.natCast_nonneg (total (merge b.kcp.rcvQueue).1))
          rw [List.mem_singleton.mp new, List.length_take]
          omega
    · exact fitting.received
  | send message =>
    obtain ⟨⟨code, kcp⟩, -, rfl⟩ := Option.map_eq_some_iff.mp called
    exact fitting.received
  | flush =>
    obtain ⟨⟨output, kcp⟩, -, rfl⟩ := Option.map_eq_some_iff.mp called
    exact fitting.received
  | update current =>
    obtain ⟨⟨output, kcp⟩, -, rfl⟩ := Option.map_eq_some_iff.mp called
    exact fitting.received
  | _ =>
    cases called
    exact fitting.received

theorem Fitting.step {event : Event} {link next : Link} (joined : Joined number limit link.a link.b)
    (fitting : Fitting window (limit - 24) link.b) (small : window < 2 ^ 31)
    (within : ∀ call, event = .callB call → call.Within window (2 ^ 32 - 1)) (step : link.step event = some next) :
    Fitting window (limit - 24) next.b := by
  rcases Link.step_cases step with ⟨call, ⟨rfl, called, same⟩ | ⟨rfl, called, same⟩⟩ | ⟨datagram, member, rfl⟩ |
    ⟨datagram, member, rfl⟩ | rfl
  · rw [same]
    exact fitting
  · exact fitting.call joined small (within call rfl) called
  · exact fitting
  · obtain ⟨mine, theirs, got, reached, left, -⟩ := joined
    have short := (left.output datagram member).1
    exact ⟨fitting.holding.input small (by omega) (by omega), fitting.received⟩
  · exact fitting

end Blocked

/-- A message with more fragments than the window has room for is never received, and neither is any that follows. -/
theorem long_message_blocks (conv : UInt32) (limit window : ℕ) (least : 1400 ≤ limit) (low : limit ≤ 2 ^ 30)
    (large : 32 ≤ window) (small : window < 2 ^ 31) (events : List Event) (link : Link)
    (proper : ∀ event ∈ events, event.Proper limit)
    (narrow : ∀ sndwnd rcvwnd : ℤ, .callB (.wndsize sndwnd rcvwnd) ∈ events → rcvwnd ≤ window)
    (run : (Link.start conv).run events = some link) (fewA : link.a.queued ≤ 2 ^ 30) (fewB : link.b.queued ≤ 2 ^ 30)
    (before after : List Bytes) (message : Bytes) (sent : link.a.sent = before ++ message :: after)
    (long : window * (limit - 24) < message.length) : link.b.received <+: before := by
  have given : ∀ event ∈ events, event.Proper limit ∧
      ∀ call, event = .callB call → call.Within window (2 ^ 32 - 1) := by
    intro event member
    refine ⟨proper event member, ?_⟩
    rintro call rfl
    cases call with
    | input datagram => exact (proper _ member).elim
    | wndsize sndwnd rcvwnd => exact narrow sndwnd rcvwnd member
    | _ => trivial
  have start : Fitting window (limit - 24) (Side.start conv) :=
    ⟨holding_create conv large, fun _ member => (List.not_mem_nil member).elim⟩
  obtain ⟨joined, fitting⟩ : Joined conv limit link.a link.b ∧ Fitting window (limit - 24) link.b := by
    refine @Attempts.kept_below _ _ _ _ _ _
      (fun link : Link => Joined conv limit link.a link.b ∧ Fitting window (limit - 24) link.b)
      (fun link => link.a.queued ≤ most ∧ link.b.queued ≤ most) _ ⟨joined_start conv least, start⟩ ?_ ?_ given run
      ⟨fewA, fewB⟩
    · intro before event after step less
      obtain ⟨lessA, lessB⟩ := Link.queued_le step
      exact ⟨lessA.trans less.1, lessB.trans less.2⟩
    · intro before event after given step less kept
      exact ⟨joined_step kept.1 low given.1 step less.1 less.2, kept.2.step kept.1 small given.2 step⟩
  have order := joined.received
  rw [sent] at order
  apply List.prefix_of_prefix_length_le order (List.prefix_append _ _)
  by_contra more
  have inside : before.length < link.b.received.length := not_le.mp more
  have there : link.b.received[before.length] = message := by
    rw [order.getElem inside]
    exact List.getElem_of_append rfl rfl
  have short := fitting.received message (there ▸ List.getElem_mem inside)
  omega

/-- The first message is received and the first fragment of the second arrives, which is a byte too long. -/
theorem long_message_blocks_default : ∃ link short long,
    (Link.start 7).run
      [.callA (.send [1, 2]), .callA (.send (List.replicate 44033 0)), .callA (.update 0), .callA (.update 100),
        .toB 0, .callB (.recv [0, 0] 2), .callB (.update 5), .toA 0, .callA (.update 300), .toB 1] = some link ∧
      link.a.sent = [short, long] ∧ long.length = 44033 ∧ link.b.received = [[1, 2]] ∧
      link.b.kcp.rcvQueue.map IkcpSeg.frg = [32] ∧ link.b.received <+: [short] := by
  have computed : ((Link.start 7).run
      [.callA (.send [1, 2]), .callA (.send (List.replicate 44033 0)), .callA (.update 0), .callA (.update 100),
        .toB 0, .callB (.recv [0, 0] 2), .callB (.update 5), .toA 0, .callA (.update 300), .toB 1]).any
        (fun link => link.a.queued ≤ 40 ∧ link.b.queued ≤ 40 ∧ link.a.sent.map List.length = [2, 44033] ∧
          link.b.received = [[1, 2]] ∧ link.b.kcp.rcvQueue.map IkcpSeg.frg = [32]) := by
    decide +kernel
  obtain ⟨link, run, facts⟩ := (Option.any_eq_true _ _).mp computed
  obtain ⟨fewA, fewB, lengths, received, queue⟩ := of_decide_eq_true facts
  obtain ⟨short, rest, sent, -, lengths⟩ := List.map_eq_cons_iff.mp lengths
  obtain ⟨long, tail, rfl, length, none⟩ := List.map_eq_cons_iff.mp lengths
  rw [List.map_eq_nil_iff.mp none] at sent
  refine ⟨link, short, long, run, sent, length, received, queue, ?_⟩
  refine long_message_blocks 7 1400 32 le_rfl (by decide) le_rfl (by decide) _ link ?_ ?_ run (by omega) (by omega)
    [short] [] long sent (by omega)
  · refine List.forall_mem_cons.mpr ⟨by decide, List.forall_mem_cons.mpr ⟨?_, by decide⟩⟩
    change (List.replicate 44033 (0 : UInt8)).length ≤ 2 ^ 30
    rw [List.length_replicate]
    decide
  · intro sndwnd rcvwnd resized
    simp only [List.mem_cons, List.not_mem_nil, reduceCtorEq, Event.callB.injEq, or_self] at resized

end PolarCloud.Engine.Ikcp
