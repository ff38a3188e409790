import PolarCloud.Base.Attempts
import PolarCloud.Proofs.Engine.Ikcp.Ends

/-! # Messages across the network

Whatever the network loses, repeats and reorders, and whatever the programs at both ends call and the clocks show, the
messages that one end receives are the first ones that the other end has sent; and what has left the sender's buffers
is at the receiver.
-/

namespace PolarCloud.Engine.Ikcp

open Fragments IkcpSeg

/-- Two ends that belong together. -/
def Joined (number : UInt32) (limit : ℕ) (a b : Side) : Prop :=
  ∃ mine theirs got reached, End number limit mine theirs got (Received reached b.kcp) a ∧
    End number limit theirs mine reached (Received got a.kcp) b

section Joined

variable {number : UInt32} {limit : ℕ} {a b a' : Side}

theorem Joined.symm (joined : Joined number limit a b) : Joined number limit b a := by
  obtain ⟨mine, theirs, got, reached, left, right⟩ := joined
  exact ⟨theirs, mine, reached, got, right, left⟩

theorem End.few {mine theirs : List Piece} {got : ℕ} {has : ℕ → Prop} (this : End number limit mine theirs got has a)
    (small : a.queued ≤ most) : mine.length ≤ most := by
  have queued := this.queued
  omega

theorem Joined.call {call : Call} (joined : Joined number limit a b) (low : limit ≤ most) (small : b.queued ≤ most)
    (proper : call.Proper limit) (called : a.call call = some a') : Joined number limit a' b := by
  obtain ⟨mine, theirs, got, reached, left, right⟩ := joined
  obtain ⟨moved, got', after, keeps⟩ := left.call low (right.few small) right.cuts right.short proper called
  exact ⟨mine ++ moved, theirs, got', reached, after, right.other keeps.2 moved⟩

theorem Joined.input {datagram : Bytes} (joined : Joined number limit a b) (smallA : a.queued ≤ most)
    (smallB : b.queued ≤ most) (member : datagram ∈ b.output) :
    (a.kcp.input datagram).1 = 0 ∧ Joined number limit { a with kcp := (a.kcp.input datagram).2 } b := by
  obtain ⟨mine, theirs, got, reached, left, right⟩ := joined
  obtain ⟨small, made⟩ := right.output datagram member
  obtain ⟨delivered, receiver, -⟩ := right.received
  obtain ⟨code, got', kcp, next, after, keeps⟩ :=
    left.input (left.few smallA) (right.few smallB) receiver.le small made
  rw [next]
  have same := right.other keeps.2 []
  rw [List.append_nil] at same
  exact ⟨code, mine, theirs, got', reached, after, same⟩

end Joined

section Run

variable {number : UInt32} {limit : ℕ} {events : List Event} {event : Event} {link next : Link}

/-- A step changes one end: by a call, or by a datagram that the other end has output. -/
theorem Link.step_cases (step : link.step event = some next) :
    (∃ call, (event = .callA call ∧ link.a.call call = some next.a ∧ next.b = link.b) ∨
      (event = .callB call ∧ link.b.call call = some next.b ∧ next.a = link.a)) ∨
    (∃ datagram ∈ link.b.output, next = { link with a := { link.a with kcp := (link.a.kcp.input datagram).2 } }) ∨
    (∃ datagram ∈ link.a.output, next = { link with b := { link.b with kcp := (link.b.kcp.input datagram).2 } }) ∨
    next = link := by
  cases event with
  | callA call =>
    obtain ⟨a, called, rfl⟩ := Option.map_eq_some_iff.mp step
    exact .inl ⟨call, .inl ⟨rfl, called, rfl⟩⟩
  | callB call =>
    obtain ⟨b, called, rfl⟩ := Option.map_eq_some_iff.mp step
    exact .inl ⟨call, .inr ⟨rfl, called, rfl⟩⟩
  | toA n =>
    rw [Link.step] at step
    cases found : link.b.output[n]? with
    | none =>
      rw [found] at step
      exact .inr (.inr (.inr (Option.some.inj step).symm))
    | some datagram =>
      rw [found] at step
      exact .inr (.inl ⟨datagram, List.mem_of_getElem? found, (Option.some.inj step).symm⟩)
  | toB n =>
    rw [Link.step] at step
    cases found : link.a.output[n]? with
    | none =>
      rw [found] at step
      exact .inr (.inr (.inr (Option.some.inj step).symm))
    | some datagram =>
      rw [found] at step
      exact .inr (.inr (.inl ⟨datagram, List.mem_of_getElem? found, (Option.some.inj step).symm⟩))

theorem Side.queued_le {call : Call} {side after : Side} (called : side.call call = some after) :
    side.queued ≤ after.queued := by
  cases call with
  | send message =>
    obtain ⟨⟨code, kcp⟩, -, rfl⟩ := Option.map_eq_some_iff.mp called
    exact Nat.le_add_right _ _
  | recv buffer len =>
    obtain ⟨⟨code, filled, kcp⟩, -, rfl⟩ := Option.map_eq_some_iff.mp called
    exact le_rfl
  | flush =>
    obtain ⟨⟨output, kcp⟩, -, rfl⟩ := Option.map_eq_some_iff.mp called
    exact le_rfl
  | update current =>
    obtain ⟨⟨output, kcp⟩, -, rfl⟩ := Option.map_eq_some_iff.mp called
    exact le_rfl
  | _ =>
    cases called
    exact le_rfl

theorem Link.queued_le (step : link.step event = some next) :
    link.a.queued ≤ next.a.queued ∧ link.b.queued ≤ next.b.queued := by
  rcases step_cases step with ⟨call, ⟨-, called, same⟩ | ⟨-, called, same⟩⟩ | ⟨_, _, rfl⟩ | ⟨_, _, rfl⟩ | rfl
  · exact ⟨Side.queued_le called, same ▸ le_rfl⟩
  · exact ⟨same ▸ le_rfl, Side.queued_le called⟩
  · exact ⟨le_rfl, le_rfl⟩
  · exact ⟨le_rfl, le_rfl⟩
  · exact ⟨le_rfl, le_rfl⟩

theorem joined_start (number : UInt32) (large : 1400 ≤ limit) :
    Joined number limit (Link.start number).a (Link.start number).b := by
  have fresh : End number limit [] [] 0 (Received 0 (create number)) (Side.start number) := by
    refine ⟨rfl, tuned_create number large, ?_, .nil, fun _ member => (List.not_mem_nil member).elim,
      fun _ member => (List.not_mem_nil member).elim, rfl, ⟨[], ?_, .nil⟩,
      fun _ member => (List.not_mem_nil member).elim⟩
    · exact ⟨rfl, fun _ member => (List.not_mem_nil member).elim, fun _ member => (List.not_mem_nil member).elim,
        fun _ member => (List.not_mem_nil member).elim, fun i small => absurd small (Nat.not_lt_zero i), le_rfl, rfl,
        rfl⟩
    · exact ⟨rfl, le_rfl, rfl, fun _ member => (List.not_mem_nil member).elim, rfl,
        fun _ member => (List.not_mem_nil member).elim, fun _ member => (List.not_mem_nil member).elim⟩
  exact ⟨[], [], 0, 0, fresh, fresh⟩

theorem joined_step (joined : Joined number limit link.a link.b) (low : limit ≤ most) (proper : event.Proper limit)
    (step : link.step event = some next) (smallA : next.a.queued ≤ most) (smallB : next.b.queued ≤ most) :
    Joined number limit next.a next.b := by
  obtain ⟨lessA, lessB⟩ := Link.queued_le step
  have smallA := lessA.trans smallA
  have smallB := lessB.trans smallB
  rcases Link.step_cases step with ⟨call, ⟨rfl, called, same⟩ | ⟨rfl, called, same⟩⟩ | ⟨datagram, member, rfl⟩ |
    ⟨datagram, member, rfl⟩ | rfl
  · rw [same]
    exact joined.call low smallB proper called
  · rw [same]
    exact (joined.symm.call low smallA proper called).symm
  · exact (joined.input smallA smallB member).2
  · exact (joined.symm.input smallB smallA member).2.symm
  · exact joined

theorem joined_run (large : 1400 ≤ limit) (low : limit ≤ most) (proper : ∀ event ∈ events, event.Proper limit)
    (run : (Link.start number).run events = some link) (smallA : link.a.queued ≤ most)
    (smallB : link.b.queued ≤ most) : Joined number limit link.a link.b := by
  refine @Attempts.kept_below _ _ _ _ _ _ (fun link : Link => Joined number limit link.a link.b)
    (fun link => link.a.queued ≤ most ∧ link.b.queued ≤ most) _ (joined_start number large) ?_ ?_ proper run
    ⟨smallA, smallB⟩
  · intro before event after step small
    obtain ⟨lessA, lessB⟩ := Link.queued_le step
    exact ⟨lessA.trans small.1, lessB.trans small.2⟩
  · intro before event after proper step small joined
    exact joined_step joined low proper step small.1 small.2

end Run

section Results

variable {number : UInt32} {limit : ℕ} {a b : Side}

/-- The messages that were received are the first that were sent. -/
theorem Joined.received (joined : Joined number limit a b) : b.received <+: a.sent := by
  obtain ⟨mine, theirs, got, reached, left, right⟩ := joined
  obtain ⟨delivered, receiver, cuts⟩ := right.received
  have stream : mine ++ a.kcp.sndQueue.map piece =
      delivered ++ (b.kcp.rcvQueue.map piece ++ (mine.drop reached ++ a.kcp.sndQueue.map piece)) := by
    rw [← List.append_assoc, receiver.taken, ← List.append_assoc, List.take_append_drop]
  obtain ⟨more, sent, -⟩ := cuts.of_front (stream ▸ left.cuts)
  exact ⟨more, sent.symm⟩

/-- A block that has nothing to wait for has empty buffers. -/
theorem End.waitsnd {mine theirs : List Piece} {got : ℕ} {has : ℕ → Prop}
    (this : End number limit mine theirs got has a) (small : a.queued ≤ most) (done : a.kcp.waitsnd = 0) :
    a.kcp.sndBuf = [] ∧ a.kcp.sndQueue = [] := by
  have queued := this.queued
  have few := this.sender.few
  unfold most at small
  have counted : (a.kcp.nsndBuf + a.kcp.nsndQue).toNat = a.kcp.sndBuf.length + a.kcp.sndQueue.length := by
    rw [this.sender.nbuf, this.sender.nque, ← UInt32.ofNat_add, Serial.toNat_ofNat_of_lt (by omega)]
  rw [Ikcpcb.waitsnd, counted, int32_of_lt (by omega) (by omega)] at done
  exact ⟨List.length_eq_zero_iff.mp (by omega), List.length_eq_zero_iff.mp (by omega)⟩

/-- Once the sender has nothing to wait for and the receiver nothing to hand out, all messages have been received. -/
theorem Joined.complete (joined : Joined number limit a b) (small : a.queued ≤ most) (done : a.kcp.waitsnd = 0)
    (queue : b.kcp.rcvQueue = []) (buf : b.kcp.rcvBuf = []) : b.received = a.sent := by
  obtain ⟨mine, theirs, got, reached, left, right⟩ := joined
  obtain ⟨sndBuf, sndQueue⟩ := left.waitsnd small done
  obtain ⟨delivered, receiver, cuts⟩ := right.received
  have all : mine.length ≤ reached := by
    by_contra missing
    rcases left.sender.kept reached (not_le.mp missing) with ⟨seg, member, -⟩ | less | ⟨seg, member, -⟩
    · rw [sndBuf] at member
      cases member
    · exact lt_irrefl _ less
    · rw [buf] at member
      cases member
  have taken := receiver.taken
  rw [queue, List.map_nil, List.append_nil, List.take_of_length_le all] at taken
  have sent := left.cuts
  rw [sndQueue, List.map_nil, List.append_nil, ← taken, ← List.append_nil delivered] at sent
  obtain ⟨more, same, none⟩ := cuts.of_front sent
  rw [same, none.eq_nil, List.append_nil]

end Results

/-- Whatever the network does, and whatever the programs call within the limits, both ends receive the messages in the
order in which they were sent, whole, and each at most once. -/
theorem messages_in_order (conv : UInt32) (events : List Event) (link : Link)
    (proper : ∀ event ∈ events, event.Proper (2 ^ 30)) (run : (Link.start conv).run events = some link)
    (fewA : link.a.queued ≤ 2 ^ 30) (fewB : link.b.queued ≤ 2 ^ 30) :
    link.b.received <+: link.a.sent ∧ link.a.received <+: link.b.sent := by
  have joined : Joined conv most link.a link.b := joined_run (by unfold most; omega) le_rfl proper run fewA fewB
  exact ⟨joined.received, joined.symm.received⟩

theorem messages_in_order_repeated : ∃ link,
    (Link.start 7).run
      [.callA (.send [1, 2, 3]), .callA (.update 0), .callA (.update 100), .toB 0, .toB 0,
        .callB (.recv [0, 0, 0, 0] 4)] =
      some link ∧ link.b.received = [[1, 2, 3]] ∧ link.b.received <+: link.a.sent := by
  have computed : ((Link.start 7).run
      [.callA (.send [1, 2, 3]), .callA (.update 0), .callA (.update 100), .toB 0, .toB 0,
        .callB (.recv [0, 0, 0, 0] 4)]).any
        (fun link => link.a.queued ≤ 1 ∧ link.b.queued ≤ 1 ∧ link.b.received = [[1, 2, 3]]) := by decide +kernel
  obtain ⟨link, run, facts⟩ := (Option.any_eq_true _ _).mp computed
  obtain ⟨fewA, fewB, received⟩ := of_decide_eq_true facts
  exact ⟨link, run, received, (messages_in_order 7 _ link (by decide) run (by omega) (by omega)).1⟩

/-- Nothing is lost: once the sender waits for no acknowledgement and the receiver has nothing left to hand out, all
messages that were sent have been received. -/
theorem messages_complete (conv : UInt32) (events : List Event) (link : Link)
    (proper : ∀ event ∈ events, event.Proper (2 ^ 30)) (run : (Link.start conv).run events = some link)
    (fewA : link.a.queued ≤ 2 ^ 30) (fewB : link.b.queued ≤ 2 ^ 30) (done : link.a.kcp.waitsnd = 0)
    (queue : link.b.kcp.rcvQueue = []) (buf : link.b.kcp.rcvBuf = []) : link.b.received = link.a.sent := by
  have joined : Joined conv most link.a link.b := joined_run (by unfold most; omega) le_rfl proper run fewA fewB
  exact joined.complete fewA done queue buf

theorem messages_complete_acknowledged : ∃ link, (Link.start 7).run
    [.callA (.send [1, 2]), .callA (.update 0), .callA (.update 100), .toB 0, .callB (.recv [0, 0] 2),
      .callB (.update 5), .toA 0] =
      some link ∧ link.b.received = link.a.sent := by
  have computed : ((Link.start 7).run
      [.callA (.send [1, 2]), .callA (.update 0), .callA (.update 100), .toB 0, .callB (.recv [0, 0] 2),
      .callB (.update 5), .toA 0]).any
        (fun link => link.a.queued ≤ 1 ∧ link.b.queued ≤ 1 ∧ link.a.kcp.waitsnd = 0 ∧ link.b.kcp.rcvQueue = [] ∧
          link.b.kcp.rcvBuf = []) := by decide +kernel
  obtain ⟨link, run, facts⟩ := (Option.any_eq_true _ _).mp computed
  obtain ⟨fewA, fewB, done, queue, buf⟩ := of_decide_eq_true facts
  exact ⟨link, run, messages_complete 7 _ link (by decide) run (by omega) (by omega) done queue buf⟩

/-- A datagram that one end has output is never rejected by the other, however late it comes. -/
theorem datagrams_accepted (conv : UInt32) (events : List Event) (link : Link)
    (proper : ∀ event ∈ events, event.Proper (2 ^ 30)) (run : (Link.start conv).run events = some link)
    (fewA : link.a.queued ≤ 2 ^ 30) (fewB : link.b.queued ≤ 2 ^ 30) :
    (∀ datagram ∈ link.a.output, (link.b.kcp.input datagram).1 = 0) ∧
      ∀ datagram ∈ link.b.output, (link.a.kcp.input datagram).1 = 0 := by
  have joined : Joined conv most link.a link.b := joined_run (by unfold most; omega) le_rfl proper run fewA fewB
  exact ⟨fun datagram member => (joined.symm.input fewB fewA member).1,
    fun datagram member => (joined.input fewA fewB member).1⟩

theorem datagrams_accepted_first : ∃ link,
    (Link.start 7).run [.callA (.send [1]), .callA (.update 0), .callA (.update 100)] = some link ∧
    link.a.output.length = 1 ∧ ∀ datagram ∈ link.a.output, (link.b.kcp.input datagram).1 = 0 := by
  have computed : ((Link.start 7).run [.callA (.send [1]), .callA (.update 0), .callA (.update 100)]).any
      (fun link => link.a.queued ≤ 1 ∧ link.b.queued ≤ 1 ∧ link.a.output.length = 1) := by decide +kernel
  obtain ⟨link, run, facts⟩ := (Option.any_eq_true _ _).mp computed
  obtain ⟨fewA, fewB, written⟩ := of_decide_eq_true facts
  exact ⟨link, run, written, (datagrams_accepted 7 _ link (by decide) run (by omega) (by omega)).1⟩

end PolarCloud.Engine.Ikcp
