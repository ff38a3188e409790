import Mathlib.Algebra.BigOperators.Group.List.Basic
import PolarCloud.Proofs.Engine.Ikcp.Flush

/-! # What a call does to both directions

A message that is sent is cut into pieces behind the queue; a message that is received is the next one of the other
end's messages, whole; and a datagram of the other end is accepted segment by segment.
-/

namespace PolarCloud.Engine.Ikcp

open Fragments IkcpSeg

/-- How a block is set up: the unit has a limit, and the largest segment is what the unit leaves behind a header. -/
structure Tuned (limit : ℕ) (kcp : Ikcpcb) : Prop where
  mss : kcp.mss = kcp.mtu - overhead
  lower : 50 ≤ kcp.mtu.toNat
  upper : kcp.mtu.toNat ≤ limit
  buffer : kcp.buffer < 2 ^ 32

variable {limit : ℕ}

theorem Tuned.congr {kcp kcp' : Ikcpcb} (tuned : Tuned limit kcp) (same : kcp'.config = kcp.config) :
    Tuned limit kcp' := by
  simp only [Ikcpcb.config, Prod.mk.injEq] at same
  obtain ⟨-, mtu, mss, -, buffer⟩ := same
  refine ⟨?_, ?_, ?_, ?_⟩
  · rw [mss, mtu]
    exact tuned.mss
  · rw [mtu]
    exact tuned.lower
  · rw [mtu]
    exact tuned.upper
  · rw [buffer]
    exact tuned.buffer

theorem Tuned.mss_toNat {kcp : Ikcpcb} (tuned : Tuned limit kcp) : kcp.mss.toNat = kcp.mtu.toNat - 24 := by
  have lower := tuned.lower
  rw [tuned.mss, UInt32.toNat_sub_of_le _ _ (by rw [UInt32.le_iff_toNat_le]; change 24 ≤ _; omega)]
  rfl

theorem int32_of_lt {n : ℤ} (lower : 0 ≤ n) (upper : n < 2 ^ 31) : int32 n = n := by
  rw [int32]
  exact Int.bmod_eq_of_le (by omega) (by omega)

theorem int32_le {n : ℤ} (positive : 0 ≤ n) : int32 n ≤ n := by
  rw [int32, Int.bmod]
  change (if n % 4294967296 < (4294967296 + 1) / 2 then n % 4294967296 else n % 4294967296 - 4294967296) ≤ n
  split_ifs <;> omega

section Send

/-- There is always enough for the next fragment. -/
theorem fragments_some {mss : ℕ} (small : mss < 2 ^ 32) (count : ℕ) (message : Bytes) :
    ∃ segs, Ikcpcb.fragments mss count (some message) message.length = some segs ∧ segs.length = count ∧
      ∀ seg ∈ segs, seg.Sized ∧ seg.data.length ≤ mss := by
  induction count generalizing message with
  | zero => exact ⟨[], rfl, rfl, fun _ member => (List.not_mem_nil member).elim⟩
  | succ count ih =>
    rw [Ikcpcb.fragments]
    generalize taken : (if (message.length : ℤ) ≤ mss then (message.length : ℤ).toNat else mss) = size
    have inside : size ≤ message.length ∧ size ≤ mss := by
      subst taken
      split_ifs <;> omega
    obtain ⟨segs, rest, length, good⟩ := ih (message.drop size)
    have behind : (message.length : ℤ) - size = ((message.drop size).length : ℕ) := by
      rw [List.length_drop]
      omega
    simp only [if_neg (Nat.not_lt.mpr inside.1), behind, Option.map_some, rest]
    refine ⟨_, rfl, congrArg (· + 1) length, ?_⟩
    intro seg member
    rcases List.mem_cons.mp member with rfl | member
    · have taken : (message.take size).length = size := by
        rw [List.length_take]
        omega
      exact ⟨taken.trans (Serial.toNat_ofNat_of_lt (by omega)).symm, taken.trans_le inside.2⟩
    · exact good seg member

/-- The fragments of a message are its pieces. -/
theorem fragments_spec {mss count : ℕ} {message : Bytes} {segs : List IkcpSeg} (small : mss < 2 ^ 32)
    (few : count < 256) (fits : message.length ≤ (count + 1) * mss)
    (made : Ikcpcb.fragments mss (count + 1) (some message) message.length = some segs) :
    Cut message (segs.map piece) ∧ (∀ seg ∈ segs, seg.Proper ∧ seg.data.length ≤ mss) ∧ segs.length = count + 1 := by
  induction count generalizing message segs with
  | zero =>
    have whole : (message.length : ℤ) ≤ mss := by omega
    rw [Ikcpcb.fragments, if_pos whole, Int.toNat_natCast, List.take_length] at made
    simp only [lt_irrefl, if_false, Ikcpcb.fragments, Option.map_some, Option.some.injEq] at made
    subst made
    refine ⟨.last message, ?_, rfl⟩
    intro seg member
    rw [List.mem_singleton.mp member]
    have length : message.length < 2 ^ 32 := by omega
    exact ⟨⟨(Serial.toNat_ofNat_of_lt length).symm, Nat.zero_lt_succ 255⟩, by exact_mod_cast whole⟩
  | succ count ih =>
    generalize taken : (if (message.length : ℤ) ≤ mss then (message.length : ℤ).toNat else mss) = size
    have bounds : size ≤ message.length ∧ size ≤ mss ∧ message.length - size ≤ (count + 1) * mss := by
      have split : (count + 1 + 1) * mss = (count + 1) * mss + mss := Nat.succ_mul _ _
      subst taken
      split_ifs <;> omega
    rw [Ikcpcb.fragments, taken] at made
    simp only [if_neg (Nat.not_lt.mpr bounds.1)] at made
    obtain ⟨rest, later, rfl⟩ := Option.map_eq_some_iff.mp made
    have behind : (message.length : ℤ) - size = ((message.drop size).length : ℕ) := by
      rw [List.length_drop]
      omega
    rw [behind, Option.map_some] at later
    obtain ⟨cut, proper, length⟩ := ih (by omega) (by rw [List.length_drop]; omega) later
    have number : (UInt32.ofNat (count + 1)).toNat = count + 1 := Serial.toNat_ofNat_of_lt (by omega)
    refine ⟨?_, ?_, by rw [List.length_cons, length]⟩
    · have more := Cut.more (message.take size) cut
      rw [List.take_append_drop, List.length_map, length] at more
      rw [List.map_cons, piece, number]
      exact more
    · intro seg member
      rcases List.mem_cons.mp member with rfl | member
      · have length : (message.take size).length = size := by
          rw [List.length_take]
          omega
        refine ⟨⟨?_, by change (UInt32.ofNat (count + 1)).toNat < 256; omega⟩, length.trans_le bounds.2.1⟩
        exact length.trans (Serial.toNat_ofNat_of_lt (by omega)).symm
      · exact proper seg member

/-- Enough fragments for the message, and at least one. -/
theorem count_spec {kcp : Ikcpcb} (tuned : Tuned limit kcp) (low : limit ≤ most) {len : ℕ} (short : len ≤ most) :
    1 ≤ kcp.count len ∧ (len : ℤ) ≤ kcp.count len * kcp.mss.toNat := by
  have mss := tuned.mss_toNat
  have lower := tuned.lower
  have upper := tuned.upper.trans low
  unfold most at short upper
  unfold Ikcpcb.count
  generalize kcp.mss.toNat = size at mss ⊢
  split_ifs with whole
  · omega
  · have numbers : int32 (int32 (int32 len + int32 size) - 1) = len + size - 1 := by
      rw [int32_of_lt (n := len) (by omega) (by omega), int32_of_lt (n := size) (by omega) (by omega),
        int32_of_lt (n := len + size) (by omega) (by omega), int32_of_lt (by omega) (by omega)]
    rw [numbers, int32_of_lt (n := size) (by omega) (by omega), Int.tdiv_eq_ediv_of_nonneg (by omega)]
    have covers : (len : ℤ) ≤ (len + size - 1) / size * size := by
      have split := Int.emod_add_mul_ediv (len + size - 1) size
      have less := Int.emod_lt_of_pos ((len : ℤ) + size - 1) (by omega : (0 : ℤ) < size)
      rw [Int.mul_comm] at split
      omega
    have some : (1 : ℤ) ≤ (len + size - 1) / size := by
      rw [Int.le_ediv_iff_mul_le (by omega)]
      omega
    dsimp only
    rw [if_neg (by omega)]
    exact ⟨some, covers⟩

theorem send_spec {kcp next : Ikcpcb} {message : Bytes} {code : ℤ} (tuned : Tuned limit kcp) (low : limit ≤ most)
    (short : message.length ≤ most) (sends : kcp.send (some message) message.length = some (code, next)) :
    (code = 0 ∧ ∃ segs, Cut message (segs.map piece) ∧
      (∀ seg ∈ segs, seg.Proper ∧ seg.data.length ≤ kcp.mss.toNat) ∧
      next = { kcp with sndQueue := kcp.sndQueue ++ segs, nsndQue := kcp.nsndQue + .ofNat segs.length }) ∨
    (code ≠ 0 ∧ next = kcp) := by
  have natural : ¬ (message.length : ℤ) < 0 := by omega
  unfold Ikcpcb.send at sends
  dsimp only at sends
  rw [if_neg natural] at sends
  split_ifs at sends with many
  · cases sends
    exact .inr ⟨by decide, rfl⟩
  · obtain ⟨segs, made, ended⟩ := Option.map_eq_some_iff.mp sends
    cases ended
    obtain ⟨some, covers⟩ := count_spec tuned low short
    obtain ⟨count, number⟩ : ∃ count : ℕ, kcp.count message.length = (count + 1 : ℕ) :=
      ⟨(kcp.count message.length - 1).toNat, by omega⟩
    rw [number] at covers many
    rw [number, Int.toNat_natCast] at made
    obtain ⟨cut, proper, -⟩ := fragments_spec kcp.mss.toNat_lt (by omega) (by exact_mod_cast covers) made
    exact .inl ⟨rfl, segs, cut, proper, rfl⟩

end Send

section Recv

variable {queue front behind : List IkcpSeg} {buffer : Bytes}

theorem merge_append (queue : List IkcpSeg) : (merge queue).1 ++ (merge queue).2 = queue := by
  induction queue with
  | nil => rfl
  | cons seg rest ih =>
    rw [merge]
    split_ifs
    · rfl
    · exact congrArg (seg :: ·) ih

theorem merge_split (queue : List IkcpSeg) :
    split (queue.map piece) = ((merge queue).1.map piece, (merge queue).2.map piece) := by
  induction queue with
  | nil => rfl
  | cons seg rest ih =>
    have zero : (piece seg).1 = 0 ↔ seg.frg = 0 := UInt32.toNat_inj (b := 0)
    rw [List.map_cons, split, merge]
    simp only [zero, ih]
    split_ifs <;> rfl

/-- How many bytes segments hold. -/
def total (segs : List IkcpSeg) : ℕ := (segs.map fun seg => seg.len.toNat).sum

theorem sum_total (segs : List IkcpSeg) : (segs.map fun seg => (seg.len.toNat : ℤ)).sum = total segs := by
  induction segs with
  | nil => rfl
  | cons seg rest ih =>
    rw [List.map_cons, List.sum_cons, ih, total, total, List.map_cons, List.sum_cons]
    exact (Int.natCast_add _ _).symm

theorem total_le {size : ℕ} (short : ∀ seg ∈ front, seg.Sized ∧ seg.data.length ≤ size) :
    total front ≤ front.length * size := by
  induction front with
  | nil => exact Nat.zero_le _
  | cons seg rest ih =>
    have both : total (seg :: rest) = seg.len.toNat + total rest := List.sum_cons
    have later := ih fun other member => short other (List.mem_cons_of_mem _ member)
    obtain ⟨sized, less⟩ := short seg (List.mem_cons_self ..)
    rw [Sized] at sized
    rw [both, List.length_cons, Nat.succ_mul]
    omega

theorem total_eq (sized : ∀ seg ∈ front, seg.Sized) : total front = (front.flatMap IkcpSeg.data).length := by
  rw [total, List.length_flatMap]
  congr 1
  exact List.map_congr_left fun seg member => (sized seg member).symm

/-- Segments that fit into a buffer are copied to its front. -/
theorem copyOut_spec (sized : ∀ seg ∈ front, seg.Sized) (fits : total front ≤ buffer.length) :
    copyOut buffer front = some (front.flatMap IkcpSeg.data ++ buffer.drop (total front)) := by
  induction front generalizing buffer with
  | nil => rfl
  | cons seg rest ih =>
    have size : seg.data.length = seg.len.toNat := sized seg (List.mem_cons_self ..)
    have both : total (seg :: rest) = seg.len.toNat + total rest := List.sum_cons
    have room : total rest ≤ (buffer.drop seg.len.toNat).length := by
      rw [List.length_drop]
      omega
    have remains := ih (fun other member => sized other (List.mem_cons_of_mem _ member)) room
    rw [copyOut]
    split_ifs with empty short
    · have none : seg.len.toNat = 0 := by omega
      rw [none, List.drop_zero] at remains
      rw [remains, both, none, zero_add, List.flatMap_cons, List.length_eq_zero_iff.mp (size.trans none),
        List.nil_append]
    · omega
    · rw [remains, both, List.flatMap_cons, List.take_of_length_le size.le, Option.map_some, List.drop_drop,
        List.append_assoc]

/-- A size that is known is the size of the segments up to the last fragment. -/
theorem peeksize_eq {kcp : Ikcpcb} (known : 0 ≤ kcp.peeksize) :
    kcp.peeksize = int32 (total (merge kcp.rcvQueue).1) := by
  unfold Ikcpcb.peeksize at known ⊢
  cases queue : kcp.rcvQueue with
  | nil =>
    rw [queue] at known
    dsimp only at known
    omega
  | cons seg rest =>
    rw [queue] at known
    dsimp only at known ⊢
    split_ifs at known ⊢ with single missing
    · rw [merge, if_pos single, total, List.map_singleton, List.sum_singleton]
    · omega
    · rw [sum_total]

/-- The first message has all its fragments in the queue, unless the size is unknown. -/
theorem peeksize_complete {kcp : Ikcpcb} {seg : IkcpSeg} {rest : List IkcpSeg} (queue : kcp.rcvQueue = seg :: rest)
    (que : kcp.nrcvQue = .ofNat kcp.rcvQueue.length) (few : kcp.rcvQueue.length ≤ most) (small : seg.frg.toNat < 256)
    (known : 0 ≤ kcp.peeksize) : (piece seg).1 ≤ rest.length := by
  unfold Ikcpcb.peeksize at known
  rw [queue, List.length_cons] at few que
  unfold most at few
  rw [queue] at known
  dsimp only at known
  split_ifs at known with single missing
  · rw [piece, single]
    exact Nat.zero_le _
  · omega
  · have one : (seg.frg + 1).toNat = seg.frg.toNat + 1 := by
      rw [UInt32.toNat_add]
      exact Nat.mod_eq_of_lt (by change _ + 1 < 2 ^ 32; omega)
    rw [que, UInt32.lt_iff_toNat_lt, one, Serial.toNat_ofNat_of_lt (by omega)] at missing
    change seg.frg.toNat ≤ rest.length
    omega

variable {theirs delivered behind : List Piece} {messages : List Bytes} {got : ℕ} {kcp next : Ikcpcb} {code len : ℤ}
  {filled : Bytes}

/-- The block without the segments of the first message. -/
def handOut (kcp : Ikcpcb) : Ikcpcb :=
  { kcp with
    rcvQueue := (merge kcp.rcvQueue).2
    nrcvQue := kcp.nrcvQue - .ofNat (merge kcp.rcvQueue).1.length }

theorem recv_cases (receives : kcp.recv buffer len = some (code, filled, next)) :
    (code < 0 ∧ next = kcp) ∨
    (kcp.rcvQueue ≠ [] ∧ 0 ≤ kcp.peeksize ∧ (0 ≤ len → kcp.peeksize ≤ len) ∧
      copyOut buffer (merge kcp.rcvQueue).1 = some filled ∧ code = int32 (total (merge kcp.rcvQueue).1) ∧
      ∃ taken, taken = (if len < 0 then kcp else handOut kcp) ∧
        next.frame = (Ikcpcb.moveAvailable taken.rcvBuf taken).frame) := by
  rw [Ikcpcb.recv] at receives
  rcases eq_or_ne kcp.rcvQueue [] with none | some
  · rw [if_pos none] at receives
    cases receives
    exact .inl ⟨by decide, rfl⟩
  · simp only [if_neg some] at receives
    rcases lt_or_ge kcp.peeksize 0 with unknown | known
    · rw [if_pos unknown] at receives
      cases receives
      exact .inl ⟨by decide, rfl⟩
    · rw [if_neg (not_lt.mpr known)] at receives
      rcases lt_or_ge (if len < 0 then int32 (-len) else len) kcp.peeksize with long | fits
      · rw [if_pos long] at receives
        cases receives
        exact .inl ⟨by decide, rfl⟩
      · rw [if_neg (not_lt.mpr fits)] at receives
        cases copied : copyOut buffer (merge kcp.rcvQueue).1 with
        | none =>
          rw [copied] at receives
          cases receives
        | some copy =>
          rw [copied] at receives
          cases receives
          refine .inr ⟨some, known, ?_, rfl, by rw [sum_total], _, rfl, ?_⟩
          · intro positive
            rw [if_neg (not_lt.mpr positive)] at fits
            exact fits
          · unfold handOut
            split_ifs <;> rfl

/-- Segments that were handed out leave the queue. -/
theorem Receiver.handOut (receiver : Receiver theirs delivered got kcp) :
    Receiver theirs (delivered ++ (merge kcp.rcvQueue).1.map piece) got (handOut kcp) where
  nxt := receiver.nxt
  le := receiver.le
  taken := by
    change _ ++ (merge kcp.rcvQueue).2.map piece = _
    rw [List.append_assoc, ← List.map_append, merge_append, receiver.taken]
  queue := by
    intro seg member
    refine receiver.queue seg ?_
    rw [← merge_append kcp.rcvQueue]
    exact List.mem_append_right _ member
  que := by
    have lengths := congrArg List.length (merge_append kcp.rcvQueue)
    rw [List.length_append] at lengths
    change kcp.nrcvQue - _ = .ofNat (merge kcp.rcvQueue).2.length
    rw [receiver.que, ← lengths, UInt32.ofNat_add, UInt32.add_comm, UInt32.add_sub_cancel]
  buf := receiver.buf
  acks := receiver.acks

/-- After segments have left the queue, those that wait in the buffer may follow. -/
theorem Receiver.refill {taken : Ikcpcb} (receiver : Receiver theirs delivered got taken) (few : theirs.length ≤ most)
    (frame : next.frame = (Ikcpcb.moveAvailable taken.rcvBuf taken).frame) :
    ∃ got', Receiver theirs delivered got' next ∧ Keeps theirs got got' taken next ∧
      next.sending = taken.sending ∧ next.config = taken.config := by
  obtain ⟨got', after, keeps⟩ := receiver.advance few
  have receiving := congrArg (fun frame => frame.2.2) frame
  have buf : next.rcvBuf = _ := congrArg (fun receiving => receiving.2.2.2.1) receiving
  refine ⟨got', after.congr receiving, keeps.trans (.of_buf buf), ?_, ?_⟩
  · exact (congrArg (fun frame => frame.2.1) frame).trans (Ikcpcb.sending_moveAvailable _ _)
  · exact (congrArg Prod.fst frame).trans (Ikcpcb.config_moveAvailable _ _)

/-- A call that hands out bytes hands out the next message. -/
theorem recv_spec (receiver : Receiver theirs delivered got kcp) (few : theirs.length ≤ most)
    (cuts : Cuts messages (kcp.rcvQueue.map piece ++ behind)) (short : ∀ message ∈ messages, message.length ≤ most)
    (room : len ≤ buffer.length) (receives : kcp.recv buffer len = some (code, filled, next)) :
    ∃ got' part, Receiver theirs (delivered ++ part) got' next ∧ Keeps theirs got got' kcp next ∧
      next.sending = kcp.sending ∧ next.config = kcp.config ∧
      if 0 ≤ code ∧ 0 ≤ len then Cut (filled.take code.toNat) part else part = [] := by
  rcases recv_cases receives with ⟨negative, rfl⟩ | ⟨some, known, fits, copied, gives, taken, takes, frame⟩
  · refine ⟨got, [], ?_, .refl _ _ _, rfl, rfl, by rw [if_neg (by omega)]⟩
    rw [List.append_nil]
    exact receiver
  · obtain ⟨seg, rest, queue⟩ := List.exists_cons_of_ne_nil some
    have proper : seg.Proper := receiver.queue seg (by rw [queue]; exact List.mem_cons_self ..)
    have less : kcp.rcvQueue.length ≤ most := by
      have counted := congrArg List.length receiver.taken
      rw [List.length_append, List.length_map, List.length_take] at counted
      omega
    have size := peeksize_eq known
    have complete := peeksize_complete queue receiver.que less proper.small known
    rw [queue, List.map_cons] at cuts
    obtain ⟨message, more, rfl, cut, -, -⟩ := cuts.first (by rw [List.length_map]; exact complete)
    rw [← List.map_cons, ← queue, merge_split] at cut
    have sized : ∀ seg ∈ (merge kcp.rcvQueue).1, seg.Sized := by
      intro other member
      refine (receiver.queue other ?_).sized
      rw [← merge_append kcp.rcvQueue]
      exact List.mem_append_left _ member
    have data : (merge kcp.rcvQueue).1.flatMap IkcpSeg.data = message := by
      rw [← cut.data, List.flatMap_map]
      rfl
    have bytes : total (merge kcp.rcvQueue).1 = message.length := by rw [total_eq sized, data]
    have bound := short message (List.mem_cons_self ..)
    unfold most at bound
    rw [bytes, int32_of_lt (by omega) (by omega)] at size gives
    split_ifs at takes with peek
    · subst takes
      obtain ⟨got', after, keeps, sending, config⟩ := receiver.refill few frame
      refine ⟨got', [], ?_, keeps, sending, config, by rw [if_neg (by omega)]⟩
      rw [List.append_nil]
      exact after
    · subst takes
      obtain ⟨got', after, keeps, sending, config⟩ := receiver.handOut.refill few frame
      refine ⟨got', _, after, keeps, sending, config, ?_⟩
      have positive : 0 ≤ len := not_lt.mp peek
      have fits := fits positive
      have filled_eq := copyOut_spec sized (bytes.trans_le (by omega : message.length ≤ buffer.length))
      rw [copied, Option.some.injEq, data] at filled_eq
      rw [if_pos ⟨by omega, positive⟩, gives, Int.toNat_natCast, filled_eq, List.take_left]
      exact cut

end Recv

section Input

variable {conv : UInt32} {mine theirs delivered : List Piece} {got reached : ℕ} {kcp peer : Ikcpcb} {datagram : Bytes}

/-- A datagram of whole segments is accepted segment by segment. -/
theorem inputLoop_wires {segs : List IkcpSeg} (all : ∀ seg ∈ segs, seg.conv = kcp.conv ∧ seg.Known ∧ seg.Sized)
    (small : (segs.flatMap wire).length < 2 ^ 32) {fuel : ℕ} (enough : segs.length ≤ fuel) :
    Ikcpcb.inputLoop fuel (segs.flatMap wire) kcp = (0, segs.foldl (fun kcp seg => kcp.accept seg.arrival) kcp) := by
  induction segs generalizing kcp fuel with
  | nil => cases fuel <;> rfl
  | cons seg rest ih =>
    obtain ⟨fuel, rfl⟩ : ∃ less, fuel = less + 1 := ⟨fuel - 1, by rw [List.length_cons] at enough; omega⟩
    obtain ⟨conv, known, sized⟩ := all seg (List.mem_cons_self ..)
    have same : (kcp.accept seg.arrival).conv = kcp.conv := congrArg Prod.fst (config_accept kcp seg.arrival)
    rw [List.flatMap_cons] at small ⊢
    rw [Ikcpcb.inputLoop_wire conv known sized _ small, List.foldl_cons]
    rw [List.length_append] at small
    apply ih
    · intro other member
      rw [same]
      exact all other (List.mem_cons_of_mem _ member)
    · omega
    · exact Nat.le_of_succ_le_succ enough

/-- All segments of a datagram, one after the other. -/
theorem accept_all {segs : List IkcpSeg} (all : ∀ seg ∈ segs, Packet conv mine theirs got kcp seg)
    (sender : Sender theirs (Received got kcp) peer) (receiver : Receiver mine delivered reached peer)
    (fewMine : mine.length ≤ most) (fewTheirs : theirs.length ≤ most) (le : got ≤ theirs.length) :
    ∃ reached' next, segs.foldl (fun peer seg => peer.accept seg.arrival) peer = next ∧
      Sender theirs (Received got kcp) next ∧ Receiver mine delivered reached' next ∧
      Keeps mine reached reached' peer next ∧ next.config = peer.config ∧ next.sndQueue = peer.sndQueue := by
  induction segs generalizing peer reached with
  | nil => exact ⟨reached, peer, rfl, sender, receiver, .refl _ _ _, rfl, rfl⟩
  | cons seg rest ih =>
    have packet := (all seg (List.mem_cons_self ..)).arrival
    obtain ⟨reached₁, receives, keeps₁⟩ := receiver.accept fewMine packet
    obtain ⟨reached₂, next, folded, sends, receiver₂, keeps₂, config, queue⟩ := ih
      (fun other member => all other (List.mem_cons_of_mem _ member)) (sender.accept fewTheirs le packet) receives
    exact ⟨reached₂, next, folded, sends, receiver₂, keeps₁.trans keeps₂, config.trans (config_accept _ _),
      queue.trans (sndQueue_accept _ _)⟩

/-- A datagram of the other end is never rejected, and keeps both directions. -/
theorem input_spec (made : Made (Packet conv mine theirs got kcp) datagram) (short : datagram.length < 2 ^ 32)
    (same : peer.conv = conv) (sender : Sender theirs (Received got kcp) peer)
    (receiver : Receiver mine delivered reached peer) (fewMine : mine.length ≤ most)
    (fewTheirs : theirs.length ≤ most) (le : got ≤ theirs.length) :
    ∃ reached' next, peer.input datagram = (0, next) ∧ Sender theirs (Received got kcp) next ∧
      Receiver mine delivered reached' next ∧ Keeps mine reached reached' peer next ∧
      next.config = peer.config ∧ next.sndQueue = peer.sndQueue := by
  obtain ⟨segs, rfl, all⟩ := made
  rw [Ikcpcb.input]
  split_ifs with empty
  · exact ⟨reached, peer, rfl, sender, receiver, .refl _ _ _, rfl, rfl⟩
  · have heads : ∀ seg ∈ segs, seg.conv = peer.conv ∧ seg.Known ∧ seg.Sized := by
      intro seg member
      have packet := all seg member
      exact ⟨packet.conv.trans same.symm, packet.known, packet.proper.sized⟩
    have enough : segs.length ≤ (segs.flatMap wire).length := by
      rw [List.length_flatMap]
      have lengths : segs.length = (segs.map fun seg => seg.wire.length).length := (List.length_map _).symm
      rw [lengths]
      apply List.length_le_sum_of_one_le
      intro size member
      obtain ⟨seg, found, rfl⟩ := List.mem_map.mp member
      rw [length_wire (heads seg found).2.2]
      omega
    obtain ⟨reached', next, folded, sends, receives, keeps, config, queue⟩ :=
      accept_all all sender receiver fewMine fewTheirs le
    rw [inputLoop_wires heads short enough, folded]
    have frame := Ikcpcb.frame_grow next peer.sndUna
    refine ⟨reached', _, rfl, ?_, ?_, ?_, ?_, ?_⟩
    · exact sends.congr (congrArg (fun frame => frame.2.1) frame)
    · exact receives.congr (congrArg (fun frame => frame.2.2) frame)
    · exact keeps.trans (.of_buf (congrArg (fun frame => frame.2.2.2.2.2.1) frame))
    · exact (congrArg Prod.fst frame).trans config
    · exact (congrArg (fun frame => frame.2.1.2.2.2.1) frame).trans queue

end Input

section Clock

variable {mine theirs delivered : List Piece} {received : ℕ → Prop} {got : ℕ} {kcp next : Ikcpcb}

/-- Telling the time is a flush or nothing. -/
theorem update_cases {current : UInt32} {output : List Bytes} (updated : kcp.update current = some (output, next)) :
    ∃ kcp', kcp'.frame = kcp.frame ∧ (kcp'.flush = some (output, next) ∨ (output = [] ∧ next = kcp')) := by
  unfold Ikcpcb.update at updated
  extract_lets _ told slap late first tsFlush at updated
  have told_frame : told.frame = kcp.frame := by
    unfold told
    split_ifs <;> rfl
  have first_frame : first.frame = kcp.frame := by
    unfold first
    split_ifs
    · exact told_frame
    · exact told_frame
  split_ifs at updated
  · refine ⟨_, ?_, .inl updated⟩
    exact first_frame
  · refine ⟨_, ?_, .inl updated⟩
    exact first_frame
  · obtain ⟨none, same⟩ := Prod.mk.inj (Option.some.inj updated)
    exact ⟨first, first_frame, .inr ⟨none.symm, same.symm⟩⟩

/-- Telling the time fails only where a flush does. -/
theorem update_some (current : UInt32)
    (flushes : ∀ kcp' : Ikcpcb, kcp'.frame = kcp.frame → ∃ result, kcp'.flush = some result) :
    ∃ result, kcp.update current = some result := by
  unfold Ikcpcb.update
  extract_lets _ told slap late first tsFlush
  have told_frame : told.frame = kcp.frame := by
    unfold told
    split_ifs <;> rfl
  have first_frame : first.frame = kcp.frame := by
    unfold first
    split_ifs
    · exact told_frame
    · exact told_frame
  split_ifs
  · exact flushes _ first_frame
  · exact flushes _ first_frame
  · exact ⟨_, rfl⟩

end Clock

end PolarCloud.Engine.Ikcp
