import PolarCloud.Proofs.Engine.Ikcp.Window

/-! # No call panics

As long as the unit is never lowered, every segment that waits fits into it, so that a flush stays inside its buffer;
and a receiver's buffer that is as long as the program says has room for every message. A datagram may be longer than
the unit, by one header.
-/

namespace PolarCloud.Engine.Ikcp

open IkcpSeg

/-- A segment that fits behind a header into a unit. -/
def Fits (unit : ℕ) (seg : IkcpSeg) : Prop := seg.Sized ∧ seg.data.length + 24 ≤ unit

/-- The part of a block that sends, with segments that fit into its unit. -/
structure Loaded (kcp : Ikcpcb) : Prop where
  tuned : Tuned (2 ^ 29) kcp
  buffer : kcp.buffer = (kcp.mtu.toNat + 24) * 3
  fits : ∀ seg ∈ kcp.sndQueue ++ kcp.sndBuf, Fits kcp.mtu.toNat seg

theorem Fits.same {unit : ℕ} {seg old : IkcpSeg} (fits : Fits unit old) (len : seg.len = old.len)
    (data : seg.data = old.data) : Fits unit seg := by
  rw [Fits, Sized, len, data]
  exact fits

theorem Fits.mono {unit more : ℕ} {seg : IkcpSeg} (fits : Fits unit seg) (less : unit ≤ more) : Fits more seg :=
  ⟨fits.1, fits.2.trans less⟩

section Loaded

variable {kcp kcp' next : Ikcpcb}

/-- Segments that were there before, as far as their data is concerned. -/
theorem Loaded.of_old (loaded : Loaded kcp) (config : kcp'.config = kcp.config)
    (old : ∀ seg ∈ kcp'.sndQueue ++ kcp'.sndBuf, ∃ old ∈ kcp.sndQueue ++ kcp.sndBuf,
      seg.len = old.len ∧ seg.data = old.data) : Loaded kcp' := by
  have tuned := loaded.tuned.congr config
  simp only [Ikcpcb.config, Prod.mk.injEq] at config
  obtain ⟨-, mtu, -, -, buffer⟩ := config
  refine ⟨tuned, ?_, ?_⟩
  · rw [buffer, mtu]
    exact loaded.buffer
  · intro seg member
    obtain ⟨before, found, len, data⟩ := old seg member
    rw [mtu]
    exact (loaded.fits before found).same len data

theorem Loaded.congr (loaded : Loaded kcp) (config : kcp'.config = kcp.config) (same : kcp'.sending = kcp.sending) :
    Loaded kcp' := by
  simp only [Ikcpcb.sending, Prod.mk.injEq] at same
  obtain ⟨-, -, buf, queue, -⟩ := same
  apply loaded.of_old config
  rw [buf, queue]
  exact fun seg member => ⟨seg, member, rfl, rfl⟩

theorem Loaded.frame (loaded : Loaded kcp) (frame : kcp'.frame = kcp.frame) : Loaded kcp' :=
  loaded.congr (congrArg Prod.fst frame) (congrArg (fun frame => frame.2.1) frame)

theorem mem_parseAck {seg : IkcpSeg} {sn : UInt32} (member : seg ∈ (kcp.parseAck sn).sndBuf) :
    ∃ old ∈ kcp.sndBuf, seg.Same old := by
  rw [Ikcpcb.parseAck] at member
  split_ifs at member
  · exact ⟨seg, member, .refl seg⟩
  · exact Ikcpcb.mem_removeAcked member

/-- Only segments that were there stay in the buffer. -/
theorem mem_accept {seg other : IkcpSeg} (member : seg ∈ (kcp.accept other).sndBuf) :
    ∃ old ∈ kcp.sndBuf, seg.Same old := by
  have kept : ∀ seg ∈ (acknowledged kcp other).sndBuf, seg ∈ kcp.sndBuf :=
    fun seg member => (List.dropWhile_sublist _).subset member
  by_cases ack : other.cmd = cmdAck
  · rw [accept_ack ack] at member
    change seg ∈ (Ikcpcb.parseAck _ _).sndBuf at member
    obtain ⟨old, found, same⟩ := mem_parseAck member
    refine ⟨old, kept old ?_, same⟩
    split_ifs at found
    · have buf : ((acknowledged kcp other).updateAck (itimediff kcp.current other.ts)).sndBuf =
          (acknowledged kcp other).sndBuf := congrArg (fun frame => frame.2.1.2.2.1) (Ikcpcb.frame_updateAck _ _)
      exact buf ▸ found
    · exact found
  · have buf : (kcp.accept other).sndBuf = (acknowledged kcp other).sndBuf :=
      congrArg (fun sending => sending.2.2.1) (sending_accept ack)
    exact ⟨seg, kept seg (buf ▸ member), .refl seg⟩

theorem Loaded.accept (loaded : Loaded kcp) (other : IkcpSeg) : Loaded (kcp.accept other) := by
  apply loaded.of_old (config_accept kcp other)
  intro seg member
  rcases List.mem_append.mp member with queued | member
  · rw [sndQueue_accept] at queued
    exact ⟨seg, List.mem_append_left _ queued, rfl, rfl⟩
  · obtain ⟨old, found, same⟩ := mem_accept member
    exact ⟨old, List.mem_append_right _ found, same.len, same.data⟩

theorem Loaded.input (loaded : Loaded kcp) (data : Bytes) : Loaded (kcp.input data).2 := by
  have loop (fuel : ℕ) : ∀ (data : Bytes) (kcp : Ikcpcb), Loaded kcp → Loaded (Ikcpcb.inputLoop fuel data kcp).2 := by
    induction fuel with
    | zero => exact fun data kcp loaded => loaded
    | succ fuel ih =>
      intro data kcp loaded
      rw [Ikcpcb.inputLoop]
      split_ifs
      · exact loaded
      · dsimp only
        split_ifs
        · exact loaded
        · exact loaded
        · exact loaded
        · exact ih _ _ (loaded.accept _)
  have after := loop data.length data kcp loaded
  rw [Ikcpcb.input]
  split_ifs
  · exact loaded
  · dsimp only
    split_ifs
    · exact after.frame (Ikcpcb.frame_grow _ _)
    · exact after

theorem config_input (data : Bytes) : (kcp.input data).2.config = kcp.config := by
  have loop (fuel : ℕ) : ∀ (data : Bytes) (kcp : Ikcpcb), (Ikcpcb.inputLoop fuel data kcp).2.config = kcp.config := by
    induction fuel with
    | zero => exact fun data kcp => rfl
    | succ fuel ih =>
      intro data kcp
      rw [Ikcpcb.inputLoop]
      split_ifs
      · rfl
      · dsimp only
        split_ifs
        · rfl
        · rfl
        · rfl
        · rw [ih, config_accept]
  rw [Ikcpcb.input]
  split_ifs
  · rfl
  · dsimp only
    split_ifs
    · exact (congrArg Prod.fst (Ikcpcb.frame_grow _ _)).trans (loop _ _ _)
    · exact loop _ _ _

theorem config_recv {buffer filled : Bytes} {len code : ℤ}
    (receives : kcp.recv buffer len = some (code, filled, kcp')) : kcp'.config = kcp.config := by
  rcases recv_cases receives with ⟨-, rfl⟩ | ⟨-, -, -, -, -, taken, takes, frame⟩
  · rfl
  · have same : taken.config = kcp.config := by
      rw [takes]
      split_ifs <;> rfl
    exact (congrArg Prod.fst frame).trans ((Ikcpcb.config_moveAvailable _ _).trans same)

theorem Loaded.recv (loaded : Loaded kcp) {buffer filled : Bytes} {len code : ℤ}
    (receives : kcp.recv buffer len = some (code, filled, kcp')) : Loaded kcp' := by
  rcases recv_cases receives with ⟨-, rfl⟩ | ⟨-, -, -, -, -, taken, takes, frame⟩
  · exact loaded
  · have holds : Loaded taken := by
      rw [takes]
      split_ifs
      · exact loaded
      · exact loaded.congr rfl rfl
    apply Loaded.frame _ frame
    exact holds.congr (Ikcpcb.config_moveAvailable _ _) (Ikcpcb.sending_moveAvailable _ _)

/-- The block that a message is put into. -/
theorem Loaded.send (loaded : Loaded kcp) (message : Bytes) :
    ∃ code next, kcp.send (some message) message.length = some (code, next) ∧ Loaded next ∧ next.mtu = kcp.mtu := by
  unfold Ikcpcb.send
  dsimp only
  rw [if_neg (by omega)]
  split_ifs
  · exact ⟨_, _, rfl, loaded, rfl⟩
  · obtain ⟨segs, made, -, good⟩ := fragments_some kcp.mss.toNat_lt (kcp.count message.length).toNat message
    rw [made]
    refine ⟨_, _, rfl, ⟨loaded.tuned.congr rfl, loaded.buffer, ?_⟩, rfl⟩
    intro seg member
    rcases List.mem_append.mp member with queued | sent
    · rcases List.mem_append.mp queued with old | new
      · exact loaded.fits seg (List.mem_append_left _ old)
      · have mss := loaded.tuned.mss_toNat
        have lower := loaded.tuned.lower
        obtain ⟨sized, short⟩ := good seg new
        exact ⟨sized, by change _ + 24 ≤ kcp.mtu.toNat; omega⟩
    · exact loaded.fits seg (List.mem_append_right _ sent)

theorem Loaded.setmtu (loaded : Loaded kcp) {mtu : ℤ} (small : mtu ≤ 2 ^ 29) (rises : kcp.mtu.toNat ≤ mtu) :
    Loaded (kcp.setmtu mtu).2 ∧ (kcp.setmtu mtu).2.mtu.toNat = mtu.toNat := by
  have tuned := loaded.tuned.setmtu (by unfold most; omega) (by exact_mod_cast small)
  have lower := loaded.tuned.lower
  have number : (UInt32.ofInt mtu).toNat = mtu.toNat := Serial.toNat_ofInt_of_lt (by omega) (by omega)
  rw [Ikcpcb.setmtu, if_neg (by omega)] at tuned ⊢
  refine ⟨⟨tuned, ?_, ?_⟩, number⟩
  · change ((UInt32.ofInt mtu + overhead) * 3).toNat = ((UInt32.ofInt mtu).toNat + 24) * 3
    rw [UInt32.toNat_mul, UInt32.toNat_add, number]
    change (mtu.toNat + 24) % 2 ^ 32 * 3 % 2 ^ 32 = _
    omega
  · intro seg member
    refine (loaded.fits seg member).mono ?_
    change kcp.mtu.toNat ≤ (UInt32.ofInt mtu).toNat
    omega

end Loaded

namespace Writer

/-- The buffer has room for a header behind a unit, and no datagram is longer. -/
structure Roomy (unit : ℕ) (this : Writer) : Prop where
  capacity : unit + 24 ≤ this.capacity
  pending : this.pending.length ≤ unit + 24
  output : ∀ datagram ∈ this.output, datagram.length ≤ unit + 24

variable {unit : ℕ} {this : Writer}

theorem Roomy.release (roomy : Roomy unit this) : Roomy unit this.release := by
  rw [Writer.release]
  split_ifs
  · exact roomy
  · refine ⟨roomy.capacity, Nat.zero_le _, ?_⟩
    intro datagram member
    rcases List.mem_append.mp member with old | new
    · exact roomy.output datagram old
    · rw [List.mem_singleton.mp new]
      exact roomy.pending

theorem pending_release (this : Writer) : this.release.pending = [] := by
  rw [Writer.release]
  split_ifs with empty
  · exact empty
  · rfl

theorem Roomy.put (roomy : Roomy unit this) {bytes : Bytes} (fits : this.pending.length + bytes.length ≤ unit + 24) :
    ∃ next, this.put bytes = some next ∧ Roomy unit next := by
  have capacity := roomy.capacity
  rw [Writer.put, if_pos (by omega)]
  refine ⟨_, rfl, roomy.capacity, ?_, roomy.output⟩
  rw [List.length_append]
  exact fits

theorem Roomy.putHead {mtu : UInt32} (roomy : Roomy mtu.toNat this) (small : mtu.toNat ≤ 2 ^ 29) (seg : IkcpSeg) :
    ∃ next, this.putHead mtu seg = some next ∧ Roomy mtu.toNat next := by
  rw [Writer.putHead, int32_of_lt (by omega) (by omega)]
  split_ifs with full
  · apply roomy.release.put
    rw [pending_release, length_encodeSeg]
    exact Nat.le_add_left _ _
  · apply roomy.put
    rw [length_encodeSeg]
    omega

/-- Bytes that are put one after the other. -/
theorem Roomy.foldlM {α : Type} {items : List α} {f : Writer → α → Option Writer} (roomy : Roomy unit this)
    (each : ∀ item ∈ items, ∀ before, Roomy unit before → ∃ after, f before item = some after ∧ Roomy unit after) :
    ∃ next, items.foldlM f this = some next ∧ Roomy unit next := by
  induction items generalizing this with
  | nil => exact ⟨this, rfl, roomy⟩
  | cons item rest ih =>
    obtain ⟨middle, first, roomy⟩ := each item (List.mem_cons_self ..) this roomy
    rw [List.foldlM_cons, first]
    exact ih roomy fun other member => each other (List.mem_cons_of_mem _ member)

end Writer

section Flush

variable {kcp : Ikcpcb}

theorem putSegment_roomy {seg : IkcpSeg} {this : Writer} (small : kcp.mtu.toNat ≤ 2 ^ 29)
    (fits : Fits kcp.mtu.toNat seg) (wnd : UInt32) (roomy : this.Roomy kcp.mtu.toNat) :
    ∃ next, kcp.putSegment wnd this seg = some next ∧ next.Roomy kcp.mtu.toNat := by
  have same := same_resend kcp wnd seg
  obtain ⟨sized, room⟩ := fits.same same.len same.data
  unfold Ikcpcb.putSegment
  dsimp only
  generalize kcp.resend wnd seg = sent at sized room ⊢
  rw [Sized] at sized
  have need : (overhead + sent.len).toNat = 24 + sent.len.toNat := by
    rw [UInt32.toNat_add]
    change (24 + sent.len.toNat) % 2 ^ 32 = _
    omega
  have length : (encodeSeg sent ++ sent.data.take sent.len.toNat).length = 24 + sent.len.toNat := length_wire sized
  have pending := roomy.pending
  rw [need, int32_of_lt (n := kcp.mtu.toNat) (by omega) (by omega),
    int32_of_lt (n := (24 + sent.len.toNat : ℕ)) (by omega) (by omega), int32_of_lt (by omega) (by omega)]
  split_ifs with idle short full
  · exact ⟨this, rfl, roomy⟩
  · omega
  · apply roomy.release.put
    rw [Writer.pending_release, length]
    change 0 + _ ≤ _
    omega
  · apply roomy.put
    rw [length]
    omega

theorem putProbe_roomy {this : Writer} (small : kcp.mtu.toNat ≤ 2 ^ 29) (ask : Bool) (cmd : UInt32)
    (last : UInt32 × UInt32) (roomy : this.Roomy kcp.mtu.toNat) :
    ∃ next, kcp.putProbe ask cmd last this = some next ∧ next.Roomy kcp.mtu.toNat := by
  rw [Ikcpcb.putProbe]
  split_ifs
  · exact roomy.putHead small _
  · exact ⟨this, rfl, roomy⟩

/-- Segments that leave the queue keep their data. -/
theorem mem_moveQueue (cwnd wnd : UInt32) {queue : List IkcpSeg} {seg : IkcpSeg}
    (member : seg ∈ (Ikcpcb.moveQueue cwnd wnd queue kcp).sndQueue ++ (Ikcpcb.moveQueue cwnd wnd queue kcp).sndBuf) :
    ∃ old ∈ queue ++ kcp.sndBuf, seg.len = old.len ∧ seg.data = old.data := by
  induction queue generalizing kcp with
  | nil => exact ⟨seg, member, rfl, rfl⟩
  | cons newseg rest ih =>
    rw [Ikcpcb.moveQueue] at member
    split_ifs at member
    · exact ⟨seg, member, rfl, rfl⟩
    · obtain ⟨old, found, len, data⟩ := ih member
      rcases List.mem_append.mp found with queued | found
      · exact ⟨old, List.mem_append_left _ (List.mem_cons_of_mem _ queued), len, data⟩
      · rcases List.mem_append.mp found with stays | new
        · exact ⟨old, List.mem_append_right _ stays, len, data⟩
        · rw [List.mem_singleton.mp new] at len data
          exact ⟨newseg, List.mem_append_left _ (List.mem_cons_self ..), len, data⟩

theorem Loaded.number (loaded : Loaded kcp) (wnd : UInt32) : Loaded (kcp.number wnd) := by
  apply loaded.of_old (kcp.config_number wnd)
  intro seg member
  exact @mem_moveQueue { kcp with askSend := false, askTell := false } kcp.window wnd kcp.sndQueue seg member

theorem Loaded.sent (loaded : Loaded kcp) (cwnd wnd : UInt32) : Loaded (kcp.sent cwnd wnd) := by
  apply Loaded.frame _ (kcp.frame_sent cwnd wnd)
  refine @Loaded.of_old kcp _ loaded rfl ?_
  intro seg member
  rcases List.mem_append.mp member with queued | member
  · exact ⟨seg, List.mem_append_left _ queued, rfl, rfl⟩
  · obtain ⟨old, found, rfl⟩ := List.mem_map.mp member
    have same := same_resend kcp wnd old
    exact ⟨old, List.mem_append_right _ found, same.len, same.data⟩

/-- A flush stays inside its buffer. -/
theorem Loaded.flush (loaded : Loaded kcp) : ∃ output next, kcp.flush = some (output, next) ∧ Loaded next ∧
    next.mtu = kcp.mtu ∧ ∀ datagram ∈ output, datagram.length ≤ kcp.mtu.toNat + 24 := by
  have small := loaded.tuned.upper
  unfold Ikcpcb.flush
  split_ifs
  · have empty : Writer.Roomy kcp.mtu.toNat { capacity := kcp.buffer } := by
      refine ⟨?_, Nat.zero_le _, fun _ member => (List.not_mem_nil member).elim⟩
      change _ ≤ kcp.buffer
      rw [loaded.buffer]
      omega
    obtain ⟨acked, acks, roomy⟩ : ∃ acked, kcp.putAcks = some acked ∧ acked.Roomy kcp.mtu.toNat :=
      empty.foldlM fun ack _ before roomy => roomy.putHead small (kcp.head cmdAck ack)
    have cleared : Loaded { kcp with acklist := [] } := loaded.congr rfl rfl
    have asker := cleared.frame (Ikcpcb.frame_probe _)
    have mtu : (Ikcpcb.probe { kcp with acklist := [] }).mtu = kcp.mtu :=
      congrArg (fun frame => frame.1.2.1) (Ikcpcb.frame_probe { kcp with acklist := [] })
    generalize probes : Ikcpcb.probe { kcp with acklist := [] } = asking at asker mtu
    rw [← mtu] at roomy small
    obtain ⟨asked, asks, roomy⟩ := putProbe_roomy small asking.askSend cmdWask (kcp.acklist.getLast?.getD (0, 0)) roomy
    obtain ⟨told, tells, roomy⟩ := putProbe_roomy small asking.askTell cmdWins (kcp.acklist.getLast?.getD (0, 0)) roomy
    have numbered := asker.number kcp.wndUnused
    have unit : (asking.number kcp.wndUnused).mtu = asking.mtu :=
      congrArg (fun config => config.2.1) (asking.config_number kcp.wndUnused)
    generalize numbers : asking.number kcp.wndUnused = number at numbered unit
    rw [← unit] at roomy small
    obtain ⟨written, writes, roomy⟩ : ∃ written,
        number.sndBuf.foldlM (number.putSegment kcp.wndUnused) told = some written ∧ written.Roomy number.mtu.toNat :=
      roomy.foldlM fun seg member before roomy =>
        putSegment_roomy small (numbered.fits seg (List.mem_append_right _ member)) kcp.wndUnused roomy
    refine ⟨written.release.output, number.sent asking.window kcp.wndUnused, ?_, ?_, ?_, ?_⟩
    · simp only [acks, asks, tells, numbers, writes, bind, Option.bind_some, pure]
    · exact numbered.sent asking.window kcp.wndUnused
    · exact (congrArg (fun frame => frame.1.2.1) (number.frame_sent asking.window kcp.wndUnused)).trans
        (unit.trans mtu)
    · rw [← mtu, ← unit]
      exact roomy.release.output
  · exact ⟨[], kcp, rfl, loaded, rfl, fun _ member => (List.not_mem_nil member).elim⟩

end Flush

section Call

variable {kcp : Ikcpcb} {side : Side}

/-- A buffer that is as long as the program says has room for the first message. -/
theorem Holding.recv_some {window size : ℕ} (holding : Holding window size kcp) (few : window * size < 2 ^ 31)
    {buffer : Bytes} {len : ℤ} (room : len.natAbs ≤ buffer.length) : ∃ result, kcp.recv buffer len = some result := by
  have front := congrArg List.length (merge_append kcp.rcvQueue)
  rw [List.length_append] at front
  have queue := holding.queue
  have good : ∀ seg ∈ (merge kcp.rcvQueue).1, seg.Sized ∧ seg.data.length ≤ size := by
    intro seg member
    apply holding.sized
    rw [← merge_append kcp.rcvQueue, List.append_assoc]
    exact List.mem_append_left _ member
  have bytes : total (merge kcp.rcvQueue).1 ≤ window * size :=
    (total_le good).trans (Nat.mul_le_mul_right _ (by omega))
  rw [Ikcpcb.recv]
  rcases eq_or_ne kcp.rcvQueue [] with none | some
  · rw [if_pos none]
    exact ⟨_, rfl⟩
  · simp only [if_neg some]
    rcases lt_or_ge kcp.peeksize 0 with unknown | known
    · rw [if_pos unknown]
      exact ⟨_, rfl⟩
    · rw [if_neg (not_lt.mpr known)]
      have size := peeksize_eq known
      rw [int32_of_lt (by omega) (by omega)] at size
      have long : (if len < 0 then int32 (-len) else len) ≤ buffer.length := by
        split_ifs
        · have less := int32_le (by omega : 0 ≤ -len)
          omega
        · omega
      rcases lt_or_ge (if len < 0 then int32 (-len) else len) kcp.peeksize with small | fits
      · rw [if_pos small]
        exact ⟨_, rfl⟩
      · rw [if_neg (not_lt.mpr fits), copyOut_spec (fun seg member => (good seg member).1) (by omega)]
        exact ⟨_, rfl⟩

/-- A block with all its parts in order, and what it has output. -/
structure Sound (side : Side) : Prop where
  loaded : Loaded side.kcp
  holding : Holding (2 ^ 14) (2 ^ 16) side.kcp
  output : ∀ datagram ∈ side.output, datagram.length ≤ side.kcp.mtu.toNat + 24

/-- A call within limits that does not lower the unit. -/
theorem Sound.call {call : Call} (sound : Sound side) (safe : call.Safe)
    (rises : ∀ unit, call.unit = some unit → (side.kcp.mtu.toNat : ℤ) ≤ unit) :
    ∃ next, side.call call = some next ∧ Sound next ∧
      (next.kcp.mtu.toNat : ℤ) = call.unit.getD side.kcp.mtu.toNat := by
  have within : call.Within (2 ^ 14) (2 ^ 16) := by
    cases call with
    | input datagram => exact safe
    | wndsize sndwnd rcvwnd => exact safe
    | _ => trivial
  have same {next : Side} (none : call.unit = none) (called : side.call call = some next) (loaded : Loaded next.kcp)
      (mtu : next.kcp.mtu = side.kcp.mtu)
      (output : ∀ datagram ∈ next.output, datagram ∈ side.output ∨ datagram.length ≤ side.kcp.mtu.toNat + 24) :
      ∃ next, side.call call = some next ∧ Sound next ∧
        (next.kcp.mtu.toNat : ℤ) = call.unit.getD side.kcp.mtu.toNat := by
    refine ⟨next, called, ⟨loaded, sound.holding.call (by omega) (by omega) within called, ?_⟩, ?_⟩
    · intro datagram member
      rw [mtu]
      exact (output datagram member).elim (sound.output datagram) id
    · rw [mtu, none, Option.getD_none]
  cases call with
  | send message =>
    obtain ⟨code, kcp, sends, loaded, mtu⟩ := sound.loaded.send message
    exact same rfl (congrArg (Option.map _) sends) loaded mtu fun _ => .inl
  | recv buffer len =>
    obtain ⟨⟨code, filled, kcp⟩, receives⟩ := sound.holding.recv_some (by decide) safe
    have mtu : kcp.mtu = side.kcp.mtu := congrArg (fun config => config.2.1) (config_recv receives)
    exact same rfl (congrArg (Option.map _) receives) (sound.loaded.recv receives) mtu fun _ => .inl
  | input datagram =>
    have mtu : (side.kcp.input datagram).2.mtu = side.kcp.mtu :=
      congrArg (fun config => config.2.1) (config_input datagram)
    exact same rfl rfl (sound.loaded.input datagram) mtu fun _ => .inl
  | flush =>
    obtain ⟨output, kcp, flushed, loaded, mtu, short⟩ := sound.loaded.flush
    refine same rfl (congrArg (Option.map _) flushed) loaded mtu ?_
    intro datagram member
    exact (List.mem_append.mp member).imp_right (short datagram)
  | update current =>
    obtain ⟨⟨output, kcp⟩, updated⟩ := update_some current fun told frame => by
      obtain ⟨output, next, flushed, -⟩ := (sound.loaded.frame frame).flush
      exact ⟨_, flushed⟩
    obtain ⟨told, frame, flushes⟩ := update_cases updated
    have unit : told.mtu = side.kcp.mtu := congrArg (fun frame => frame.1.2.1) frame
    have loaded := sound.loaded.frame frame
    rcases flushes with flushes | ⟨rfl, rfl⟩
    · obtain ⟨output', kcp', flushed, after, mtu, short⟩ := loaded.flush
      cases flushes.symm.trans flushed
      refine same rfl (congrArg (Option.map _) updated) after (mtu.trans unit) ?_
      intro datagram member
      rw [← unit]
      exact (List.mem_append.mp member).imp_right (short datagram)
    · refine same rfl (congrArg (Option.map _) updated) loaded unit ?_
      intro datagram member
      exact (List.mem_append.mp member).imp_right fun none => absurd none List.not_mem_nil
  | setmtu mtu =>
    rcases lt_or_ge mtu 50 with small | large
    · have kept : (side.kcp.setmtu mtu).2 = side.kcp := by rw [Ikcpcb.setmtu, if_pos small]
      have none : (Call.setmtu mtu).unit = none := if_pos small
      refine same none rfl ?_ (congrArg Ikcpcb.mtu kept) fun _ => .inl
      change Loaded (side.kcp.setmtu mtu).2
      rw [kept]
      exact sound.loaded
    · have unit : (Call.setmtu mtu).unit = some mtu := if_neg (not_lt.mpr large)
      have more := rises mtu unit
      obtain ⟨loaded, number⟩ := sound.loaded.setmtu safe more
      refine ⟨_, rfl, ⟨loaded, sound.holding.call (by omega) (by omega) within rfl, ?_⟩, ?_⟩
      · intro datagram member
        have short := sound.output datagram member
        change _ ≤ (side.kcp.setmtu mtu).2.mtu.toNat + 24
        omega
      · rw [unit, Option.getD_some]
        change ((side.kcp.setmtu mtu).2.mtu.toNat : ℤ) = mtu
        omega
  | nodelay nodelay interval resend nc =>
    have frame := frame_setNodelay side.kcp nodelay interval resend nc
    exact same rfl rfl (sound.loaded.frame frame) (congrArg (fun frame => frame.1.2.1) frame) fun _ => .inl
  | wndsize sndwnd rcvwnd =>
    have tuned : Tuned (2 ^ 29) (side.kcp.wndsize sndwnd rcvwnd) :=
      ⟨sound.loaded.tuned.mss, sound.loaded.tuned.lower, sound.loaded.tuned.upper, sound.loaded.tuned.buffer⟩
    exact same rfl rfl ⟨tuned, sound.loaded.buffer, sound.loaded.fits⟩ rfl fun _ => .inl

theorem Sound.run {calls : List Call} (sound : Sound side) (safe : ∀ call ∈ calls, call.Safe)
    (rises : ((side.kcp.mtu.toNat : ℤ) :: calls.filterMap Call.unit).Pairwise (· ≤ ·)) :
    ∃ next, side.run calls = some next ∧ Sound next := by
  induction calls generalizing side with
  | nil => exact ⟨side, rfl, sound⟩
  | cons call rest ih =>
    have later := fun other member => safe other (List.mem_cons_of_mem _ member)
    obtain ⟨next, called, after, mtu⟩ : ∃ next, side.call call = some next ∧ Sound next ∧
        (next.kcp.mtu.toNat : ℤ) = call.unit.getD side.kcp.mtu.toNat := by
      apply sound.call (safe call (List.mem_cons_self ..))
      intro unit sets
      rw [List.filterMap_cons_some sets] at rises
      exact (List.pairwise_cons.mp rises).1 unit (List.mem_cons_self ..)
    have rises : ((next.kcp.mtu.toNat : ℤ) :: rest.filterMap Call.unit).Pairwise (· ≤ ·) := by
      rw [mtu]
      cases sets : call.unit with
      | none =>
        rw [List.filterMap_cons_none sets] at rises
        exact rises
      | some unit =>
        rw [List.filterMap_cons_some sets] at rises
        exact (List.pairwise_cons.mp rises).2
    obtain ⟨last, runs, sound⟩ := ih after later rises
    refine ⟨last, ?_, sound⟩
    rw [Side.run, List.foldlM_cons, called]
    exact runs

end Call

/-- As long as the calls keep within the limits and the unit is never lowered, none panics, whatever bytes arrive; and a
datagram is longer than the unit by at most a header. -/
theorem calls_never_panic (conv : UInt32) (calls : List Call) (safe : ∀ call ∈ calls, call.Safe)
    (rises : (1400 :: calls.filterMap Call.unit).Pairwise (· ≤ ·)) :
    ∃ side, (Side.start conv).run calls = some side ∧
      ∀ datagram ∈ side.output, datagram.length ≤ side.kcp.mtu.toNat + 24 := by
  have start : Sound (Side.start conv) := by
    refine ⟨⟨tuned_create conv (by omega), rfl, fun _ member => (List.not_mem_nil member).elim⟩,
      holding_create conv (by omega), fun _ member => (List.not_mem_nil member).elim⟩
  obtain ⟨side, run, sound⟩ := start.run safe rises
  exact ⟨side, run, sound.output⟩

theorem calls_never_panic_raised : ∃ side,
    (Side.start 7).run [.setmtu 1500, .send [1, 2], .input [9], .update 0, .update 100, .recv [0] (-1)] = some side ∧
      ∀ datagram ∈ side.output, datagram.length ≤ side.kcp.mtu.toNat + 24 :=
  calls_never_panic 7 _ (by decide) (by decide)

/-- Three acknowledgements leave together, although they are longer than the unit. -/
example : ((Side.start 7).run [.setmtu 50, .input (encodeSeg { conv := 7, cmd := cmdPush, sn := 0 } ++
    encodeSeg { conv := 7, cmd := cmdPush, sn := 1 } ++ encodeSeg { conv := 7, cmd := cmdPush, sn := 2 }),
    .update 0]).map (fun side => side.output.map List.length) = some [72] := by decide +kernel

/-- Where the unit is lowered, a segment that waits is longer than the buffer. -/
example : (Side.start 7).run [.send (List.replicate 300 0), .update 0, .setmtu 50, .update 100] = none := by
  decide +kernel

end PolarCloud.Engine.Ikcp
