import PolarCloud.Model.Engine.Ikcp

/-! # Segments on the wire

A header keeps the low byte of the command and of the fragment number and the low two bytes of the window. A datagram
that is put together from segments is taken apart into them again.
-/

namespace PolarCloud.Engine.Ikcp

namespace IkcpSeg

/-- A segment as it is written into a datagram. -/
def wire (this : IkcpSeg) : Bytes := encodeSeg this ++ this.data.take this.len.toNat

/-- A segment as it is read from a datagram. -/
def arrival (this : IkcpSeg) : IkcpSeg where
  conv := this.conv
  cmd := .ofNat (this.cmd.toNat % 256)
  frg := .ofNat (this.frg.toNat % 256)
  wnd := .ofNat (this.wnd.toNat % 65536)
  ts := this.ts
  sn := this.sn
  una := this.una
  len := this.len
  data := this.data.take this.len.toNat

/-- The data is as long as the header says. -/
def Sized (this : IkcpSeg) : Prop := this.data.length = this.len.toNat

/-- A command that is known. -/
def Known (this : IkcpSeg) : Prop :=
  this.cmd = cmdPush ∨ this.cmd = cmdAck ∨ this.cmd = cmdWask ∨ this.cmd = cmdWins

end IkcpSeg

open IkcpSeg

@[simp] theorem length_encodeSeg (seg : IkcpSeg) : (encodeSeg seg).length = 24 := by
  simp only [encodeSeg, List.length_append, LittleEndian.length_put]

theorem length_wire {seg : IkcpSeg} (sized : seg.Sized) : seg.wire.length = 24 + seg.len.toNat := by
  rw [wire, List.length_append, length_encodeSeg, List.length_take, sized, min_self]

theorem ofNat_get_put (x : UInt32) : UInt32.ofNat (LittleEndian.get (LittleEndian.put 4 x.toNat)) = x := by
  rw [LittleEndian.get_put (by exact x.toNat_lt), UInt32.ofNat_toNat]

/-- What a header says of its segment. -/
theorem decodeSeg_encodeSeg (seg : IkcpSeg) (behind : Bytes) :
    decodeSeg (encodeSeg seg ++ behind) = { seg.arrival with data := [] } := by
  have conv : decode 4 (encodeSeg seg ++ behind) 0 = seg.conv := ofNat_get_put seg.conv
  have cmd : decode 1 (encodeSeg seg ++ behind) 4 = .ofNat (seg.cmd.toNat % 256) :=
    congrArg UInt32.ofNat (LittleEndian.get_put_mod 1 seg.cmd.toNat)
  have frg : decode 1 (encodeSeg seg ++ behind) 5 = .ofNat (seg.frg.toNat % 256) :=
    congrArg UInt32.ofNat (LittleEndian.get_put_mod 1 seg.frg.toNat)
  have wnd : decode 2 (encodeSeg seg ++ behind) 6 = .ofNat (seg.wnd.toNat % 65536) :=
    congrArg UInt32.ofNat (LittleEndian.get_put_mod 2 seg.wnd.toNat)
  have ts : decode 4 (encodeSeg seg ++ behind) 8 = seg.ts := ofNat_get_put seg.ts
  have sn : decode 4 (encodeSeg seg ++ behind) 12 = seg.sn := ofNat_get_put seg.sn
  have una : decode 4 (encodeSeg seg ++ behind) 16 = seg.una := ofNat_get_put seg.una
  have len : decode 4 (encodeSeg seg ++ behind) 20 = seg.len := ofNat_get_put seg.len
  rw [decodeSeg, conv, cmd, frg, wnd, ts, sn, una, len]
  rfl

theorem arrival_cmd {seg : IkcpSeg} (known : seg.Known) : seg.arrival.cmd = seg.cmd := by
  rcases known with cmd | cmd | cmd | cmd
  all_goals
    rw [arrival, cmd]
    rfl

theorem arrival_frg {seg : IkcpSeg} (small : seg.frg.toNat < 256) : seg.arrival.frg = seg.frg := by
  rw [arrival, Nat.mod_eq_of_lt small, UInt32.ofNat_toNat]

namespace Ikcpcb

/-- A segment in front of a datagram is accepted, and the rest of the datagram follows. -/
theorem inputLoop_wire {this : Ikcpcb} {seg : IkcpSeg} (conv : seg.conv = this.conv) (known : seg.Known)
    (sized : seg.Sized) (behind : Bytes) (small : (seg.wire ++ behind).length < 2 ^ 32) (fuel : ℕ) :
    inputLoop (fuel + 1) (seg.wire ++ behind) this = inputLoop fuel behind (this.accept seg.arrival) := by
  have data : seg.data.take seg.len.toNat = seg.data := List.take_of_length_le sized.le
  have header : seg.wire ++ behind = encodeSeg seg ++ (seg.data ++ behind) := by
    rw [wire, data, List.append_assoc]
  have size := length_wire sized
  rw [List.length_append] at small
  have rest : (seg.wire ++ behind).drop overhead.toNat = seg.data ++ behind := by
    have front : overhead.toNat = (encodeSeg seg).length := (length_encodeSeg seg).symm
    rw [header, front]
    exact List.drop_left
  have total : (UInt32.ofNat (seg.data ++ behind).length).toNat = seg.len.toNat + behind.length := by
    rw [List.length_append, sized, Serial.toNat_ofNat_of_lt (by omega)]
  have enough : ¬ UInt32.ofNat (seg.data ++ behind).length < seg.len := by
    rw [UInt32.lt_iff_toNat_lt, total]
    omega
  have long : ¬ (seg.wire ++ behind).length < overhead.toNat := by
    rw [List.length_append, size]
    change ¬ _ < 24
    omega
  rw [inputLoop, if_neg long, rest, header, decodeSeg_encodeSeg]
  change (if seg.conv ≠ this.conv then (-1, this) else if _ < seg.len then (-2, this) else if _ then (-3, this)
    else inputLoop fuel ((seg.data ++ behind).drop seg.len.toNat)
      (this.accept { seg.arrival with data := (seg.data ++ behind).take seg.len.toNat })) = _
  rw [if_neg (not_not.mpr conv), if_neg enough, if_neg, ← sized, List.drop_left, List.take_left]
  · congr 2
    rw [arrival, data]
  · rw [arrival_cmd known]
    rintro ⟨push, ack, wask, wins⟩
    rcases known with same | same | same | same
    · exact push same
    · exact ack same
    · exact wask same
    · exact wins same

end Ikcpcb

end PolarCloud.Engine.Ikcp
