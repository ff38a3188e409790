import Mathlib.Data.List.Perm.Basic
import PolarCloud.Base.Fragments
import PolarCloud.Proofs.Engine.Ikcp.Wire

/-! # What the functions of a block do

One lemma for each function says which segments it keeps, moves or takes away; the invariants use these lemmas, and
do not look into the functions.
-/

namespace PolarCloud.Engine.Ikcp

open IkcpSeg

/-- What stays of a segment when it is sent again or acknowledgements pass it. -/
structure IkcpSeg.Same (seg old : IkcpSeg) : Prop where
  conv : seg.conv = old.conv
  cmd : seg.cmd = old.cmd
  frg : seg.frg = old.frg
  sn : seg.sn = old.sn
  len : seg.len = old.len
  data : seg.data = old.data

theorem IkcpSeg.Same.refl (seg : IkcpSeg) : seg.Same seg := ⟨rfl, rfl, rfl, rfl, rfl, rfl⟩

namespace Ikcpcb

/-- The part of a block that says how it is set up. -/
def config (this : Ikcpcb) : UInt32 × UInt32 × UInt32 × UInt32 × ℕ :=
  (this.conv, this.mtu, this.mss, this.rcvWnd, this.buffer)

/-- The part of a block that sends. -/
def sending (this : Ikcpcb) : UInt32 × UInt32 × List IkcpSeg × List IkcpSeg × UInt32 × UInt32 :=
  (this.conv, this.sndNxt, this.sndBuf, this.sndQueue, this.nsndBuf, this.nsndQue)

/-- The part of a block that receives. -/
def receiving (this : Ikcpcb) : UInt32 × List IkcpSeg × UInt32 × List IkcpSeg × List (UInt32 × UInt32) × UInt32 :=
  (this.rcvNxt, this.rcvQueue, this.nrcvQue, this.rcvBuf, this.acklist, this.nrcvBuf)

/-- All that the functions of the clock and of the window leave alone. -/
def frame (this : Ikcpcb) := (this.config, this.sending, this.receiving)

section Frame

variable (this : Ikcpcb)

theorem frame_updateAck (rtt : ℤ) : (this.updateAck rtt).frame = this.frame := by
  unfold updateAck
  dsimp only
  split_ifs <;> rfl

theorem frame_grow (una : UInt32) : (this.grow una).frame = this.frame := by
  unfold grow
  dsimp only
  split_ifs <;> rfl

theorem frame_probe : this.probe.frame = this.frame := by
  unfold probe
  dsimp only
  split_ifs <;> simp only [frame, config, sending, receiving]

theorem frame_congest (cwnd : UInt32) (change lost : Bool) : (this.congest cwnd change lost).frame = this.frame := by
  unfold congest
  dsimp only
  split_ifs <;> rfl

theorem config_parseAck (sn : UInt32) : (this.parseAck sn).config = this.config := by
  rw [parseAck]
  split_ifs <;> rfl

theorem sndQueue_parseAck (sn : UInt32) : (this.parseAck sn).sndQueue = this.sndQueue := by
  rw [parseAck]
  split_ifs <;> rfl

theorem receiving_parseAck (sn : UInt32) : (this.parseAck sn).receiving = this.receiving := by
  rw [parseAck]
  split_ifs <;> rfl

theorem config_moveQueue (cwnd wnd : UInt32) (queue : List IkcpSeg) :
    (moveQueue cwnd wnd queue this).config = this.config := by
  induction queue generalizing this with
  | nil => rfl
  | cons newseg rest ih =>
    rw [moveQueue]
    split_ifs
    · rfl
    · exact ih _

theorem receiving_moveQueue (cwnd wnd : UInt32) (queue : List IkcpSeg) :
    (moveQueue cwnd wnd queue this).receiving = this.receiving := by
  induction queue generalizing this with
  | nil => rfl
  | cons newseg rest ih =>
    rw [moveQueue]
    split_ifs
    · rfl
    · exact ih _

theorem config_number (wnd : UInt32) : (this.number wnd).config = this.config := config_moveQueue _ _ _ _

theorem receiving_number (wnd : UInt32) : (this.number wnd).receiving = this.receiving := receiving_moveQueue _ _ _ _

theorem frame_sent (cwnd wnd : UInt32) :
    (this.sent cwnd wnd).frame = { this with sndBuf := this.sndBuf.map (this.resend wnd) }.frame :=
  frame_congest _ _ _ _

theorem config_moveAvailable (buf : List IkcpSeg) : (moveAvailable buf this).config = this.config := by
  induction buf generalizing this with
  | nil => rfl
  | cons seg rest ih =>
    rw [moveAvailable]
    split_ifs
    · exact ih _
    · rfl

theorem sending_moveAvailable (buf : List IkcpSeg) : (moveAvailable buf this).sending = this.sending := by
  induction buf generalizing this with
  | nil => rfl
  | cons seg rest ih =>
    rw [moveAvailable]
    split_ifs
    · exact ih _
    · rfl

theorem config_parseData (newseg : IkcpSeg) : (this.parseData newseg).config = this.config := by
  rw [parseData]
  split_ifs
  · rfl
  · rw [config_moveAvailable]
    split <;> rfl

theorem sending_parseData (newseg : IkcpSeg) : (this.parseData newseg).sending = this.sending := by
  rw [parseData]
  split_ifs
  · rfl
  · rw [sending_moveAvailable]
    split <;> rfl

end Frame

theorem insertBack_none {newseg : IkcpSeg} {buf : List IkcpSeg} (known : insertBack newseg buf = none) :
    ∃ seg ∈ buf, seg.sn = newseg.sn := by
  induction buf with
  | nil => cases known
  | cons seg rest ih =>
    rw [insertBack] at known
    split_ifs at known with same ahead
    · exact ⟨seg, List.mem_cons_self .., same⟩
    · obtain ⟨other, member, same⟩ := ih (Option.map_eq_none_iff.mp known)
      exact ⟨other, List.mem_cons_of_mem _ member, same⟩

theorem insertBack_perm {newseg : IkcpSeg} {buf placed : List IkcpSeg}
    (inserted : insertBack newseg buf = some placed) : placed.Perm (newseg :: buf) := by
  induction buf generalizing placed with
  | nil =>
    cases inserted
    exact .refl _
  | cons seg rest ih =>
    rw [insertBack] at inserted
    split_ifs at inserted with same ahead
    · cases inserted
      exact .refl _
    · obtain ⟨behind, placed', rfl⟩ := Option.map_eq_some_iff.mp inserted
      exact (List.Perm.cons seg (ih placed')).trans (.swap newseg seg rest)

/-- Only the segment with the number is taken out, and the others stay as they are sent. -/
theorem mem_removeAcked {sn : UInt32} {buf : List IkcpSeg} {seg : IkcpSeg} (member : seg ∈ removeAcked sn buf) :
    ∃ old ∈ buf, seg.Same old := by
  induction buf with
  | nil => cases member
  | cons first rest ih =>
    rw [removeAcked] at member
    split_ifs at member with same
    · exact ⟨seg, List.mem_cons_of_mem _ member, .refl seg⟩
    · rcases List.mem_cons.mp member with rfl | member
      · exact ⟨first, List.mem_cons_self .., rfl, rfl, rfl, rfl, rfl, rfl⟩
      · obtain ⟨old, found, kept⟩ := ih member
        exact ⟨old, List.mem_cons_of_mem _ found, kept⟩

theorem length_removeAcked (sn : UInt32) (buf : List IkcpSeg) : (removeAcked sn buf).length ≤ buf.length := by
  induction buf with
  | nil => exact le_rfl
  | cons first rest ih =>
    rw [removeAcked]
    split_ifs
    · exact Nat.le_succ _
    · exact Nat.succ_le_succ ih

theorem kept_removeAcked {sn : UInt32} {buf : List IkcpSeg} {old : IkcpSeg} (member : old ∈ buf)
    (other : old.sn ≠ sn) : ∃ seg ∈ removeAcked sn buf, seg.sn = old.sn := by
  induction buf with
  | nil => cases member
  | cons first rest ih =>
    rw [removeAcked]
    rcases List.mem_cons.mp member with rfl | member
    · rw [if_neg other.symm]
      exact ⟨_, List.mem_cons_self .., rfl⟩
    · split_ifs with same
      · exact ⟨old, member, rfl⟩
      · obtain ⟨seg, found, equal⟩ := ih member
        exact ⟨seg, List.mem_cons_of_mem _ found, equal⟩

end Ikcpcb

end PolarCloud.Engine.Ikcp
