import PolarCloud.Base.Follow
import PolarCloud.Proofs.Store.Download

/-! # How many requests a download makes

The turns of a download are a walk over its users, and every answer that is written brings the file, or the place in
it, nearer to the length that is known. So the download ends unless it goes on and on with answers that are too short
and are thrown away, or with a file that is longer than the chunk is known to be. It ends with a panic where a reply
is not read.
-/

namespace PolarCloud.Store

open Slices

namespace Transfer

variable (filehash : Bytes) (fc : FileChunk)

/-- An answer is shorter than what was asked for, and is thrown away. -/
def Short (this : Transfer) (answer : FileChunkVO) : Prop :=
  (answer.content.length : ℤ) <
    ({ this with length := (this.request filehash fc).length } : Transfer).asked (this.request filehash fc).index

instance (this : Transfer) (answer : FileChunkVO) : Decidable (this.Short filehash fc answer) := Int.decLt _ _

/-- What is known when an answer has come, and what there is when it is accepted. -/
def answered (this : Transfer) (answer : FileChunkVO) : Transfer :=
  ({ this with length := (this.request filehash fc).length }.learn answer.contentLength).accept
    (this.request filehash fc).index answer.content

end Transfer

/-- Where a download is: the users that are left, the first of which is asked, and the number of the request. -/
structure Asking where
  users : List Peer
  k : ℕ
  transfer : Transfer

namespace Asking

variable (filehash : Bytes) (fc : FileChunk)

/-- The next turn. -/
def next (this : Asking) : Option Asking :=
  match this.users with
  | [] => none
  | peer :: rest =>
      match turn filehash fc peer this.k this.transfer with
      | .finished _ => none
      | .left transfer => some { users := rest, k := 0, transfer := { transfer with place := 0 } }
      | .again transfer => some { users := peer :: rest, k := this.k + 1, transfer }
      | .panicked _ => none

/-- The user gives less than it is asked for, or what leaves the file longer than the chunk is known to be then. -/
def Wasted (this : Asking) : Prop :=
  match this.users with
  | [] => False
  | peer :: _ =>
      match peer this.k (this.transfer.request filehash fc) with
      | .nothing => False
      | .unread => False
      | .answer answer => answer.content ≠ [] ∧ (this.transfer.Short filehash fc answer ∨
          max this.transfer.contentlength.toNat answer.contentLength.toNat <
            (this.transfer.answered filehash fc answer).file.length)

instance : DecidablePred (Wasted filehash fc) := fun this => by
  unfold Wasted
  split
  · exact instDecidableFalse
  · split
    · exact instDecidableFalse
    · exact instDecidableFalse
    · exact instDecidableAnd

/-- What the user replies to the next request is not read. -/
def Unread (this : Asking) : Prop :=
  match this.users with
  | [] => False
  | peer :: _ => ¬ this.transfer.Complete ∧ peer this.k (this.transfer.request filehash fc) = .unread

/-- No answer names a larger length. -/
def Bounded (most : ℕ) (peer : Peer) : Prop :=
  ∀ k vo answer, peer k vo = .answer answer → answer.contentLength.toNat ≤ most

structure Known (most : ℕ) (this : Asking) : Prop where
  place : this.transfer.place ≤ this.transfer.file.length
  contentlength : this.transfer.contentlength.toNat ≤ most
  bounded : ∀ peer ∈ this.users, Bounded most peer

/-- How many turns are left to do. -/
def left (most : ℕ) (this : Asking) : ℕ :=
  match this.users with
  | [] => 0
  | _ :: rest =>
      rest.length * (2 * most + 1) + (2 * most - (this.transfer.file.length + this.transfer.place)) + 1

end Asking

section Turn

variable {filehash : Bytes} {fc : FileChunk} {transfer : Transfer}

theorem length_writeAt {α : Type*} (items written : List α) {place : ℕ} (inside : place ≤ items.length) :
    (writeAt items place written).length = max items.length (place + written.length) := by
  rw [writeAt, List.length_append, List.length_append, List.length_take, List.length_drop]
  omega

/-- What is known of the length after an answer. -/
theorem learn_contentlength (transfer : Transfer) (contentLength : UInt64) :
    (transfer.learn contentLength).contentlength.toNat = max transfer.contentlength.toNat contentLength.toNat := by
  rw [Transfer.learn]
  dsimp only
  split_ifs with more
  · exact (max_eq_right (UInt64.le_iff_toNat_le.mp more)).symm
  · exact (max_eq_left (Nat.le_of_not_le fun less => more (UInt64.le_iff_toNat_le.mpr less))).symm

theorem answered_eq (filehash : Bytes) (fc : FileChunk) (transfer : Transfer) (answer : FileChunkVO) :
    transfer.answered filehash fc answer =
      let asked : Transfer := { transfer with length := (transfer.request filehash fc).length }
      let known := asked.learn answer.contentLength
      if transfer.Short filehash fc answer then known
      else if asked.asked (transfer.request filehash fc).index < answer.content.length then
        { known with
          file := writeAt transfer.file transfer.place answer.content
          place := transfer.place + answer.content.length }
      else
        { known with
          file := writeAt transfer.file transfer.file.length answer.content
          place := transfer.file.length + answer.content.length } := rfl

/-- What is accepted makes the file longer, or brings the place in it further, unless it is too short. -/
theorem answered_spec (filehash : Bytes) (fc : FileChunk) (place : transfer.place ≤ transfer.file.length)
    {answer : FileChunkVO} (some_ : answer.content ≠ []) :
    (transfer.answered filehash fc answer).place ≤ (transfer.answered filehash fc answer).file.length ∧
      (transfer.answered filehash fc answer).contentlength.toNat =
        max transfer.contentlength.toNat answer.contentLength.toNat ∧
      transfer.file.length + transfer.place + 1 ≤ (transfer.answered filehash fc answer).file.length +
        (transfer.answered filehash fc answer).place + if transfer.Short filehash fc answer then 1 else 0 := by
  have long := List.length_pos_of_ne_nil some_
  have knows := learn_contentlength { transfer with length := (transfer.request filehash fc).length } answer.contentLength
  rw [answered_eq]
  dsimp only
  split_ifs
  · exact ⟨place, knows, Nat.le_refl _⟩
  · refine ⟨?_, knows, ?_⟩
    · dsimp only
      rw [length_writeAt _ _ place]
      omega
    · dsimp only
      rw [length_writeAt _ _ place]
      omega
  · refine ⟨?_, knows, ?_⟩
    · dsimp only
      rw [writeAt_end, List.length_append]
    · dsimp only
      rw [writeAt_end, List.length_append]
      omega

/-- How a turn ends: the file is complete, the user is left with the file as it is, his answer is accepted, or his reply
is not read. -/
theorem turn_cases (filehash : Bytes) (fc : FileChunk) (peer : Peer) (k : ℕ) (transfer : Transfer) :
    (∃ after, turn filehash fc peer k transfer = .finished after) ∨
    (∃ length contentlength, turn filehash fc peer k transfer = .left { transfer with length, contentlength } ∧
      ∀ most, transfer.contentlength.toNat ≤ most → Asking.Bounded most peer → contentlength.toNat ≤ most) ∨
    (∃ answer, peer k (transfer.request filehash fc) = .answer answer ∧ answer.content ≠ [] ∧
      turn filehash fc peer k transfer = .again (transfer.answered filehash fc answer)) ∨
    ∃ after, turn filehash fc peer k transfer = .panicked after := by
  rw [turn]
  split_ifs with complete
  · exact .inl ⟨_, rfl⟩
  · dsimp only
    cases asked : peer k (transfer.request filehash fc) with
    | nothing => exact .inr (.inl ⟨_, _, rfl, fun most known _ => known⟩)
    | unread => exact .inr (.inr (.inr ⟨_, rfl⟩))
    | answer answer =>
      have knows := learn_contentlength { transfer with length := (transfer.request filehash fc).length }
        answer.contentLength
      dsimp only
      split_ifs with complete' empty
      · exact .inl ⟨_, rfl⟩
      · refine .inr (.inl ⟨_, _, rfl, fun most known bounded => ?_⟩)
        exact knows.le.trans (max_le known (bounded k _ _ asked))
      · exact .inr (.inr (.inl ⟨answer, rfl, empty, rfl⟩))

theorem turn_panicked_iff {peer : Peer} {k : ℕ} : (∃ after, turn filehash fc peer k transfer = .panicked after) ↔
    ¬ transfer.Complete ∧ peer k (transfer.request filehash fc) = .unread := by
  rw [turn]
  split_ifs with complete
  · exact iff_of_false (by rintro ⟨_, ⟨⟩⟩) fun both => both.1 complete
  · dsimp only
    cases asked : peer k (transfer.request filehash fc) with
    | nothing => exact iff_of_false (by rintro ⟨_, ⟨⟩⟩) (by rintro ⟨_, ⟨⟩⟩)
    | unread => exact iff_of_true ⟨_, rfl⟩ ⟨complete, rfl⟩
    | answer answer =>
      refine iff_of_false ?_ (by rintro ⟨_, ⟨⟩⟩)
      rintro ⟨_, is⟩
      dsimp only at is
      split_ifs at is

end Turn

namespace Asking

variable {filehash : Bytes} {fc : FileChunk} {most : ℕ} {this other : Asking}

/-- The next user has less to do. -/
theorem left_rest {peer : Peer} {rest : List Peer} {k : ℕ} (transfer after : Transfer) :
    left most { users := rest, k := 0, transfer := { after with place := 0 } } + 1 ≤
      left most { users := peer :: rest, k, transfer } := by
  rw [left, left]
  cases rest with
  | nil => dsimp only; omega
  | cons second rest =>
    have more : (second :: rest).length * (2 * most + 1) = rest.length * (2 * most + 1) + (2 * most + 1) :=
      Nat.succ_mul _ _
    dsimp only
    omega

/-- An answer that is accepted leaves less to do, unless it is wasted. -/
theorem left_answered {peer : Peer} {rest : List Peer} {k : ℕ} {transfer : Transfer} {answer : FileChunkVO}
    (known : Known most { users := peer :: rest, k, transfer })
    (asked : peer k (transfer.request filehash fc) = .answer answer) (some_ : answer.content ≠ []) :
    Known most { users := peer :: rest, k := k + 1, transfer := transfer.answered filehash fc answer } ∧
      left most { users := peer :: rest, k := k + 1, transfer := transfer.answered filehash fc answer } + 1 ≤
        left most { users := peer :: rest, k, transfer } +
          if Wasted filehash fc { users := peer :: rest, k, transfer } then 1 else 0 := by
  obtain ⟨place, contentlength, bounded⟩ := known
  dsimp only at place contentlength
  obtain ⟨place', knows, grows⟩ := answered_spec filehash fc place some_
  have known' : (transfer.answered filehash fc answer).contentlength.toNat ≤ most := by
    rw [knows]
    exact max_le contentlength (bounded peer (List.mem_cons_self ..) k _ _ asked)
  refine ⟨⟨place', known', bounded⟩, ?_⟩
  have wasted : Wasted filehash fc { users := peer :: rest, k, transfer } ↔
      transfer.Short filehash fc answer ∨ (transfer.answered filehash fc answer).contentlength.toNat <
        (transfer.answered filehash fc answer).file.length := by
    rw [Wasted]
    dsimp only
    rw [asked, knows]
    exact and_iff_right some_
  rw [left, left]
  dsimp only
  by_cases short : transfer.Short filehash fc answer
  · rw [if_pos (wasted.mpr (.inl short))]
    rw [if_pos short] at grows
    omega
  · rw [if_neg short] at grows
    by_cases long : (transfer.answered filehash fc answer).contentlength.toNat <
        (transfer.answered filehash fc answer).file.length
    · rw [if_pos (wasted.mpr (.inr long))]
      omega
    · rw [if_neg (mt wasted.mp (not_or.mpr ⟨short, long⟩))]
      omega

/-- A turn that is not wasted leaves less to do, and no turn leaves more. -/
theorem next_progress (this other : Asking) (known : Known most this) (step : next filehash fc this = some other) :
    Known most other ∧ left most other + 1 ≤ left most this + if Wasted filehash fc this then 1 else 0 := by
  obtain ⟨users, k, transfer⟩ := this
  cases users with
  | nil => cases step
  | cons peer rest =>
    rw [next] at step
    dsimp only at step
    rcases turn_cases filehash fc peer k transfer with ⟨_, ends⟩ | ⟨length, content, ends, kept⟩ |
      ⟨answer, asked, some_, ends⟩ | ⟨_, ends⟩
    · rw [ends] at step
      cases step
    · rw [ends] at step
      cases step
      obtain ⟨first, others⟩ := List.forall_mem_cons.mp known.bounded
      exact ⟨⟨Nat.zero_le _, kept most known.contentlength first, others⟩,
        (left_rest transfer _).trans (Nat.le_add_right _ _)⟩
    · rw [ends] at step
      cases step
      exact left_answered known asked some_
    · rw [ends] at step
      cases step

/-! ## Fuel -/

theorem ask_succ {peer : Peer} {fuel k : ℕ} {transfer : Transfer} {ended : Ended}
    (asked : ask filehash fc peer fuel k transfer = some ended) :
    ask filehash fc peer (fuel + 1) k transfer = some ended := by
  induction fuel generalizing k transfer with
  | zero => cases asked
  | succ fuel ih =>
    rw [ask] at asked ⊢
    cases ends : turn filehash fc peer k transfer with
    | finished after => rwa [ends] at asked
    | left after => rwa [ends] at asked
    | again after =>
      rw [ends] at asked
      exact ih asked
    | panicked after => rwa [ends] at asked

theorem askAll_succ {users : List Peer} {fuel : ℕ} {transfer : Transfer} {ended : Ended}
    (asked : askAll filehash fc fuel users transfer = some ended) :
    askAll filehash fc (fuel + 1) users transfer = some ended := by
  induction users generalizing transfer with
  | nil => exact asked
  | cons peer rest ih =>
    rw [askAll] at asked ⊢
    cases first : ask filehash fc peer fuel 0 { transfer with place := 0 } with
    | none =>
      rw [first] at asked
      cases asked
    | some one =>
      rw [first] at asked
      rw [ask_succ first]
      cases one with
      | complete => exact asked
      | incomplete after => exact ih asked
      | panicked => exact asked

/-- The rest of a download. -/
def resume (filehash : Bytes) (fc : FileChunk) (fuel : ℕ) (this : Asking) : Option Ended :=
  match this.users with
  | [] => some (.incomplete this.transfer)
  | peer :: rest =>
      match ask filehash fc peer fuel this.k this.transfer with
      | some (.incomplete transfer) => askAll filehash fc fuel rest transfer
      | ended => ended

/-- Where the users are asked from the first on. -/
def start (users : List Peer) (transfer : Transfer) : Asking :=
  { users, k := 0, transfer := { transfer with place := 0 } }

/-- It ends, and not with a panic. -/
def Settles (ended : Option Ended) : Prop :=
  (∃ after, ended = some (.complete after)) ∨ ∃ after, ended = some (.incomplete after)

theorem not_settles_none : ¬ Settles none := by
  rintro (⟨_, is⟩ | ⟨_, is⟩)
  · cases is
  · cases is

theorem not_settles_panicked {after : Transfer} : ¬ Settles (some (.panicked after)) := by
  rintro (⟨_, is⟩ | ⟨_, is⟩)
  · cases is
  · cases is

theorem settles_resume_start (fuel : ℕ) (users : List Peer) (transfer : Transfer) :
    Settles (resume filehash fc fuel (start users transfer)) ↔ Settles (askAll filehash fc fuel users transfer) := by
  cases users with
  | nil => exact iff_of_true (.inr ⟨_, rfl⟩) (.inr ⟨_, rfl⟩)
  | cons peer rest =>
    rw [askAll]
    rfl

theorem Settles.askAll_succ {users : List Peer} {fuel : ℕ} {transfer : Transfer}
    (settles : Settles (askAll filehash fc fuel users transfer)) :
    Settles (askAll filehash fc (fuel + 1) users transfer) := by
  rcases settles with ⟨after, asked⟩ | ⟨after, asked⟩
  · exact .inl ⟨after, Asking.askAll_succ asked⟩
  · exact .inr ⟨after, Asking.askAll_succ asked⟩

/-- The turns with one user. -/
theorem ends_of_ask {peer : Peer} {rest : List Peer} {fuel k : ℕ} {transfer after : Transfer}
    (asked : ask filehash fc peer fuel k transfer = some (.complete after) ∨
      ask filehash fc peer fuel k transfer = some (.incomplete after) ∧
        ∃ last, Follow.Ends (next filehash fc) (start rest after) last ∧ ¬ Unread filehash fc last) :
    ∃ last, Follow.Ends (next filehash fc) { users := peer :: rest, k, transfer } last ∧ ¬ Unread filehash fc last := by
  induction fuel generalizing k transfer with
  | zero =>
    rcases asked with asked | ⟨asked, _⟩
    · cases asked
    · cases asked
  | succ fuel ih =>
    rw [ask] at asked
    cases ends : turn filehash fc peer k transfer with
    | finished last =>
      refine ⟨_, .here (by rw [next]; dsimp only; rw [ends]), fun unread => ?_⟩
      obtain ⟨_, panics⟩ := turn_panicked_iff.mpr unread
      cases ends.symm.trans panics
    | left last =>
      rw [ends] at asked
      rcases asked with asked | ⟨asked, last', later, calm⟩
      · cases asked
      · cases asked
        exact ⟨last', .step (by rw [next]; dsimp only; rw [ends]; rfl) later, calm⟩
    | again other =>
      rw [ends] at asked
      obtain ⟨last, later, calm⟩ := ih asked
      exact ⟨last, .step (by rw [next]; dsimp only; rw [ends]) later, calm⟩
    | panicked last =>
      rw [ends] at asked
      rcases asked with asked | ⟨asked, _⟩
      · cases asked
      · cases asked

theorem ends_of_askAll {users : List Peer} {fuel : ℕ} {transfer : Transfer}
    (settles : Settles (askAll filehash fc fuel users transfer)) :
    ∃ last, Follow.Ends (next filehash fc) (start users transfer) last ∧ ¬ Unread filehash fc last := by
  induction users generalizing transfer with
  | nil => exact ⟨_, .here rfl, id⟩
  | cons peer rest ih =>
    rw [askAll] at settles
    cases first : ask filehash fc peer fuel 0 { transfer with place := 0 } with
    | none =>
      rw [first] at settles
      exact absurd settles not_settles_none
    | some one =>
      rw [first] at settles
      cases one with
      | complete after => exact ends_of_ask (.inl first)
      | incomplete after => exact ends_of_ask (.inr ⟨first, ih settles⟩)
      | panicked after => exact absurd settles not_settles_panicked

/-- Where there is no next turn, one is enough. -/
theorem resume_last {last : Asking} (ended : next filehash fc last = none) (calm : ¬ Unread filehash fc last) :
    Settles (resume filehash fc 1 last) := by
  obtain ⟨users, k, transfer⟩ := last
  cases users with
  | nil => exact .inr ⟨_, rfl⟩
  | cons peer rest =>
    rw [next] at ended
    rw [resume]
    dsimp only at ended ⊢
    rw [ask]
    cases turned : turn filehash fc peer k transfer with
    | finished after => exact .inl ⟨_, rfl⟩
    | left after =>
      rw [turned] at ended
      cases ended
    | again after =>
      rw [turned] at ended
      cases ended
    | panicked after => exact absurd (turn_panicked_iff.mp ⟨after, turned⟩) calm

/-- One turn takes one more. -/
theorem resume_next {this other : Asking} {fuel : ℕ} (step : next filehash fc this = some other)
    (settles : Settles (resume filehash fc fuel other)) : Settles (resume filehash fc (fuel + 1) this) := by
  obtain ⟨users, k, transfer⟩ := this
  cases users with
  | nil => cases step
  | cons peer rest =>
    rw [next] at step
    rw [resume]
    dsimp only at step ⊢
    rw [ask]
    cases turned : turn filehash fc peer k transfer with
    | finished after =>
      rw [turned] at step
      cases step
    | left after =>
      rw [turned] at step
      cases step
      exact ((settles_resume_start fuel rest after).mp settles).askAll_succ
    | again after =>
      rw [turned] at step
      cases step
      rw [resume] at settles
      dsimp only at settles ⊢
      cases asked : ask filehash fc peer fuel (k + 1) after with
      | none =>
        rw [asked] at settles
        exact absurd settles not_settles_none
      | some one =>
        rw [asked] at settles
        cases one with
        | complete => exact settles
        | incomplete => exact settles.askAll_succ
        | panicked => exact settles
    | panicked after =>
      rw [turned] at step
      cases step

theorem resume_of_ends {this last : Asking} (ends : Follow.Ends (next filehash fc) this last)
    (calm : ¬ Unread filehash fc last) : ∃ fuel, Settles (resume filehash fc fuel this) := by
  obtain ⟨steps, ended⟩ := ends
  induction steps using Relation.ReflTransGen.head_induction_on with
  | refl => exact ⟨1, resume_last ended calm⟩
  | head step _ ih =>
    obtain ⟨fuel, settles⟩ := ih
    exact ⟨fuel + 1, resume_next step settles⟩

/-- With enough fuel a download settles exactly when its walk ends where a reply is read. -/
theorem exists_askAll_iff (users : List Peer) (transfer : Transfer) :
    (∃ fuel, Settles (askAll filehash fc fuel users transfer)) ↔
      ∃ last, Follow.Ends (next filehash fc) (start users transfer) last ∧ ¬ Unread filehash fc last := by
  constructor
  · rintro ⟨fuel, settles⟩
    exact ends_of_askAll settles
  · rintro ⟨last, ends, calm⟩
    obtain ⟨fuel, settles⟩ := resume_of_ends ends calm
    exact ⟨fuel, (settles_resume_start fuel users transfer).mp settles⟩

/-- A reply that is not read ends the walk. -/
theorem next_of_unread {this : Asking} (unread : Unread filehash fc this) : next filehash fc this = none := by
  obtain ⟨users, k, transfer⟩ := this
  cases users with
  | nil => exact unread.elim
  | cons peer rest =>
    obtain ⟨after, panics⟩ := turn_panicked_iff.mpr unread
    rw [next]
    dsimp only
    rw [panics]

/-! ## The bound -/

theorem start_known (users : List Peer) (transfer : Transfer) (length : transfer.contentlength.toNat ≤ most)
    (bounded : ∀ peer ∈ users, Bounded most peer) : Known most (start users transfer) :=
  ⟨Nat.zero_le _, length, bounded⟩

theorem left_start_le (users : List Peer) (transfer : Transfer) :
    left most (start users transfer) ≤ users.length * (2 * most + 1) := by
  rw [left, start]
  dsimp only
  cases users with
  | nil => exact Nat.zero_le _
  | cons peer rest =>
    have more : (peer :: rest).length * (2 * most + 1) = rest.length * (2 * most + 1) + (2 * most + 1) :=
      Nat.succ_mul _ _
    dsimp only
    omega

end Asking

section Chunk

variable {fileinfo : FileInfo} {no : ℕ} {fc : FileChunk} {users : List Peer} {disk : Disk}

/-- A download ends, and not with a panic. -/
def Returns (fileinfo : FileInfo) (no : ℕ) (users : List Peer) (disk : Disk) : Prop :=
  ∃ fuel outcome after, downloadFilechunkToLocal fuel fileinfo no users disk = some (outcome, after) ∧
    outcome ≠ .panicked

/-- How many of the first turns of a download are wasted. -/
def wastes (filehash : Bytes) (fc : FileChunk) (users : List Peer) (disk : Disk) (turns : ℕ) : ℕ :=
  Follow.wastes (Asking.next filehash fc) (Asking.Wasted filehash fc) turns (.start users (start disk fc))

/-- Some reply that a download waits for is not read. -/
def Misread (filehash : Bytes) (fc : FileChunk) (users : List Peer) (disk : Disk) : Prop :=
  ∃ turns place, Follow.after (Asking.next filehash fc) turns (.start users (start disk fc)) = some place ∧
    Asking.Unread filehash fc place

theorem returns_iff (found : (fileinfo.fileChunk.find? fun one => one.no = no) = some fc) :
    Returns fileinfo no users disk ↔ (disk.dir.load (.b58 fc.hash)).isSome = true ∨
      ∃ fuel, Asking.Settles (askAll fileinfo.hash fc fuel users (start disk fc)) := by
  cases present : disk.dir.load (.b58 fc.hash) with
  | some stored =>
    refine iff_of_true ⟨0, .ok, disk, ?_, by simp⟩ (.inl rfl)
    rw [downloadFilechunkToLocal, found]
    simp only [present, Option.isSome_some, if_true]
  | none =>
    rw [or_iff_right (by simp), Returns]
    simp only [downloadFilechunkToLocal_eq found present]
    apply exists_congr
    intro fuel
    rcases askAll fileinfo.hash fc fuel users (start disk fc) with _ | one
    · simp [Asking.Settles]
    · cases one <;> simp [Asking.Settles]

/-- A user that gives one byte of nine, however often it is asked. -/
def miser : Peer := fun _ vo => .answer { vo with content := [1], contentLength := 9 }

/-- A download returns exactly when the chunk is there, or when it comes to finitely many wasted turns and every reply
it waits for is read. In any case its turns are not more than the wasted ones and what the number of users and the
largest length allow. -/
theorem download_returns_iff (fileinfo : FileInfo) (no : ℕ) (fc : FileChunk) (users : List Peer) (disk : Disk)
    (most : ℕ) (found : (fileinfo.fileChunk.find? fun one => one.no = no) = some fc)
    (bounded : ∀ peer ∈ users, Asking.Bounded most peer) :
    (Returns fileinfo no users disk ↔ (disk.dir.load (.b58 fc.hash)).isSome = true ∨
      (∃ few, ∀ turns, wastes fileinfo.hash fc users disk turns ≤ few) ∧ ¬ Misread fileinfo.hash fc users disk) ∧
    ∀ turns last, Follow.after (Asking.next fileinfo.hash fc) turns (.start users (start disk fc)) = some last →
      turns ≤ users.length * (2 * most + 1) + wastes fileinfo.hash fc users disk turns := by
  have known := Asking.start_known users (start disk fc) (Nat.zero_le most) bounded
  constructor
  · rw [returns_iff found, Asking.exists_askAll_iff, Follow.exists_ends_and_iff]
    refine or_congr_right (and_congr (Follow.ends_iff_wastes_le Asking.next_progress known) ?_)
    constructor
    · rintro read ⟨turns, place, reached, unread⟩
      exact read turns place reached (Asking.next_of_unread unread) unread
    · intro read turns place reached _ unread
      exact read ⟨turns, place, reached, unread⟩
  · intro turns last reached
    have steps := Follow.steps_le Asking.next_progress known reached
    have left := @Asking.left_start_le most users (start disk fc)
    rw [wastes]
    omega

/-- A user that never answers. -/
def silent : Peer := fun _ _ => .nothing

/-- A user whose replies are not read. -/
def babbler : Peer := fun _ _ => .unread

/-- A download from a user that never answers returns, and one from a user whose reply is not read does not. -/
theorem twoBytes_returns_iff : Returns twoBytes 0 [silent] emptyDisk ∧ ¬ Returns twoBytes 0 [babbler] emptyDisk := by
  have found : (twoBytes.fileChunk.find? fun one => one.no = 0) = some (chunkAt padded [1, 2] 0) := by decide
  have quiet : ∀ peer ∈ [silent], Asking.Bounded 0 peer := by
    intro peer member k vo answer answers
    cases List.mem_singleton.mp member
    cases answers
  have loud : ∀ peer ∈ [babbler], Asking.Bounded 0 peer := by
    intro peer member k vo answer answers
    cases List.mem_singleton.mp member
    cases answers
  refine ⟨(download_returns_iff twoBytes 0 _ [silent] emptyDisk 0 found quiet).1.mpr (.inr ⟨⟨0, ?_⟩, ?_⟩),
    fun returns => ?_⟩
  · rintro (_ | _ | turns)
    · exact Nat.le_refl 0
    · decide
    · exact Nat.le_refl 0
  · rintro ⟨_ | _ | turns, place, reached, unread⟩
    · cases reached
      cases unread.2
    · cases reached
      exact unread
    · cases reached
  · rcases (download_returns_iff twoBytes 0 _ [babbler] emptyDisk 0 found loud).1.mp returns with there | ⟨-, read⟩
    · cases there
    · exact read ⟨0, _, rfl, by decide, rfl⟩

/-- Its answers are thrown away, and the next request is like the one before. -/
theorem ask_miser {filehash : Bytes} {transfer : Transfer} {fuel k : ℕ} (file : transfer.file = [])
    (length : 9 ≤ transfer.length.toNat ∧ transfer.length.toNat < 2 ^ 63)
    (known : transfer.contentlength = 0 ∨ transfer.contentlength = 9) :
    ask filehash fc miser fuel k transfer = none := by
  induction fuel generalizing k transfer with
  | zero => rfl
  | succ fuel ih =>
    have empty : transfer.size = 0 := by rw [Transfer.size, file]; rfl
    have incomplete (other : Transfer) (same : other.file = transfer.file) : ¬ other.Complete := by
      rintro ⟨size, some_⟩
      rw [Transfer.size, same, file] at size
      exact some_ size.symm
    have index : (transfer.request filehash fc).index = 0 := empty
    have asks : 9 ≤ (transfer.request filehash fc).length.toNat ∧
        (transfer.request filehash fc).length.toNat < 2 ^ 63 := by
      rw [Transfer.request, empty]
      dsimp only
      rw [UInt64.add_zero]
      split_ifs with clipped
      · rw [known.resolve_left clipped.2]
        decide
      · exact length
    let answer : FileChunkVO := { transfer.request filehash fc with content := [1], contentLength := 9 }
    have short : transfer.Short filehash fc answer := by
      have size : answer.content.length = 1 := rfl
      rw [Transfer.Short, index, size, Transfer.asked, UInt64.sub_zero, toInt64_toInt asks.2]
      omega
    have turned : turn filehash fc miser k transfer = .again (transfer.answered filehash fc answer) := by
      have answers : miser k (transfer.request filehash fc) = .answer answer := rfl
      rw [turn, if_neg (incomplete transfer rfl)]
      dsimp only
      rw [answers]
      dsimp only
      have learned := incomplete
        (({ transfer with length := (transfer.request filehash fc).length } : Transfer).learn answer.contentLength) rfl
      rw [if_neg learned, if_neg (List.cons_ne_nil _ _)]
      rfl
    rw [ask, turned, answered_eq]
    dsimp only
    rw [if_pos short]
    refine ih file asks (.inr ?_)
    show (if transfer.contentlength ≤ 9 then (9 : UInt64) else transfer.contentlength) = 9
    rcases known with known | known
    · rw [known]
      rfl
    · rw [known]
      rfl

/-- Its answers are too short, and the download goes on for ever. -/
theorem miser_endless : ¬ Returns twoBytes 0 [miser] emptyDisk := by
  have absent : (emptyDisk.dir.load (.b58 (chunkAt padded [1, 2] 0).hash)).isSome = false := rfl
  have found : (twoBytes.fileChunk.find? fun one => one.no = 0) = some (chunkAt padded [1, 2] 0) := by decide
  rw [returns_iff found, absent]
  rintro (there | ⟨fuel, settles⟩)
  · cases there
  · rw [askAll, ask_miser rfl (by decide) (.inl rfl)] at settles
    exact Asking.not_settles_none settles

end Chunk

end PolarCloud.Store
