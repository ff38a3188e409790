import PolarCloud.Model.Store.Download
import PolarCloud.Proofs.Store.FileChunk

/-! # What a download stores

While all users answer with parts of one chunk, the temporary file is a front of it, its length is known to be that of
the chunk or not known, and the next request asks for more than the file has; so every answer makes the file longer, or
gives the length for the first time. The length of a request does not wrap: it grows only while the length of the chunk
is not known, once for each user.
-/

namespace PolarCloud.Store

open Slices

variable {filehash : Bytes} {fc : FileChunk} {peer : Peer} {transfer other : Transfer} {b : Bytes} {k ahead : ℕ}

/-! ## Numbers of 64 bits -/

theorem toNat_ofNat {n : ℕ} (small : n < 2 ^ 63) : (UInt64.ofNat n).toNat = n :=
  UInt64.toNat_ofNat_of_lt' (small.trans (by decide))

theorem toInt64_toInt {n : UInt64} (small : n.toNat < 2 ^ 63) : n.toInt64.toInt = n.toNat := by
  have signed : n.toInt64.toInt = if 2 * n.toNat < 2 ^ 64 then (n.toNat : ℤ) else (n.toNat : ℤ) - (2 ^ 64 : ℕ) :=
    BitVec.toInt_eq_toNat_cond n.toBitVec
  rw [signed, if_pos (by omega)]

theorem toNat_add {m n : UInt64} (small : m.toNat + n.toNat < 2 ^ 64) : (m + n).toNat = m.toNat + n.toNat := by
  rw [UInt64.toNat_add, Nat.mod_eq_of_lt small]

/-- How much was asked for, where the numbers are small. -/
theorem Transfer.asked_eq {index : UInt64} (before : index.toNat ≤ transfer.length.toNat)
    (small : transfer.length.toNat < 2 ^ 63) :
    transfer.asked index = (transfer.length.toNat : ℤ) - index.toNat := by
  have difference : (transfer.length - index).toNat = transfer.length.toNat - index.toNat :=
    UInt64.toNat_sub_of_le _ _ (UInt64.le_iff_toNat_le.mpr before)
  rw [asked, toInt64_toInt (by omega), difference]
  omega

theorem Transfer.size_toNat (small : transfer.file.length < 2 ^ 63) : transfer.size.toNat = transfer.file.length :=
  toNat_ofNat small

/-! ## Users that have the chunk -/

/-- The user has the chunk. -/
def Holds (b : Bytes) (fc : FileChunk) (holder : Disk) : Prop := holder.dir.load (.b58 fc.hash) = some b

/-- All that comes back for requests for a chunk are answers of holders of `b`, if anything comes back. -/
def Serves (b : Bytes) (fc : FileChunk) (peer : Peer) : Prop :=
  ∀ k vo, vo.chunkHash = fc.hash → peer k vo = .nothing ∨ ∃ holder, Holds b fc holder ∧
    peer k vo = downloadFilechunk holder vo

/-- The user answers every request for the chunk. -/
def Answers (b : Bytes) (fc : FileChunk) (peer : Peer) : Prop :=
  ∀ k vo, vo.chunkHash = fc.hash → ∃ holder, Holds b fc holder ∧ peer k vo = downloadFilechunk holder vo

/-- The state of a download from users that have `b`, with some of them still ahead. -/
structure Front (b : Bytes) (ahead : ℕ) (transfer : Transfer) : Prop where
  file : transfer.file <+: b
  known : transfer.contentlength = 0 ∨ transfer.contentlength.toNat = b.length
  asks : 0 < transfer.length.toNat
  small : 2 * b.length < 2 ^ 63
  room : transfer.length.toNat + b.length < 2 ^ 63
  grows : transfer.contentlength = 0 →
    transfer.length.toNat + ahead * transfer.file.length + 2 * b.length < 2 ^ 63

/-- What is left to do. -/
def Transfer.left (b : Bytes) (transfer : Transfer) : ℕ :=
  2 * (b.length - transfer.file.length) + if transfer.contentlength = 0 then 1 else 0

theorem Front.size (front : Front b ahead transfer) : transfer.size.toNat = transfer.file.length := by
  have within := front.file.length_le
  have room := front.room
  exact transfer.size_toNat (by omega)

theorem Front.complete (front : Front b ahead transfer) (complete : transfer.Complete) : transfer.file = b := by
  refine front.file.eq_of_length ?_
  rw [← front.size, complete.1]
  exact front.known.resolve_left complete.2

/-- A file that is not complete, of a chunk whose length is known, is shorter than the chunk. -/
theorem Front.short (front : Front b ahead transfer) (nonempty : b ≠ [])
    (known : transfer.contentlength.toNat = b.length) (incomplete : ¬ transfer.Complete) :
    transfer.file.length < b.length := by
  refine lt_of_le_of_ne front.file.length_le fun same => incomplete ⟨?_, fun zero => nonempty ?_⟩
  · exact UInt64.toNat_inj.mp (front.size.trans (same.trans known.symm))
  · rw [zero] at known
    exact List.eq_nil_of_length_eq_zero known.symm

/-- A request asks for more than there is, and for no more than the chunk once its length is known. -/
theorem request_length (front : Front b ahead transfer) (nonempty : b ≠ []) (incomplete : ¬ transfer.Complete) :
    transfer.file.length < (transfer.request filehash fc).length.toNat ∧
      (transfer.contentlength.toNat = b.length → (transfer.request filehash fc).length.toNat ≤ b.length) ∧
      (transfer.contentlength = 0 →
        (transfer.request filehash fc).length.toNat = transfer.length.toNat + transfer.file.length) := by
  have asks := front.asks
  have within := front.file.length_le
  have room := front.room
  have size : b.length ≠ 0 := mt List.eq_nil_of_length_eq_zero nonempty
  have sum : (transfer.length + transfer.size).toNat = transfer.length.toNat + transfer.file.length := by
    rw [toNat_add (by rw [front.size]; omega), front.size]
  have zero : transfer.contentlength.toNat = 0 → transfer.contentlength = 0 := fun is => UInt64.toNat_inj.mp is
  rw [Transfer.request]
  dsimp only
  split_ifs with clipped
  · have known := front.known.resolve_left clipped.2
    have short := front.short nonempty known incomplete
    exact ⟨by omega, fun _ => by omega, fun none => absurd none clipped.2⟩
  · refine ⟨by omega, fun known => ?_, fun _ => sum⟩
    have least : ¬ transfer.contentlength < transfer.length + transfer.size := fun less =>
      clipped ⟨less, fun none => size (by rw [none] at known; exact known.symm)⟩
    rw [UInt64.lt_iff_toNat_lt, sum, known] at least
    omega

/-- What a holder of the chunk answers. -/
theorem downloadFilechunk_eq {holder : Disk} {vo : FileChunkVO} (holds : Holds b fc holder) (small : b.length < 2 ^ 63)
    (chunk : vo.chunkHash = fc.hash) (within : vo.index.toNat ≤ b.length) (asks : vo.index.toNat < vo.length.toNat) :
    downloadFilechunk holder vo =
      .answer { vo with
        content := (b.drop vo.index.toNat).take (min vo.length.toNat b.length - vo.index.toNat)
        contentLength := UInt64.ofNat b.length } := by
  have size : (UInt64.ofNat b.length).toNat = b.length := toNat_ofNat small
  have least : (if vo.length = 0 ∨ UInt64.ofNat b.length < vo.length then UInt64.ofNat b.length else vo.length).toNat =
      min vo.length.toNat b.length := by
    split_ifs with large
    · rcases large with zero | large
      · rw [zero] at asks
        cases asks
      · rw [UInt64.lt_iff_toNat_lt, size] at large
        omega
    · have small := (not_or.mp large).2
      rw [UInt64.lt_iff_toNat_lt, size] at small
      omega
  rw [downloadFilechunk, chunk, holds]
  dsimp only [Option.getD_some, Option.isNone_some]
  rw [if_neg (by rw [UInt64.lt_iff_toNat_lt, size]; omega),
    if_neg (by rw [UInt64.lt_iff_toNat_lt, least]; omega), if_neg Bool.false_ne_true, least]

/-- An answer gives the length of the chunk. -/
theorem learn_eq (known : transfer.contentlength = 0 ∨ transfer.contentlength.toNat = b.length)
    (small : b.length < 2 ^ 63) :
    transfer.learn (UInt64.ofNat b.length) = { transfer with contentlength := UInt64.ofNat b.length } := by
  have least : transfer.contentlength ≤ UInt64.ofNat b.length := by
    rw [UInt64.le_iff_toNat_le, toNat_ofNat small]
    rcases known with zero | known
    · rw [zero]
      exact Nat.zero_le _
    · exact known.le
  rw [Transfer.learn, if_pos least]

/-- The part that was asked for makes the file longer, and a shorter one is thrown away. -/
theorem accept_eq (file : transfer.file <+: b) (short : transfer.file.length < b.length)
    (asks : transfer.file.length < transfer.length.toNat) (small : transfer.length.toNat < 2 ^ 63)
    (size : transfer.size.toNat = transfer.file.length) :
    transfer.accept transfer.size
      ((b.drop transfer.file.length).take (min transfer.length.toNat b.length - transfer.file.length)) =
      if b.length < transfer.length.toNat then transfer
      else { transfer with file := b.take transfer.length.toNat, place := transfer.length.toNat } := by
  have asked := transfer.asked_eq (size.le.trans asks.le) small
  have got :
      ((b.drop transfer.file.length).take (min transfer.length.toNat b.length - transfer.file.length)).length =
        min transfer.length.toNat b.length - transfer.file.length := by
    rw [List.length_take, List.length_drop]
    omega
  rw [Transfer.accept, got, asked, size]
  split_ifs with thrown long long longer
  · rfl
  · omega
  · omega
  · omega
  · omega
  · have parts :
        transfer.file ++ (b.drop transfer.file.length).take (min transfer.length.toNat b.length - transfer.file.length) =
          b.take transfer.length.toNat := by
      conv_lhs => lhs; rw [List.prefix_iff_eq_take.mp file]
      rw [← List.take_add]
      congr 1
      omega
    rw [writeAt_end, parts]
    congr 1
    omega

/-- A request that is not answered leaves one user less ahead. -/
theorem Front.unanswered (front : Front b (ahead + 1) transfer) (nonempty : b ≠ []) (incomplete : ¬ transfer.Complete) :
    Front b ahead { transfer with length := (transfer.request filehash fc).length } := by
  obtain ⟨more, clipped, summed⟩ := @request_length filehash fc transfer b _ front nonempty incomplete
  have within := front.file.length_le
  have room := front.room
  have grows := front.grows
  have split : (ahead + 1) * transfer.file.length = ahead * transfer.file.length + transfer.file.length :=
    Nat.succ_mul ..
  refine ⟨front.file, front.known, Nat.zero_lt_of_lt more, front.small, ?_, fun none => ?_⟩
  · dsimp only
    rcases front.known with none | known
    · have sum := summed none
      have bound := grows none
      omega
    · have least := clipped known
      have small := front.small
      omega
  · dsimp only at none ⊢
    have sum := summed none
    have bound := grows none
    omega

/-- Once the length is known it does not matter how many users are ahead. -/
theorem Front.answered {others : ℕ} (front : Front b ahead transfer) (nonempty : b ≠ []) :
    Front b others { transfer with contentlength := UInt64.ofNat b.length } := by
  have small := front.small
  have size : (UInt64.ofNat b.length).toNat = b.length := toNat_ofNat (by omega)
  refine ⟨front.file, .inr size, front.asks, front.small, front.room, fun zero => ?_⟩
  dsimp only at zero
  rw [zero] at size
  exact absurd (List.eq_nil_of_length_eq_zero size.symm) nonempty

/-- One turn with a user that has the chunk ends with the chunk, or without an answer, or brings the end nearer. -/
theorem turn_spec (front : Front b (ahead + 1) transfer) (nonempty : b ≠ []) (serves : Serves b fc peer) :
    (∃ after, turn filehash fc peer k transfer = .finished after ∧ after.file = b) ∨
    (∃ after, turn filehash fc peer k transfer = .left after ∧ Front b ahead after ∧ ¬ Answers b fc peer) ∨
    (∃ after, turn filehash fc peer k transfer = .again after ∧ Front b (ahead + 1) after ∧
      after.left b < transfer.left b) := by
  rw [turn]
  by_cases complete : transfer.Complete
  · rw [if_pos complete]
    exact .inl ⟨transfer, rfl, front.complete complete⟩
  · rw [if_neg complete]
    obtain ⟨more, clipped, -⟩ := @request_length filehash fc transfer b _ front nonempty complete
    have asked := @Front.unanswered filehash fc transfer b ahead front nonempty complete
    have small : b.length < 2 ^ 63 := by
      have small := front.small
      omega
    have within := front.file.length_le
    have index : (transfer.request filehash fc).index.toNat = transfer.file.length := front.size
    rcases serves k (transfer.request filehash fc) rfl with silent | ⟨holder, holds, answered⟩
    · refine .inr (.inl ⟨{ transfer with length := (transfer.request filehash fc).length }, ?_, asked, ?_⟩)
      · dsimp only
        rw [silent]
      · intro answers
        obtain ⟨holder, holds, answered⟩ := answers k (transfer.request filehash fc) rfl
        rw [silent, downloadFilechunk_eq holds small rfl (by omega) (by omega)] at answered
        cases answered
    · rw [downloadFilechunk_eq holds small rfl (by omega) (by omega), index] at answered
      dsimp only
      rw [answered]
      dsimp only
      have known : ({ transfer with length := (transfer.request filehash fc).length } : Transfer).learn
            (UInt64.ofNat b.length) =
          { transfer with
            length := (transfer.request filehash fc).length, contentlength := UInt64.ofNat b.length } :=
        learn_eq front.known small
      rw [known]
      have front' : Front b (ahead + 1)
          { transfer with
            length := (transfer.request filehash fc).length, contentlength := UInt64.ofNat b.length } :=
        asked.answered nonempty
      by_cases ends :
          ({ transfer with
            length := (transfer.request filehash fc).length, contentlength := UInt64.ofNat b.length } :
            Transfer).Complete
      · rw [if_pos ends]
        exact .inl ⟨_, rfl, front'.complete ends⟩
      · rw [if_neg ends]
        have size : (UInt64.ofNat b.length).toNat = b.length := toNat_ofNat small
        have short : transfer.file.length < b.length := front'.short nonempty size ends
        have some_ :
            (b.drop transfer.file.length).take
              (min (transfer.request filehash fc).length.toNat b.length - transfer.file.length) ≠ [] := by
          intro none
          have length := congrArg List.length none
          rw [List.length_take, List.length_drop, List.length_nil] at length
          omega
        rw [if_neg some_]
        refine .inr (.inr ⟨_, rfl, ?_⟩)
        have room : (transfer.request filehash fc).length.toNat + b.length < 2 ^ 63 := front'.room
        have bounded : (transfer.request filehash fc).length.toNat < 2 ^ 63 := by omega
        have accepted := @accept_eq
          { transfer with length := (transfer.request filehash fc).length, contentlength := UInt64.ofNat b.length } b
          front.file short more bounded front.size
        have place : (transfer.request filehash fc).index = transfer.size := rfl
        have numbered : UInt64.ofNat b.length ≠ 0 := by
          intro zero
          rw [zero] at size
          exact nonempty (List.eq_nil_of_length_eq_zero size.symm)
        rw [place]
        dsimp only [Transfer.size] at accepted ⊢
        rw [accepted]
        split_ifs with thrown
        · refine ⟨front', ?_⟩
          have unknown : transfer.contentlength = 0 := front.known.resolve_right fun known => by
            have least := clipped known
            exact absurd least thrown.not_ge
          rw [Transfer.left, Transfer.left, if_pos unknown, if_neg numbered]
          exact Nat.lt_succ_self _
        · refine ⟨⟨List.take_prefix _ _, .inr size, front'.asks, front.small, room,
            fun zero => absurd zero numbered⟩, ?_⟩
          rw [Transfer.left, Transfer.left]
          dsimp only
          rw [List.length_take, if_neg numbered]
          split_ifs <;> omega

theorem Front.reopen (front : Front b ahead transfer) : Front b ahead { transfer with place := 0 } :=
  ⟨front.file, front.known, front.asks, front.small, front.room, front.grows⟩

/-- With a user that has the chunk a download ends after finitely many requests. -/
theorem ask_spec (fuel : ℕ) (front : Front b (ahead + 1) transfer) (nonempty : b ≠ []) (serves : Serves b fc peer) :
    (∀ ended, ask filehash fc peer fuel k transfer = some ended →
      (∃ after, ended = .complete after ∧ after.file = b) ∨
        ∃ after, ended = .incomplete after ∧ Front b ahead after ∧ ¬ Answers b fc peer) ∧
    (transfer.left b < fuel → (ask filehash fc peer fuel k transfer).isSome) := by
  induction fuel generalizing transfer k with
  | zero => exact ⟨nofun, nofun⟩
  | succ fuel ih =>
    rw [ask]
    rcases @turn_spec filehash fc peer transfer b k ahead front nonempty serves with
      ⟨after, ends, whole⟩ | ⟨after, ends, front', silent⟩ | ⟨after, ends, front', nearer⟩
    · rw [ends]
      refine ⟨fun ended is => ?_, fun _ => rfl⟩
      cases is
      exact .inl ⟨after, rfl, whole⟩
    · rw [ends]
      refine ⟨fun ended is => ?_, fun _ => rfl⟩
      cases is
      exact .inr ⟨after, rfl, front', silent⟩
    · rw [ends]
      obtain ⟨right, total⟩ := ih (k := k + 1) front'
      exact ⟨right, fun enough => total (by omega)⟩

/-- So does a download from many. -/
theorem askAll_spec (fuel : ℕ) {users : List Peer} (front : Front b users.length transfer) (nonempty : b ≠ [])
    (serves : ∀ peer ∈ users, Serves b fc peer) :
    (∀ ended, askAll filehash fc fuel users transfer = some ended →
      (∃ after, ended = .complete after ∧ after.file = b) ∨
        ∃ after, ended = .incomplete after ∧ after.file <+: b ∧ ∀ peer ∈ users, ¬ Answers b fc peer) ∧
    (2 * b.length + 1 < fuel → (askAll filehash fc fuel users transfer).isSome) := by
  induction users generalizing transfer with
  | nil =>
    refine ⟨fun ended is => ?_, fun _ => rfl⟩
    cases is
    exact .inr ⟨transfer, rfl, front.file, nofun⟩
  | cons peer rest ih =>
    obtain ⟨first, others⟩ := List.forall_mem_cons.mp serves
    obtain ⟨right, total⟩ := @ask_spec filehash fc peer _ b 0 rest.length fuel front.reopen nonempty first
    rw [askAll]
    cases asked : ask filehash fc peer fuel 0 { transfer with place := 0 } with
    | none =>
      refine ⟨nofun, fun enough => ?_⟩
      have bound : ({ transfer with place := 0 } : Transfer).left b < fuel := by
        rw [Transfer.left]
        split_ifs <;> omega
      have ends := total bound
      rw [asked] at ends
      cases ends
    | some ended =>
      rcases right ended asked with ⟨after, rfl, whole⟩ | ⟨after, rfl, front', silent⟩
      · refine ⟨fun ended is => ?_, fun _ => rfl⟩
        cases is
        exact .inl ⟨after, rfl, whole⟩
      · obtain ⟨right', total'⟩ := ih front' others
        refine ⟨fun ended is => ?_, total'⟩
        rcases right' ended is with complete | ⟨last, rfl, part, silent'⟩
        · exact .inl complete
        · exact .inr ⟨last, rfl, part, List.forall_mem_cons.mpr ⟨silent, silent'⟩⟩

section Chunk

variable {fileinfo : FileInfo} {no fuel : ℕ} {disk after : Disk} {users : List Peer}

/-- What the temporary file of a chunk holds. -/
def Disk.started (disk : Disk) (fc : FileChunk) : Bytes := (disk.dir.load (.tmp fc.hash)).getD []

def start (disk : Disk) (fc : FileChunk) : Transfer :=
  { file := disk.started fc, place := 0, length := 204800, contentlength := 0 }

/-- How a download of a chunk that is not there ends. -/
theorem downloadFilechunkToLocal_eq (found : (fileinfo.fileChunk.find? fun one => one.no = no) = some fc)
    (absent : disk.dir.load (.b58 fc.hash) = none) :
    downloadFilechunkToLocal fuel fileinfo no users disk =
      (askAll fileinfo.hash fc fuel users (start disk fc)).map fun
        | .complete transfer =>
            (.ok, { disk with dir := (disk.dir.delete (.tmp fc.hash)).store (.b58 fc.hash) transfer.file })
        | .incomplete transfer => (.error, if users = [] then disk else disk.keep fc transfer)
        | .panicked transfer => (.panicked, disk.keep fc transfer) := by
  rw [downloadFilechunkToLocal, found]
  dsimp only
  rw [absent, if_neg (by simp)]
  rw [show ({ file := (disk.dir.load (.tmp fc.hash)).getD [], place := 0, length := 204800,
              contentlength := 0 } : Transfer) = start disk fc from rfl]
  rcases askAll fileinfo.hash fc fuel users (start disk fc) with _ | _ | _ | _
  · rfl
  · rfl
  · rfl
  · rfl

/-- A download that ends well stores what its users gave. -/
theorem downloadFilechunkToLocal_ok_iff (found : (fileinfo.fileChunk.find? fun one => one.no = no) = some fc)
    (absent : disk.dir.load (.b58 fc.hash) = none) :
    downloadFilechunkToLocal fuel fileinfo no users disk = some (.ok, after) ↔
      ∃ transfer, askAll fileinfo.hash fc fuel users (start disk fc) = some (.complete transfer) ∧
        after = { disk with dir := (disk.dir.delete (.tmp fc.hash)).store (.b58 fc.hash) transfer.file } := by
  rw [downloadFilechunkToLocal_eq found absent, Option.map_eq_some_iff]
  constructor
  · rintro ⟨_ | _ | _, ends, is⟩
    · cases is
      exact ⟨_, ends, rfl⟩
    · cases is
    · cases is
  · rintro ⟨transfer, ends, rfl⟩
    exact ⟨.complete transfer, ends, rfl⟩

theorem start_front (front : disk.started fc <+: b)
    (fits : 204800 + users.length * (disk.started fc).length + 2 * b.length < 2 ^ 63) :
    Front b users.length (start disk fc) := by
  have length : (204800 : UInt64).toNat = 204800 := rfl
  exact ⟨front, .inl rfl, Nat.succ_pos _, by omega, by rw [start, length]; omega, fun _ => by rw [start, length]; omega⟩

theorem stored_of_serves (found : (fileinfo.fileChunk.find? fun one => one.no = no) = some fc) (nonempty : b ≠ [])
    (absent : disk.dir.load (.b58 fc.hash) = none) (front : disk.started fc <+: b)
    (fits : 204800 + users.length * (disk.started fc).length + 2 * b.length < 2 ^ 63)
    (serves : ∀ peer ∈ users, Serves b fc peer)
    (ok : downloadFilechunkToLocal fuel fileinfo no users disk = some (.ok, after)) :
    after.dir.load (.b58 fc.hash) = some b := by
  obtain ⟨transfer, ends, rfl⟩ := (downloadFilechunkToLocal_ok_iff found absent).mp ok
  have front' : Front b users.length (start disk fc) := start_front front fits
  rcases (askAll_spec fuel front' nonempty serves).1 _ ends with ⟨_, is, whole⟩ | ⟨_, is, _⟩
  · cases is
    rw [← whole]
    exact SyncMap.load_store_self _ _ _
  · cases is

/-- From users that have the chunk, a download that ends well stores the chunk, and one answering user is enough. -/
theorem download_delivers (fileinfo : FileInfo) (no : ℕ) (fc : FileChunk) (b : Bytes) (users : List Peer) (disk : Disk)
    (found : (fileinfo.fileChunk.find? fun one => one.no = no) = some fc) (nonempty : b ≠ [])
    (absent : disk.dir.load (.b58 fc.hash) = none) (front : disk.started fc <+: b)
    (fits : 204800 + users.length * (disk.started fc).length + 2 * b.length < 2 ^ 63)
    (serves : ∀ peer ∈ users, Serves b fc peer) :
    (∀ fuel after, downloadFilechunkToLocal fuel fileinfo no users disk = some (.ok, after) →
      after.dir.load (.b58 fc.hash) = some b) ∧
    ((∃ peer ∈ users, Answers b fc peer) →
      ∃ fuel after, downloadFilechunkToLocal fuel fileinfo no users disk = some (.ok, after)) := by
  refine ⟨fun fuel after ok => stored_of_serves found nonempty absent front fits serves ok, ?_⟩
  rintro ⟨peer, member, answers⟩
  obtain ⟨right, total⟩ := @askAll_spec fileinfo.hash fc _ b (2 * b.length + 2) users
    (start_front front fits) nonempty serves
  obtain ⟨ended, ends⟩ := Option.isSome_iff_exists.mp (total (by omega))
  rcases right ended ends with ⟨transfer, rfl, _⟩ | ⟨_, _, _, silent⟩
  · exact ⟨_, _, (downloadFilechunkToLocal_ok_iff found absent).mpr ⟨transfer, ends, rfl⟩⟩
  · exact absurd answers (silent peer member)

end Chunk

/-- A sum of twenty bytes: those of the content, and zeros behind them. -/
def padded (bs : Bytes) : Bytes := (bs ++ List.replicate 20 0).take 20

/-- A file of two bytes in one chunk. -/
def twoBytes : FileInfo :=
  { hash := fileHash padded [1, 2], name := .text "a", size := 2, time := 0, fileChunk := [chunkAt padded [1, 2] 0],
    chunkCount := 1 }

def emptyDisk : Disk where
  dir := .empty
  temp := .empty

/-- Its chunk in the store of another node. -/
def holder : Disk where
  dir := SyncMap.empty.store (.b58 (padded [1, 2])) [1, 2]
  temp := .empty

/-- The chunk from that node, after a user that never answers. -/
theorem download_delivers_twoBytes :
    (∀ fuel after,
      downloadFilechunkToLocal fuel twoBytes 0 [fun _ _ => .nothing, fun _ => downloadFilechunk holder] emptyDisk =
        some (.ok, after) → after.dir.load (.b58 (padded [1, 2])) = some [1, 2]) ∧
    ∃ fuel after,
      downloadFilechunkToLocal fuel twoBytes 0 [fun _ _ => .nothing, fun _ => downloadFilechunk holder] emptyDisk =
        some (.ok, after) := by
  have holds : Holds [1, 2] (chunkAt padded [1, 2] 0) holder := by
    rw [Holds]
    decide
  have delivers := download_delivers twoBytes 0 (chunkAt padded [1, 2] 0) [1, 2]
    [fun _ _ => .nothing, fun _ => downloadFilechunk holder] emptyDisk (by decide) (by decide) (by decide) (by decide)
    (by decide) (List.forall_mem_cons.mpr ⟨fun _ _ _ => .inl rfl,
      List.forall_mem_singleton.mpr fun _ _ _ => .inr ⟨holder, holds, rfl⟩⟩)
  exact ⟨delivers.1, delivers.2 ⟨_, List.mem_cons_of_mem _ (List.mem_singleton_self _),
    fun _ _ _ => ⟨holder, holds, rfl⟩⟩⟩

end PolarCloud.Store
