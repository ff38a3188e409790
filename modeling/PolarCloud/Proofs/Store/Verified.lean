import PolarCloud.Proofs.Store.Complete
import PolarCloud.Proofs.Store.Download

/-! # What a download does not verify

Nothing that a download stores is hashed. One user is enough to have a byte of his own taken for the end of any chunk,
so that what is stored, and the file that is put together from it, is right whatever users answer only where nothing is
downloaded. From users that have the chunks it is right.
-/

namespace PolarCloud.Store

open Slices

variable {sha1 : Bytes → Bytes} {filehash : Bytes} {fc : FileChunk} {fileinfo : FileInfo} {content file : Bytes}
  {no fuel : ℕ} {x : UInt8} {disk after : Disk} {users : List Peer} {order : List FileChunk}

/-! ## A user that has something else -/

/-- A user that claims, whatever he is asked for, that one byte is missing. -/
def liar (x : UInt8) : Peer := fun _ vo => .answer { vo with content := [x], contentLength := vo.index + 1 }

/-- The temporary file leaves room for the numbers of a request. -/
def Roomy (disk : Disk) (fc : FileChunk) : Prop := 204800 + 2 * (disk.started fc).length < 2 ^ 63

/-- As long as the length of the chunk is not known nothing is clipped. -/
theorem Transfer.request_unknown {transfer : Transfer} (unknown : transfer.contentlength = 0) :
    transfer.request filehash fc =
      { fileHash := filehash, no := fc.no, chunkHash := fc.hash, index := transfer.size,
        length := transfer.length + transfer.size } := by
  rw [Transfer.request, if_neg fun clipped => clipped.2 unknown]

theorem Transfer.request_clipped {transfer : Transfer}
    (clipped : transfer.contentlength < transfer.length + transfer.size ∧ transfer.contentlength ≠ 0) :
    transfer.request filehash fc =
      { fileHash := filehash, no := fc.no, chunkHash := fc.hash, index := transfer.size,
        length := transfer.contentlength } := by
  rw [Transfer.request, if_pos clipped]

theorem toNat_succ {n : ℕ} (small : n + 1 < 2 ^ 63) : (UInt64.ofNat n + 1).toNat = n + 1 := by
  have one : (1 : UInt64).toNat = 1 := rfl
  have size : (UInt64.ofNat n).toNat = n := toNat_ofNat (by omega)
  rw [toNat_add (by omega), size, one]

theorem ofNat_ne_succ {n : ℕ} (small : n + 1 < 2 ^ 63) : UInt64.ofNat n ≠ UInt64.ofNat n + 1 := by
  intro same
  have numbers := congrArg UInt64.toNat same
  rw [toNat_succ small, toNat_ofNat (by omega)] at numbers
  omega

/-- What the first request asks for. -/
theorem toNat_first {n : ℕ} (small : 204800 + 2 * n < 2 ^ 63) : (204800 + UInt64.ofNat n).toNat = 204800 + n := by
  have most : (204800 : UInt64).toNat = 204800 := rfl
  have size : (UInt64.ofNat n).toNat = n := toNat_ofNat (by omega)
  rw [toNat_add (by omega), size, most]

/-- His first answer is too short, and gives the length. -/
theorem turn_liar_first (small : 204800 + 2 * file.length < 2 ^ 63) :
    turn filehash fc (liar x) 0 { file, place := 0, length := 204800, contentlength := 0 } =
      .again { file, place := 0, length := 204800 + UInt64.ofNat file.length,
               contentlength := UInt64.ofNat file.length + 1 } := by
  have size : (UInt64.ofNat file.length).toNat = file.length := toNat_ofNat (by omega)
  let asking : Transfer := { file, place := 0, length := 204800 + UInt64.ofNat file.length, contentlength := 0 }
  have length : asking.length.toNat = 204800 + file.length := toNat_first small
  have asked : asking.asked (UInt64.ofNat file.length) = 204800 := by
    rw [asking.asked_eq (by omega) (by omega), length, size]
    omega
  have learned : asking.learn (UInt64.ofNat file.length + 1) =
      { asking with contentlength := UInt64.ofNat file.length + 1 } := by
    rw [Transfer.learn, if_pos (UInt64.le_iff_toNat_le.mpr (Nat.zero_le _))]
  have short : (([x] : Bytes).length : ℤ) <
      ({ asking with contentlength := UInt64.ofNat file.length + 1 } : Transfer).asked (UInt64.ofNat file.length) := by
    change (1 : ℤ) < asking.asked (UInt64.ofNat file.length)
    omega
  have differs : UInt64.ofNat file.length ≠ UInt64.ofNat file.length + 1 := ofNat_ne_succ (by omega)
  have incomplete : ¬ ({ asking with contentlength := UInt64.ofNat file.length + 1 } : Transfer).Complete :=
    fun complete => differs complete.1
  rw [turn, if_neg fun complete => complete.2 rfl, Transfer.request_unknown rfl]
  change (if (asking.learn (UInt64.ofNat file.length + 1)).Complete then _ else if [x] = [] then _ else
    Turn.again ((asking.learn (UInt64.ofNat file.length + 1)).accept (UInt64.ofNat file.length) [x])) = _
  rw [learned, if_neg incomplete, if_neg (List.cons_ne_nil _ _), Transfer.accept, if_pos short]

/-- The second is what is asked for then. -/
theorem turn_liar_second (small : 204800 + 2 * file.length < 2 ^ 63) :
    turn filehash fc (liar x) 1 { file, place := 0, length := 204800 + UInt64.ofNat file.length,
                                  contentlength := UInt64.ofNat file.length + 1 } =
      .again { file := file ++ [x], place := file.length + 1, length := UInt64.ofNat file.length + 1,
               contentlength := UInt64.ofNat file.length + 1 } := by
  have size : (UInt64.ofNat file.length).toNat = file.length := toNat_ofNat (by omega)
  have longer : (UInt64.ofNat file.length + 1).toNat = file.length + 1 := toNat_succ (by omega)
  have length : (204800 + UInt64.ofNat file.length).toNat = 204800 + file.length := toNat_first small
  have sum : (204800 + UInt64.ofNat file.length + UInt64.ofNat file.length).toNat = 204800 + 2 * file.length := by
    rw [toNat_add (by omega), size, length]
    omega
  let asking : Transfer :=
    { file, place := 0, length := UInt64.ofNat file.length + 1, contentlength := UInt64.ofNat file.length + 1 }
  have asked : asking.asked (UInt64.ofNat file.length) = 1 := by
    rw [asking.asked_eq (by change _ ≤ (UInt64.ofNat file.length + 1).toNat; omega)
      (by change (UInt64.ofNat file.length + 1).toNat < _; omega)]
    change ((UInt64.ofNat file.length + 1).toNat : ℤ) - _ = 1
    omega
  have clipped : UInt64.ofNat file.length + 1 < 204800 + UInt64.ofNat file.length + UInt64.ofNat file.length ∧
      UInt64.ofNat file.length + 1 ≠ 0 := by
    refine ⟨UInt64.lt_iff_toNat_lt.mpr (by omega), fun zero => ?_⟩
    rw [zero] at longer
    cases longer
  have learned : asking.learn (UInt64.ofNat file.length + 1) = asking := by
    rw [Transfer.learn, if_pos (UInt64.le_iff_toNat_le.mpr (Nat.le_refl _))]
  have differs : UInt64.ofNat file.length ≠ UInt64.ofNat file.length + 1 := ofNat_ne_succ (by omega)
  have incomplete (other : UInt64) : ¬ ({ asking with length := other } : Transfer).Complete :=
    fun complete => differs complete.1
  rw [turn, if_neg (incomplete _), Transfer.request_clipped clipped]
  change (if (asking.learn (UInt64.ofNat file.length + 1)).Complete then _ else if [x] = [] then _ else
    Turn.again ((asking.learn (UInt64.ofNat file.length + 1)).accept (UInt64.ofNat file.length) [x])) = _
  rw [learned, if_neg (incomplete _), if_neg (List.cons_ne_nil _ _), Transfer.accept, asked]
  change Turn.again (if (1 : ℤ) < 1 then _ else if (1 : ℤ) < 1 then _ else
    { asking with file := writeAt file file.length [x], place := file.length + 1 }) = _
  rw [if_neg (lt_irrefl _), if_neg (lt_irrefl _), writeAt_end]

/-- So the file is complete. -/
theorem ask_liar (small : 204800 + 2 * file.length < 2 ^ 63) :
    ∃ after, ask filehash fc (liar x) 3 0 { file, place := 0, length := 204800, contentlength := 0 } =
      some (.complete after) ∧ after.file = file ++ [x] := by
  let last : Transfer :=
    { file := file ++ [x], place := file.length + 1, length := UInt64.ofNat file.length + 1,
      contentlength := UInt64.ofNat file.length + 1 }
  have size : last.size = UInt64.ofNat file.length + 1 := by
    rw [Transfer.size, List.length_append]
    exact UInt64.ofNat_add ..
  have complete : last.Complete := by
    refine ⟨size, fun zero => ?_⟩
    have longer : (UInt64.ofNat file.length + 1).toNat = file.length + 1 := toNat_succ (by omega)
    rw [show UInt64.ofNat file.length + 1 = 0 from zero] at longer
    cases longer
  refine ⟨last, ?_, rfl⟩
  rw [ask, turn_liar_first small]
  dsimp only
  rw [ask, turn_liar_second small]
  dsimp only
  rw [ask, turn, if_pos complete]

/-- The disk after a download from such a user. -/
def Disk.deceived (x : UInt8) (disk : Disk) (fc : FileChunk) : Disk :=
  if (disk.dir.load (.b58 fc.hash)).isSome then disk
  else { disk with dir := (disk.dir.delete (.tmp fc.hash)).store (.b58 fc.hash) (disk.started fc ++ [x]) }

theorem download_present (found : (fileinfo.fileChunk.find? fun one => one.no = no) = some fc)
    (present : (disk.dir.load (.b58 fc.hash)).isSome = true) :
    downloadFilechunkToLocal fuel fileinfo no users disk = some (.ok, disk) := by
  rw [downloadFilechunkToLocal, found]
  dsimp only
  rw [if_pos present]

theorem download_liar (found : (fileinfo.fileChunk.find? fun one => one.no = no) = some fc) (roomy : Roomy disk fc)
    (others : List Peer) :
    downloadFilechunkToLocal 3 fileinfo no (liar x :: others) disk = some (.ok, disk.deceived x fc) := by
  rw [Disk.deceived]
  split
  · next present => exact download_present found present
  · next absent =>
    obtain ⟨transfer, asked, file⟩ := @ask_liar fileinfo.hash fc (disk.started fc) x roomy
    have ends : askAll fileinfo.hash fc 3 (liar x :: others) (start disk fc) = some (.complete transfer) := by
      rw [askAll, show ({ start disk fc with place := 0 } : Transfer) = start disk fc from rfl, start, asked]
    rw [← file]
    exact (downloadFilechunkToLocal_ok_iff found (by simpa using absent)).mpr ⟨transfer, ends, rfl⟩

/-- The file stored under the chunk's name has the chunk's hash, whatever the users give. -/
def Verified (sha1 : Bytes → Bytes) (fileinfo : FileInfo) (no : ℕ) (fc : FileChunk) (users : List Peer) (disk : Disk) :
    Prop :=
  ∀ fuel after, downloadFilechunkToLocal fuel fileinfo no users disk = some (.ok, after) →
    disk.dir.load (.b58 fc.hash) = none → ∃ bs, after.dir.load (.b58 fc.hash) = some bs ∧ sha1 bs = fc.hash

/-- For a number of users, whatever they answer, what is downloaded has the chunk's hash exactly when nothing is
downloaded. -/
theorem verified_iff (found : (fileinfo.fileChunk.find? fun one => one.no = no) = some fc) (roomy : Roomy disk fc)
    (apart : sha1 (disk.started fc ++ [0]) ≠ sha1 (disk.started fc ++ [1])) (online : ℕ) :
    (∀ users, users.length = online → Verified sha1 fileinfo no fc users disk) ↔
      (disk.dir.load (.b58 fc.hash)).isSome = true ∨ online = 0 := by
  constructor
  · intro verified
    by_contra goes
    obtain ⟨absent, some_⟩ := not_or.mp goes
    have stores (x : UInt8) : sha1 (disk.started fc ++ [x]) = fc.hash := by
      let users : List Peer := liar x :: List.replicate (online - 1) fun _ _ => .nothing
      have counted : users.length = online := by
        rw [List.length_cons, List.length_replicate]
        omega
      obtain ⟨bs, stored, hash⟩ := verified users counted 3 _ (download_liar found roomy _) (by simpa using absent)
      rw [Disk.deceived, if_neg absent, SyncMap.load_store_self] at stored
      cases stored
      exact hash
    exact apart ((stores 0).trans (stores 1).symm)
  · rintro (present | rfl) users counted fuel after ok absent
    · rw [absent] at present
      cases present
    · obtain ⟨transfer, ends, -⟩ := (downloadFilechunkToLocal_ok_iff found absent).mp ok
      rw [List.eq_nil_of_length_eq_zero counted, askAll] at ends
      cases ends

/-! ## A whole file -/

/-- What cutting a file says of it. -/
structure Describes (sha1 : Bytes → Bytes) (content : Bytes) (fileinfo : FileInfo) : Prop where
  hash : fileinfo.hash = fileHash sha1 content
  chunks : fileinfo.fileChunk = (List.range (count chunkSize content)).map (chunkAt sha1 content)
  counted : fileinfo.chunkCount = count chunkSize content

/-- The file that is put together, if any is, is the one that was cut. -/
def AssemblesOnly (content : Bytes) (fileinfo : FileInfo) (users : ℕ → List Peer) (disk : Disk) : Prop :=
  ∀ fuel order after, order.Perm fileinfo.fileChunk →
    downloadFileOpt fuel fileinfo order users disk = some (true, after) → disk.temp.load fileinfo.name = none →
      after.temp.load fileinfo.name = some content

/-- All chunks of a file are in the store, and are the file when they are written over what lies under its hash. -/
structure Whole (sha1 : Bytes → Bytes) (content : Bytes) (disk : Disk) : Prop where
  present : ∀ i < count chunkSize content, (disk.dir.load (.b58 (sha1 (slice chunkSize content i)))).isSome = true
  whole : writeAt ((disk.temp.load (.b58 (fileHash sha1 content))).getD []) 0
    ((List.range (count chunkSize content)).map fun i => disk.old (sha1 (slice chunkSize content i))).flatten = content

theorem Describes.found (described : Describes sha1 content fileinfo) {one : FileChunk}
    (member : one ∈ fileinfo.fileChunk) : (fileinfo.fileChunk.find? fun other => other.no = one.no) = some one := by
  rw [described.chunks] at member ⊢
  obtain ⟨i, below, rfl⟩ := List.mem_map.mp member
  rw [List.find?_map]
  have first : (List.range (count chunkSize content)).find? ((fun other => decide (other.no = i)) ∘ chunkAt sha1 content) =
      some i := by
    rw [List.find?_range_eq_some]
    exact ⟨decide_eq_true rfl, below, fun j less => by simp [chunkAt, less.ne]⟩
  exact congrArg (Option.map (chunkAt sha1 content)) first

/-- When every chunk is downloaded, the file is put together from what is in the store then. -/
theorem downloadFileOpt_eq {users : ℕ → List Peer} {piece : ℕ → Bytes} (described : Describes sha1 content fileinfo)
    (perm : order.Perm fileinfo.fileChunk) (none : disk.temp.load fileinfo.name = none)
    (downloads : downloadChunks fuel fileinfo users order (disk, newFile fileinfo) =
      some (after, order.foldl File.addFileChunk (newFile fileinfo)))
    (stored : ∀ i < count chunkSize content, after.dir.load (.b58 (sha1 (slice chunkSize content i))) = some (piece i)) :
    ∃ last, downloadFileOpt fuel fileinfo order users disk = some (true, last) ∧ last.temp.load fileinfo.name =
      some (writeAt ((after.temp.load (.b58 (fileHash sha1 content))).getD []) 0
        ((List.range (count chunkSize content)).map piece).flatten) := by
  obtain ⟨complete, ends, holds⟩ := assemble_given described.counted described.chunks described.hash stored
    fun chunk => perm.mem_iff
  rw [downloadFileOpt, none, if_neg (by simp), downloads]
  dsimp only
  cases checked : (order.foldl File.addFileChunk (newFile fileinfo)).check with
  | mk ok file =>
    rw [checked] at complete ends holds
    cases complete
    exact ⟨(file.assemble after).2, congrArg some (Prod.ext ends rfl), holds⟩

theorem downloadChunks_present {users : ℕ → List Peer} {file : File}
    (found : ∀ one ∈ order, (fileinfo.fileChunk.find? fun other => other.no = one.no) = some one)
    (present : ∀ one ∈ order, (disk.dir.load (.b58 one.hash)).isSome = true) :
    downloadChunks fuel fileinfo users order (disk, file) = some (disk, order.foldl File.addFileChunk file) := by
  induction order generalizing file with
  | nil => rfl
  | cons one rest ih =>
    obtain ⟨first, others⟩ := List.forall_mem_cons.mp found
    obtain ⟨here, there⟩ := List.forall_mem_cons.mp present
    rw [downloadChunks, download_present first here]
    exact ih others there

/-! ### From users that have something else -/

/-- What such a user leaves of a chunk. -/
def Disk.lie (x : UInt8) (disk : Disk) (fc : FileChunk) : Bytes :=
  (disk.dir.load (.b58 fc.hash)).getD (disk.started fc ++ [x])

theorem deceived_load (other : FileChunk) : (disk.deceived x fc).dir.load (.b58 other.hash) =
    if other.hash = fc.hash then some (disk.lie x fc) else disk.dir.load (.b58 other.hash) := by
  rw [Disk.deceived]
  split
  · next present =>
    obtain ⟨bs, there⟩ := Option.isSome_iff_exists.mp present
    split
    · next same => rw [same, Disk.lie, there, Option.getD_some]
    · rfl
  · next absent =>
    rw [SyncMap.load_store, SyncMap.load_delete]
    simp only [FileName.b58.injEq, reduceCtorEq, if_false]
    split
    · rw [Disk.lie, Option.not_isSome_iff_eq_none.mp absent, Option.getD_none]
    · rfl

theorem deceived_started (other : FileChunk) : (disk.deceived x fc).started other = disk.started other ∨
    other.hash = fc.hash ∧ (disk.deceived x fc).started other = [] := by
  rw [Disk.deceived]
  split
  · exact .inl rfl
  · rw [Disk.started, SyncMap.load_store, SyncMap.load_delete]
    simp only [FileName.tmp.injEq, reduceCtorEq, if_false]
    split
    · next same => exact .inr ⟨same, rfl⟩
    · exact .inl rfl

theorem deceived_temp : (disk.deceived x fc).temp = disk.temp := by
  rw [Disk.deceived]
  split
  · rfl
  · rfl

theorem deceived_roomy {other : FileChunk} (roomy : Roomy disk other) : Roomy (disk.deceived x fc) other := by
  rw [Roomy] at roomy ⊢
  rcases @deceived_started fc x disk other with same | ⟨_, none⟩
  · rwa [same]
  · rw [none]
    decide

/-- It does not matter when a chunk is downloaded. -/
theorem deceived_lie (other : FileChunk) : (disk.deceived x fc).lie x other = disk.lie x other := by
  rw [Disk.lie, deceived_load]
  split
  · next same => rw [Option.getD_some, Disk.lie, Disk.lie, Disk.started, Disk.started, same]
  · next apart =>
    rcases @deceived_started fc x disk other with same | ⟨same, _⟩
    · rw [same, Disk.lie]
    · exact absurd same apart

theorem downloadChunks_liar {file : File}
    (found : ∀ one ∈ order, (fileinfo.fileChunk.find? fun other => other.no = one.no) = some one)
    (roomy : ∀ one ∈ order, Roomy disk one) :
    downloadChunks 3 fileinfo (fun _ => [liar x]) order (disk, file) =
      some (order.foldl (Disk.deceived x) disk, order.foldl File.addFileChunk file) := by
  induction order generalizing disk file with
  | nil => rfl
  | cons one rest ih =>
    obtain ⟨first, others⟩ := List.forall_mem_cons.mp found
    obtain ⟨here, there⟩ := List.forall_mem_cons.mp roomy
    rw [downloadChunks, download_liar first here]
    exact ih others fun other member => deceived_roomy (there other member)

theorem foldl_deceived_load (one : FileChunk) : (order.foldl (Disk.deceived x) disk).dir.load (.b58 one.hash) =
    if ∃ other ∈ order, other.hash = one.hash then some (disk.lie x one) else disk.dir.load (.b58 one.hash) := by
  induction order generalizing disk with
  | nil => simp
  | cons first rest ih =>
    rw [List.foldl_cons, ih, deceived_lie, deceived_load]
    by_cases here : first.hash = one.hash
    · have same : disk.lie x first = disk.lie x one := by rw [Disk.lie, Disk.lie, Disk.started, Disk.started, here]
      simp [here, same]
    · simp [here, Ne.symm here]

theorem foldl_deceived_temp : (order.foldl (Disk.deceived x) disk).temp = disk.temp := by
  induction order generalizing disk with
  | nil => rfl
  | cons first rest ih => rw [List.foldl_cons, ih, deceived_temp]

/-- One user who says of every chunk that a byte is missing has a file put together. -/
theorem assembled_liar (described : Describes sha1 content fileinfo) (none : disk.temp.load fileinfo.name = none)
    (roomy : ∀ one ∈ fileinfo.fileChunk, Roomy disk one) :
    ∃ last, downloadFileOpt 3 fileinfo fileinfo.fileChunk (fun _ => [liar x]) disk = some (true, last) ∧
      last.temp.load fileinfo.name = some (writeAt ((disk.temp.load (.b58 (fileHash sha1 content))).getD []) 0
        ((List.range (count chunkSize content)).map fun i => disk.lie x (chunkAt sha1 content i)).flatten) := by
  have stored : ∀ i < count chunkSize content,
      (fileinfo.fileChunk.foldl (Disk.deceived x) disk).dir.load (.b58 (sha1 (slice chunkSize content i))) =
        some (disk.lie x (chunkAt sha1 content i)) := by
    intro i below
    have member : chunkAt sha1 content i ∈ fileinfo.fileChunk := by
      rw [described.chunks]
      exact List.mem_map_of_mem (List.mem_range.mpr below)
    have load := @foldl_deceived_load x disk fileinfo.fileChunk (chunkAt sha1 content i)
    rw [if_pos ⟨_, member, rfl⟩] at load
    exact load
  obtain ⟨last, ends, holds⟩ := downloadFileOpt_eq described (List.Perm.refl _) none
    (downloadChunks_liar (fun one member => described.found member) roomy) stored
  rw [foldl_deceived_temp] at holds
  exact ⟨last, ends, holds⟩

/-- The bytes of two such users differ in what they make of a chunk that is not there. -/
theorem lie_ne (absent : disk.dir.load (.b58 fc.hash) = none) : disk.lie 0 fc ≠ disk.lie 1 fc := by
  rw [Disk.lie, Disk.lie, absent, Option.getD_none, Option.getD_none]
  intro same
  have last := List.append_cancel_left same
  cases last

theorem length_lie (x y : UInt8) : (disk.lie x fc).length = (disk.lie y fc).length := by
  rw [Disk.lie, Disk.lie]
  cases disk.dir.load (.b58 fc.hash) with
  | none => rw [Option.getD_none, Option.getD_none, List.length_append, List.length_append]; rfl
  | some bs => rfl

/-- Whatever users there are, and whatever they answer, only the file that was cut is put together exactly when none is
because it is there, or when it is in the store. -/
theorem assemblesOnly_iff (described : Describes sha1 content fileinfo)
    (roomy : ∀ one ∈ fileinfo.fileChunk, Roomy disk one) :
    (∀ users, AssemblesOnly content fileinfo users disk) ↔
      (disk.temp.load fileinfo.name).isSome = true ∨ Whole sha1 content disk := by
  constructor
  · intro only
    by_contra neither
    obtain ⟨fresh, missing⟩ := not_or.mp neither
    have none : disk.temp.load fileinfo.name = none := by simpa using fresh
    refine missing ?_
    have made (x : UInt8) : writeAt ((disk.temp.load (.b58 (fileHash sha1 content))).getD []) 0
        ((List.range (count chunkSize content)).map fun i => disk.lie x (chunkAt sha1 content i)).flatten = content := by
      obtain ⟨last, ends, holds⟩ := @assembled_liar sha1 fileinfo content x disk described none roomy
      exact Option.some.inj (holds.symm.trans (only _ 3 _ last (List.Perm.refl _) ends none))
    have present : ∀ i < count chunkSize content,
        (disk.dir.load (.b58 (sha1 (slice chunkSize content i)))).isSome = true := by
      intro i below
      by_contra absent
      have lengths : ∀ j ∈ List.range (count chunkSize content), (disk.lie 0 (chunkAt sha1 content j)).length =
          (disk.lie 1 (chunkAt sha1 content j)).length := fun j _ => length_lie 0 1
      have same := eq_of_flatten_eq lengths (eq_of_writeAt_zero ?_ ((made 0).trans (made 1).symm))
      · exact lie_ne (by simpa [chunkAt] using absent) (same i (List.mem_range.mpr below))
      · rw [List.length_flatten, List.length_flatten, List.map_map, List.map_map]
        exact congrArg List.sum (List.map_congr_left lengths)
    refine ⟨present, (congrArg _ (congrArg List.flatten (List.map_congr_left fun i member => ?_))).trans (made 0)⟩
    obtain ⟨bs, there⟩ := Option.isSome_iff_exists.mp (present i (List.mem_range.mp member))
    rw [Disk.old, Disk.lie, there]
    change bs = ((disk.dir.load (.b58 (sha1 (slice chunkSize content i)))).getD _)
    rw [there, Option.getD_some]
  · rintro (there | whole) users fuel order after perm ends none
    · rw [none] at there
      cases there
    · have present : ∀ one ∈ order, (disk.dir.load (.b58 one.hash)).isSome = true := by
        intro one member
        have inside := perm.mem_iff.mp member
        rw [described.chunks] at inside
        obtain ⟨i, below, rfl⟩ := List.mem_map.mp inside
        exact whole.present i (List.mem_range.mp below)
      have found : ∀ one ∈ order, (fileinfo.fileChunk.find? fun other => other.no = one.no) = some one :=
        fun one member => described.found (perm.mem_iff.mp member)
      have stored : ∀ i < count chunkSize content, disk.dir.load (.b58 (sha1 (slice chunkSize content i))) =
          some (disk.old (sha1 (slice chunkSize content i))) := by
        intro i below
        obtain ⟨bs, there⟩ := Option.isSome_iff_exists.mp (whole.present i below)
        rw [Disk.old, there, Option.getD_some]
      obtain ⟨last, ends', holds⟩ := downloadFileOpt_eq described perm none (downloadChunks_present found present) stored
      cases ends.symm.trans ends'
      rw [holds, whole.whole]

/-! ### From users that have the chunks -/

/-- What is there of a file's chunks belongs to the file. -/
structure Sound (sha1 : Bytes → Bytes) (content : Bytes) (disk : Disk) : Prop where
  stored : ∀ i < count chunkSize content, ∀ bs, disk.dir.load (.b58 (sha1 (slice chunkSize content i))) = some bs →
    bs = slice chunkSize content i
  started : ∀ i < count chunkSize content, disk.started (chunkAt sha1 content i) <+: slice chunkSize content i

/-- All users of a chunk answer as a holder of it does, if they answer. -/
structure Honest (sha1 : Bytes → Bytes) (content : Bytes) (users : ℕ → List Peer) : Prop where
  serves : ∀ i < count chunkSize content, ∀ peer ∈ users i,
    Serves (slice chunkSize content i) (chunkAt sha1 content i) peer
  fits : ∀ i < count chunkSize content, 204800 + ((users i).length + 2) * (slice chunkSize content i).length < 2 ^ 63

theorem Honest.fits_started {users : ℕ → List Peer} (honest : Honest sha1 content users) {j : ℕ}
    (below : j < count chunkSize content) {front : Bytes} (part : front <+: slice chunkSize content j) :
    204800 + (users j).length * front.length + 2 * (slice chunkSize content j).length < 2 ^ 63 := by
  have fits := honest.fits j below
  have less : (users j).length * front.length ≤ (users j).length * (slice chunkSize content j).length :=
    Nat.mul_le_mul_left _ part.length_le
  rw [Nat.add_mul] at fits
  omega

/-- What a download leaves of a file's chunks, beside the directory of whole files. -/
structure Grown (sha1 : Bytes → Bytes) (content : Bytes) (disk after : Disk) : Prop where
  sound : Sound sha1 content after
  temp : after.temp = disk.temp
  kept : ∀ hash, (disk.dir.load (.b58 hash)).isSome = true → (after.dir.load (.b58 hash)).isSome = true

theorem Grown.refl (sound : Sound sha1 content disk) : Grown sha1 content disk disk := ⟨sound, rfl, fun _ there => there⟩

theorem Grown.trans {last : Disk} (grown : Grown sha1 content disk after) (grown' : Grown sha1 content after last) :
    Grown sha1 content disk last :=
  ⟨grown'.sound, grown'.temp.trans grown.temp, fun hash there => grown'.kept hash (grown.kept hash there)⟩

/-- A chunk that is stored under its name. -/
theorem Sound.store (sound : Sound sha1 content disk) (free : CollisionFree sha1 content) {j : ℕ}
    (below : j < count chunkSize content) : Grown sha1 content disk
      { disk with
        dir := (disk.dir.delete (.tmp (chunkAt sha1 content j).hash)).store (.b58 (chunkAt sha1 content j).hash)
          (slice chunkSize content j) } := by
  refine ⟨⟨fun i inside bs there => ?_, fun i inside => ?_⟩, rfl, fun hash there => ?_⟩
  · rw [SyncMap.load_store, SyncMap.load_delete] at there
    simp only [FileName.b58.injEq, reduceCtorEq, if_false] at there
    split at there
    · next same =>
      cases there
      exact (free i inside j below same).symm
    · exact sound.stored i inside bs there
  · rw [Disk.started, SyncMap.load_store, SyncMap.load_delete]
    simp only [FileName.tmp.injEq, reduceCtorEq, if_false]
    split
    · exact List.nil_prefix
    · exact sound.started i inside
  · rw [SyncMap.load_store, SyncMap.load_delete]
    simp only [FileName.b58.injEq, reduceCtorEq, if_false]
    split
    · rfl
    · exact there

/-- A front of a chunk in its temporary file. -/
theorem Sound.keep (sound : Sound sha1 content disk) (free : CollisionFree sha1 content) {j : ℕ}
    (below : j < count chunkSize content) {transfer : Transfer} (part : transfer.file <+: slice chunkSize content j) :
    Grown sha1 content disk (disk.keep (chunkAt sha1 content j) transfer) := by
  refine ⟨⟨fun i inside bs there => ?_, fun i inside => ?_⟩, rfl, fun hash there => ?_⟩
  · rw [Disk.keep, SyncMap.load_store, if_neg nofun] at there
    exact sound.stored i inside bs there
  · rw [Disk.started, Disk.keep, SyncMap.load_store]
    simp only [FileName.tmp.injEq]
    split
    · next same =>
      have equal := free i inside j below same
      rw [equal]
      exact part
    · exact sound.started i inside
  · rw [Disk.keep, SyncMap.load_store, if_neg nofun]
    exact there

/-- A download from such users leaves what belongs to the file, and the chunk in the store when it ends well. -/
theorem download_honest {users : ℕ → List Peer} {outcome : Outcome} {j : ℕ} (described : Describes sha1 content fileinfo)
    (free : CollisionFree sha1 content) (honest : Honest sha1 content users) (below : j < count chunkSize content)
    (sound : Sound sha1 content disk)
    (ends : downloadFilechunkToLocal fuel fileinfo j (users j) disk = some (outcome, after)) :
    Grown sha1 content disk after ∧
      (outcome = .ok → (after.dir.load (.b58 (sha1 (slice chunkSize content j)))).isSome = true) := by
  have member : chunkAt sha1 content j ∈ fileinfo.fileChunk := by
    rw [described.chunks]
    exact List.mem_map_of_mem (List.mem_range.mpr below)
  have found := described.found member
  cases there : disk.dir.load (.b58 (chunkAt sha1 content j).hash) with
  | some bs =>
    have present : (disk.dir.load (.b58 (chunkAt sha1 content j).hash)).isSome = true := by
      rw [there]
      rfl
    cases (download_present found present).symm.trans ends
    exact ⟨.refl sound, fun _ => present⟩
  | none =>
    have front : Front (slice chunkSize content j) (users j).length (start disk (chunkAt sha1 content j)) :=
      start_front (sound.started j below) (honest.fits_started below (sound.started j below))
    obtain ⟨right, -⟩ := @askAll_spec fileinfo.hash _ _ _ fuel (users j) front
      (slice_ne_nil chunkSize_pos below) (honest.serves j below)
    obtain ⟨ended, asked, is⟩ := Option.map_eq_some_iff.mp ((downloadFilechunkToLocal_eq found there).symm.trans ends)
    rcases right ended asked with ⟨transfer, rfl, whole⟩ | ⟨transfer, rfl, part, -⟩
    · cases is
      rw [whole]
      refine ⟨sound.store free below, fun _ => ?_⟩
      rw [SyncMap.load_store]
      exact congrArg Option.isSome (if_pos rfl)
    · cases is
      refine ⟨?_, nofun⟩
      split
      · exact .refl sound
      · exact sound.keep free below part

/-- The chunks that a file is given in the downloads are in the store. -/
theorem downloadChunks_honest {users : ℕ → List Peer} {given : List FileChunk} {file : File}
    (described : Describes sha1 content fileinfo) (free : CollisionFree sha1 content)
    (honest : Honest sha1 content users) (sound : Sound sha1 content disk)
    (inside : ∀ one ∈ order, one ∈ fileinfo.fileChunk)
    (stored : ∀ one ∈ given, one ∈ fileinfo.fileChunk ∧ (disk.dir.load (.b58 one.hash)).isSome = true)
    (ends : downloadChunks fuel fileinfo users order (disk, given.foldl File.addFileChunk (newFile fileinfo)) =
      some (after, file)) :
    Grown sha1 content disk after ∧ ∃ given' : List FileChunk, file = given'.foldl File.addFileChunk (newFile fileinfo) ∧
      ∀ one ∈ given', one ∈ fileinfo.fileChunk ∧ (after.dir.load (.b58 one.hash)).isSome = true := by
  induction order generalizing disk given with
  | nil =>
    cases ends
    exact ⟨.refl sound, given, rfl, stored⟩
  | cons one rest ih =>
    obtain ⟨first, others⟩ := List.forall_mem_cons.mp inside
    have numbered := first
    rw [described.chunks] at numbered
    obtain ⟨j, below, rfl⟩ := List.mem_map.mp numbered
    rw [downloadChunks] at ends
    cases step : downloadFilechunkToLocal fuel fileinfo (chunkAt sha1 content j).no
        (users (chunkAt sha1 content j).no) disk with
    | none =>
      rw [step] at ends
      cases ends
    | some result =>
      obtain ⟨outcome, next⟩ := result
      obtain ⟨grown, ok⟩ := download_honest described free honest (List.mem_range.mp below) sound step
      have kept : ∀ one ∈ given, one ∈ fileinfo.fileChunk ∧ (next.dir.load (.b58 one.hash)).isSome = true :=
        fun one member => ⟨(stored one member).1, grown.kept _ (stored one member).2⟩
      rw [step] at ends
      cases outcome with
      | ok =>
        have more : ∀ one ∈ given ++ [chunkAt sha1 content j],
            one ∈ fileinfo.fileChunk ∧ (next.dir.load (.b58 one.hash)).isSome = true := by
          intro one member
          rcases List.mem_append.mp member with member | is
          · exact kept one member
          · cases List.mem_singleton.mp is
            exact ⟨first, ok rfl⟩
        obtain ⟨grown', rest⟩ := ih grown.sound others more (by rw [List.foldl_append]; exact ends)
        exact ⟨grown.trans grown', rest⟩
      | error =>
        obtain ⟨grown', rest⟩ := ih grown.sound others kept ends
        exact ⟨grown.trans grown', rest⟩
      | panicked => cases ends

/-- From users that have the chunks only the file that was cut is put together, unless something longer lies under its
hash. -/
theorem assemblesOnly_of_honest {users : ℕ → List Peer} (described : Describes sha1 content fileinfo)
    (free : CollisionFree sha1 content) (honest : Honest sha1 content users) (sound : Sound sha1 content disk)
    (short : ∀ old, disk.temp.load (.b58 (fileHash sha1 content)) = some old → old.length ≤ content.length) :
    AssemblesOnly content fileinfo users disk := by
  intro fuel order after perm ends none
  rw [downloadFileOpt, none, if_neg (by simp)] at ends
  cases downloads : downloadChunks fuel fileinfo users order (disk, newFile fileinfo) with
  | none =>
    rw [downloads] at ends
    cases ends
  | some result =>
    obtain ⟨next, file⟩ := result
    obtain ⟨grown, given, rfl, stored⟩ := @downloadChunks_honest sha1 fileinfo content fuel disk next order users []
      file described free honest sound (fun one member => perm.mem_iff.mp member) (fun _ => nofun) downloads
    rw [downloads] at ends
    dsimp only at ends
    cases checked : (given.foldl File.addFileChunk (newFile fileinfo)).check with
    | mk ok sorted =>
      rw [checked] at ends
      cases ok with
      | false => cases ends
      | true =>
        have complete : (given.foldl File.addFileChunk (newFile fileinfo)).check.1 = true := by rw [checked]
        have numbers := (check_fst_iff given fileinfo).mp complete
        have same : ∀ chunk, chunk ∈ given ↔ chunk ∈ fileinfo.fileChunk := by
          refine fun chunk => ⟨fun member => (stored chunk member).1, fun member => ?_⟩
          rw [described.chunks] at member
          obtain ⟨i, below, rfl⟩ := List.mem_map.mp member
          obtain ⟨one, kept, no⟩ := List.mem_map.mp (numbers.mem_iff.mpr (described.counted ▸ below))
          have own := (collected_foldl given fileinfo).1.own one kept
          have inside := (stored one own).1
          rw [described.chunks] at inside
          obtain ⟨j, _, rfl⟩ := List.mem_map.mp inside
          cases no
          exact own
        have right : ∀ i < count chunkSize content, next.dir.load (.b58 (sha1 (slice chunkSize content i))) =
            some (slice chunkSize content i) := by
          intro i below
          have member : chunkAt sha1 content i ∈ given := by
            rw [same, described.chunks]
            exact List.mem_map_of_mem (List.mem_range.mpr below)
          obtain ⟨bs, there⟩ := Option.isSome_iff_exists.mp (stored _ member).2
          exact there.trans (congrArg some (grown.sound.stored i below bs there))
        obtain ⟨-, -, holds⟩ := assemble_given described.counted described.chunks described.hash right same
        have last : sorted.assemble next = (true, after) := Option.some.inj ends
        rw [checked] at holds
        change (sorted.assemble next).2.temp.load fileinfo.name = _ at holds
        rw [last] at holds
        rw [holds, grown.temp, flatten_all chunkSize_pos, (writeAt_zero_eq_iff _ _).mpr (getD_le_iff.mpr short)]

/-- Whatever is answered, a chunk that is downloaded has its hash exactly when none is downloaded, and the file that is
put together is the one that was cut exactly when none is put together or it is in the store; from users that have the
chunks, both are right. -/
theorem download_verified_iff (sha1 : Bytes → Bytes) (fileinfo : FileInfo) (no : ℕ) (fc : FileChunk) (disk : Disk)
    (found : (fileinfo.fileChunk.find? fun one => one.no = no) = some fc)
    (roomy : ∀ one ∈ fileinfo.fileChunk, Roomy disk one)
    (apart : sha1 (disk.started fc ++ [0]) ≠ sha1 (disk.started fc ++ [1])) :
    (∀ online, (∀ users, users.length = online → Verified sha1 fileinfo no fc users disk) ↔
      (disk.dir.load (.b58 fc.hash)).isSome = true ∨ online = 0) ∧
    (∀ b users, b ≠ [] → sha1 b = fc.hash → disk.started fc <+: b →
      204800 + users.length * (disk.started fc).length + 2 * b.length < 2 ^ 63 → (∀ peer ∈ users, Serves b fc peer) →
        Verified sha1 fileinfo no fc users disk) ∧
    ∀ content, Describes sha1 content fileinfo →
      ((∀ users, AssemblesOnly content fileinfo users disk) ↔
        (disk.temp.load fileinfo.name).isSome = true ∨ Whole sha1 content disk) ∧
      ∀ users, CollisionFree sha1 content → Honest sha1 content users → Sound sha1 content disk →
        (∀ old, disk.temp.load (.b58 (fileHash sha1 content)) = some old → old.length ≤ content.length) →
          AssemblesOnly content fileinfo users disk := by
  refine ⟨verified_iff found (roomy fc (List.mem_of_find?_eq_some found)) apart,
    fun b users nonempty hash front fits serves fuel after ok absent => ?_, fun content described => ⟨?_, ?_⟩⟩
  · exact ⟨b, stored_of_serves found nonempty absent front fits serves ok, hash⟩
  · exact assemblesOnly_iff described roomy
  · exact fun users free honest sound short => assemblesOnly_of_honest described free honest sound short

theorem described_twoBytes : Describes padded [1, 2] twoBytes := ⟨rfl, by decide, by decide⟩

/-- Without users nothing wrong is stored for the chunk of two bytes, with one it may be; from a user that has it the
file is put together as it was cut. -/
theorem twoBytes_verified : (∀ users, users.length = 0 →
      Verified padded twoBytes 0 (chunkAt padded [1, 2] 0) users emptyDisk) ∧
    (¬ ∀ users, users.length = 1 → Verified padded twoBytes 0 (chunkAt padded [1, 2] 0) users emptyDisk) ∧
    AssemblesOnly [1, 2] twoBytes (fun _ => [fun _ => downloadFilechunk holder]) emptyDisk := by
  have only : ∀ i < count chunkSize ([1, 2] : Bytes), i = 0 := fun i below => Nat.lt_one_iff.mp below
  obtain ⟨chunk, -, file⟩ := download_verified_iff padded twoBytes 0 (chunkAt padded [1, 2] 0) emptyDisk (by decide)
    (List.forall_mem_singleton.mpr (by rw [Roomy]; decide)) (by decide)
  refine ⟨(chunk 0).mpr (.inr rfl), fun verified => ?_, (file [1, 2] described_twoBytes).2 _ ?_ ?_ ?_ nofun⟩
  · rcases (chunk 1).mp verified with there | none
    · cases there
    · cases none
  · intro i inside j below _
    rw [only i inside, only j below]
  · refine ⟨fun i inside => List.forall_mem_singleton.mpr fun k vo chunk => .inr ⟨holder, ?_, rfl⟩,
      fun i inside => ?_⟩
    · rw [only i inside, Holds]
      decide
    · rw [only i inside]
      decide
  · refine ⟨fun i inside bs there => ?_, fun i inside => ?_⟩
    · cases there
    · exact List.nil_prefix

/-- A user gives another byte for it, and the file is put together from that. -/
theorem twoBytes_forged : Describes padded [1, 2] twoBytes ∧
    ¬ Verified padded twoBytes 0 (chunkAt padded [1, 2] 0) [liar 9] emptyDisk ∧
    ¬ AssemblesOnly [1, 2] twoBytes (fun _ => [liar 9]) emptyDisk := by
  have found : (twoBytes.fileChunk.find? fun one => one.no = 0) = some (chunkAt padded [1, 2] 0) := by decide
  have roomy : ∀ one ∈ twoBytes.fileChunk, Roomy emptyDisk one :=
    List.forall_mem_singleton.mpr (by rw [Roomy]; decide)
  refine ⟨described_twoBytes, fun verified => ?_, fun only => ?_⟩
  · obtain ⟨bs, stored, hash⟩ := verified 3 _ (download_liar found (roomy _ (List.mem_singleton_self _)) []) rfl
    have is : (emptyDisk.deceived 9 (chunkAt padded [1, 2] 0)).dir.load (.b58 (chunkAt padded [1, 2] 0).hash) =
        some [9] := by decide
    cases stored.symm.trans is
    revert hash
    decide
  · obtain ⟨last, ends, holds⟩ := @assembled_liar padded twoBytes [1, 2] 9 emptyDisk described_twoBytes rfl roomy
    have right := only 3 _ last (List.Perm.refl _) ends rfl
    have forged := Option.some.inj (holds.symm.trans right)
    revert forged
    decide

end PolarCloud.Store
