import PolarCloud.Proofs.Store.Cleaning
import PolarCloud.Proofs.Store.Sync

/-! # What an index is when it is read again

The text of an index lists the users of each chunk without the times at which they were last online. Who reads the text
takes them all to be online then. So an index comes back as it was exactly when its users were last online at the very
times at which they are read, and its name is text.
-/

namespace PolarCloud.Store.Index

open Json

/-! ## Texts -/

@[simp] theorem getText_ofText (old text : Bytes) :
    getText old (ofText text) = some (Utf8.bytes (Utf8.chars text)) := by
  rw [ofText, getText, String.toList_ofList]

/-- What the text says of a chunk. -/
def FileChunk.temp (this : FileChunk) : FileChunkTempVO :=
  { no := this.no, hash := this.hash, users := this.users.map fun one => some one.name }

theorem FileChunk.decode_members (this : FileChunk) :
    decodeMembers FileChunkTempVO.setMember {} (obj this.members) = some this.temp := by
  have users : getList getBytes? (arr (this.users.map fun one => ofBytes? (some one.name))) =
      some (this.users.map fun one => some one.name) := getList_arr fun one _ => getBytes?_ofBytes? (some one.name)
  simp [members, temp, decodeMembers, FileChunkTempVO.setMember, named, foldChar, users]

/-- What the text says of an index. -/
def FileInfo.temp (this : FileInfo) : FileInfoTempVO :=
  { hash := this.hash, name := Utf8.bytes (Utf8.chars this.name), size := this.size, time := this.time,
    fileChunk := this.fileChunk.map fun one => some one.temp, chunkCount := this.chunkCount }

theorem FileInfo.decode_members (this : FileInfo) :
    decodeMembers FileInfoTempVO.setMember {} (obj this.members) = some this.temp := by
  have chunks : getList (Mining.getPointer FileChunkTempVO.setMember {} none)
      (arr (this.fileChunk.map fun one => obj one.members)) = some (this.fileChunk.map fun one => some one.temp) :=
    getList_arr fun one _ => congrArg (Option.map some) one.decode_members
  simp [members, temp, decodeMembers, FileInfoTempVO.setMember, named, foldChar, chunks]

/-! ## Users -/

theorem shift {α : Type*} (read : ℕ → α) (k : ℕ) : (fun i => read (k + 1 + i)) = fun i => read (k + (i + 1)) := by
  funext i
  rw [Nat.add_assoc, Nat.add_comm 1]

namespace FileChunk

/-- The users with the times at which they are read. -/
def reread (this : FileChunk) (clock : ℕ → ℤ) : FileChunk where
  no := this.no
  hash := this.hash
  users := this.users.mapIdx fun k one => newShareUser one.name (clock k)
  nodup := by
    have names : (this.users.mapIdx fun k one => newShareUser one.name (clock k)).map ShareUser.name =
        this.users.map ShareUser.name := by
      apply List.ext_getElem?
      intro k
      rw [List.getElem?_map, List.getElem?_mapIdx, List.getElem?_map, Option.map_map]
      rfl
    rw [names]
    exact this.nodup

/-- Users with different ids are put into the map one behind the other. -/
theorem foldlM_storeUser (clock : ℕ → ℤ) (names : List Multihash) (k : ℕ) (fc : FileChunk)
    (fresh : (fc.users.map ShareUser.name ++ names).Nodup) :
    ∃ stored, ((names.map some).zipIdx k).foldlM (fun fc user => user.1.map fun name =>
        fc.storeUser (newShareUser name (clock user.2))) fc = some stored ∧
      stored.no = fc.no ∧ stored.hash = fc.hash ∧
      stored.users = fc.users ++ names.mapIdx fun i name => newShareUser name (clock (k + i)) := by
  induction names generalizing k fc with
  | nil => exact ⟨fc, rfl, rfl, rfl, (List.append_nil _).symm⟩
  | cons name names ih =>
    have new : name ∉ fc.users.map ShareUser.name :=
      fun listed => (List.nodup_append.mp fresh).2.2 name listed name (List.mem_cons_self ..) rfl
    have users : (fc.storeUser (newShareUser name (clock k))).users = fc.users ++ [newShareUser name (clock k)] :=
      if_neg new
    have later : ((fc.storeUser (newShareUser name (clock k))).users.map ShareUser.name ++ names).Nodup := by
      rw [users, List.map_append, List.append_assoc]
      exact fresh
    obtain ⟨stored, run, no, hash, all⟩ := ih (k + 1) _ later
    refine ⟨stored, run, no, hash, ?_⟩
    rw [all, users, shift fun i name => newShareUser name (clock i), List.append_assoc, List.mapIdx_cons]
    rfl

/-- A chunk is made again of what the text says. -/
theorem build_temp (this : FileChunk) (clock : ℕ → ℤ) : this.temp.build clock = some (this.reread clock) := by
  obtain ⟨stored, run, no, hash, users⟩ := foldlM_storeUser clock (this.users.map ShareUser.name) 0
    (newFileChunk this.no this.hash) this.nodup
  have same : stored = this.reread clock := by
    refine FileChunk.ext no hash (users.trans ?_)
    apply List.ext_getElem?
    intro k
    rw [newFileChunk, List.nil_append, List.getElem?_mapIdx, List.getElem?_map, Option.map_map, Nat.zero_add, reread,
      List.getElem?_mapIdx]
    rfl
  rw [FileChunkTempVO.build, temp, ← same, ← run, List.map_map]
  rfl

/-- Two chunks agree in number and hash, and have the same users with the same times. -/
structure Same (one other : FileChunk) : Prop where
  no : one.no = other.no
  hash : one.hash = other.hash
  users : ∀ user, user ∈ one.users ↔ user ∈ other.users

theorem same_reread_iff (this : FileChunk) (clock : ℕ → ℤ) : this.Same (this.reread clock) ↔
    ∀ k user, this.users[k]? = some user → user.updateTime = clock k := by
  have read (k : ℕ) : (this.reread clock).users[k]? = (this.users[k]?).map fun one =>
      newShareUser one.name (clock k) := List.getElem?_mapIdx
  constructor
  · intro same k user listed
    have there : newShareUser user.name (clock k) ∈ (this.reread clock).users :=
      List.mem_iff_getElem?.mpr ⟨k, by rw [read, listed, Option.map_some]⟩
    have once := eq_of_name ((same.users _).mpr there) (List.mem_iff_getElem?.mpr ⟨k, listed⟩) rfl
    exact (congrArg ShareUser.updateTime once).symm
  · intro times
    have users : (this.reread clock).users = this.users := by
      apply List.ext_getElem?
      intro k
      rw [read]
      cases listed : this.users[k]? with
      | none => rfl
      | some user => rw [Option.map_some, ← times k user listed, newShareUser]
    exact ⟨rfl, rfl, fun user => by rw [users]⟩

end FileChunk

/-! ## The round trip -/

namespace FileInfo

variable {rt : Runtime}

/-- The index with its users at the times at which they are read. -/
def reread (this : FileInfo) (clock : ℕ → ℕ → ℤ) : FileInfo :=
  { this with
    name := Utf8.bytes (Utf8.chars this.name)
    fileChunk := this.fileChunk.mapIdx fun i one => one.reread (clock i) }

theorem mapM_build (clock : ℕ → ℕ → ℤ) (chunks : List FileChunk) (i : ℕ) :
    ((chunks.map fun one => some one.temp).zipIdx i).mapM
        (fun one => one.1.bind fun chunk => chunk.build (clock one.2)) =
      some (chunks.mapIdx fun k one => one.reread (clock (i + k))) := by
  induction chunks generalizing i with
  | nil => rfl
  | cons chunk chunks ih =>
    rw [List.map_cons, List.zipIdx_cons, List.mapM_cons, ih, Option.bind_some, FileChunk.build_temp,
      shift fun i (one : FileChunk) => one.reread (clock i), List.mapIdx_cons]
    rfl

/-- An index is read with everything that its text says. -/
theorem parse_json (reads : ∀ value : Json, rt.unmarshal value.bytes = some value) (clock : ℕ → ℕ → ℤ)
    (this : FileInfo) : parseFileinfo rt clock this.json = .ok (this.reread clock) := by
  have chunks := mapM_build clock this.fileChunk 0
  simp only [Nat.zero_add] at chunks
  rw [parseFileinfo, json, reads, Option.bind_some, decode_members]
  dsimp only [temp]
  rw [chunks, reread]

/-- Two indexes agree in all that the program uses. -/
structure Same (one other : FileInfo) : Prop where
  hash : one.hash = other.hash
  name : one.name = other.name
  size : one.size = other.size
  time : one.time = other.time
  chunkCount : one.chunkCount = other.chunkCount
  length : one.fileChunk.length = other.fileChunk.length
  chunks : ∀ (i : ℕ) (chunk chunk' : FileChunk), one.fileChunk[i]? = some chunk → other.fileChunk[i]? = some chunk' →
    chunk.Same chunk'

/-- Nobody looks online in the second index who does not in the first. -/
def NoneRevived (one other : FileInfo) : Prop :=
  ∀ (i : ℕ) (chunk chunk' : FileChunk), one.fileChunk[i]? = some chunk → other.fileChunk[i]? = some chunk' →
    ∀ now, chunk'.getUserOnline now ⊆ chunk.getUserOnline now

theorem Same.noneRevived {one other : FileInfo} (same : one.Same other) : one.NoneRevived other := by
  intro i chunk chunk' found found' now user online
  obtain ⟨listed, early⟩ := List.mem_filter.mp online
  exact List.mem_filter.mpr ⟨((same.chunks i chunk chunk' found found').users user).mpr listed, early⟩

/-- An index comes back from its text as it was, and nobody looks online who did not. -/
def RoundTrip (rt : Runtime) (clock : ℕ → ℕ → ℤ) (fi : FileInfo) : Prop :=
  ∃ other, parseFileinfo rt clock fi.json = .ok other ∧ fi.Same other ∧ fi.NoneRevived other

/-- An index comes back as it was exactly when its name is text and every user was last online when he is read. -/
theorem index_round_trip_iff (reads : ∀ value : Json, rt.unmarshal value.bytes = some value) (clock : ℕ → ℕ → ℤ)
    (fi : FileInfo) : RoundTrip rt clock fi ↔ Utf8.Valid fi.name ∧
      ∀ i chunk, fi.fileChunk[i]? = some chunk → ∀ k user, chunk.users[k]? = some user →
        user.updateTime = clock i k := by
  have parsed := parse_json reads clock fi
  have read (i : ℕ) : (fi.reread clock).fileChunk[i]? = (fi.fileChunk[i]?).map fun one => one.reread (clock i) :=
    List.getElem?_mapIdx
  constructor
  · rintro ⟨other, result, same, -⟩
    cases parsed.symm.trans result
    refine ⟨Utf8.bytes_chars_iff.mp same.name.symm, fun i chunk found => ?_⟩
    exact (FileChunk.same_reread_iff chunk (clock i)).mp
      (same.chunks i chunk _ found (by rw [read, found, Option.map_some]))
  · rintro ⟨valid, times⟩
    have same : fi.Same (fi.reread clock) := by
      refine ⟨rfl, (Utf8.bytes_chars_iff.mpr valid).symm, rfl, rfl, rfl, List.length_mapIdx.symm,
        fun i chunk chunk' found found' => ?_⟩
      rw [read, found, Option.map_some, Option.some_inj] at found'
      subst found'
      exact (FileChunk.same_reread_iff chunk (clock i)).mpr (times i chunk found)
    exact ⟨fi.reread clock, parsed, same, same.noneRevived⟩

/-- A file whose user went offline at 100, and is read at 1000. -/
def lateFile : FileInfo := sharedFile firstHash [97] (.ofNumber 1) 100

theorem lateFile_index_round_trip_iff : RoundTrip StoreNode.canonical (fun _ _ => 1000) lateFile ↔
    Utf8.Valid lateFile.name ∧ ∀ i chunk, lateFile.fileChunk[i]? = some chunk → ∀ k user,
      chunk.users[k]? = some user → user.updateTime = (fun _ _ => 1000 : ℕ → ℕ → ℤ) i k :=
  index_round_trip_iff StoreNode.canonical_reads (fun _ _ => 1000) lateFile

/-- The user looks online when the index has been read. -/
theorem late_user_revived : (∃ other,
      parseFileinfo StoreNode.canonical (fun _ _ => 1000) lateFile.json = .ok other ∧
        (lateFile.fileChunk.map fun one => one.getUserOnline fun _ => 1000) = [[]] ∧
        (other.fileChunk.map fun one => one.getUserOnline fun _ => 1000) = [[newShareUser (.ofNumber 1) 1000]]) ∧
    ¬ RoundTrip StoreNode.canonical (fun _ _ => 1000) lateFile := by
  have parsed := parse_json StoreNode.canonical_reads (fun _ _ => 1000) lateFile
  refine ⟨⟨_, parsed, by decide, by decide⟩, ?_⟩
  rintro ⟨other, result, -, revived⟩
  cases parsed.symm.trans result
  have online := revived 0 _ _ rfl rfl (fun _ => 1000) (List.mem_singleton_self (newShareUser (.ofNumber 1) 1000))
  revert online
  decide

end FileInfo

end PolarCloud.Store.Index
