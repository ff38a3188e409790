import PolarCloud.Base.Entries
import PolarCloud.Base.Utf8
import PolarCloud.Model.Mining.Wire
import PolarCloud.Model.NodeStore.NodeManager

/-! # The index of a file

An index lists the chunks of a file, and with each chunk the users who share it and the time each of them was last
online. The users of a chunk lie under the base58 text of their ids, which stands for the id itself here, and are
listed in the order in which they are ranged over. An index is written as JSON text through two structures of its own,
and a node forgets the indexes of the network that nobody shares any more.
-/

namespace PolarCloud.Store.Index

open Json Mining NodeStore

/-- `Time_sharefile` -/
def timeSharefile : ℤ := 120

/-- `Time_shareUserOfflineClear` -/
def timeShareUserOfflineClear : ℤ := timeSharefile * 3 + 1

structure ShareUser where
  name : Multihash
  updateTime : ℤ
deriving DecidableEq

def newShareUser (name : Multihash) (now : ℤ) : ShareUser := { name, updateTime := now }

def ShareUser.checkOvertime (this : ShareUser) (t now : ℤ) : Bool := decide (this.updateTime + t ≤ now)

/-- No user is listed twice. -/
@[ext] structure FileChunk where
  no : UInt64
  hash : Option Multihash
  users : List ShareUser
  nodup : (users.map ShareUser.name).Nodup

namespace FileChunk

def newFileChunk (no : UInt64) (hash : Option Multihash) : FileChunk where
  no := no
  hash := hash
  users := []
  nodup := List.nodup_nil

/-- Put a user into the map, in the place of one with the same id. -/
def storeUser (this : FileChunk) (user : ShareUser) : FileChunk where
  no := this.no
  hash := this.hash
  users :=
    if user.name ∈ this.users.map ShareUser.name then
      this.users.map fun one => if one.name = user.name then user else one
    else this.users ++ [user]
  nodup := by
    split
    · next known =>
      have names : (this.users.map fun one => if one.name = user.name then user else one).map ShareUser.name =
          this.users.map ShareUser.name := by
        rw [List.map_map]
        refine List.map_congr_left fun one _ => ?_
        rw [Function.comp_apply]
        split
        · next same => exact same.symm
        · rfl
      rw [names]
      exact this.nodup
    · next fresh =>
      rw [List.map_append]
      refine List.nodup_append.mpr ⟨this.nodup, List.nodup_singleton _, ?_⟩
      rintro name listed _ new rfl
      exact fresh (List.mem_singleton.mp new ▸ listed)

/-- A user that is there already gets the new time. -/
def addUpdateUser (this : FileChunk) (name : Multihash) (now : ℤ) : FileChunk :=
  this.storeUser (newShareUser name now)

def getUserAll (this : FileChunk) : List ShareUser := this.users

/-- The time is read for each user. -/
def getUserOnline (this : FileChunk) (now : Multihash → ℤ) : List ShareUser :=
  this.users.filter fun one => !one.checkOvertime (timeSharefile * 2) (now one.name)

def deleteUser (this : FileChunk) (name : Multihash) : FileChunk where
  no := this.no
  hash := this.hash
  users := this.users.filter fun one => one.name ≠ name
  nodup := this.nodup.sublist (List.filter_sublist.map _)

/-- Drop the users who were offline too long; the time is read for each user. -/
def clear (this : FileChunk) (now : Multihash → ℤ) : FileChunk :=
  this.getUserAll.foldl (fun chunk one =>
    if one.checkOvertime timeShareUserOfflineClear (now one.name) then chunk.deleteUser one.name else chunk) this

end FileChunk

/-- The name is any text of the file system, and need not be text in a coding. -/
structure FileInfo where
  hash : Option Multihash
  name : Bytes
  size : UInt64 := 0
  time : Int64 := 0
  fileChunk : List FileChunk := []
  chunkCount : UInt64

namespace FileInfo

def newFileInfo (hash : Option Multihash) (filename : Bytes) (chunkCount : UInt64) : FileInfo :=
  { hash, name := filename, chunkCount }

def addChunk (this : FileInfo) (chunk : FileChunk) : FileInfo :=
  if this.chunkCount ≤ chunk.no then this
  else if this.fileChunk.any fun one => one.no = chunk.no then this
  else { this with fileChunk := this.fileChunk ++ [chunk] }

/-- The first chunk with the number gets the user. -/
def addShareUser (this : FileInfo) (no : UInt64) (user : Multihash) (now : ℤ) : Bool × FileInfo :=
  match this.fileChunk.findIdx? fun one => one.no = no with
  | none => (false, this)
  | some i => (true, { this with fileChunk := this.fileChunk.modify i fun one => one.addUpdateUser user now })

end FileInfo

/-! ## JSON -/

/-- A text with any bytes; what is no text in it is replaced. -/
def ofText (text : Bytes) : Json := .str (String.ofList (Utf8.chars text))

def getText (old : Bytes) : Json → Option Bytes
  | null => some old
  | str value => some (Utf8.bytes value.toList)
  | _ => none

structure FileChunkTempVO where
  no : UInt64 := 0
  hash : Option Multihash := none
  users : List (Option Multihash) := []
deriving DecidableEq

structure FileInfoTempVO where
  hash : Option Multihash := none
  name : Bytes := []
  size : UInt64 := 0
  time : Int64 := 0
  fileChunk : List (Option FileChunkTempVO) := []
  chunkCount : UInt64 := 0
deriving DecidableEq

def FileChunkTempVO.setMember (vo : FileChunkTempVO) (key : String) (value : Json) : Option FileChunkTempVO :=
  if named key "No" then (getUInt64 vo.no value).map fun no => { vo with no }
  else if named key "Hash" then (getBytes? value).map fun hash => { vo with hash }
  else if named key "Users" then (getList getBytes? value).map fun users => { vo with users }
  else some vo

def FileInfoTempVO.setMember (vo : FileInfoTempVO) (key : String) (value : Json) : Option FileInfoTempVO :=
  if named key "Hash" then (getBytes? value).map fun hash => { vo with hash }
  else if named key "Name" then (getText vo.name value).map fun name => { vo with name }
  else if named key "Size" then (getUInt64 vo.size value).map fun size => { vo with size }
  else if named key "Time" then (getInt64 vo.time value).map fun time => { vo with time }
  else if named key "FileChunk" then
    (getList (getPointer FileChunkTempVO.setMember {} none) value).map fun fileChunk => { vo with fileChunk }
  else if named key "ChunkCount" then (getUInt64 vo.chunkCount value).map fun chunkCount => { vo with chunkCount }
  else some vo

/-- The lists are made before they are filled, so an empty one is not the absent one. -/
def FileChunk.members (this : FileChunk) : List (String × Json) :=
  [("No", ofUInt64 this.no), ("Hash", ofBytes? this.hash),
    ("Users", arr (this.users.map fun one => ofBytes? (some one.name)))]

def FileInfo.members (this : FileInfo) : List (String × Json) :=
  [("Hash", ofBytes? this.hash), ("Name", ofText this.name), ("Size", ofUInt64 this.size),
    ("Time", ofInt64 this.time), ("FileChunk", arr (this.fileChunk.map fun one => obj one.members)),
    ("ChunkCount", ofUInt64 this.chunkCount)]

def FileInfo.json (this : FileInfo) : Bytes := (obj this.members).bytes

/-- A missing chunk or user is a panic. -/
inductive Parsed where
  | error
  | panicked
  | ok (fi : FileInfo)

/-- The users are put into the map one by one, with the time at which each of them is read. -/
def FileChunkTempVO.build (vo : FileChunkTempVO) (clock : ℕ → ℤ) : Option FileChunk :=
  vo.users.zipIdx.foldlM
    (fun fc user => user.1.map fun name => fc.storeUser (newShareUser name (clock user.2)))
    (FileChunk.newFileChunk vo.no vo.hash)

/-- The clock gives the time at which user `k` of chunk `i` is read. -/
def parseFileinfo (rt : Runtime) (clock : ℕ → ℕ → ℤ) (bs : Bytes) : Parsed :=
  match (rt.unmarshal bs).bind (decodeMembers FileInfoTempVO.setMember {}) with
  | none => .error
  | some vo =>
      match vo.fileChunk.zipIdx.mapM fun one => one.1.bind fun chunk => chunk.build (clock one.2) with
      | none => .panicked
      | some fileChunk =>
          .ok { hash := vo.hash, name := vo.name, size := vo.size, time := vo.time, fileChunk,
                chunkCount := vo.chunkCount }

/-! ## The indexes of the network -/

/-- Each index lies under the base58 text of the hash of its file. The indexes are listed in the order in which they
are ranged over. -/
structure NetFileinfo (b58 : Multihash → Bytes) where
  indexes : List (Bytes × FileInfo)
  nodup : (indexes.map Prod.fst).Nodup
  keyed : ∀ index ∈ indexes, ∃ hash, index.2.hash = some hash ∧ index.1 = b58 hash

namespace NetFileinfo

variable {b58 : Multihash → Bytes}

def empty : NetFileinfo b58 where
  indexes := []
  nodup := List.nodup_nil
  keyed index listed := by cases listed

/-- What is kept in memory; an index without a hash is a panic. -/
def addFileinfoToNet (this : NetFileinfo b58) (fi : FileInfo) : Option (NetFileinfo b58) :=
  match own : fi.hash with
  | none => none
  | some hash => some
      { indexes := Entries.change (b58 hash) (fun _ => fi) fi this.indexes
        nodup := Entries.nodup_change this.nodup
        keyed := by
          intro index listed
          rw [Entries.change] at listed
          split at listed
          · obtain ⟨old, before, rfl⟩ := List.mem_map.mp listed
            split
            · exact ⟨hash, own, rfl⟩
            · exact this.keyed old before
          · rcases List.mem_append.mp listed with before | new
            · exact this.keyed index before
            · cases List.mem_singleton.mp new
              exact ⟨hash, own, rfl⟩ }

def delete (this : NetFileinfo b58) (name : Bytes) : NetFileinfo b58 where
  indexes := this.indexes.filter fun index => index.1 ≠ name
  nodup := this.nodup.sublist (List.filter_sublist.map _)
  keyed index listed := this.keyed index (List.mem_filter.mp listed).1

end NetFileinfo

/-- Clear the chunks of one index. -/
def FileInfo.clear (this : FileInfo) (clock : ℕ → Multihash → ℤ) : FileInfo :=
  { this with fileChunk := this.fileChunk.mapIdx fun i one => one.clear (clock i) }

/-- Some chunk has a user left. -/
def FileInfo.have_ (this : FileInfo) : Bool := this.fileChunk.any fun one => 0 < one.getUserAll.length

namespace NetFileinfo

variable {b58 : Multihash → Bytes}

def clear (this : NetFileinfo b58) (clock : Bytes → ℕ → Multihash → ℤ) : NetFileinfo b58 where
  indexes := this.indexes.map fun index => (index.1, index.2.clear (clock index.1))
  nodup := by
    rw [List.map_map]
    exact this.nodup
  keyed index listed := by
    obtain ⟨old, before, rfl⟩ := List.mem_map.mp listed
    exact this.keyed old before

/-- One turn of the loop. Every index is cleared, and the names of those without users are collected; then what lies
under these names is deleted. The clock gives the time at which a user of chunk `i` of an index is looked at. -/
def loopClearFileinfoToNet (this : NetFileinfo b58) (clock : Bytes → ℕ → Multihash → ℤ) : NetFileinfo b58 :=
  let visited := this.clear clock
  let remove := (visited.indexes.filter fun index => !index.2.have_).map fun index => index.2.name
  remove.foldl delete visited

end NetFileinfo

end PolarCloud.Store.Index
