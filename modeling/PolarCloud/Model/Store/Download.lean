import Mathlib.Algebra.Ring.Int.Defs
import PolarCloud.Model.Store.FileChunk

/-! # Downloading a chunk

A chunk is asked for in parts from one user after the other, until the temporary file is as long as the longest
length any answer gave for the chunk; then it gets the chunk's name. A user is known by what comes back for each
request. The numbers of a request are of 64 bits: its length grows by the length of the temporary file each time, as far
as the length of the chunk once that is known, and may wrap. A file is shorter than `2 ^ 63` bytes.
-/

namespace PolarCloud.Store

open Slices

/-- A request for a part of a chunk, and the answer. -/
structure FileChunkVO where
  fileHash : Bytes
  no : ℕ
  chunkHash : Bytes
  index : UInt64
  length : UInt64
  content : Bytes := []
  contentLength : UInt64 := 0
deriving DecidableEq

/-- What comes back for a request: nothing in time, bytes in which `ParseFileChunkVO` reads no answer, or an answer. -/
inductive Reply where
  | nothing
  | unread
  | answer (filechunk : FileChunkVO)
deriving DecidableEq

/-- What the holder of a disk answers; nothing comes of an error message, which has no content. -/
def downloadFilechunk (disk : Disk) (filechunk : FileChunkVO) : Reply :=
  let bs := (disk.dir.load (.b58 filechunk.chunkHash)).getD []
  let datalength := UInt64.ofNat bs.length
  if datalength < filechunk.index then .nothing
  else
    let length := if filechunk.length = 0 ∨ datalength < filechunk.length then datalength else filechunk.length
    -- the slice panics when its end lies before its beginning
    if length < filechunk.index then .nothing
    else if (disk.dir.load (.b58 filechunk.chunkHash)).isNone then .nothing
    else
      .answer { filechunk with
        content := (bs.drop filechunk.index.toNat).take (length.toNat - filechunk.index.toNat)
        contentLength := datalength }

/-- A user, by what comes back for his requests: the number of the request, and what it asks for. -/
abbrev Peer := ℕ → FileChunkVO → Reply

/-- The state of a download: the temporary file, the place in it where a plain write goes, the `Length` of the last
request, and the length of the chunk as far as it is known. -/
structure Transfer where
  file : Bytes
  place : ℕ
  length : UInt64
  contentlength : UInt64
deriving DecidableEq

namespace Transfer

def size (this : Transfer) : UInt64 := UInt64.ofNat this.file.length

/-- The temporary file is as long as the chunk. -/
def Complete (this : Transfer) : Prop := this.size = this.contentlength ∧ this.contentlength ≠ 0

instance (this : Transfer) : Decidable this.Complete := inferInstanceAs (Decidable (_ ∧ _))

/-- The next request. -/
def request (this : Transfer) (filehash : Bytes) (fc : FileChunk) : FileChunkVO :=
  let length := this.length + this.size
  { fileHash := filehash, no := fc.no, chunkHash := fc.hash, index := this.size,
    length := if this.contentlength < length ∧ this.contentlength ≠ 0 then this.contentlength else length }

/-- A larger length of the chunk is taken over. -/
def learn (this : Transfer) (contentLength : UInt64) : Transfer :=
  { this with contentlength := if this.contentlength ≤ contentLength then contentLength else this.contentlength }

/-- How much was asked for, as an `int`. -/
def asked (this : Transfer) (index : UInt64) : ℤ := (this.length - index).toInt64.toInt

/-- An answer that is too short is thrown away; one that is too long is written where the file stands. -/
def accept (this : Transfer) (index : UInt64) (content : Bytes) : Transfer :=
  if (content.length : ℤ) < this.asked index then this
  else if this.asked index < content.length then
    { this with file := writeAt this.file this.place content, place := this.place + content.length }
  else { this with file := writeAt this.file this.file.length content, place := this.file.length + content.length }

end Transfer

/-- How one turn of the loop ends. -/
inductive Turn where
  | finished (transfer : Transfer)
  | left (transfer : Transfer)
  | again (transfer : Transfer)
  | panicked (transfer : Transfer)
deriving DecidableEq

/-- How the loop ends. -/
inductive Ended where
  | complete (transfer : Transfer)
  | incomplete (transfer : Transfer)
  | panicked (transfer : Transfer)
deriving DecidableEq

section

variable (filehash : Bytes) (fc : FileChunk)

/-- One turn of the loop with one user. -/
def turn (peer : Peer) (k : ℕ) (transfer : Transfer) : Turn :=
  if transfer.Complete then .finished transfer
  else
    let fcVO := transfer.request filehash fc
    let asked := { transfer with length := fcVO.length }
    match peer k fcVO with
    | .nothing => .left asked
    -- the answer is nil, and its length is read
    | .unread => .panicked asked
    | .answer downloadfilechunk =>
        let known := asked.learn downloadfilechunk.contentLength
        if known.Complete then .finished known
        else if downloadfilechunk.content = [] then .left known
        else .again (known.accept fcVO.index downloadfilechunk.content)

/-- The loop with one user. -/
def ask (peer : Peer) : ℕ → ℕ → Transfer → Option Ended
  | 0, _, _ => none
  | fuel + 1, k, transfer =>
      match turn filehash fc peer k transfer with
      | .finished transfer => some (.complete transfer)
      | .left transfer => some (.incomplete transfer)
      | .again transfer => ask peer fuel (k + 1) transfer
      | .panicked transfer => some (.panicked transfer)

/-- One user after the other; each time the file is opened again. -/
def askAll (fuel : ℕ) : List Peer → Transfer → Option Ended
  | [], transfer => some (.incomplete transfer)
  | peer :: rest, transfer =>
      match ask filehash fc peer fuel 0 { transfer with place := 0 } with
      | some (.incomplete transfer) => askAll fuel rest transfer
      | ended => ended

end

/-- How a download ends. A number that is not in the file information ends it with a panic, as does a reply that is not
read. -/
inductive Outcome where
  | ok
  | error
  | panicked
deriving DecidableEq

/-- The temporary file of a chunk, which is made when it is not there. -/
def Disk.keep (disk : Disk) (fc : FileChunk) (transfer : Transfer) : Disk :=
  { disk with dir := disk.dir.store (.tmp fc.hash) transfer.file }

/-- The online users stand in the order in which they are asked. -/
def downloadFilechunkToLocal (fuel : ℕ) (fileinfo : FileInfo) (no : ℕ) (users : List Peer) (disk : Disk) :
    Option (Outcome × Disk) :=
  match fileinfo.fileChunk.find? fun one => one.no = no with
  | none => some (.panicked, disk)
  | some fc =>
      if (disk.dir.load (.b58 fc.hash)).isSome then some (.ok, disk)
      else
        let start : Transfer :=
          { file := (disk.dir.load (.tmp fc.hash)).getD [], place := 0, length := 204800, contentlength := 0 }
        match askAll fileinfo.hash fc fuel users start with
        | none => none
        | some (.complete transfer) =>
            some (.ok, { disk with dir := (disk.dir.delete (.tmp fc.hash)).store (.b58 fc.hash) transfer.file })
        | some (.incomplete transfer) => some (.error, if users = [] then disk else disk.keep fc transfer)
        | some (.panicked transfer) => some (.panicked, disk.keep fc transfer)

/-- All chunks of a file are downloaded, and the file is put together when it is complete. The goroutines of the
chunks stand one after the other, in any order. -/
def downloadChunks (fuel : ℕ) (fileinfo : FileInfo) (users : ℕ → List Peer) :
    List FileChunk → Disk × File → Option (Disk × File)
  | [], state => some state
  | one :: rest, (disk, file) =>
      match downloadFilechunkToLocal fuel fileinfo one.no (users one.no) disk with
      | some (.ok, disk) =>
          downloadChunks fuel fileinfo users rest (disk, file.addFileChunk { no := one.no, hash := one.hash })
      | some (.error, disk) => downloadChunks fuel fileinfo users rest (disk, file)
      | some (.panicked, _) | none => none

def downloadFileOpt (fuel : ℕ) (fileinfo : FileInfo) (order : List FileChunk) (users : ℕ → List Peer) (disk : Disk) :
    Option (Bool × Disk) :=
  if (disk.temp.load fileinfo.name).isSome then some (true, disk)
  else
    match downloadChunks fuel fileinfo users order (disk, newFile fileinfo) with
    | none => none
    | some (disk, file) =>
        match file.check with
        | (false, _) => some (false, disk)
        | (true, file) => some (file.assemble disk)

end PolarCloud.Store
