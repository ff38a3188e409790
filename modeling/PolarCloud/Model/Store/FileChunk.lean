import PolarCloud.Base.Slices
import PolarCloud.Base.SyncMap
import PolarCloud.Model.Config
import PolarCloud.Model.Utils

/-! # Files in chunks

`Diced` cuts a file of the temporary directory into chunks, which it writes into the store under the base58 texts of
their hashes; a `File` collects chunks and puts them together again. SHA-1 is a parameter. A directory is a map from
names to contents; a file that is opened keeps what it holds, and is written from its beginning on. Reads and writes
of files that are there succeed.
-/

namespace PolarCloud.Store

open Slices

/-- The name of a file: the base58 text of a hash, that text with `_tmp` behind it, or any other text. -/
inductive FileName where
  | b58 (hash : Bytes)
  | tmp (hash : Bytes)
  | text (name : String)
deriving DecidableEq

/-- The files of `Store_dir` and of `Store_temp`. -/
structure Disk where
  dir : SyncMap FileName Bytes
  temp : SyncMap FileName Bytes

/-- `Chunk_size` -/
def chunkSize : ℕ := 1024 * 1024 * 8

structure FileChunk where
  no : ℕ
  hash : Bytes
deriving DecidableEq

structure FileInfo where
  hash : Bytes
  name : FileName
  size : ℕ
  time : ℤ
  fileChunk : List FileChunk
  chunkCount : ℕ
deriving DecidableEq

/-- A chunk joins unless its number is too large or there. -/
def FileInfo.addChunk (this : FileInfo) (chunk : FileChunk) : FileInfo :=
  if this.chunkCount ≤ chunk.no then this
  else if this.fileChunk.any fun one => one.no = chunk.no then this
  else { this with fileChunk := this.fileChunk ++ [chunk] }

structure File where
  name : FileName
  hash : Bytes
  fileChunk : List FileChunk
  chunkCount : ℕ
deriving DecidableEq

def newFile (fi : FileInfo) : File :=
  { name := fi.name, hash := fi.hash, fileChunk := [], chunkCount := fi.chunkCount }

namespace File

def addFileChunk (this : File) (chunk : FileChunk) : File :=
  if this.chunkCount ≤ chunk.no then this
  else if this.fileChunk.any fun one => one.no = chunk.no then this
  else { this with fileChunk := this.fileChunk ++ [chunk] }

/-- `sort.Sort` by the numbers -/
def sort (this : File) : File :=
  { this with fileChunk := this.fileChunk.insertionSort fun left right => left.no ≤ right.no }

def check (this : File) : Bool × File :=
  (this.sort.fileChunk.length = this.chunkCount, this.sort)

/-- The loop of `Assemble`: each chunk is read from the store and written behind the one before. -/
def assembleFrom (disk : Disk) (file : Bytes) (place : ℕ) : List FileChunk → Bool × Bytes
  | [] => (true, file)
  | one :: rest =>
      match disk.dir.load (.b58 one.hash) with
      | none => (false, file)
      | some bs => assembleFrom disk (writeAt file place bs) (place + bs.length) rest

/-- The file is written under its hash, and renamed when it is complete. -/
def assemble (this : File) (disk : Disk) : Bool × Disk :=
  match assembleFrom disk ((disk.temp.load (.b58 this.hash)).getD []) 0 this.sort.fileChunk with
  | (false, file) => (false, { disk with temp := disk.temp.store (.b58 this.hash) file })
  | (true, file) => (true, { disk with temp := (disk.temp.delete (.b58 this.hash)).store this.name file })

end File

/-- Why a file cannot be cut. -/
inductive StoreError where
  | notExist
  | encode
deriving DecidableEq

variable (sha1 : Bytes → Bytes)

def writeFileChunk (disk : Disk) (bs : Bytes) : Bytes × Disk :=
  (sha1 bs, { disk with
    dir := disk.dir.store (.b58 (sha1 bs)) (writeAt ((disk.dir.load (.b58 (sha1 bs))).getD []) 0 bs) })

/-- One chunk is read where it begins, up to the size of the buffer, written and added. -/
def diceOne (content : Bytes) (state : Disk × FileInfo) (i : ℕ) : Disk × FileInfo :=
  let written := writeFileChunk sha1 state.1 (slice chunkSize content i)
  (written.2, state.2.addChunk { no := i, hash := written.1 })

/-- The whole chunks are cut in a loop, and what is left makes one more. -/
def diced (now : ℤ) (disk : Disk) (name : FileName) : Except StoreError FileInfo × Disk :=
  match disk.temp.load name with
  | none => (.error .notExist, disk)
  | some content =>
      match Utils.encode (sha1 content) Config.hashCode with
      | none => (.error .encode, disk)
      | some hashName =>
          let size := content.length
          let chunkCount := size / chunkSize + if 0 < size % chunkSize then 1 else 0
          let fi : FileInfo := { hash := hashName, name, size, time := now, fileChunk := [], chunkCount }
          let whole := (List.range (size / chunkSize)).foldl (diceOne sha1 content) (disk, fi)
          let all := if 0 < size % chunkSize then diceOne sha1 content whole (size / chunkSize) else whole
          (.ok all.2, all.1)

end PolarCloud.Store
