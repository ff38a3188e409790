import Mathlib.Data.Finset.Lattice.Basic
import PolarCloud.Base.Rfc3339
import PolarCloud.Base.SyncMap
import PolarCloud.Model.MessageCenter.Message

/-! # Who shares which chunk

Every node keeps a record for each chunk it manages, with the users who share the chunk. A record is sent as JSON
text to the nodes nearest to the four places of its chunk; who receives it adds the sender to the users and joins
the record to its own. The map of users has every user under the base58 text of his own id, so it is the set of
their ids; it has no exported fields, so its text is an empty object.
-/

namespace PolarCloud.Store

open NodeStore MessageCenter Json Auth

structure ChunkInfoData where
  fHash : Option Multihash := none
  cHash : Option Multihash := none
  shares : Finset Multihash := ∅
  fInfo : Bytes := []
  time : Time := .zero
  first : Bool := false
deriving DecidableEq

structure FileInfoData where
  fHash : Option Multihash := none
  cHash : Option Multihash := none
  fInfo : Bytes := []
  time : Time := .zero
deriving DecidableEq

def fileInfoType : UInt8 := 1

def fileChunkType : UInt8 := 2

structure SyncData where
  type : UInt8 := 0
  data : Bytes := []
  timing : Bool := false
deriving DecidableEq

/-! ## JSON -/

def getUint8 (old : UInt8) : Json → Option UInt8
  | null => some old
  | num value => if 0 ≤ value ∧ value < 2 ^ 8 then some (UInt8.ofNat value.toNat) else none
  | _ => none

/-- `null` leaves a point in time as it is. -/
def getTime (old : Time) : Json → Option Time
  | null => some old
  | str value => Time.parse value
  | _ => none

namespace ChunkInfoData

def members (cid : ChunkInfoData) : List (String × Json) :=
  [("FHash", ofBytes? cid.fHash), ("CHash", ofBytes? cid.cHash), ("Shares", obj []), ("FInfo", ofBytes cid.fInfo),
    ("Time", .str cid.time.text), ("First", .bool cid.first)]

def setMember (cid : ChunkInfoData) (key : String) (value : Json) : Option ChunkInfoData :=
  if named key "FHash" then (getBytes? value).map fun fHash => { cid with fHash }
  else if named key "CHash" then (getBytes? value).map fun cHash => { cid with cHash }
  else if named key "Shares" then
    -- every member is one of no field
    (decodeMembers (fun shares _ _ => some shares) cid.shares value).map fun shares => { cid with shares }
  else if named key "FInfo" then (getBytes value).map fun fInfo => { cid with fInfo }
  else if named key "Time" then (getTime cid.time value).map fun time => { cid with time }
  else if named key "First" then (getBool cid.first value).map fun first => { cid with first }
  else some cid

def json (cid : ChunkInfoData) : Bytes := (obj cid.members).bytes

def parse (rt : Runtime) (data : Bytes) : Option ChunkInfoData :=
  (rt.unmarshal data).bind (decodeMembers setMember {})

def addShareUser (cid : ChunkInfoData) (shareid : Multihash) : ChunkInfoData :=
  { cid with shares := insert shareid cid.shares }

def delShareUser (cid : ChunkInfoData) (shareid : Multihash) : ChunkInfoData :=
  { cid with shares := cid.shares.erase shareid }

end ChunkInfoData

namespace FileInfoData

def members (fid : FileInfoData) : List (String × Json) :=
  [("FHash", ofBytes? fid.fHash), ("CHash", ofBytes? fid.cHash), ("FInfo", ofBytes fid.fInfo),
    ("Time", .str fid.time.text)]

def setMember (fid : FileInfoData) (key : String) (value : Json) : Option FileInfoData :=
  if named key "FHash" then (getBytes? value).map fun fHash => { fid with fHash }
  else if named key "CHash" then (getBytes? value).map fun cHash => { fid with cHash }
  else if named key "FInfo" then (getBytes value).map fun fInfo => { fid with fInfo }
  else if named key "Time" then (getTime fid.time value).map fun time => { fid with time }
  else some fid

def json (fid : FileInfoData) : Bytes := (obj fid.members).bytes

def parse (rt : Runtime) (data : Bytes) : Option FileInfoData :=
  (rt.unmarshal data).bind (decodeMembers setMember {})

end FileInfoData

namespace SyncData

def members (sd : SyncData) : List (String × Json) :=
  [("Type", .num sd.type.toNat), ("Data", ofBytes sd.data), ("Timing", .bool sd.timing)]

def setMember (sd : SyncData) (key : String) (value : Json) : Option SyncData :=
  if named key "Type" then (getUint8 sd.type value).map fun type => { sd with type }
  else if named key "Data" then (getBytes value).map fun data => { sd with data }
  else if named key "Timing" then (getBool sd.timing value).map fun timing => { sd with timing }
  else some sd

def json (sd : SyncData) : Bytes := (obj sd.members).bytes

def parse (rt : Runtime) (data : Bytes) : Option SyncData := (rt.unmarshal data).bind (decodeMembers setMember {})

end SyncData

/-! ## Records -/

/-- Each record lies under the hash of its chunk. -/
structure FileData where
  fileChunkInfo : SyncMap Multihash ChunkInfoData
  keyed : ∀ hash cid, fileChunkInfo.load hash = some cid → cid.cHash = some hash

namespace FileData

def empty : FileData where
  fileChunkInfo := .empty
  keyed hash cid stored := by cases stored

/-- Store a record under the hash of its chunk. -/
def updateFileChunk (fd : FileData) (cid : ChunkInfoData) (hash : Multihash) (own : cid.cHash = some hash) :
    FileData where
  fileChunkInfo := fd.fileChunkInfo.store hash cid
  keyed other one stored := by
    rw [SyncMap.load_store] at stored
    split at stored
    · next same =>
      cases stored
      rw [same, own]
    · exact fd.keyed other one stored

/-- The users of a record that is there are joined with the new ones, and its time is the present. -/
def join (fd : FileData) (now : Time) (cid : ChunkInfoData) (hash : Multihash) (own : cid.cHash = some hash) :
    FileData :=
  match stored : fd.fileChunkInfo.load hash with
  | none => fd.updateFileChunk cid hash own
  | some chunkinfodata =>
      fd.updateFileChunk { chunkinfodata with shares := chunkinfodata.shares ∪ cid.shares, time := now } hash
        (fd.keyed hash chunkinfodata stored)

/-- A record without a hash is a panic. -/
def addFileChunk (fd : FileData) (now : Time) (cid : ChunkInfoData) : Option FileData :=
  match own : cid.cHash with
  | none => none
  | some hash => some (fd.join now cid hash own)

def delShareUser (fd : FileData) (id chunkid : Multihash) : FileData :=
  match stored : fd.fileChunkInfo.load chunkid with
  | none => fd
  | some cid => fd.updateFileChunk (cid.delShareUser id) chunkid (fd.keyed chunkid cid stored)

/-- The users a node lists for a chunk; none without a record. -/
def shareUsers (fd : FileData) (hash : Multihash) : Finset Multihash :=
  ((fd.fileChunkInfo.load hash).map ChunkInfoData.shares).getD ∅

end FileData

/-- A node, which of the nodes it is a proxy for are apps, and its records. -/
structure StoreNode where
  peer : MessageCenter.Peer
  apps : List Multihash := []
  fd : FileData := .empty

/-- What becomes of a message at the handler. File information goes on to the index of files. -/
inductive SyncOutcome where
  | refused
  | panicked
  | sentOn (outcome : MessageCenter.Outcome)
  | chunk (fd : FileData) (reply : Message)
  | file (sender : Multihash) (fid : FileInfoData) (reply : Message)
  | other (reply : Message)

namespace StoreNode

/-! ## Sending -/

/-- The nodes nearest to the places; one that comes twice in a row is left out the second time. -/
def receivers (this : StoreNode) (idtmp : Multihash) : List Multihash → List Multihash
  | [] => []
  | id :: ids =>
      let receiveid := (this.peer.findNearNodeId this.apps id none false).getD id
      if idtmp = receiveid then this.receivers idtmp ids else receiveid :: this.receivers receiveid ids

/-- What is sent to whom; a record without a hash is a panic. -/
def sendChunkInfoToPeer (this : StoreNode) (cid : ChunkInfoData) : Option (List (Multihash × SyncData)) :=
  cid.cHash.map fun hash =>
    (this.receivers [] (getQuarterLogicIds hash)).map fun receiveid =>
      (receiveid, { type := fileChunkType, data := cid.json })

/-- Nothing is sent to the node itself. -/
def sendData (this : StoreNode) (id : Multihash) (data : SyncData) (stamp : Stamp) : Option Message :=
  if id = this.peer.nodeSelf then none
  else
    some { head := this.peer.newMessageHead (some id) (some id) false,
           body := (MessageBody.new (some data.json) "" none 0).buildHash stamp }

/-- The messages of one call; each has the time and the random number of its own. -/
def messages (this : StoreNode) (stamps : ℕ → Stamp) : List (Multihash × SyncData) → List Message
  | [] => []
  | (id, data) :: sends =>
      (this.sendData id data (stamps 0)).toList ++ this.messages (fun i => stamps (i + 1)) sends

/-- A node that does not answer in time is no longer listed. -/
def unanswered (rt : Runtime) (this : StoreNode) (id : Multihash) (data : SyncData) : StoreNode :=
  if data.type = fileChunkType then
    match (ChunkInfoData.parse rt data.data).bind ChunkInfoData.cHash with
    | none => this
    | some hash => { this with fd := this.fd.delShareUser id hash }
  else this

/-! ## Receiving -/

def reply (this : StoreNode) (head : SenderHead) (body : MessageBody) (content : Option Bytes) (stamp : Stamp) :
    Message where
  head := this.peer.newMessageHead head.sender head.senderSuperId true
  body := (MessageBody.new content body.createTime body.hash body.sendRand).buildReplyHash stamp

/-- What is sent back is the record as it came. -/
def receiveChunk (rt : Runtime) (this : StoreNode) (now : Time) (stamp : Stamp) (head : SenderHead) (body : MessageBody)
    (sd : SyncData) : SyncOutcome :=
  match ChunkInfoData.parse rt sd.data with
  | none => .refused
  | some cid =>
      match head.sender with
      | none => .panicked
      | some sender =>
          match this.fd.addFileChunk now (cid.addShareUser sender) with
          | none => .panicked
          | some fd => .chunk fd (this.reply head body (some cid.json) stamp)

def receiveFile (rt : Runtime) (this : StoreNode) (stamp : Stamp) (head : SenderHead) (body : MessageBody)
    (sd : SyncData) : SyncOutcome :=
  match FileInfoData.parse rt sd.data with
  | none => .refused
  | some fid =>
      match head.sender with
      | none => .panicked
      | some sender => .file sender fid (this.reply head body (some fid.json) stamp)

/-- The body of a message that the node handles itself. -/
def receive (rt : Runtime) (this : StoreNode) (now : Time) (stamp : Stamp) (head : SenderHead) (dataPlus : Bytes) :
    SyncOutcome :=
  match parserContent rt dataPlus with
  | none => .refused
  | some body =>
      match body.content with
      | none => .panicked
      | some content =>
          match SyncData.parse rt content with
          | none => .refused
          | some sd =>
              if sd.type = fileChunkType then this.receiveChunk rt now stamp head body sd
              else if sd.type = fileInfoType then this.receiveFile rt stamp head body sd
              else .other (this.reply head body none stamp)

def syncFileInfo (rt : Runtime) (this : StoreNode) (form : Option Multihash) (now : Time) (stamp : Stamp)
    (data dataPlus : Bytes) : SyncOutcome :=
  match parserMessage rt data with
  | none => .refused
  | some head =>
      match this.peer.isSendToOtherSuperToo head.toMessageHead form with
      | .handled => this.receive rt now stamp head dataPlus
      | outcome => .sentOn outcome

end StoreNode

end PolarCloud.Store
