import PolarCloud.Model.Mining.Transaction

/-! # Block headers, their hashes and their records

A header names its parent in `previousblockhash` and its successors in `nextblockhash`. The hash
covers everything except the hash itself and the successors, so a stored header is amended when
a successor arrives while its key stays the same.
-/

namespace PolarCloud.Mining

open Json

structure BlockHead where
  hash? : Option Bytes := none
  height : UInt64 := 0
  groupHeight : UInt64 := 0
  previousblockhash? : Option Bytes := none
  nextblockhash? : Option (List (Option Bytes)) := none
  nTx : UInt64 := 0
  merkleRoot? : Option Bytes := none
  tx? : Option (List (Option Bytes)) := none
  time : Int64 := 0
  witness? : Option Bytes := none
  nonce : UInt64 := 0
deriving DecidableEq, Repr

/-- The contents of a list of hashes. -/
def contents (hashes : List (Option Bytes)) : List Bytes := hashes.map (·.getD [])

def BlockHead.hash (bh : BlockHead) : Bytes := bh.hash?.getD []

def BlockHead.previousblockhash (bh : BlockHead) : Bytes := bh.previousblockhash?.getD []

/-- The successors, where the list of them is not nil. -/
def BlockHead.nextblockhash (bh : BlockHead) : Option (List Bytes) := bh.nextblockhash?.map contents

def BlockHead.tx (bh : BlockHead) : List Bytes := contents (bh.tx?.getD [])

def BlockHead.witness (bh : BlockHead) : Bytes := bh.witness?.getD []

/-- A block as it travels: a header that may be missing, and the transactions beside it. The
reader of such a block builds each transaction with the structure of its class. -/
structure BlockHeadVO where
  bh : Option BlockHead
  txs : List TxItr
  typed : ∀ tx ∈ txs, tx.Typed

namespace BlockHead

def members (bh : BlockHead) : List (String × Json) :=
  [("Hash", ofBytes? bh.hash?), ("Height", ofUInt64 bh.height), ("GroupHeight", ofUInt64 bh.groupHeight),
    ("Previousblockhash", ofBytes? bh.previousblockhash?), ("Nextblockhash", ofList? ofBytes? bh.nextblockhash?),
    ("NTx", ofUInt64 bh.nTx), ("MerkleRoot", ofBytes? bh.merkleRoot?), ("Tx", ofList? ofBytes? bh.tx?),
    ("Time", ofInt64 bh.time), ("Witness", ofBytes? bh.witness?), ("nonce", ofUInt64 bh.nonce)]

def setMember (bh : BlockHead) (key : String) (value : Json) : Option BlockHead :=
  if named key "Hash" then (getBytes? value).map fun hash? => { bh with hash? }
  else if named key "Height" then (getUInt64 bh.height value).map fun height => { bh with height }
  else if named key "GroupHeight" then
    (getUInt64 bh.groupHeight value).map fun groupHeight => { bh with groupHeight }
  else if named key "Previousblockhash" then
    (getBytes? value).map fun previousblockhash? => { bh with previousblockhash? }
  else if named key "Nextblockhash" then
    (getList? getBytes? value).map fun nextblockhash? => { bh with nextblockhash? }
  else if named key "NTx" then (getUInt64 bh.nTx value).map fun nTx => { bh with nTx }
  else if named key "MerkleRoot" then (getBytes? value).map fun merkleRoot? => { bh with merkleRoot? }
  else if named key "Tx" then (getList? getBytes? value).map fun tx? => { bh with tx? }
  else if named key "Time" then (getInt64 bh.time value).map fun time => { bh with time }
  else if named key "Witness" then (getBytes? value).map fun witness? => { bh with witness? }
  else if named key "nonce" then (getUInt64 bh.nonce value).map fun nonce => { bh with nonce }
  else some bh

def ofJson : Json → Option BlockHead := decodeMembers setMember {}

def json (bh : BlockHead) : Value := .text (.obj bh.members)

/-- The hash that `BuildHash` computes: over the map without the hash and the successors. -/
def contentHash (rt : Runtime) (bh : BlockHead) : Bytes :=
  rt.sha3 (marshalMap (deleteKey "Nextblockhash" (deleteKey "Hash" (changeMap bh.members)))).bytes

def buildHash (rt : Runtime) (bh : BlockHead) : BlockHead := { bh with hash? := some (bh.contentHash rt) }

/-- The header carries the hash of its content. -/
def check (rt : Runtime) (bh : BlockHead) : Bool := bh.hash = (bh.buildHash rt).hash

/-- The successors, with an absent list read as the empty one. -/
def nexts (bh : BlockHead) : List Bytes := bh.nextblockhash.getD []

/-- The header with one more successor. -/
def addNext (bh : BlockHead) (hash? : Option Bytes) : BlockHead :=
  { bh with nextblockhash? := some (bh.nextblockhash?.getD [] ++ [hash?]) }

end BlockHead

def parseBlockHead (rt : Runtime) (value : Value) : Option BlockHead :=
  (value.json? rt).bind BlockHead.ofJson

namespace BlockHead

theorem ofJson_members (bh : BlockHead) : ofJson (.obj bh.members) = some bh := by
  simp [ofJson, members, decodeMembers, setMember, named, foldChar, getList?_ofList?]

/-- A record of a header reads back as that header. -/
@[simp] theorem parse_json (rt : Runtime) (bh : BlockHead) : parseBlockHead rt bh.json = some bh := by
  simp only [parseBlockHead, json, Value.json?_text, Option.bind_some, ofJson_members]

theorem json_injective : Function.Injective json := by
  intro first second same
  have parsed := parse_json { sha3 := fun _ => [], hash160 := fun _ => [], unmarshal := fun _ => none } first
  rw [same, parse_json] at parsed
  exact (Option.some.inj parsed).symm

theorem check_iff {rt : Runtime} {bh : BlockHead} : bh.check rt = true ↔ bh.hash = bh.contentHash rt := by
  rw [check, decide_eq_true_eq]
  rfl

/-- The hash of the content covers neither the hash that the header carries nor its successors. -/
theorem contentHash_congr (rt : Runtime) (bh : BlockHead) (hash? : Option Bytes)
    (nextblockhash? : Option (List (Option Bytes))) :
    ({ bh with hash?, nextblockhash? } : BlockHead).contentHash rt = bh.contentHash rt := by
  simp [contentHash, members, changeMap, genericMembers, deleteKey]

/-- Building the hash makes the header pass its check. -/
theorem check_buildHash (rt : Runtime) (bh : BlockHead) : (bh.buildHash rt).check rt = true :=
  check_iff.mpr (contentHash_congr rt bh _ bh.nextblockhash?).symm

@[simp] theorem contentHash_addNext (rt : Runtime) (bh : BlockHead) (hash? : Option Bytes) :
    (bh.addNext hash?).contentHash rt = bh.contentHash rt :=
  contentHash_congr rt bh bh.hash? _

@[simp] theorem nexts_addNext (bh next : BlockHead) : (bh.addNext next.hash?).nexts = bh.nexts ++ [next.hash] := by
  simp only [nexts, nextblockhash, addNext, contents, Option.map_some, Option.getD_some, List.map_append]
  cases bh.nextblockhash? <;> rfl

@[simp] theorem hash_addNext (bh : BlockHead) (hash? : Option Bytes) : (bh.addNext hash?).hash = bh.hash := rfl

@[simp] theorem previousblockhash_addNext (bh : BlockHead) (hash? : Option Bytes) :
    (bh.addNext hash?).previousblockhash = bh.previousblockhash := rfl

@[simp] theorem height_addNext (bh : BlockHead) (hash? : Option Bytes) : (bh.addNext hash?).height = bh.height := rfl

@[simp] theorem tx_addNext (bh : BlockHead) (hash? : Option Bytes) : (bh.addNext hash?).tx = bh.tx := rfl

end BlockHead

/-! ## Records read as the other kind

Field names are compared up to case, so each kind of record can be read as the other.
-/

/-- The record of a transaction, read as a header, is a header with that hash and nothing else. -/
theorem parseBlockHead_tx (rt : Runtime) (tx : TxItr) :
    parseBlockHead rt tx.json = some { hash? := tx.base.hash? } := by
  cases tx <;>
    simp [parseBlockHead, TxItr.json, TxItr.members, TxItr.base, TxBase.members,
      BlockHead.ofJson, decodeMembers, BlockHead.setMember, named, foldChar]

/-- The record of a header, read as a transaction, is a reward with that hash and no outputs. -/
theorem parseTxBase_head (rt : Runtime) (bh : BlockHead) :
    parseTxBase rt bh.json = some (.reward { hash? := bh.hash? } 0) := by
  simp [parseTxBase, BlockHead.json, BlockHead.members, TxBase.ofJson, TxBase.ofTimedJson, TxBase.setTimed,
    decodeMembers, TxBase.setMember, named, foldChar, Config.walletTxTypeMining]

/-- No header has the record of a transaction. -/
theorem TxItr.json_ne_head (tx : TxItr) (bh : BlockHead) : tx.json ≠ bh.json := by
  intro same
  cases tx <;> simp [TxItr.json, TxItr.members, TxBase.members, BlockHead.json, BlockHead.members] at same

end PolarCloud.Mining
