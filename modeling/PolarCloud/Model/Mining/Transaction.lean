import PolarCloud.Model.Config
import PolarCloud.Model.Db

/-! # Transactions, their ids and their records

A transaction id is the class in eight bytes followed by the hash of the transaction's map: the
structure read back without a target type, less its hash, its block hash and the marks of its
outputs. A mark names the transaction that spends the output and is written into the stored
record of the spent transaction.

A slice is nil or a list, and JSON tells the two apart: nil is written `null`, an empty slice as an
empty list or text, and each is read back as itself. The fields keep the difference; what compares or
looks up a slice takes its content, and a nil slice has none.
-/

namespace PolarCloud.Mining

open Json

structure Vin where
  txid? : Option Bytes := none
  vout : UInt64 := 0
  puk? : Option Bytes := none
  sign? : Option Bytes := none
  voutSign? : Option Bytes := none
deriving DecidableEq, Repr

structure Vout where
  value : UInt64 := 0
  address? : Option Bytes := none
  tx : Option Bytes := none
deriving DecidableEq, Repr

structure TxBase where
  hash? : Option Bytes := none
  type : UInt64 := 0
  vinTotal : UInt64 := 0
  vin? : Option (List Vin) := none
  voutTotal : UInt64 := 0
  vout? : Option (List Vout) := none
  gas : UInt64 := 0
  blockHash? : Option Bytes := none
deriving DecidableEq, Repr

/-- The four transaction structures behind the `TxItr` interface. -/
inductive TxItr where
  | reward (base : TxBase) (createTime : Int64)
  | depositIn (base : TxBase)
  | depositOut (base : TxBase) (createTime : Int64)
  | pay (base : TxBase)
deriving DecidableEq, Repr

/-! ## The contents of slices -/

def Vin.txid (vin : Vin) : Bytes := vin.txid?.getD []

def Vin.puk (vin : Vin) : Bytes := vin.puk?.getD []

def Vin.sign (vin : Vin) : Bytes := vin.sign?.getD []

def Vout.address (vout : Vout) : Bytes := vout.address?.getD []

def TxBase.hash (base : TxBase) : Bytes := base.hash?.getD []

def TxBase.vin (base : TxBase) : List Vin := base.vin?.getD []

def TxBase.vout (base : TxBase) : List Vout := base.vout?.getD []

/-! ## JSON -/

namespace Vin

def members (vin : Vin) : List (String × Json) :=
  [("txid", ofBytes? vin.txid?), ("vout", ofUInt64 vin.vout), ("puk", ofBytes? vin.puk?),
    ("sign", ofBytes? vin.sign?), ("voutsign", ofBytes? vin.voutSign?)]

def toJson (vin : Vin) : Json := .obj vin.members

def setMember (vin : Vin) (key : String) (value : Json) : Option Vin :=
  if named key "txid" then (getBytes? value).map fun txid? => { vin with txid? }
  else if named key "vout" then (getUInt64 vin.vout value).map fun vout => { vin with vout }
  else if named key "puk" then (getBytes? value).map fun puk? => { vin with puk? }
  else if named key "sign" then (getBytes? value).map fun sign? => { vin with sign? }
  else if named key "voutsign" then (getBytes? value).map fun voutSign? => { vin with voutSign? }
  else some vin

def ofJson : Json → Option Vin := decodeMembers setMember {}

end Vin

namespace Vout

def members (vout : Vout) : List (String × Json) :=
  [("value", ofUInt64 vout.value), ("address", ofBytes? vout.address?), ("tx", ofBytes? vout.tx)]

def toJson (vout : Vout) : Json := .obj vout.members

def setMember (vout : Vout) (key : String) (value : Json) : Option Vout :=
  if named key "value" then (getUInt64 vout.value value).map fun value => { vout with value }
  else if named key "address" then (getBytes? value).map fun address? => { vout with address? }
  else if named key "tx" then (getBytes? value).map fun tx => { vout with tx }
  else some vout

def ofJson : Json → Option Vout := decodeMembers setMember {}

/-- The text a signature of this output covers: everything but the mark. -/
def checkJson (vout : Vout) : Json := marshalMap (deleteKey "tx" (changeMap vout.members))

end Vout

namespace TxBase

def members (base : TxBase) : List (String × Json) :=
  [("hash", ofBytes? base.hash?), ("type", ofUInt64 base.type), ("vin_total", ofUInt64 base.vinTotal),
    ("vin", ofList? Vin.toJson base.vin?), ("vout_total", ofUInt64 base.voutTotal),
    ("vout", ofList? Vout.toJson base.vout?), ("gas", ofUInt64 base.gas),
    ("blockhash", ofBytes? base.blockHash?)]

def setMember (base : TxBase) (key : String) (value : Json) : Option TxBase :=
  if named key "hash" then (getBytes? value).map fun hash? => { base with hash? }
  else if named key "type" then (getUInt64 base.type value).map fun type => { base with type }
  else if named key "vin_total" then
    (getUInt64 base.vinTotal value).map fun vinTotal => { base with vinTotal }
  else if named key "vin" then (getList? Vin.ofJson value).map fun vin? => { base with vin? }
  else if named key "vout_total" then
    (getUInt64 base.voutTotal value).map fun voutTotal => { base with voutTotal }
  else if named key "vout" then (getList? Vout.ofJson value).map fun vout? => { base with vout? }
  else if named key "gas" then (getUInt64 base.gas value).map fun gas => { base with gas }
  else if named key "blockhash" then (getBytes? value).map fun blockHash? => { base with blockHash? }
  else some base

def ofJson : Json → Option TxBase := decodeMembers setMember {}

/-- The map that is hashed: no hash, no block hash, and outputs without their marks, in a list that is
made and never nil. -/
def buildMap (base : TxBase) : List (String × Json) :=
  ("vout", .arr (base.vout.map Vout.checkJson)) ::
    deleteKey "vout" (deleteKey "blockhash" (deleteKey "hash" (changeMap base.members)))

/-- A base together with a creation time, for the structures that embed it. -/
def setTimed (state : TxBase × Int64) (key : String) (value : Json) : Option (TxBase × Int64) :=
  if named key "CreateTime" then (getInt64 state.2 value).map fun time => (state.1, time)
  else (state.1.setMember key value).map fun base => (base, state.2)

def ofTimedJson : Json → Option (TxBase × Int64) := decodeMembers setTimed ({}, 0)

/-- Set the mark of an output, or clear it. -/
def setMark (base : TxBase) (index : UInt64) (tx : Option Bytes) : TxBase :=
  { base with vout? := base.vout?.map fun vouts => vouts.modify index.toNat fun vout => { vout with tx } }

/-- Mark an output with the id of the transaction that spends it. -/
def mark (base : TxBase) (index : UInt64) (txid : Bytes) : TxBase := base.setMark index (some txid)

end TxBase

namespace TxItr

def base : TxItr → TxBase
  | reward base _ => base
  | depositIn base => base
  | depositOut base _ => base
  | pay base => base

/-- Change the embedded base. -/
def mapBase (f : TxBase → TxBase) : TxItr → TxItr
  | reward base createTime => reward (f base) createTime
  | depositIn base => depositIn (f base)
  | depositOut base createTime => depositOut (f base) createTime
  | pay base => pay (f base)

/-- `Class` -/
def txClass (tx : TxItr) : UInt64 := tx.base.type

def getHash (tx : TxItr) : Bytes := tx.base.hash

def getVin (tx : TxItr) : List Vin := tx.base.vin

def getVout (tx : TxItr) : List Vout := tx.base.vout

/-- Every class accepts every transaction. -/
def check (_ : TxItr) : Bool := true

def members : TxItr → List (String × Json)
  | reward base createTime => base.members ++ [("CreateTime", ofInt64 createTime)]
  | depositIn base => base.members
  | depositOut base createTime => base.members ++ [("CreateTime", ofInt64 createTime)]
  | pay base => base.members

def json (tx : TxItr) : Value := .text (.obj tx.members)

/-- The class of the structure, in the first of eight bytes. -/
def idPrefix : TxItr → Bytes
  | reward .. => Utils.putUvarint Config.walletTxTypeMining ++ List.replicate 7 0
  | depositIn .. => Utils.putUvarint Config.walletTxTypeDepositIn ++ List.replicate 7 0
  | depositOut .. => Utils.putUvarint Config.walletTxTypeDepositOut ++ List.replicate 7 0
  | pay .. => Utils.putUvarint Config.walletTxTypePay ++ List.replicate 7 0

/-- The map that is hashed; a reward adds its creation time and a deposit drops its gas. -/
def idMap : TxItr → List (String × Json)
  | reward base createTime => ("CreateTime", generic (ofInt64 createTime)) :: base.buildMap
  | depositIn base => deleteKey "gas" base.buildMap
  | depositOut base _ => base.buildMap
  | pay base => base.buildMap

/-- The transaction id that `BuildHash` computes. -/
def id (rt : Runtime) (tx : TxItr) : Bytes := tx.idPrefix ++ rt.sha3 (marshalMap tx.idMap).bytes

def buildHash (rt : Runtime) (tx : TxItr) : TxItr := tx.mapBase fun base => { base with hash? := some (tx.id rt) }

/-- Mark an output as spent and save the record; an index outside the outputs is a panic. -/
def setTxid (db : Db) (tx : TxItr) (index : UInt64) (txid : Bytes) : Option Db :=
  if index.toNat < tx.getVout.length then
    some (db.save tx.getHash (tx.mapBase fun base => base.mark index txid).json)
  else none

end TxItr

/-- Read a transaction: the class of the base selects the structure. -/
def parseTxBase (rt : Runtime) (value : Value) : Option TxItr := do
  let tree ← value.json? rt
  let base ← TxBase.ofJson tree
  if base.type = Config.walletTxTypeMining then
    let (base, createTime) ← TxBase.ofTimedJson tree
    some (.reward base createTime)
  else if base.type = Config.walletTxTypeDepositIn then some (.depositIn base)
  else if base.type = Config.walletTxTypeDepositOut then
    let (base, createTime) ← TxBase.ofTimedJson tree
    some (.depositOut base createTime)
  else if base.type = Config.walletTxTypePay then some (.pay base)
  else none

/-! ## Records read back -/

theorem Vin.ofJson_toJson (vin : Vin) : Vin.ofJson vin.toJson = some vin := by
  simp [Vin.ofJson, Vin.toJson, Vin.members, decodeMembers, Vin.setMember, named, foldChar]

theorem Vout.ofJson_toJson (vout : Vout) : Vout.ofJson vout.toJson = some vout := by
  simp [Vout.ofJson, Vout.toJson, Vout.members, decodeMembers, Vout.setMember, named, foldChar]

namespace TxBase

private theorem foldlM_members (base : TxBase) :
    base.members.foldlM (fun state member => setMember state member.1 member.2) {} = some base := by
  simp [members, setMember, named, foldChar, getList?_ofList?, Vin.ofJson_toJson, Vout.ofJson_toJson]

private theorem setMember_of_named {key : String} (createTime : named key "CreateTime") (base : TxBase)
    (value : Json) : base.setMember key value = some base := by
  have other (name : String) : named key name = named "CreateTime" name := by
    simp only [named, decide_eq_true_eq] at createTime ⊢
    rw [createTime]
  simp only [setMember, other]
  simp [named, foldChar]

theorem ofJson_members (base : TxBase) : ofJson (.obj base.members) = some base := foldlM_members base

theorem ofJson_timed (base : TxBase) (createTime : Int64) :
    ofJson (.obj (base.members ++ [("CreateTime", ofInt64 createTime)])) = some base := by
  simp [ofJson, decodeMembers, List.foldlM_append, foldlM_members,
    setMember_of_named (show named "CreateTime" "CreateTime" from by decide)]

theorem ofTimedJson_timed (base : TxBase) (createTime : Int64) :
    ofTimedJson (.obj (base.members ++ [("CreateTime", ofInt64 createTime)])) = some (base, createTime) := by
  simp [ofTimedJson, decodeMembers, setTimed, members, setMember, named, foldChar, getList?_ofList?,
    Vin.ofJson_toJson, Vout.ofJson_toJson]

private theorem setMember_of_setTimed {state next : TxBase × Int64} {key : String} {value : Json}
    (set : setTimed state key value = some next) : state.1.setMember key value = some next.1 := by
  unfold setTimed at set
  split at set
  · next createTime =>
    obtain ⟨time, -, rfl⟩ := Option.map_eq_some_iff.mp set
    exact setMember_of_named createTime _ _
  · obtain ⟨base, read, rfl⟩ := Option.map_eq_some_iff.mp set
    exact read

/-- The embedded base is read exactly as it is read alone. -/
theorem ofJson_of_ofTimedJson {tree : Json} {timed : TxBase × Int64}
    (read : ofTimedJson tree = some timed) : ofJson tree = some timed.1 := by
  cases tree with
  | null =>
    cases read
    rfl
  | obj members =>
    change members.foldlM (fun state member => setTimed state member.1 member.2) ({}, 0) = some timed at read
    change members.foldlM (fun state member => setMember state member.1 member.2)
      (({}, 0) : TxBase × Int64).1 = some timed.1
    generalize (({}, 0) : TxBase × Int64) = start at read ⊢
    induction members generalizing start with
    | nil =>
      cases read
      rfl
    | cons member rest ih =>
      obtain ⟨next, set, read⟩ := Option.bind_eq_some_iff.mp read
      rw [List.foldlM_cons, setMember_of_setTimed set]
      exact ih next read
  | _ => cases read

/-- What the ids cover: no hash, no block hash, no marks; the outputs are a list. -/
def erase (base : TxBase) : TxBase :=
  { base with
    hash? := none
    blockHash? := none
    vout? := some (base.vout.map fun vout => { vout with tx := none }) }

private theorem checkJson_unmarked (vout : Vout) : ({ vout with tx := none } : Vout).checkJson = vout.checkJson := by
  simp [Vout.checkJson, Vout.members, changeMap, genericMembers, deleteKey]

theorem buildMap_erase (base : TxBase) : base.erase.buildMap = base.buildMap := by
  simp [buildMap, members, erase, vout, changeMap, genericMembers, deleteKey, checkJson_unmarked]

theorem vout_setMark (base : TxBase) (index : UInt64) (tx : Option Bytes) :
    (base.setMark index tx).vout = base.vout.modify index.toNat fun vout => { vout with tx } := by
  unfold vout setMark
  cases base.vout? with
  | none => simp
  | some vouts => rfl

/-- Marks are not covered. -/
theorem erase_setMark (base : TxBase) (index : UInt64) (tx : Option Bytes) :
    (base.setMark index tx).erase = base.erase := by
  have same : (base.setMark index tx).vout.map (fun vout => ({ vout with tx := none } : Vout)) =
      base.vout.map fun vout => { vout with tx := none } := by
    rw [vout_setMark]
    apply List.ext_getElem
    · simp
    · intro place inside inside'
      simp only [List.getElem_map, List.getElem_modify]
      split <;> rfl
  rw [erase, same]
  rfl

end TxBase

namespace TxItr

/-- The class a structure is built with. -/
def kind : TxItr → UInt64
  | reward .. => Config.walletTxTypeMining
  | depositIn .. => Config.walletTxTypeDepositIn
  | depositOut .. => Config.walletTxTypeDepositOut
  | pay .. => Config.walletTxTypePay

/-- The class in the base is the class of the structure. -/
def Typed (tx : TxItr) : Prop := tx.txClass = tx.kind

instance (tx : TxItr) : Decidable tx.Typed := inferInstanceAs (Decidable (tx.txClass = tx.kind))

/-- A record of a transaction reads back as that transaction. -/
theorem parse_json (rt : Runtime) {tx : TxItr} (typed : tx.Typed) : parseTxBase rt tx.json = some tx := by
  cases tx with
  | reward base createTime =>
    have type : base.type = Config.walletTxTypeMining := typed
    simp [parseTxBase, json, members, TxBase.ofJson_timed, TxBase.ofTimedJson_timed, type]
  | depositIn base =>
    have type : base.type = Config.walletTxTypeDepositIn := typed
    simp [parseTxBase, json, members, TxBase.ofJson_members, type, Config.walletTxTypeDepositIn,
      Config.walletTxTypeMining]
  | depositOut base createTime =>
    have type : base.type = Config.walletTxTypeDepositOut := typed
    simp [parseTxBase, json, members, TxBase.ofJson_timed, TxBase.ofTimedJson_timed, type,
      Config.walletTxTypeDepositIn, Config.walletTxTypeMining, Config.walletTxTypeDepositOut]
  | pay base =>
    have type : base.type = Config.walletTxTypePay := typed
    simp [parseTxBase, json, members, TxBase.ofJson_members, type, Config.walletTxTypeDepositIn,
      Config.walletTxTypeMining, Config.walletTxTypeDepositOut, Config.walletTxTypePay]

/-- Every transaction that was parsed carries the class of its structure. -/
theorem typed_of_parse {rt : Runtime} {value : Value} {tx : TxItr}
    (parsed : parseTxBase rt value = some tx) : tx.Typed := by
  simp only [parseTxBase, bind, Option.bind_eq_some_iff] at parsed
  obtain ⟨tree, -, base, read, parsed⟩ := parsed
  split_ifs at parsed with mining depositIn depositOut pay
  · obtain ⟨timed, readTimed, same⟩ := Option.bind_eq_some_iff.mp parsed
    cases same
    have agree := (TxBase.ofJson_of_ofTimedJson readTimed).symm.trans read
    cases agree
    exact mining
  · cases parsed
    exact depositIn
  · obtain ⟨timed, readTimed, same⟩ := Option.bind_eq_some_iff.mp parsed
    cases same
    have agree := (TxBase.ofJson_of_ofTimedJson readTimed).symm.trans read
    cases agree
    exact depositOut
  · cases parsed
    exact pay

/-- What the id covers. -/
def erase (tx : TxItr) : TxItr := tx.mapBase TxBase.erase

theorem id_erase (rt : Runtime) (tx : TxItr) : tx.erase.id rt = tx.id rt := by
  cases tx <;> simp only [id, erase, mapBase, idPrefix, idMap, TxBase.buildMap_erase]

/-- Transactions that differ only in hash, block hash and marks have the same id. -/
theorem id_congr (rt : Runtime) {first second : TxItr} (same : first.erase = second.erase) :
    first.id rt = second.id rt := by
  rw [← id_erase rt first, ← id_erase rt second, same]

end TxItr

end PolarCloud.Mining
