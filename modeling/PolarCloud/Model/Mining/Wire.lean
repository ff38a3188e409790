import PolarCloud.Model.Mining.Block

/-! # Blocks on the wire

A block travels as one JSON text. Its header is read as a header; its transactions are first read
without a target type, written again, and only then read with the structure of their class.
-/

namespace PolarCloud.Mining

open Json

structure BackupMiner where
  miner : Bytes := []
  count : UInt64 := 0
deriving DecidableEq, Repr

structure BackupMiners where
  time : Int64 := 0
  miners : List BackupMiner := []
deriving DecidableEq, Repr

/-- What is read from the text of a block; the votes are read and not used. -/
structure BlockHeadVOParse where
  bh : Option BlockHead := none
  txs : List Json := []
  bm : Option BackupMiners := none

def BackupMiner.setMember (miner : BackupMiner) (key : String) (value : Json) : Option BackupMiner :=
  if named key "Miner" then (getBytes value).map fun address => { miner with miner := address }
  else if named key "Count" then (getUInt64 miner.count value).map fun count => { miner with count }
  else some miner

def BackupMiner.ofJson : Json → Option BackupMiner := decodeMembers setMember {}

def BackupMiners.setMember (bm : BackupMiners) (key : String) (value : Json) : Option BackupMiners :=
  if named key "Time" then (getInt64 bm.time value).map fun time => { bm with time }
  else if named key "Miners" then (getList BackupMiner.ofJson value).map fun miners => { bm with miners }
  else some bm

/-- Read through a pointer: `null` clears it, anything else is read into what it points to. -/
def getPointer {σ : Type*} (set : σ → String → Json → Option σ) (fresh : σ) (old : Option σ) :
    Json → Option (Option σ)
  | null => some none
  | value => (decodeMembers set (old.getD fresh) value).map some

namespace BlockHeadVOParse

def setMember (parse : BlockHeadVOParse) (key : String) (value : Json) : Option BlockHeadVOParse :=
  if named key "bh" then (getPointer BlockHead.setMember {} parse.bh value).map fun bh => { parse with bh }
  else if named key "txs" then (getList some value).map fun txs => { parse with txs }
  else if named key "bm" then (getPointer BackupMiners.setMember {} parse.bm value).map fun bm => { parse with bm }
  else some parse

def ofJson : Json → Option BlockHeadVOParse := decodeMembers setMember {}

end BlockHeadVOParse

namespace BlockHeadVO

/-- The list of transactions is made, and never nil. -/
def members (bhvo : BlockHeadVO) : List (String × Json) :=
  [("bh", match bhvo.bh with
    | none => null
    | some bh => obj bh.members),
    ("txs", arr (bhvo.txs.map fun tx => obj tx.members))]

def json (bhvo : BlockHeadVO) : Value := .text (obj bhvo.members)

end BlockHeadVO

/-- Write each transaction that was read without a target type again and read it by its class. -/
def parseTxs (rt : Runtime) : List Json → Option { txs : List TxItr // ∀ tx ∈ txs, tx.Typed }
  | [] => some ⟨[], List.forall_mem_nil _⟩
  | one :: rest =>
      match read : parseTxBase rt (.text (generic one)) with
      | none => none
      | some tx => (parseTxs rt rest).map fun txs =>
          ⟨tx :: txs.1, List.forall_mem_cons.mpr ⟨TxItr.typed_of_parse read, txs.2⟩⟩

def parseBlockHeadVO (rt : Runtime) (value : Value) : Option BlockHeadVO := do
  let tree ← value.json? rt
  let parse ← BlockHeadVOParse.ofJson tree
  let txs ← parseTxs rt parse.txs
  some { bh := parse.bh, txs := txs.1, typed := txs.2 }

/-- The transactions of a parsed block, one by one. -/
theorem parseTxs_eq_some {rt : Runtime} {items : List Json} {txs : { txs : List TxItr // ∀ tx ∈ txs, tx.Typed }} :
    parseTxs rt items = some txs ↔
      List.Forall₂ (fun item tx => parseTxBase rt (.text (generic item)) = some tx) items txs.1 := by
  induction items generalizing txs with
  | nil =>
    obtain ⟨txs, typed⟩ := txs
    simp [parseTxs, eq_comm]
  | cons item rest ih =>
    obtain ⟨txs, typed⟩ := txs
    rw [parseTxs]
    split
    · next unread => simp [List.forall₂_cons_left_iff, unread]
    · next tx read =>
      rw [Option.map_eq_some_iff, List.forall₂_cons_left_iff]
      constructor
      · rintro ⟨later, parsed, same⟩
        cases same
        exact ⟨tx, later.1, read, ih.mp parsed, rfl⟩
      · rintro ⟨other, later, same, parsed, rfl⟩
        cases read.symm.trans same
        exact ⟨⟨later, fun tx member => typed tx (List.mem_cons_of_mem _ member)⟩, ih.mpr parsed, rfl⟩

end PolarCloud.Mining
