import PolarCloud.Base.Generic
import PolarCloud.Model.Mining.Wire
import PolarCloud.Proofs.Mining.AddBlock

/-! # Round trips of blocks on the wire

The transactions of a block are read without a target type and written again before they are read by
their class, so every number in them passes through binary64 once. A block comes back as it was sent
exactly when all of these numbers do.
-/

namespace PolarCloud.Mining

open Json

/-! ## The numbers of a transaction -/

/-- Every number that a base writes. -/
def TxBase.numbers (base : TxBase) : List ℤ :=
  [(base.type.toNat : ℤ), base.vinTotal.toNat, base.voutTotal.toNat, base.gas.toNat] ++
    (base.vin.map fun vin => (vin.vout.toNat : ℤ)) ++ base.vout.map fun vout => (vout.value.toNat : ℤ)

def TxItr.numbers : TxItr → List ℤ
  | .reward base createTime => createTime.toInt :: base.numbers
  | .depositIn base => base.numbers
  | .depositOut base createTime => createTime.toInt :: base.numbers
  | .pay base => base.numbers

/-- Binary64 keeps every number. -/
def Kept64 (numbers : List ℤ) : Prop := ∀ number ∈ numbers, Float64.reprint number = number

instance (numbers : List ℤ) : Decidable (Kept64 numbers) := by
  unfold Kept64
  infer_instance

/-- Numbers below the precision of binary64 are kept. -/
theorem kept64_of_small {numbers : List ℤ} (small : ∀ number ∈ numbers, 0 ≤ number ∧ number < 2 ^ 53) :
    Kept64 numbers := by
  intro number member
  obtain ⟨positive, below⟩ := small number member
  obtain ⟨value, rfl⟩ := Int.eq_ofNat_of_zero_le positive
  exact Float64.reprint_of_lt (by exact_mod_cast below)

theorem kept64_base_iff {base : TxBase} :
    Kept64 base.numbers ↔ Float64.reprint base.type.toNat = base.type.toNat ∧
      Float64.reprint base.vinTotal.toNat = base.vinTotal.toNat ∧
        Float64.reprint base.voutTotal.toNat = base.voutTotal.toNat ∧
          Float64.reprint base.gas.toNat = base.gas.toNat ∧
            (∀ vin ∈ base.vin, Float64.reprint vin.vout.toNat = vin.vout.toNat) ∧
              ∀ vout ∈ base.vout, Float64.reprint vout.value.toNat = vout.value.toNat := by
  simp only [Kept64, TxBase.numbers, List.mem_append, List.mem_cons, List.not_mem_nil, or_false, List.mem_map]
  constructor
  · intro kept
    exact ⟨kept _ (by simp), kept _ (by simp), kept _ (by simp), kept _ (by simp),
      fun vin member => kept _ (.inl (.inr ⟨vin, member, rfl⟩)), fun vout member => kept _ (.inr ⟨vout, member, rfl⟩)⟩
  · rintro ⟨type, vinTotal, voutTotal, gas, vins, vouts⟩
    rintro number ((( rfl | rfl | rfl | rfl) | ⟨vin, member, rfl⟩) | ⟨vout, member, rfl⟩)
    · exact type
    · exact vinTotal
    · exact voutTotal
    · exact gas
    · exact vins vin member
    · exact vouts vout member

/-! ## Records after a generic reading -/

theorem Vin.ofJson_generic_iff {vin : Vin} :
    Vin.ofJson (generic vin.toJson) = some vin ↔ Float64.reprint vin.vout.toNat = vin.vout.toNat := by
  have sorted : generic vin.toJson = obj [("puk", ofBytes? vin.puk?), ("sign", ofBytes? vin.sign?),
      ("txid", ofBytes? vin.txid?), ("vout", generic (ofUInt64 vin.vout)), ("voutsign", ofBytes? vin.voutSign?)] := by
    simp (disch := decide) only [Vin.toJson, Vin.members, generic, genericMembers, marshalMap, List.foldl_cons,
      List.foldl_nil, insertKey_nil, insertKey_before, insertKey_behind, generic_ofBytes?]
  rw [sorted, ← reread_iff]
  obtain ⟨txid, vout, puk, sign, voutSign⟩ := vin
  simp [Vin.ofJson, decodeMembers, Vin.setMember, named, foldChar, getUInt64_generic, Option.bind_eq_some_iff]

theorem Vout.ofJson_generic_iff {vout : Vout} :
    Vout.ofJson (generic vout.toJson) = some vout ↔ Float64.reprint vout.value.toNat = vout.value.toNat := by
  have sorted : generic vout.toJson = obj [("address", ofBytes? vout.address?), ("tx", ofBytes? vout.tx),
      ("value", generic (ofUInt64 vout.value))] := by
    simp (disch := decide) only [Vout.toJson, Vout.members, generic, genericMembers, marshalMap, List.foldl_cons,
      List.foldl_nil, insertKey_nil, insertKey_before, insertKey_behind, generic_ofBytes?]
  rw [sorted, ← reread_iff]
  obtain ⟨value, address, tx⟩ := vout
  simp [Vout.ofJson, decodeMembers, Vout.setMember, named, foldChar, getUInt64_generic]

/-- The members of a base after a generic reading, in the order of their keys. -/
def TxBase.genericMembers (base : TxBase) : List (String × Json) :=
  [("blockhash", ofBytes? base.blockHash?), ("gas", generic (ofUInt64 base.gas)), ("hash", ofBytes? base.hash?),
    ("type", generic (ofUInt64 base.type)), ("vin", generic (ofList? Vin.toJson base.vin?)),
    ("vin_total", generic (ofUInt64 base.vinTotal)), ("vout", generic (ofList? Vout.toJson base.vout?)),
    ("vout_total", generic (ofUInt64 base.voutTotal))]

theorem generic_members (base : TxBase) : generic (obj base.members) = obj base.genericMembers := by
  simp (disch := decide) only [TxBase.members, TxBase.genericMembers, generic, Json.genericMembers, marshalMap,
    List.foldl_cons, List.foldl_nil, insertKey_nil, insertKey_before, insertKey_behind, generic_ofBytes?]

theorem generic_timed (base : TxBase) (createTime : Int64) :
    generic (obj (base.members ++ [("CreateTime", ofInt64 createTime)])) =
      obj (("CreateTime", generic (ofInt64 createTime)) :: base.genericMembers) := by
  simp (disch := decide) only [TxBase.members, TxBase.genericMembers, generic, Json.genericMembers, marshalMap,
    List.cons_append, List.nil_append, List.foldl_cons, List.foldl_nil, insertKey_nil, insertKey_before,
    insertKey_behind, generic_ofBytes?]

/-- A base comes back from a generic reading exactly when its numbers do. -/
theorem TxBase.ofJson_generic_iff {base : TxBase} :
    TxBase.ofJson (obj base.genericMembers) = some base ↔ Kept64 base.numbers := by
  rw [kept64_base_iff]
  obtain ⟨hash, type, vinTotal, vin, voutTotal, vout, gas, blockHash⟩ := base
  simp only [← reread_iff]
  simp [TxBase.ofJson, decodeMembers, TxBase.genericMembers, TxBase.setMember, named, foldChar, getUInt64_generic,
    Option.bind_eq_some_iff, getList?_generic_iff, Vin.ofJson_generic_iff, Vout.ofJson_generic_iff, reread_iff]
  tauto

theorem TxBase.ofTimedJson_generic_iff {base : TxBase} {createTime : Int64} :
    TxBase.ofTimedJson (obj (("CreateTime", generic (ofInt64 createTime)) :: base.genericMembers)) =
        some (base, createTime) ↔ Kept64 (createTime.toInt :: base.numbers) := by
  rw [Kept64, List.forall_mem_cons, ← Kept64, kept64_base_iff]
  obtain ⟨hash, type, vinTotal, vin, voutTotal, vout, gas, blockHash⟩ := base
  simp [TxBase.ofTimedJson, TxBase.setTimed, decodeMembers, TxBase.genericMembers, TxBase.setMember, named, foldChar,
    getUInt64_generic, Option.bind_eq_some_iff, getList?_generic_iff, Vin.ofJson_generic_iff, Vout.ofJson_generic_iff,
    reread_iff, getInt64_generic_iff]
  tauto

/-- The structure of a class is read from a tree. -/
def TxItr.ReadFrom (tree : Json) : TxItr → Prop
  | .reward base createTime => TxBase.ofTimedJson tree = some (base, createTime)
  | .depositIn base => TxBase.ofJson tree = some base
  | .depositOut base createTime => TxBase.ofTimedJson tree = some (base, createTime)
  | .pay base => TxBase.ofJson tree = some base

/-- A transaction of a class is parsed exactly when its structure is read. -/
theorem TxItr.parse_text_iff {rt : Runtime} {tree : Json} {tx : TxItr} (typed : tx.Typed) :
    parseTxBase rt (.text tree) = some tx ↔ tx.ReadFrom tree := by
  constructor
  · intro parsed
    simp only [parseTxBase, Value.json?_text, bind, Option.bind_eq_some_iff, Option.some_inj, exists_eq_left'] at parsed
    obtain ⟨base, read, parsed⟩ := parsed
    split_ifs at parsed with mining depositIn depositOut pay
    · obtain ⟨timed, readTimed, same⟩ := Option.bind_eq_some_iff.mp parsed
      cases same
      exact readTimed
    · cases parsed
      exact read
    · obtain ⟨timed, readTimed, same⟩ := Option.bind_eq_some_iff.mp parsed
      cases same
      exact readTimed
    · cases parsed
      exact read
  · intro read
    cases tx with
    | reward base createTime =>
      have type : base.type = Config.walletTxTypeMining := typed
      have read : TxBase.ofTimedJson tree = some (base, createTime) := read
      simp [parseTxBase, TxBase.ofJson_of_ofTimedJson read, read, type]
    | depositIn base =>
      have type : base.type = Config.walletTxTypeDepositIn := typed
      have read : TxBase.ofJson tree = some base := read
      simp [parseTxBase, read, type, Config.walletTxTypeDepositIn, Config.walletTxTypeMining]
    | depositOut base createTime =>
      have type : base.type = Config.walletTxTypeDepositOut := typed
      have read : TxBase.ofTimedJson tree = some (base, createTime) := read
      simp [parseTxBase, TxBase.ofJson_of_ofTimedJson read, read, type, Config.walletTxTypeDepositIn,
        Config.walletTxTypeMining, Config.walletTxTypeDepositOut]
    | pay base =>
      have type : base.type = Config.walletTxTypePay := typed
      have read : TxBase.ofJson tree = some base := read
      simp [parseTxBase, read, type, Config.walletTxTypeDepositIn, Config.walletTxTypeMining,
        Config.walletTxTypeDepositOut, Config.walletTxTypePay]

/-- A transaction comes back from a generic reading exactly when its numbers do. -/
theorem TxItr.parse_generic_iff {rt : Runtime} {tx : TxItr} (typed : tx.Typed) :
    parseTxBase rt (.text (generic (obj tx.members))) = some tx ↔ Kept64 tx.numbers := by
  rw [parse_text_iff typed]
  cases tx with
  | reward base createTime => rw [members, generic_timed, numbers, ← TxBase.ofTimedJson_generic_iff, ReadFrom]
  | depositIn base => rw [members, generic_members, numbers, ← TxBase.ofJson_generic_iff, ReadFrom]
  | depositOut base createTime => rw [members, generic_timed, numbers, ← TxBase.ofTimedJson_generic_iff, ReadFrom]
  | pay base => rw [members, generic_members, numbers, ← TxBase.ofJson_generic_iff, ReadFrom]

/-! ## The round trip -/

/-- The text of a block is read as its header and the trees of its transactions. -/
theorem BlockHeadVOParse.ofJson_members (bhvo : BlockHeadVO) :
    BlockHeadVOParse.ofJson (obj bhvo.members) =
      some { bh := bhvo.bh, txs := bhvo.txs.map fun tx => obj tx.members } := by
  have listed : getList some (arr (bhvo.txs.map fun tx => obj tx.members)) =
      some (bhvo.txs.map fun tx : TxItr => obj tx.members) := getList_arr fun _ _ => rfl
  cases head : bhvo.bh with
  | none =>
    simp [BlockHeadVO.members, head, ofJson, decodeMembers, setMember, named, foldChar, getPointer, listed]
  | some bh =>
    have read : bh.members.foldlM (fun state member => state.setMember member.1 member.2) {} = some bh :=
      BlockHead.ofJson_members bh
    simp [BlockHeadVO.members, head, ofJson, decodeMembers, setMember, named, foldChar, getPointer, listed, read]

/-- The transactions that are read from a list of trees are these exactly when each is read. -/
theorem parseTxs_map_iff {rt : Runtime} {txs : List TxItr} (typed : ∀ tx ∈ txs, tx.Typed) :
    parseTxs rt (txs.map fun tx => obj tx.members) = some ⟨txs, typed⟩ ↔ ∀ tx ∈ txs, Kept64 tx.numbers := by
  rw [parseTxs_eq_some, List.forall₂_map_left_iff, List.forall₂_same]
  exact forall₂_congr fun tx member => TxItr.parse_generic_iff (typed tx member)

/-- A block that is read from its own text: the header as it was, the transactions reread. -/
theorem BlockHeadVO.parse_json {rt : Runtime} (bhvo : BlockHeadVO) :
    parseBlockHeadVO rt bhvo.json = (parseTxs rt (bhvo.txs.map fun tx => obj tx.members)).map
      fun txs => { bh := bhvo.bh, txs := txs.1, typed := txs.2 } := by
  simp only [parseBlockHeadVO, BlockHeadVO.json, Value.json?_text, BlockHeadVOParse.ofJson_members,
    Option.bind_eq_bind, Option.bind_some]
  cases parseTxs rt (bhvo.txs.map fun tx => obj tx.members) <;> rfl

/-- A block comes back from the wire exactly when binary64 keeps the numbers of its transactions. -/
theorem BlockHeadVO.parse_json_iff {rt : Runtime} (bhvo : BlockHeadVO) :
    parseBlockHeadVO rt bhvo.json = some bhvo ↔ ∀ tx ∈ bhvo.txs, Kept64 tx.numbers := by
  obtain ⟨bh, txs, typed⟩ := bhvo
  rw [← @parseTxs_map_iff rt txs typed, parse_json, Option.map_eq_some_iff]
  constructor
  · rintro ⟨⟨others, typed'⟩, read, same⟩
    cases same
    exact read
  · intro read
    exact ⟨_, read, rfl⟩

/-! ## A value beyond binary64 -/

namespace Sample

/-- A payment of one unit more than binary64 can tell apart. -/
def large : TxItr := .pay { type := 3, voutTotal := 1, vout? := some [{ value := 9007199254740993, address? := some [0, 1, 2] }] }

def sendsLarge : BlockHeadVO := ⟨some {}, [large], by decide⟩

end Sample

/-- The block with the large payment does not come back as it was sent. -/
theorem large_payment_changed : ∃ (rt : Runtime) (bhvo : BlockHeadVO), parseBlockHeadVO rt bhvo.json ≠ some bhvo := by
  refine ⟨Sample.runtime, Sample.sendsLarge, fun same => ?_⟩
  rw [BlockHeadVO.parse_json] at same
  obtain ⟨⟨txs, typed⟩, read, same⟩ := Option.map_eq_some_iff.mp same
  cases same
  have kept := (parseTxs_map_iff Sample.sendsLarge.typed).mp read Sample.large (List.mem_singleton_self _)
  exact absurd kept (by decide)

end PolarCloud.Mining
