import PolarCloud.Base.JsonText
import PolarCloud.Proofs.Mining.WireRoundTrip

/-! # Transaction ids and contents

The hashed text of a transaction determines every member of the map it was written from. The map
itself holds less than the transaction: numbers have passed through binary64, and the map of a
deposit that is returned has no creation time. Two transactions have the same id exactly when these
losses are all that tells them apart.
-/

namespace PolarCloud.Mining

open Json

/-! ## What an id covers -/

structure Vin.Alike (vin other : Vin) : Prop where
  txid : vin.txid? = other.txid?
  vout : PrintAlike vin.vout.toNat other.vout.toNat
  puk : vin.puk? = other.puk?
  sign : vin.sign? = other.sign?
  voutSign : vin.voutSign? = other.voutSign?

structure Vout.Alike (vout other : Vout) : Prop where
  value : PrintAlike vout.value.toNat other.value.toNat
  address : vout.address? = other.address?

/-- The members that every class hashes. -/
structure TxBase.Alike (base other : TxBase) : Prop where
  type : PrintAlike base.type.toNat other.type.toNat
  vinTotal : PrintAlike base.vinTotal.toNat other.vinTotal.toNat
  vin : Option.Rel (List.Forall₂ Vin.Alike) base.vin? other.vin?
  voutTotal : PrintAlike base.voutTotal.toNat other.voutTotal.toNat
  vout : List.Forall₂ Vout.Alike base.vout other.vout

/-- Everything that the ids cover is printed alike. -/
def TxItr.Alike : TxItr → TxItr → Prop
  | .reward base createTime, .reward other otherTime =>
      base.Alike other ∧ PrintAlike base.gas.toNat other.gas.toNat ∧ PrintAlike createTime.toInt otherTime.toInt
  | .depositIn base, .depositIn other => base.Alike other
  | .depositOut base _, .depositOut other _ => base.Alike other ∧ PrintAlike base.gas.toNat other.gas.toNat
  | .pay base, .pay other => base.Alike other ∧ PrintAlike base.gas.toNat other.gas.toNat
  | _, _ => False

theorem Vin.generic_toJson (vin : Vin) :
    generic vin.toJson = obj [("puk", ofBytes? vin.puk?), ("sign", ofBytes? vin.sign?), ("txid", ofBytes? vin.txid?),
      ("vout", generic (ofUInt64 vin.vout)), ("voutsign", ofBytes? vin.voutSign?)] := by
  simp (disch := decide) only [Vin.toJson, Vin.members, generic, genericMembers, marshalMap, List.foldl_cons,
    List.foldl_nil, insertKey_nil, insertKey_before, insertKey_behind, generic_ofBytes?]

theorem Vin.generic_inj {vin other : Vin} : generic vin.toJson = generic other.toJson ↔ vin.Alike other := by
  rw [generic_toJson, generic_toJson]
  simp only [obj.injEq, List.cons.injEq, Prod.mk.injEq, true_and, and_true, ofBytes?_injective.eq_iff,
    generic_ofUInt64_inj]
  constructor
  · rintro ⟨puk, sign, txid, vout, voutSign⟩
    exact ⟨txid, vout, puk, sign, voutSign⟩
  · rintro ⟨txid, vout, puk, sign, voutSign⟩
    exact ⟨puk, sign, txid, vout, voutSign⟩

theorem Vout.checkJson_eq (vout : Vout) :
    vout.checkJson = obj [("address", ofBytes? vout.address?), ("value", generic (ofUInt64 vout.value))] := by
  have unmarked : deleteKey "tx" (changeMap vout.members) =
      [("value", generic (ofUInt64 vout.value)), ("address", ofBytes? vout.address?)] := by
    simp [Vout.members, changeMap, genericMembers, deleteKey]
  simp (disch := decide) only [Vout.checkJson, unmarked, marshalMap, List.foldl_cons, List.foldl_nil,
    insertKey_nil, insertKey_before]

theorem Vout.checkJson_inj {vout other : Vout} : vout.checkJson = other.checkJson ↔ vout.Alike other := by
  rw [checkJson_eq, checkJson_eq]
  simp only [obj.injEq, List.cons.injEq, Prod.mk.injEq, true_and, and_true, ofBytes?_injective.eq_iff,
    generic_ofUInt64_inj]
  constructor
  · rintro ⟨address, value⟩
    exact ⟨value, address⟩
  · rintro ⟨value, address⟩
    exact ⟨address, value⟩

/-- The members of the hashed map behind its gas, in the order of their keys. -/
def TxBase.idMembers (base : TxBase) : List (String × Json) :=
  [("type", generic (ofUInt64 base.type)), ("vin", generic (ofList? Vin.toJson base.vin?)),
    ("vin_total", generic (ofUInt64 base.vinTotal)), ("vout", .arr (base.vout.map Vout.checkJson)),
    ("vout_total", generic (ofUInt64 base.voutTotal))]

theorem TxBase.idMembers_inj {base other : TxBase} : base.idMembers = other.idMembers ↔ base.Alike other := by
  simp only [idMembers, List.cons.injEq, Prod.mk.injEq, true_and, and_true, generic_ofUInt64_inj, arr.injEq,
    generic_ofList?, ofList?_inj, map_inj_iff, Vin.generic_inj, Vout.checkJson_inj]
  constructor
  · rintro ⟨type, vin, vinTotal, vout, voutTotal⟩
    exact ⟨type, vinTotal, vin, voutTotal, vout⟩
  · rintro ⟨type, vinTotal, vin, voutTotal, vout⟩
    exact ⟨type, vin, vinTotal, vout, voutTotal⟩

/-- The map that is hashed, in the order of its keys. -/
def TxItr.idSorted : TxItr → List (String × Json)
  | .reward base createTime =>
      ("CreateTime", generic (ofInt64 createTime)) :: ("gas", generic (ofUInt64 base.gas)) :: base.idMembers
  | .depositIn base => base.idMembers
  | .depositOut base _ => ("gas", generic (ofUInt64 base.gas)) :: base.idMembers
  | .pay base => ("gas", generic (ofUInt64 base.gas)) :: base.idMembers

theorem TxBase.buildMap_eq (base : TxBase) :
    base.buildMap = [("vout", .arr (base.vout.map Vout.checkJson)), ("type", generic (ofUInt64 base.type)),
      ("vin_total", generic (ofUInt64 base.vinTotal)), ("vin", generic (ofList? Vin.toJson base.vin?)),
      ("vout_total", generic (ofUInt64 base.voutTotal)), ("gas", generic (ofUInt64 base.gas))] := by
  simp [buildMap, members, changeMap, Json.genericMembers, deleteKey]

theorem TxItr.marshalMap_idMap (tx : TxItr) : marshalMap tx.idMap = obj tx.idSorted := by
  have sorted {base : TxBase} : marshalMap base.buildMap =
    obj (("gas", generic (ofUInt64 base.gas)) :: base.idMembers) := by
    simp (disch := decide) only [TxBase.buildMap_eq, marshalMap, TxBase.idMembers, List.foldl_cons, List.foldl_nil,
      insertKey_nil, insertKey_before, insertKey_behind]
  cases tx with
  | reward base createTime =>
    simp (disch := decide) only [idMap, TxBase.buildMap_eq, marshalMap, idSorted, TxBase.idMembers, List.foldl_cons,
      List.foldl_nil, insertKey_nil, insertKey_before, insertKey_behind]
  | depositIn base =>
    have less : deleteKey "gas" base.buildMap = [("vout", .arr (base.vout.map Vout.checkJson)),
        ("type", generic (ofUInt64 base.type)), ("vin_total", generic (ofUInt64 base.vinTotal)),
        ("vin", generic (ofList? Vin.toJson base.vin?)), ("vout_total", generic (ofUInt64 base.voutTotal))] := by
      simp [TxBase.buildMap_eq, deleteKey]
    simp (disch := decide) only [idMap, less, marshalMap, idSorted, TxBase.idMembers, List.foldl_cons, List.foldl_nil,
      insertKey_nil, insertKey_before, insertKey_behind]
  | depositOut base createTime => exact sorted
  | pay base => exact sorted

theorem TxItr.idSorted_inj {first second : TxItr} (sameClass : first.kind = second.kind) :
    first.idSorted = second.idSorted ↔ first.Alike second := by
  cases first <;> cases second <;> cases sameClass
  all_goals simp only [idSorted, Alike, List.cons.injEq, Prod.mk.injEq, true_and, generic_ofInt64_inj,
    generic_ofUInt64_inj, TxBase.idMembers_inj]
  · tauto
  · tauto
  · tauto

/-- Ids are equal exactly when everything they cover is printed alike. -/
theorem TxItr.id_eq_iff {rt : Runtime} (injective : Function.Injective rt.sha3) {first second : TxItr}
    (sameClass : first.kind = second.kind) : first.id rt = second.id rt ↔ first.Alike second := by
  have classes : first.idPrefix = second.idPrefix := by
    cases first <;> cases second <;> cases sameClass <;> rfl
  rw [id, id, classes, List.append_cancel_left_eq, injective.eq_iff, bytes_injective.eq_iff, marshalMap_idMap,
    marshalMap_idMap, obj.injEq, idSorted_inj sameClass]

/-! ## Ids and contents -/

/-- The transaction without hash, block hash and marks, and with its outputs as a list; a deposit also
without its gas. -/
def TxItr.content : TxItr → TxItr
  | .depositIn base => (depositIn { base with gas := 0 }).erase
  | tx => tx.erase

/-- Different transactions that the ids do not tell apart: they differ only in numbers that binary64
prints alike, or in the creation time of a returned deposit. -/
def TxItr.Confused (first second : TxItr) : Prop := first.Alike second ∧ first.content ≠ second.content

/-! ## Amounts below the precision of binary64 -/

private theorem eq_of_kept {first second : UInt64} (alike : PrintAlike first.toNat second.toNat)
    (kept : Float64.reprint first.toNat = first.toNat) (kept' : Float64.reprint second.toNat = second.toNat) :
    first = second := by
  rw [PrintAlike, kept, kept'] at alike
  exact UInt64.toNat_inj.mp (by exact_mod_cast alike)

private theorem map_eq_of_alike {α β : Type*} {alike : α → α → Prop} {kept : α → Prop} (view : α → β)
    (step : ∀ item other, alike item other → kept item → kept other → view item = view other) {items others : List α}
    (matched : List.Forall₂ alike items others) (keptItems : ∀ item ∈ items, kept item)
    (keptOthers : ∀ item ∈ others, kept item) : items.map view = others.map view := by
  induction matched with
  | nil => rfl
  | cons head _ ih =>
    rw [List.forall_mem_cons] at keptItems keptOthers
    rw [List.map_cons, List.map_cons, step _ _ head keptItems.1 keptOthers.1, ih keptItems.2 keptOthers.2]

theorem Vin.eq_of_alike {vin other : Vin} (alike : vin.Alike other)
    (kept : Float64.reprint vin.vout.toNat = vin.vout.toNat)
    (kept' : Float64.reprint other.vout.toNat = other.vout.toNat) : vin = other := by
  have vout := eq_of_kept alike.vout kept kept'
  obtain ⟨txid, -, puk, sign, voutSign⟩ := alike
  cases vin
  cases other
  exact Vin.mk.injEq .. ▸ ⟨txid, vout, puk, sign, voutSign⟩

theorem Vout.unmarked_eq_of_alike {vout other : Vout} (alike : vout.Alike other)
    (kept : Float64.reprint vout.value.toNat = vout.value.toNat)
    (kept' : Float64.reprint other.value.toNat = other.value.toNat) :
    ({ vout with tx := none } : Vout) = { other with tx := none } := by
  rw [eq_of_kept alike.value kept kept', alike.address]

/-- What every id covers of a base, and a gas. -/
def TxBase.covered (base : TxBase) (gas : UInt64) : TxBase := { base.erase with gas }

theorem TxBase.covered_eq_of_alike {base other : TxBase} (alike : base.Alike other) (kept : Kept64 base.numbers)
    (kept' : Kept64 other.numbers) (gas : UInt64) : base.covered gas = other.covered gas := by
  obtain ⟨type, vinTotal, voutTotal, -, vins, vouts⟩ := kept64_base_iff.mp kept
  obtain ⟨type', vinTotal', voutTotal', -, vins', vouts'⟩ := kept64_base_iff.mp kept'
  have inputs : base.vin? = other.vin? := by
    have matched := alike.vin
    unfold TxBase.vin at vins vins'
    generalize base.vin? = first at matched vins ⊢
    generalize other.vin? = second at matched vins' ⊢
    cases matched with
    | none => rfl
    | some matched =>
      have same := map_eq_of_alike (fun vin => vin) (fun _ _ => Vin.eq_of_alike) matched vins vins'
      rw [List.map_id', List.map_id'] at same
      rw [same]
  have outputs := map_eq_of_alike (fun vout => { vout with tx := none }) (fun _ _ => Vout.unmarked_eq_of_alike)
    alike.vout vouts vouts'
  rw [covered, covered, TxBase.erase, TxBase.erase, eq_of_kept alike.type type type', eq_of_kept alike.vinTotal vinTotal vinTotal',
    eq_of_kept alike.voutTotal voutTotal voutTotal', inputs, outputs]

/-- Ids identify content where binary64 keeps every number, returned deposits apart. -/
theorem TxItr.not_confused_of_kept {first second : TxItr} (kept : Kept64 first.numbers)
    (kept' : Kept64 second.numbers) (timed : first.kind ≠ Config.walletTxTypeDepositOut) :
    ¬ first.Confused second := by
  rintro ⟨alike, different⟩
  apply different
  have gasKept {base : TxBase} (kept : Kept64 base.numbers) : Float64.reprint base.gas.toNat = base.gas.toNat :=
    (kept64_base_iff.mp kept).2.2.2.1
  cases first <;> cases second <;> first | exact alike.elim | skip
  · next base createTime other otherTime =>
    obtain ⟨alike, gas, time⟩ := alike
    obtain ⟨timeKept, kept⟩ := List.forall_mem_cons.mp kept
    obtain ⟨timeKept', kept'⟩ := List.forall_mem_cons.mp kept'
    rw [PrintAlike, timeKept, timeKept'] at time
    have gas := eq_of_kept gas (gasKept kept) (gasKept kept')
    change reward (base.covered base.gas) createTime = reward (other.covered other.gas) otherTime
    rw [gas, TxBase.covered_eq_of_alike alike kept kept', Int64.toInt_inj.mp time]
  · next base other => exact congrArg depositIn (TxBase.covered_eq_of_alike alike kept kept' 0)
  · exact absurd rfl timed
  · next base other =>
    obtain ⟨alike, gas⟩ := alike
    have gas := eq_of_kept gas (gasKept kept) (gasKept kept')
    change pay (base.covered base.gas) = pay (other.covered other.gas)
    rw [gas, TxBase.covered_eq_of_alike alike kept kept']

/-! ## Ids that identify content -/

/-- An equal id means equal content exactly for the transactions that are not confused. -/
theorem id_identifies_iff {rt : Runtime} (injective : Function.Injective rt.sha3) {first second : TxItr}
    (sameClass : first.kind = second.kind) :
    (first.id rt = second.id rt → first.content = second.content) ↔ ¬ first.Confused second := by
  rw [TxItr.id_eq_iff injective sameClass, TxItr.Confused, not_and_not_right]

namespace Sample

/-- A hash that is injective. -/
def plain : Runtime := { sha3 := fun bytes => bytes, hash160 := fun bytes => bytes, unmarshal := fun _ => none }

def pays (value : UInt64) : TxItr := .pay { type := 3, voutTotal := value, vout? := some [{ value, address? := some [0, 1, 2] }] }

def returned (createTime : Int64) :
    TxItr := .depositOut { type := 2, vout? := some [{ value := 1, address? := some [0, 1, 2] }] } createTime

end Sample

theorem pays_told_apart : (Sample.pays 1).id Sample.plain ≠ (Sample.pays 2).id Sample.plain := by
  have injective : Function.Injective Sample.plain.sha3 := fun _ _ same => same
  have sameClass : (Sample.pays 1).kind = (Sample.pays 2).kind := rfl
  have apart : ¬ (Sample.pays 1).Confused (Sample.pays 2) :=
    TxItr.not_confused_of_kept (by decide) (by decide) (by decide)
  intro same
  exact absurd ((id_identifies_iff injective sameClass).mpr apart same) (by decide)

/-- Two payments and two returned deposits that differ in content and share their ids. -/
theorem ids_repeat : ∃ rt : Runtime, Function.Injective rt.sha3 ∧
    ((Sample.pays 9007199254740992).id rt = (Sample.pays 9007199254740993).id rt ∧
      (Sample.pays 9007199254740992).content ≠ (Sample.pays 9007199254740993).content) ∧
    (Sample.returned 1).id rt = (Sample.returned 2).id rt ∧
      (Sample.returned 1).content ≠ (Sample.returned 2).content := by
  have injective : Function.Injective Sample.plain.sha3 := fun _ _ same => same
  have sameClass : (Sample.pays 9007199254740992).kind = (Sample.pays 9007199254740993).kind := rfl
  refine ⟨Sample.plain, injective, ⟨?_, by decide⟩, rfl, by decide⟩
  apply (TxItr.id_eq_iff injective sameClass).mpr
  have amount : PrintAlike (9007199254740992 : UInt64).toNat (9007199254740993 : UInt64).toNat := by decide
  exact ⟨⟨rfl, rfl, .none, amount, .cons ⟨amount, rfl⟩ .nil⟩, rfl⟩

end PolarCloud.Mining
