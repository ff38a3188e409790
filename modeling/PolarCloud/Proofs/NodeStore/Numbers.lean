import PolarCloud.Model.NodeStore.NodeManager

/-! # Ids and their numbers

The number of an id made of a number is that number again. An id is made of its own number when it is of
the kind that nodes make for themselves and its digest does not begin with a zero.
-/

namespace PolarCloud

theorem Utils.putUvarint_length_pos (x : UInt64) : 0 < (putUvarint x).length := by
  refine List.length_pos_of_ne_nil fun none => ?_
  have read := uvarint_putUvarint x []
  rw [none] at read
  cases read

theorem Utils.decode_encode {digest : Bytes} (nonempty : digest ≠ []) (short : digest.length < 2 ^ 31) :
    ∃ id, encode digest Config.hashCode = some id ∧
      decode id = some { code := 0x16, length := digest.length, digest } := by
  refine ⟨_, if_pos (by decide), ?_⟩
  have positive : 0 < digest.length := List.length_pos_of_ne_nil nonempty
  have code := putUvarint_length_pos Config.hashCode
  have places := putUvarint_length_pos (UInt64.ofNat digest.length)
  have length : (UInt64.ofNat digest.length).toNat = digest.length := by
    rw [UInt64.toNat_ofNat_of_lt']
    exact short.trans (by decide)
  rw [decode, if_neg (by simp only [List.length_append]; omega), List.append_assoc, uvarint_putUvarint]
  simp only [Option.bind_eq_bind, Option.bind_some, uvarint_putUvarint, length]
  rw [if_neg (by omega), if_neg (not_not.mpr rfl)]
  rfl

/-- What reads as a multihash is a code, the number of bytes that follow, and so many bytes. -/
theorem Utils.decode_eq_some_iff {id : Bytes} {dm : DecodedMultihash} :
    decode id = some dm ↔ 3 ≤ id.length ∧ ∃ rest, uvarint id = some (dm.code, rest) ∧
      uvarint rest = some (dm.length, dm.digest) ∧ dm.digest.length = dm.length ∧ dm.length < 2 ^ 31 := by
  constructor
  · intro read
    rw [decode] at read
    split at read
    · cases read
    · next long =>
      cases code : uvarint id with
      | none => simp [code] at read
      | some first =>
        cases length : uvarint first.2 with
        | none => simp [code, length] at read
        | some second =>
          simp only [code, length, Option.bind_eq_bind, Option.bind_some] at read
          split at read
          · cases read
          · split at read
            · cases read
            · next short whole =>
              cases read
              exact ⟨not_lt.mp long, first.2, rfl, length, not_not.mp whole, by dsimp only; omega⟩
  · rintro ⟨long, rest, code, length, whole, short⟩
    rw [decode, if_neg (not_lt.mpr long), code]
    simp only [Option.bind_eq_bind, Option.bind_some, length]
    rw [if_neg (by omega), if_neg (not_not.mpr whole)]

/-- No digest is longer than a multihash may be. -/
theorem Utils.decode_digest {id : Bytes} {dm : DecodedMultihash} (read : decode id = some dm) :
    dm.digest.length < 2 ^ 31 := by
  obtain ⟨-, rest, -, -, whole, short⟩ := decode_eq_some_iff.mp read
  exact whole.trans_lt short

namespace Multihash

theorem data_length (id : Multihash) : id.data.length < 2 ^ 31 := by
  rw [data]
  cases read : Utils.decode id with
  | none => exact Nat.two_pow_pos 31
  | some dm => exact Utils.decode_digest read

theorem data_length_le (id : Multihash) : id.data.length ≤ id.length := by
  rw [data]
  cases read : Utils.decode id with
  | none => exact Nat.zero_le _
  | some dm =>
    obtain ⟨-, rest, code, length, -⟩ := Utils.decode_eq_some_iff.mp read
    exact ((Utils.uvarint_length length).trans (Utils.uvarint_length code)).le

theorem number_lt_two_pow (id : Multihash) : id.number < 2 ^ (8 * id.data.length) := by
  have below := BigEndian.number_lt id.data
  rwa [show 256 = 2 ^ 8 from rfl, ← pow_mul] at below

theorem data_ofNumber {x : ℕ} (short : (BigEndian.bytes x).length < 2 ^ 31) :
    (ofNumber x).data = BigEndian.bytes x := by
  by_cases nonempty : BigEndian.bytes x = []
  · rw [ofNumber, nonempty]
    decide
  · obtain ⟨id, encoded, read⟩ := Utils.decode_encode nonempty short
    rw [ofNumber, encoded, Option.getD_some, data, read]
    rfl

theorem number_ofNumber {x : ℕ} (short : (BigEndian.bytes x).length < 2 ^ 31) : (ofNumber x).number = x := by
  rw [number, data_ofNumber short, BigEndian.number_bytes]

theorem bytes_number_length (id : Multihash) : (BigEndian.bytes id.number).length < 2 ^ 31 :=
  (BigEndian.length_bytes_le (BigEndian.number_lt _)).trans_lt id.data_length

/-- Making an id of its number keeps the number. -/
theorem number_ofNumber_number (id : Multihash) : (ofNumber id.number).number = id.number :=
  number_ofNumber id.bytes_number_length

end Multihash

theorem Multihash.data_of_encode {digest : Bytes} {id : Multihash} (length : digest.length = 32)
    (encoded : Utils.encode digest Config.hashCode = some id) : id.data = digest := by
  have nonempty : digest ≠ [] := by
    rw [← List.length_pos_iff, length]
    omega
  obtain ⟨id', encoded', read⟩ := Utils.decode_encode nonempty (by rw [length]; omega)
  cases encoded.symm.trans encoded'
  rw [Multihash.data, read]
  rfl

/-- The ids that nodes make for themselves. -/
def IsNodeId (id : Multihash) : Prop :=
  ∃ digest : Bytes, digest.length = 32 ∧ Utils.encode digest Config.hashCode = some id

namespace IsNodeId

variable {id other : Multihash}

theorem data_eq (nodeId : IsNodeId id) : id.data.length = 32 ∧ Utils.encode id.data Config.hashCode = some id := by
  obtain ⟨digest, length, encoded⟩ := nodeId
  rw [Multihash.data_of_encode length encoded]
  exact ⟨length, encoded⟩

theorem number_lt (nodeId : IsNodeId id) : id.number < 2 ^ 256 := by
  have below := id.number_lt_two_pow
  rwa [nodeId.data_eq.1] at below

theorem number_inj (nodeId : IsNodeId id) (nodeId' : IsNodeId other) (same : id.number = other.number) :
    id = other := by
  obtain ⟨length, encoded⟩ := nodeId.data_eq
  obtain ⟨length', encoded'⟩ := nodeId'.data_eq
  have data : id.data = other.data := BigEndian.number_inj (length.trans length'.symm) same
  rw [data, encoded'] at encoded
  exact (Option.some.inj encoded).symm

/-- An id is made of its number exactly when its digest does not begin with a zero. -/
theorem ofNumber_number_iff (nodeId : IsNodeId id) :
    Multihash.ofNumber id.number = id ↔ id.data.head? ≠ some 0 := by
  constructor
  · intro same
    rw [← same, Multihash.data_ofNumber id.bytes_number_length]
    exact BigEndian.head?_bytes _
  · intro leading
    rw [Multihash.ofNumber, Multihash.number, BigEndian.bytes_number leading, nodeId.data_eq.2, Option.getD_some]

end IsNodeId

/-- The id with the digest that consists of one byte and of zeros behind it. -/
def idOf (first : UInt8) : Multihash := 0x16 :: 32 :: first :: List.replicate 31 0

theorem nodeId_idOf (first : UInt8) : IsNodeId (idOf first) := ⟨first :: List.replicate 31 0, rfl, rfl⟩

/-- The ids that super nodes make for themselves, with a digest that does not begin with a zero. -/
def IsSuperId (id : Multihash) : Prop :=
  ∃ digest : Bytes, digest.length = 32 ∧ digest.head? ≠ some 0 ∧ Utils.encode digest Config.hashCode = some id

namespace IsSuperId

variable {id other : Multihash}

theorem isNodeId (superId : IsSuperId id) : IsNodeId id := by
  obtain ⟨digest, length, -, encoded⟩ := superId
  exact ⟨digest, length, encoded⟩

theorem data_head? (superId : IsSuperId id) : id.data.head? ≠ some 0 := by
  obtain ⟨digest, length, leading, encoded⟩ := superId
  rwa [Multihash.data_of_encode length encoded]

theorem bytes_number (superId : IsSuperId id) : BigEndian.bytes id.number = id.data :=
  BigEndian.bytes_number superId.data_head?

/-- A super node's id is made of its number. -/
theorem ofNumber_number (superId : IsSuperId id) : Multihash.ofNumber id.number = id :=
  superId.isNodeId.ofNumber_number_iff.mpr superId.data_head?

theorem number_lt (superId : IsSuperId id) : id.number < 2 ^ 256 := superId.isNodeId.number_lt

theorem number_inj (superId : IsSuperId id) (superId' : IsSuperId other) (same : id.number = other.number) :
    id = other :=
  superId.isNodeId.number_inj superId'.isNodeId same

end IsSuperId

end PolarCloud
