import PolarCloud.Proofs.NodeStore.Numbers
import PolarCloud.Proofs.Store.Download

/-! # The four places of a chunk

A chunk is named by its SHA-1 sum as it is, without the code and the length that a multihash begins with. The three
places besides the sum itself are made of the digest that is read from it. A sum that does not happen to read as a
multihash has no digest, and the three places are then the same for all such chunks.
-/

namespace PolarCloud.NodeStore

variable {id other : Multihash}

/-- What the number of an id is combined with for each of its places. -/
def quarters : List ℕ := [0, 1, 2, 3].map fun k => k * ((2 ^ 256 - 1) / 4)

theorem numberQuarter_eq : numberQuarter = quarters.tail := by decide

/-- The digest of a place is the number that the place is made of. -/
theorem data_quarter (id : Multihash) {one : ℕ} (quarter : one ∈ quarters) :
    (Multihash.ofNumber (id.number ^^^ one)).data = BigEndian.bytes (id.number ^^^ one) := by
  have bound : ∀ one ∈ quarters, one < 2 ^ 256 := by decide
  have length := id.data_length
  have below : id.number ^^^ one < 256 ^ (2 ^ 31 - 1) := by
    rw [show 256 = 2 ^ 8 from rfl, ← pow_mul]
    refine Nat.xor_lt_two_pow ?_ ?_
    · exact id.number_lt_two_pow.trans_le (Nat.pow_le_pow_right (by decide) (by omega))
    · exact (bound one quarter).trans_le (Nat.pow_le_pow_right (by decide) (by decide))
  apply Multihash.data_ofNumber
  exact (BigEndian.length_bytes_le below).trans_lt (by decide)

theorem data_getQuarterLogicIds (id : Multihash) : (getQuarterLogicIds id).tail.map Multihash.data =
    quarters.tail.map fun one => BigEndian.bytes (id.number ^^^ one) := by
  rw [getQuarterLogicIds, List.tail_cons, numberQuarter_eq, List.map_map]
  exact List.map_congr_left fun one quarter => data_quarter id (List.mem_of_mem_tail quarter)

theorem numbers_getQuarterLogicIds (id : Multihash) :
    (getQuarterLogicIds id).map Multihash.number = quarters.map fun one => id.number ^^^ one := by
  have first : quarters = 0 :: quarters.tail := by decide
  have digests := congrArg (List.map BigEndian.number) (data_getQuarterLogicIds id)
  simp only [List.map_map, Function.comp_def, BigEndian.number_bytes] at digests
  rw [first, List.map_cons, Nat.xor_zero, ← digests]
  rfl

/-- An id and the other three places are different, whatever the id. -/
theorem nodup_getQuarterLogicIds (id : Multihash) : (getQuarterLogicIds id).Nodup := by
  apply List.Nodup.of_map Multihash.number
  rw [numbers_getQuarterLogicIds]
  exact .map Nat.xor_right_injective (by decide)

/-- Two ids with numbers of no more than 20 bytes have no place in common exactly when the numbers differ. -/
theorem disjoint_getQuarterLogicIds_iff (short : id.number < 256 ^ 20) (short' : other.number < 256 ^ 20) :
    (getQuarterLogicIds id).Disjoint (getQuarterLogicIds other) ↔ id.number ≠ other.number := by
  constructor
  · intro disjoint same
    have place : Multihash.ofNumber (id.number ^^^ (2 ^ 256 - 1) / 4) ∈ getQuarterLogicIds other := by
      rw [same]
      exact List.mem_cons_of_mem _ (List.mem_cons_self ..)
    exact disjoint (List.mem_cons_of_mem _ (List.mem_cons_self ..)) place
  · intro differ place inside inside'
    have member := List.mem_map_of_mem (f := Multihash.number) inside
    have member' := List.mem_map_of_mem (f := Multihash.number) inside'
    rw [numbers_getQuarterLogicIds] at member member'
    obtain ⟨one, quarter, number⟩ := List.mem_map.mp member
    obtain ⟨one', quarter', number'⟩ := List.mem_map.mp member'
    have first : id.number = place.number ^^^ one := by rw [← number, Nat.xor_assoc, Nat.xor_self, Nat.xor_zero]
    have second : other.number = place.number ^^^ one' := by
      rw [← number', Nat.xor_assoc, Nat.xor_self, Nat.xor_zero]
    have between : id.number ^^^ other.number = one ^^^ one' := by rw [first, second, Xor.cancel]
    have low : id.number ^^^ other.number < 2 ^ 160 := Nat.xor_lt_two_pow short short'
    -- two quarters differ in a bit that no number of 20 bytes reaches
    have far : ∀ one ∈ quarters, ∀ one' ∈ quarters, one ^^^ one' < 2 ^ 160 → one = one' := by decide
    cases far one quarter one' quarter' (between ▸ low)
    rw [Nat.xor_self] at between
    exact differ (Nat.xor_eq_zero_iff.mp between)

end PolarCloud.NodeStore

namespace PolarCloud.Store

open NodeStore

/-- A chunk is named by a multihash, its places are those of its digest, and there are four of them. -/
structure Spread (hash : Multihash) : Prop where
  wellFormed : Utils.cast hash = some hash
  places : ∃ replicas, getQuarterLogicIds hash = hash :: replicas ∧
    replicas.map Multihash.data = [1, 2, 3].map fun k => BigEndian.bytes (hash.number ^^^ k * ((2 ^ 256 - 1) / 4))
  distinct : (getQuarterLogicIds hash).Nodup

/-- Bytes that happen to begin with the code of a hash function and the number of bytes that follow. -/
def Reads (sum : Bytes) : Prop :=
  ∃ code rest digest, Utils.uvarint sum = some (code, rest) ∧ Utils.validCode code = true ∧
    Utils.uvarint rest = some (digest.length, digest)

theorem cast_eq_some_iff {sum : Bytes} (long : sum.length = 20) : Utils.cast sum = some sum ↔ Reads sum := by
  rw [Utils.cast, Reads]
  constructor
  · intro read
    cases decoded : Utils.decode sum with
    | none =>
      rw [decoded] at read
      cases read
    | some dm =>
      rw [decoded, Option.bind_eq_bind, Option.bind_some] at read
      split at read
      · next valid =>
        obtain ⟨-, rest, code, length, whole, -⟩ := Utils.decode_eq_some_iff.mp decoded
        exact ⟨dm.code, rest, dm.digest, code, valid, whole ▸ length⟩
      · cases read
  · rintro ⟨code, rest, digest, first, valid, second⟩
    have shorter := (Utils.uvarint_length second).trans (Utils.uvarint_length first)
    have decoded : Utils.decode sum = some { code, length := digest.length, digest } :=
      Utils.decode_eq_some_iff.mpr ⟨by omega, rest, first, second, rfl, by dsimp only; omega⟩
    rw [decoded, Option.bind_eq_bind, Option.bind_some, if_pos valid]

/-- What holds of the name of a chunk apart from its form. -/
theorem spread_iff {sum : Bytes} (long : sum.length = 20) : Spread sum ↔ Reads sum := by
  rw [← cast_eq_some_iff long]
  exact ⟨Spread.wellFormed, fun wellFormed =>
    ⟨wellFormed, ⟨_, rfl, data_getQuarterLogicIds sum⟩, nodup_getQuarterLogicIds sum⟩⟩

theorem number_lt_of_length {sum : Bytes} (long : sum.length = 20) : Multihash.number sum < 256 ^ 20 :=
  (BigEndian.number_lt _).trans_le (Nat.pow_le_pow_right (by decide) (long ▸ Multihash.data_length_le sum))

/-- A chunk is spread exactly when its SHA-1 sum happens to read as a multihash, and two chunks have no place in common
exactly when different numbers are read from their sums. -/
theorem chunk_spread_iff (sha1 : Bytes → Bytes) (long : ∀ bs, (sha1 bs).length = 20) :
    (∀ disk bs, Spread (writeFileChunk sha1 disk bs).1 ↔ Reads (sha1 bs)) ∧
    ∀ disk disk' bs bs', (getQuarterLogicIds (writeFileChunk sha1 disk bs).1).Disjoint
        (getQuarterLogicIds (writeFileChunk sha1 disk' bs').1) ↔
      Multihash.number (sha1 bs) ≠ Multihash.number (sha1 bs') :=
  ⟨fun _ bs => spread_iff (long bs), fun _ _ bs bs' =>
    disjoint_getQuarterLogicIds_iff (number_lt_of_length (long bs)) (number_lt_of_length (long bs'))⟩

/-- The sums of `a` and `b`, and of two bytes whose sum reads as a multihash; no other content is looked at. -/
def sums (bs : Bytes) : Bytes :=
  if bs = [97] then
    [0x86, 0xf7, 0xe4, 0x37, 0xfa, 0xa5, 0xa7, 0xfc, 0xe1, 0x5d, 0x1d, 0xdc, 0xb9, 0xea, 0xea, 0xea, 0x37, 0x76, 0x67,
      0xb8]
  else if bs = [98] then
    [0xe9, 0xd7, 0x1f, 0x5e, 0xe7, 0xc9, 0x2d, 0x6d, 0xc9, 0xe9, 0x2f, 0xfd, 0xad, 0x17, 0xb8, 0xbd, 0x49, 0x41, 0x8f,
      0x98]
  else if bs = [0x10, 0x0f] then
    [0x07, 0x12, 0x4b, 0x42, 0xe8, 0xcf, 0x95, 0xbd, 0x8c, 0xed, 0x84, 0x54, 0xd1, 0x3a, 0x08, 0xaa, 0xb0, 0x8c, 0x94,
      0x7e]
  else List.replicate 20 0

theorem length_sums (bs : Bytes) : (sums bs).length = 20 := by
  rw [sums]
  split_ifs <;> rfl

/-- The condition at these sums: one chunk is spread, and the others are not, which have places in common. -/
theorem sums_spread :
    Spread (writeFileChunk sums emptyDisk [0x10, 0x0f]).1 ∧ ¬ Spread (writeFileChunk sums emptyDisk [97]).1 ∧
      ¬ (getQuarterLogicIds (writeFileChunk sums emptyDisk [97]).1).Disjoint
        (getQuarterLogicIds (writeFileChunk sums emptyDisk [98]).1) := by
  obtain ⟨spread, apart⟩ := chunk_spread_iff sums length_sums
  refine ⟨(spread emptyDisk _).mpr ?_, fun spreads => ?_, fun disjoint => ?_⟩
  · exact (cast_eq_some_iff rfl).mp (by decide)
  · have reads := (cast_eq_some_iff rfl).mpr ((spread emptyDisk _).mp spreads)
    revert reads
    decide
  · exact (apart emptyDisk emptyDisk [97] [98]).mp disjoint (by decide)

/-- No multihash is read from the sums of two chunks, and their three other places are the same. -/
theorem places_coincide :
    (∀ bs, (sums bs).length = 20) ∧ sums [97] ≠ sums [98] ∧
      Utils.cast (writeFileChunk sums emptyDisk [97]).1 = none ∧
      (getQuarterLogicIds (writeFileChunk sums emptyDisk [97]).1).tail =
        (getQuarterLogicIds (writeFileChunk sums emptyDisk [98]).1).tail := by
  have unread : Multihash.number (sums [97]) = 0 := by decide
  have unread' : Multihash.number (sums [98]) = 0 := by decide
  refine ⟨length_sums, by decide, by decide, ?_⟩
  have tails (id : Multihash) (unread : id.number = 0) :
      (getQuarterLogicIds id).tail = numberQuarter.map .ofNumber := by
    rw [getQuarterLogicIds, List.tail_cons, unread]
    exact List.map_congr_left fun one _ => by rw [Nat.zero_xor]
  exact (tails (sums [97]) unread).trans (tails (sums [98]) unread').symm

end PolarCloud.Store
