import PolarCloud.Model.Store.FileInfo

/-! # Which indexes are forgotten

An index is to be forgotten when nobody shares any of its chunks any more. What the loop collects are the names of such
files, though, and what it deletes lies under these names, where the indexes lie under hashes. So it forgets the right
indexes exactly when the names of the abandoned files are the keys of the abandoned files.
-/

namespace PolarCloud.Store.Index

/-! ## Users who are left -/

namespace FileChunk

/-- The users who were online later than so many seconds ago. -/
def remaining (this : FileChunk) (now : Multihash → ℤ) : FileChunk where
  no := this.no
  hash := this.hash
  users := this.users.filter fun one => now one.name < one.updateTime + timeShareUserOfflineClear
  nodup := this.nodup.sublist (List.filter_sublist.map _)

theorem eq_of_name {this : FileChunk} {one other : ShareUser} (listed : one ∈ this.users) (listed' : other ∈ this.users)
    (same : one.name = other.name) : one = other :=
  List.inj_on_of_nodup_map this.nodup listed listed' same

/-- Deleting some users leaves those of other ids. -/
theorem foldl_clear (now : Multihash → ℤ) (gone : List ShareUser) (this : FileChunk) :
    let left := gone.foldl (fun chunk one =>
      if one.checkOvertime timeShareUserOfflineClear (now one.name) then chunk.deleteUser one.name else chunk) this
    left.no = this.no ∧ left.hash = this.hash ∧ left.users = this.users.filter fun one => ∀ other ∈ gone,
      other.checkOvertime timeShareUserOfflineClear (now other.name) = true → one.name ≠ other.name := by
  induction gone generalizing this with
  | nil => simp
  | cons first gone ih =>
    rw [List.foldl_cons]
    split
    · next late =>
      obtain ⟨no, hash, users⟩ := ih (this.deleteUser first.name)
      refine ⟨no, hash, users.trans ?_⟩
      rw [deleteUser, List.filter_filter]
      apply List.filter_congr
      intro one _
      simp [late, Bool.and_comm]
    · next early =>
      obtain ⟨no, hash, users⟩ := ih this
      refine ⟨no, hash, users.trans ?_⟩
      apply List.filter_congr
      intro one _
      simp [early]

theorem clear_eq_remaining (this : FileChunk) (now : Multihash → ℤ) : this.clear now = this.remaining now := by
  obtain ⟨no, hash, users⟩ := foldl_clear now this.getUserAll this
  refine FileChunk.ext no hash (users.trans ?_)
  apply List.filter_congr
  intro one listed
  rw [decide_eq_decide]
  constructor
  · intro kept
    by_contra late
    exact kept one listed (decide_eq_true (not_lt.mp late)) rfl
  · rintro early other listed' late same
    cases eq_of_name listed listed' same
    exact absurd early (not_lt.mpr (of_decide_eq_true late))

end FileChunk

/-- An index with the users who are left. -/
def FileInfo.remaining (this : FileInfo) (clock : ℕ → Multihash → ℤ) : FileInfo :=
  { this with fileChunk := this.fileChunk.mapIdx fun i one => one.remaining (clock i) }

theorem FileInfo.clear_eq_remaining (this : FileInfo) (clock : ℕ → Multihash → ℤ) :
    this.clear clock = this.remaining clock := by
  simp only [clear, remaining, FileChunk.clear_eq_remaining]

namespace NetFileinfo

variable {b58 : Multihash → Bytes} {net : NetFileinfo b58} {clock : Bytes → ℕ → Multihash → ℤ}

/-- Every user of every chunk has been offline too long when he is looked at. -/
def Abandoned (clock : Bytes → ℕ → Multihash → ℤ) (index : Bytes × FileInfo) : Prop :=
  ∀ i chunk, index.2.fileChunk[i]? = some chunk → ∀ user ∈ chunk.users,
    user.updateTime + timeShareUserOfflineClear ≤ clock index.1 i user.name

theorem have_eq_false_iff (index : Bytes × FileInfo) :
    (index.2.clear (clock index.1)).have_ = false ↔ Abandoned clock index := by
  rw [FileInfo.clear_eq_remaining, FileInfo.have_, List.any_eq_false]
  constructor
  · intro none i chunk found user listed
    have there : chunk.remaining (clock index.1 i) ∈ (index.2.remaining (clock index.1)).fileChunk := by
      refine List.mem_iff_getElem?.mpr ⟨i, ?_⟩
      rw [FileInfo.remaining, List.getElem?_mapIdx, found, Option.map_some]
    have empty := none _ there
    by_contra early
    have left : user ∈ (chunk.remaining (clock index.1 i)).getUserAll :=
      List.mem_filter.mpr ⟨listed, decide_eq_true (not_le.mp early)⟩
    exact empty (decide_eq_true (List.length_pos_of_mem left))
  · intro abandoned chunk inside some_
    obtain ⟨i, there⟩ := List.mem_iff_getElem?.mp inside
    rw [FileInfo.remaining, List.getElem?_mapIdx] at there
    obtain ⟨old, found, rfl⟩ := Option.map_eq_some_iff.mp there
    obtain ⟨user, left⟩ := List.exists_mem_of_length_pos (of_decide_eq_true some_)
    obtain ⟨listed, early⟩ := List.mem_filter.mp left
    exact absurd (of_decide_eq_true early) (not_lt.mpr (abandoned i old found user listed))

/-! ## Indexes that are left -/

theorem indexes_foldl_delete (names : List Bytes) (this : NetFileinfo b58) :
    (names.foldl delete this).indexes = this.indexes.filter fun index => index.1 ∉ names := by
  induction names generalizing this with
  | nil => simp
  | cons name names ih =>
    rw [List.foldl_cons, ih, delete, List.filter_filter]
    apply List.filter_congr
    intro index _
    simp [Bool.and_comm]

/-- Something lies under the name of an abandoned file. -/
def Named (net : NetFileinfo b58) (clock : Bytes → ℕ → Multihash → ℤ) (key : Bytes) : Prop :=
  ∃ index ∈ net.indexes, Abandoned clock index ∧ index.2.name = key

/-- What is left after one turn of the loop. -/
theorem mem_loopClear {index : Bytes × FileInfo} : index ∈ (net.loopClearFileinfoToNet clock).indexes ↔
    ∃ old ∈ net.indexes, index = (old.1, old.2.remaining (clock old.1)) ∧ ¬ net.Named clock old.1 := by
  have named (key : Bytes) : key ∈ (((net.clear clock).indexes.filter fun index => !index.2.have_).map
      fun index => index.2.name) ↔ net.Named clock key := by
    rw [List.mem_map, Named]
    constructor
    · rintro ⟨_, listed, rfl⟩
      obtain ⟨cleared, gone⟩ := List.mem_filter.mp listed
      obtain ⟨old, before, rfl⟩ := List.mem_map.mp cleared
      exact ⟨old, before, (have_eq_false_iff old).mp (by simpa using gone), rfl⟩
    · rintro ⟨old, before, abandoned, rfl⟩
      refine ⟨(old.1, old.2.clear (clock old.1)), List.mem_filter.mpr ⟨List.mem_map_of_mem before, ?_⟩, rfl⟩
      simpa using (have_eq_false_iff old).mpr abandoned
  rw [loopClearFileinfoToNet, indexes_foldl_delete, List.mem_filter, decide_eq_true_iff, named, clear, List.mem_map]
  constructor
  · rintro ⟨⟨old, before, rfl⟩, unnamed⟩
    exact ⟨old, before, by rw [FileInfo.clear_eq_remaining], unnamed⟩
  · rintro ⟨old, before, rfl, unnamed⟩
    exact ⟨⟨old, before, by rw [FileInfo.clear_eq_remaining]⟩, unnamed⟩

/-- The abandoned indexes are gone, and the others are there with the users who are left. -/
def Cleaned (net after : NetFileinfo b58) (clock : Bytes → ℕ → Multihash → ℤ) : Prop :=
  ∀ index, index ∈ after.indexes ↔
    ∃ old ∈ net.indexes, index = (old.1, old.2.remaining (clock old.1)) ∧ ¬ Abandoned clock old

/-- One turn of the loop forgets the abandoned indexes and no others exactly when the keys of the abandoned indexes are
the keys at which the names of abandoned files lie. -/
theorem cleaned_iff (b58 : Multihash → Bytes) (net : NetFileinfo b58) (clock : Bytes → ℕ → Multihash → ℤ) :
    Cleaned net (net.loopClearFileinfoToNet clock) clock ↔
      ∀ index ∈ net.indexes, Abandoned clock index ↔
        ∃ other ∈ net.indexes, Abandoned clock other ∧ other.2.name = index.1 := by
  have unique {old other : Bytes × FileInfo} (before : old ∈ net.indexes) (before' : other ∈ net.indexes)
      (same : old.1 = other.1) : old = other := List.inj_on_of_nodup_map net.nodup before before' same
  constructor
  · intro cleaned index listed
    have left := cleaned (index.1, index.2.remaining (clock index.1))
    rw [mem_loopClear] at left
    have kept (Kept : Bytes × FileInfo → Prop) :
        (∃ old ∈ net.indexes, (index.1, index.2.remaining (clock index.1)) =
          (old.1, old.2.remaining (clock old.1)) ∧ Kept old) ↔ Kept index := by
      constructor
      · rintro ⟨old, before, same, kept⟩
        exact unique before listed (Prod.mk.inj same).1.symm ▸ kept
      · exact fun kept => ⟨index, listed, rfl, kept⟩
    rw [kept fun old => ¬ net.Named clock old.1, kept fun old => ¬ Abandoned clock old, not_iff_not] at left
    exact left.symm
  · intro names index
    rw [mem_loopClear]
    refine exists_congr fun old => and_congr_right fun before => and_congr_right fun _ => not_congr ?_
    exact (names old before).symm

end NetFileinfo

/-- The hashes of two files, made of the SHA-1 sums of `a` and `b`. -/
def firstHash : Multihash :=
  [0x16, 20, 0x86, 0xf7, 0xe4, 0x37, 0xfa, 0xa5, 0xa7, 0xfc, 0xe1, 0x5d, 0x1d, 0xdc, 0xb9, 0xea, 0xea, 0xea, 0x37,
    0x76, 0x67, 0xb8]

def secondHash : Multihash :=
  [0x16, 20, 0xe9, 0xd7, 0x1f, 0x5e, 0xe7, 0xc9, 0x2d, 0x6d, 0xc9, 0xe9, 0x2f, 0xfd, 0xad, 0x17, 0xb8, 0xbd, 0x49,
    0x41, 0x8f, 0x98]

/-- The base58 texts of these hashes, `6zaoCCah976cmVWcr5CgMTrx6dHcWT` and `6zcB5xD5uQCA4sEuyB2VygV5U4zqgB`; no other
is asked for. -/
def base58 (id : Multihash) : Bytes :=
  if id = firstHash then
    [54, 122, 97, 111, 67, 67, 97, 104, 57, 55, 54, 99, 109, 86, 87, 99, 114, 53, 67, 103, 77, 84, 114, 120, 54,
      100, 72, 99, 87, 84]
  else if id = secondHash then
    [54, 122, 99, 66, 53, 120, 68, 53, 117, 81, 67, 65, 52, 115, 69, 117, 121, 66, 50, 86, 121, 103, 86, 53, 85,
      52, 122, 113, 103, 66]
  else []

/-- A file of one chunk with one user. -/
def sharedFile (hash : Multihash) (name : Bytes) (user : Multihash) (online : ℤ) : FileInfo :=
  (((FileInfo.newFileInfo (some hash) name 1).addChunk (.newFileChunk 0 (some hash))).addShareUser 0 user online).2

/-- The first file has the base58 text of the second one's hash as its name. Its user went offline, and the index of the
second file is forgotten. -/
theorem other_forgotten : ∃ net : NetFileinfo base58,
    ((NetFileinfo.empty : NetFileinfo base58).addFileinfoToNet
        (sharedFile firstHash (base58 secondHash) (.ofNumber 1) 100)).bind
      (fun net => net.addFileinfoToNet (sharedFile secondHash [98] (.ofNumber 1) 1000)) = some net ∧
    ((net.loopClearFileinfoToNet fun _ _ _ => 1000).indexes.map Prod.fst) = [base58 firstHash] ∧
    ¬ NetFileinfo.Cleaned net (net.loopClearFileinfoToNet fun _ _ _ => 1000) fun _ _ _ => 1000 := by
  refine ⟨_, rfl, by decide, fun cleaned => ?_⟩
  have online : ¬ NetFileinfo.Abandoned (fun _ _ _ => 1000)
      (base58 secondHash, sharedFile secondHash [98] (.ofNumber 1) 1000) := by
    intro abandoned
    have late := abandoned 0 _ rfl (newShareUser (.ofNumber 1) 1000) (List.mem_singleton_self _)
    exact absurd late (by decide)
  have left := (cleaned _).mpr ⟨_, .tail _ (.head _), rfl, online⟩
  have key := List.mem_map_of_mem (f := Prod.fst) left
  revert key
  decide

end PolarCloud.Store.Index
