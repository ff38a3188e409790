import PolarCloud.Model.Keystore.Load
import PolarCloud.Proofs.Keystore.KeyLookup

/-! # The index of the current seed

`SetSeedIndex` compares the index of before and assigns the new one, and `LoadSeeds` may bring fewer seeds. Every other
call leaves an index of the seeds behind.
-/

namespace PolarCloud.Keystore.SeedWallet

variable {keys : Keys} {rt : Runtime} {password : Bytes} {this : SeedWallet} {range : Range}

/-- What a call promises: the current index is one of the seeds afterwards, an index that is none of them is refused and
changes nothing, and no subscript is out of range. -/
structure InRange (keys : Keys) (rt : Runtime) (this : SeedWallet) (call : Call × Range) : Prop where
  valid : (this.step keys rt call).seedsIndex < (this.step keys rt call).seeds.length
  refuses : ∀ index, call.1 = .setSeedIndex index → ¬ (0 ≤ index ∧ index < this.seeds.length) →
    (∃ text, (this.setSeedIndexInt index call.2).2 = some (.error text)) ∧
      (this.setSeedIndexInt index call.2).1 = this
  inside : ¬ this.OutOfRange call.1

/-- A seed is made current that there is, and the seeds that are read include the current one. -/
def Inside (this : SeedWallet) (call : Call × Range) : Prop :=
  match call.1 with
  | .loadSeeds readable => readable = true → this.seedsIndex < this.seedFile.length
  | .setSeedIndex index => 0 ≤ index ∧ index < this.seeds.length
  | _ => True

/-- The current index and the number of seeds stay. -/
def SameRange (before after : SeedWallet) : Prop :=
  after.seedsIndex = before.seedsIndex ∧ after.seeds.length = before.seeds.length

theorem SameRange.trans {first second third : SeedWallet} (same : SameRange first second)
    (same' : SameRange second third) : SameRange first third :=
  ⟨same'.1.trans same.1, same'.2.trans same.2⟩

theorem SameRange.valid {after : SeedWallet} (same : SameRange this after)
    (valid : this.seedsIndex < this.seeds.length) : after.seedsIndex < after.seeds.length := by
  rw [same.1, same.2]
  exact valid

theorem setCoinbase_sameRange (this : SeedWallet) (index : Int64) (range : Range) :
    SameRange this (this.setCoinbase index range) := by
  rcases @setCoinbase_eq this index range with ⟨-, done⟩ | ⟨v, -, -, done⟩
  · rw [done]
    exact ⟨rfl, rfl⟩
  · rw [done]
    exact ⟨rfl, List.length_modify ..⟩

theorem getAddresses_sameRange {row : Seed} (indices : List ℕ) {made : SeedWallet × Option Address × KeyChain}
    (current : made.1.seeds[made.1.seedsIndex]? = some row) :
    SameRange made.1 (getAddresses keys rt password indices made).1 := by
  induction indices generalizing made with
  | nil => exact ⟨rfl, rfl⟩
  | cons i rest ih =>
    obtain ⟨-, seeds, index⟩ := @getAddress_grown keys password made.1 row current rt i made.2.2
    have one : SameRange made.1 (made.1.getAddress keys rt i password made.2.2).1 :=
      ⟨index, congrArg List.length seeds⟩
    exact one.trans (ih (by rw [seeds, index]; exact current))

theorem getNewAddress_sameRange (valid : this.seedsIndex < this.seeds.length) :
    SameRange this (this.getNewAddress keys rt password range).1 := by
  obtain ⟨row, current⟩ : ∃ row, this.seeds[this.seedsIndex]? = some row := ⟨_, List.getElem?_eq_getElem valid⟩
  obtain ⟨-, seeds, index⟩ := @getAddress_grown keys password { this with addrList := [] } row current rt 0 {}
  rw [getNewAddress, current]
  dsimp only
  generalize getAddress keys rt { this with addrList := [] } 0 password {} = first at seeds index ⊢
  have one : SameRange this first.1 := ⟨index, congrArg List.length seeds⟩
  generalize checkPass first.1 first.2.1 = checked
  rcases checked with _ | text | _
  · exact one
  · exact one
  · have rest := @getAddresses_sameRange keys rt password row ((List.range row.addrIndex).map (· + 1)) first
      (by rw [seeds, index]; exact current)
    dsimp only
    generalize getAddresses keys rt password ((List.range row.addrIndex).map (· + 1)) first = all at rest ⊢
    have written : SameRange this (save { all.1 with
        seeds := all.1.seeds.set all.1.seedsIndex { row with addrIndex := row.addrIndex + 1 } } range) :=
      (one.trans rest).trans ⟨rfl, List.length_set ..⟩
    split
    · exact written.trans (setCoinbase_sameRange _ 0 range)
    · exact written

theorem getPriKey_valid (keys : Keys) (rt : Runtime) (valid : this.seedsIndex < this.seeds.length) (address : String)
    (password : Bytes) : (this.getPriKey keys rt address password).1.seedsIndex <
      (this.getPriKey keys rt address password).1.seeds.length := by
  obtain ⟨-, seeds, index⟩ := @searchSeeds_grown keys password this address rt this.seeds.zipIdx
    (fun one member => List.mem_zipIdx_iff_getElem?.mp member) none
  rw [getPriKey, seeds]
  rcases index with same | listed
  · rw [same]
    exact valid
  · obtain ⟨one, member, same⟩ := List.mem_map.mp listed
    rw [← same]
    exact (List.getElem?_eq_some_iff.mp (List.mem_zipIdx_iff_getElem?.mp member)).1

/-- An index of the seeds becomes the current one. -/
theorem setSeedIndexInt_inside (valid : this.seedsIndex < this.seeds.length) {index : ℤ}
    (inside : 0 ≤ index ∧ index < this.seeds.length) (range : Range) :
    ((this.setSeedIndexInt index range).1.seedsIndex : ℤ) = index ∧
      (this.setSeedIndexInt index range).1.seeds.length = this.seeds.length := by
  obtain ⟨positive, below⟩ := inside
  obtain ⟨n, rfl⟩ := Int.eq_ofNat_of_zero_le positive
  have present : n < this.seeds.length := Int.ofNat_lt.mp below
  have nonempty : this.seeds ≠ [] := List.ne_nil_of_length_pos (Nat.zero_lt_of_lt valid)
  change (((this.setSeedIndex n range).1.seedsIndex : ℕ) : ℤ) = n ∧ (this.setSeedIndex n range).1.seeds.length = _
  rw [setSeedIndex, if_neg (not_or.mpr ⟨nonempty, not_lt.mpr valid.le⟩)]
  dsimp only
  rw [List.getElem?_eq_getElem present]
  dsimp only
  split
  · obtain ⟨index, seeds⟩ := setCoinbase_sameRange { this with seedsIndex := n } 0 range
    exact ⟨congrArg _ index, seeds⟩
  · exact ⟨rfl, rfl⟩

/-- A call keeps its promise exactly when its index is inside. -/
theorem inRange_iff (valid : this.seedsIndex < this.seeds.length) (call : Call × Range) :
    InRange keys rt this call ↔ this.Inside call := by
  have nonempty : this.seeds ≠ [] := List.ne_nil_of_length_pos (Nat.zero_lt_of_lt valid)
  obtain ⟨call, range⟩ := call
  cases call with
  | loadSeeds readable =>
    cases readable with
    | false => exact iff_of_true ⟨valid, nofun, id⟩ nofun
    | true => exact ⟨fun kept _ => kept.valid, fun inside => ⟨inside rfl, nofun, id⟩⟩
  | setSeed seed =>
    refine iff_of_true ⟨?_, nofun, id⟩ trivial
    exact valid.trans_le (by simp [step, setSeed])
  | setSeedIndex index =>
    constructor
    · intro kept
      by_contra outside
      exact kept.inside ⟨⟨nonempty, valid.le⟩, outside⟩
    · intro inside
      obtain ⟨now, seeds⟩ := setSeedIndexInt_inside valid inside range
      refine ⟨?_, ?_, fun outside => outside.2 inside⟩
      · change (this.setSeedIndexInt index range).1.seedsIndex < (this.setSeedIndexInt index range).1.seeds.length
        rw [seeds]
        exact Int.ofNat_lt.mp (now.trans_lt inside.2)
      · rintro _ ⟨⟩ outside
        exact absurd inside outside
  | getNewAddress password =>
    exact iff_of_true ⟨(getNewAddress_sameRange valid).valid valid, nofun, not_le.mpr valid⟩ trivial
  | getPriKey address password => exact iff_of_true ⟨getPriKey_valid keys rt valid address password, nofun, id⟩ trivial
  | getCoinbase => exact iff_of_true ⟨valid, nofun, not_le.mpr valid⟩ trivial

/-- The index stays in range through a sequence of calls exactly when all of them keep inside. -/
theorem seedsIndex_in_range_iff (keys : Keys) (rt : Runtime) {start : SeedWallet}
    (valid : start.seedsIndex < start.seeds.length) (calls : List (Call × Range)) :
    Replay.Each (step keys rt) start (InRange keys rt) calls ↔ Replay.Each (step keys rt) start Inside calls :=
  (@Replay.each_iff_each _ _ (step keys rt) start (fun this => this.seedsIndex < this.seeds.length)
    (InRange keys rt) Inside (fun _ _ => True) valid (fun _ _ _ _ kept => kept.valid)
    (fun _ call _ valid => inRange_iff valid call) calls fun _ _ _ _ => trivial).1

/-- A seed is added, a search for a key makes it current, and the seeds are read again. -/
def shrinks : List (Call × Range) :=
  [.setSeed { data := [7] }, .getPriKey "" [1], .loadSeeds true].map (·, inOrder)

theorem shrinks_in_range_iff :
    Replay.Each (step shiftKeys plainHashes) oneStored (InRange shiftKeys plainHashes) shrinks ↔
      Replay.Each (step shiftKeys plainHashes) oneStored Inside shrinks :=
  seedsIndex_in_range_iff shiftKeys plainHashes (by decide) shrinks

/-- An index that there is not is assigned, and the subscript is a panic; a negative one is a panic too, and reading the
seeds again can leave fewer than the current index. -/
theorem index_assigned_unseen :
    (oneStored.setSeedIndexInt 5 inOrder).2 = none ∧ (oneStored.setSeedIndexInt 5 inOrder).1.seedsIndex = 5 ∧
    (oneStored.setSeedIndexInt (-1) inOrder).2 = none ∧
    ¬ Replay.Each (step shiftKeys plainHashes) oneStored (InRange shiftKeys plainHashes)
      [(.setSeedIndex 5, inOrder)] ∧
    ¬ Replay.Each (step shiftKeys plainHashes) oneStored (InRange shiftKeys plainHashes) shrinks := by
  refine ⟨by decide, by decide, by decide, fun each => ?_, fun each => ?_⟩
  · exact absurd (Replay.each_cons.mp each).1.valid (by decide)
  · rw [shrinks, List.map_cons, List.map_cons, List.map_cons, Replay.each_cons, Replay.each_cons,
      Replay.each_cons] at each
    exact absurd each.2.2.1.valid (by decide)

end PolarCloud.Keystore.SeedWallet
