import PolarCloud.Proofs.Keystore.Addresses

/-! # What a wrong password leaves behind

The lists in memory are forgotten and the first address of the seed is made before the password is looked at. What is
left is this one address and its key; the seeds and the files stay.
-/

namespace PolarCloud.Keystore.SeedWallet

variable {keys : Keys} {rt : Runtime} {password : Bytes} {this : SeedWallet} {range : Range} {text : String}

/-- The addresses, the seeds, the private key and the files are those from before. -/
structure Untouched (before after : SeedWallet) : Prop where
  addrList : after.addrList = before.addrList
  getAllAddress : after.getAllAddress = before.getAllAddress
  seeds : after.seeds = before.seeds
  privateKey : after.privateKey = before.privateKey
  seedFile : after.seedFile = before.seedFile
  addressFile : after.addressFile = before.addressFile

/-- Memory holds nothing but the one address that the password leads to from the current seed, and its key. -/
def Alone (keys : Keys) (rt : Runtime) (password : Bytes) (this : SeedWallet) : Prop :=
  ∃ row, this.seeds[this.seedsIndex]? = some row ∧
    this.addrList = [(this.seedsIndex, [addressAt keys rt password this.seedsIndex row.data 0 {}])] ∧
    this.privateKey = keyLeft keys password row.data 0 {} this.privateKey

/-- A refused password leaves the one address that it leads to. -/
theorem getNewAddress_error (refused : (this.getNewAddress keys rt password range).2 = some (.error text)) :
    ∃ row, this.seeds[this.seedsIndex]? = some row ∧ (this.getNewAddress keys rt password range).1 =
      { this with
        privateKey := keyLeft keys password row.data 0 {} this.privateKey
        addrList := [(this.seedsIndex, [addressAt keys rt password this.seedsIndex row.data 0 {}])] } := by
  rw [getNewAddress] at refused ⊢
  cases own : this.seeds[this.seedsIndex]? with
  | none =>
    rw [own] at refused
    cases refused
  | some row =>
    refine ⟨row, rfl, ?_⟩
    rw [own] at refused
    dsimp only at refused ⊢
    cases encrypted : keys.encrypt (((pairAt keys password row.data 0 {}).map Prod.fst).getD []) password with
    | none =>
      rw [@getAddress_unmade _ _ { this with addrList := [] } row own rt 0 {} encrypted] at refused
      dsimp only at refused
      rw [checkPass] at refused
      cases file : this.addressFile with
      | nil =>
        rw [file] at refused
        cases refused
      | cons first rest =>
        rw [file] at refused
        cases refused
    | some priKey =>
      rw [@getAddress_made _ _ { this with addrList := [] } row own rt 0 {} priKey encrypted] at refused ⊢
      dsimp only at refused ⊢
      generalize checkPass _ _ = checked at refused ⊢
      rcases checked with _ | _ | _
      · cases refused
      · rfl
      · cases refused

/-- A refused password changes nothing exactly when memory held already what it leaves behind. -/
theorem wrong_password_untouched_iff
    (refused : (this.getNewAddress keys rt password range).2 = some (.error text)) :
    Untouched this (this.getNewAddress keys rt password range).1 ↔ Alone keys rt password this := by
  obtain ⟨row, own, left⟩ := getNewAddress_error refused
  rw [left]
  constructor
  · intro untouched
    exact ⟨row, own, untouched.addrList.symm, untouched.privateKey.symm⟩
  · rintro ⟨row', own', addrList, privateKey⟩
    cases own.symm.trans own'
    have lists : ({ this with
        privateKey := keyLeft keys password row.data 0 {} this.privateKey
        addrList := [(this.seedsIndex, [addressAt keys rt password this.seedsIndex row.data 0 {}])] } : SeedWallet) =
          this := by
      rw [← privateKey, ← addrList]
    rw [lists]
    exact ⟨rfl, rfl, rfl, rfl, rfl, rfl⟩

/-! ## A stored address and a wrong password -/

/-- A cipher that adds the first byte of the password to every byte, and keys that are their own seeds. -/
def shiftKeys : Keys where
  encrypt text password := some (text.map fun byte => byte + password.headD 0)
  decrypt text password := some (text.map fun byte => byte - password.headD 0)
  newKeyPair rand := some (rand, 1 :: rand)
  sha512 := id
  b58String _ := ""

/-- A wallet with one seed and one address. -/
def oneStored : SeedWallet :=
  ((({} : SeedWallet).setSeed { data := [5] }).getNewAddress shiftKeys plainHashes [1] inOrder).1

/-- The same after one wrong password. -/
def onceRefused : SeedWallet := (oneStored.getNewAddress shiftKeys plainHashes [2] inOrder).1

/-- The same wrong password again changes nothing more. -/
theorem refused_twice : (Untouched onceRefused (onceRefused.getNewAddress shiftKeys plainHashes [2] inOrder).1 ↔
    Alone shiftKeys plainHashes [2] onceRefused) ∧ Alone shiftKeys plainHashes [2] onceRefused := by
  have refused : (onceRefused.getNewAddress shiftKeys plainHashes [2] inOrder).2 = some (.error passwordIsWrong) := by
    decide
  exact ⟨wrong_password_untouched_iff refused, _, rfl, by decide, by decide⟩

/-- The address of the wallet leaves its memory. -/
theorem refused_forgets : oneStored.addressFile ≠ [] ∧
    (oneStored.getNewAddress shiftKeys plainHashes [2] inOrder).2 = some (.error passwordIsWrong) ∧
    oneStored.getAllAddress = oneStored.addressFile ∧
    (oneStored.getNewAddress shiftKeys plainHashes [2] inOrder).1.getAllAddress ≠ oneStored.addressFile ∧
    ¬ Untouched oneStored (oneStored.getNewAddress shiftKeys plainHashes [2] inOrder).1 := by
  refine ⟨by decide, by decide, by decide, by decide, fun untouched => ?_⟩
  exact absurd untouched.getAllAddress (by decide)

end PolarCloud.Keystore.SeedWallet
