import PolarCloud.Model.Keystore.Aes
import PolarCloud.Model.Keystore.Seeds

/-! # Opening a wallet

A wallet is made from a seed and a password, whose digest is the key of the cipher, or it is read from its files. With
the cipher in place the keys of the seeds follow from the libraries.
-/

namespace PolarCloud.Keystore

/-- The libraries behind a wallet. -/
structure Library where
  aes : Aes
  /-- `newKeyPair`: the private and the public key; nothing when the bytes do not suffice -/
  newKeyPair : Bytes → Option (Bytes × Bytes)
  sha512 : Bytes → Bytes
  md5 : Bytes → Bytes
  b58String : Bytes → String
  length_sha512 : ∀ text, (sha512 text).length = 64
  length_md5 : ∀ text, (md5 text).length = 16

/-- A text that the cipher returned; nothing for an error and for a panic alike. -/
def returned : Option (Except String Bytes) → Option Bytes
  | some (.ok text) => some text
  | _ => none

def Library.keys (lib : Library) : Keys where
  encrypt text password := returned (encrypt lib.aes text password)
  decrypt text password := returned (decrypt lib.aes text password)
  newKeyPair := lib.newKeyPair
  sha512 := lib.sha512
  b58String := lib.b58String

namespace SeedWallet

/-- `Load`: an error of `SetSeedIndex` is passed over. -/
def load (this : SeedWallet) (readable : Bool) (range : Range) : SeedWallet × Option ℕ :=
  match this.loadSeeds readable with
  | (this, none) => (this, none)
  | (this, some count) => ((this.setSeedIndex 0 range).1, some count)

/-- `NewLoad`: errors after the encryption of the seed are passed over; nothing is returned after a panic. The ranges
are those of `SetSeedIndex` and of `GetNewAddress`. -/
def newLoad (lib : Library) (rt : Runtime) (this : SeedWallet) (seed password : Bytes) (first second : Range) :
    SeedWallet × Option (Except String Unit) :=
  let pass := lib.md5 password
  match encrypt lib.aes seed pass with
  | none => (this, none)
  | some (.error text) => (this, some (.error text))
  | some (.ok data) =>
      let this := this.setSeed { data }
      let this := { this with seedFile := this.seeds }
      match this.setSeedIndex 0 first with
      | (this, none) => (this, none)
      | (this, some _) =>
          match this.getNewAddress lib.keys rt pass second with
          | (this, none) => (this, none)
          | (this, some _) => (this, some (.ok ()))

/-! ## Calls with any index -/

/-- `SetSeedIndex` with any int. The index of before is compared, and the new one is assigned unseen: a negative one is
then a panic. No run goes on after it, so that the wallet need not hold such an index. -/
def setSeedIndexInt (this : SeedWallet) (index : ℤ) (range : Range) : SeedWallet × Option (Except String Unit) :=
  match index with
  | .ofNat index => this.setSeedIndex index range
  | .negSucc _ =>
      if this.seeds = [] ∨ this.seeds.length < this.seedsIndex then (this, some (.error noSeed)) else (this, none)

inductive Call where
  | loadSeeds (readable : Bool)
  | setSeed (seed : Seed)
  | setSeedIndex (index : ℤ)
  | getNewAddress (password : Bytes)
  | getPriKey (address : String) (password : Bytes)
  | getCoinbase
deriving DecidableEq, Repr

/-- The wallet after a call, with the order in which the call ranges over the lists in memory. -/
def step (keys : Keys) (rt : Runtime) (this : SeedWallet) (call : Call × Range) : SeedWallet :=
  match call.1 with
  | .loadSeeds readable => (this.loadSeeds readable).1
  | .setSeed seed => this.setSeed seed
  | .setSeedIndex index => (this.setSeedIndexInt index call.2).1
  | .getNewAddress password => (this.getNewAddress keys rt password call.2).1
  | .getPriKey address password => (this.getPriKey keys rt address password).1
  | .getCoinbase => this

/-- The call subscripts the seeds with an index that they do not have. -/
def OutOfRange (this : SeedWallet) : Call → Prop
  | .setSeedIndex index =>
      (this.seeds ≠ [] ∧ this.seedsIndex ≤ this.seeds.length) ∧ ¬ (0 ≤ index ∧ index < this.seeds.length)
  | .getNewAddress _ => this.seeds.length ≤ this.seedsIndex
  | .getCoinbase => this.seeds.length ≤ this.seedsIndex
  | _ => False

end SeedWallet

end PolarCloud.Keystore
