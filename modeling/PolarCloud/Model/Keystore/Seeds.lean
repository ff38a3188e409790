import Mathlib.Data.List.Infix
import PolarCloud.Base.LittleEndian
import PolarCloud.Model.Keystore

/-! # Seeds and the address file

The addresses of a seed follow from its data, one after the other. Memory holds a list for every seed; the address file
holds one list, which `Save` writes from memory. The cipher, the key pairs of the curve, SHA-512 and the Base58 text
belong to libraries.
-/

namespace PolarCloud.Keystore

/-- The library functions behind the keys. A panic of the cipher is not told from an error here: it comes from a
password of 24 or 32 bytes, which is a key and no first vector, and from seed data that is not made of whole blocks. All
callers pass digests of 16 bytes, and the seeds of `NewLoad` were encrypted. -/
structure Keys where
  /-- `Encrypt`: nothing for a password that is no key of the cipher, and for a panic -/
  encrypt : Bytes → Bytes → Option Bytes
  /-- `Decrypt`: nothing for such a password, and for a panic -/
  decrypt : Bytes → Bytes → Option Bytes
  /-- `newKeyPair`: the private and the public key; nothing when the bytes do not suffice -/
  newKeyPair : Bytes → Option (Bytes × Bytes)
  sha512 : Bytes → Bytes
  b58String : Bytes → String

/-- The value of a coinbase that was never set. -/
def noAddress : Address := { seedIndex := 0, index := 0, priKey := [], pubkey := [], hash := [] }

structure Seed where
  index : ℕ := 0
  data : Bytes
  addrIndex : ℕ := 0
  coinbase : Address := noAddress
deriving DecidableEq, Repr

/-- The address lists in memory, by the number of their seed. -/
abbrev AddrMap := List (ℕ × List Address)

/-- The order in which one call ranges over the lists in memory. -/
structure Range where
  visit : AddrMap → AddrMap
  perm : ∀ addrs, (visit addrs).Perm addrs

/-- The wallet with its seeds, and its two files. -/
structure SeedWallet where
  privateKey : Option Bytes := none
  publicKey : Bytes := []
  seeds : List Seed := []
  seedsIndex : ℕ := 0
  addrList : AddrMap := []
  seedFile : List Seed := []
  addressFile : List Address := []
deriving DecidableEq, Repr

/-- The key that the next address is made from, and the chain code of its seed. -/
structure KeyChain where
  prePubKey : Bytes := []
  linkcode : Bytes := []
deriving DecidableEq, Repr

def noSeed : String := "no Seed"
def noSuchAddress : String := "no address"
def passwordIsWrong : String := "password is wrong"

def intToBytes (n : ℕ) : Bytes := (LittleEndian.put 8 n).reverse

def syncAddrMap (addrs : AddrMap) (key : ℕ) (addr : Address) : AddrMap :=
  if key ∈ addrs.map Prod.fst then addrs.map fun one => if one.1 = key then (key, one.2 ++ [addr]) else one
  else addrs ++ [(key, [addr])]

/-- `strings.Contains` -/
def contains (text part : String) : Bool := part.toList <:+: text.toList

section Derivation

variable (keys : Keys)

/-- The private key that is left behind, and the chain before the first address; without the seed there is no key. -/
def firstGenerateSeed (data password : Bytes) (chain : KeyChain) : Option Bytes × KeyChain :=
  match keys.decrypt data password with
  | none => (none, { chain with prePubKey := [] })
  | some seedData =>
      let pair := keys.newKeyPair seedData
      let rand := keys.sha512 data
      (pair.map Prod.fst, { prePubKey := (pair.map Prod.snd).getD [], linkcode := rand.take (rand.length / 2) })

def generateSeed (index : ℕ) (chain : KeyChain) : Bytes :=
  keys.sha512 (intToBytes index ++ (chain.linkcode ++ chain.prePubKey))

end Derivation

namespace SeedWallet

/-- What the other packages see of the wallet. -/
def view (this : SeedWallet) (expAddressFile : List ExpAddress) : Wallet where
  addrList := ((this.addrList.find? fun one => one.1 = this.seedsIndex).map Prod.snd).getD []
  addressFile := this.addressFile
  expAddressFile := expAddressFile
  coinbase := (this.seeds[this.seedsIndex]?.map Seed.coinbase).filter fun coinbase => coinbase.pubkey ≠ []

/-- The addresses in memory of the current seed. -/
def getAllAddress (this : SeedWallet) : List Address :=
  ((this.addrList.find? fun one => one.1 = this.seedsIndex).map Prod.snd).getD []

/-- Write both files. -/
def save (this : SeedWallet) (range : Range) : SeedWallet :=
  { this with seedFile := this.seeds, addressFile := (range.visit this.addrList).flatMap Prod.snd }

/-- Every address of the file with the index becomes the coinbase, whatever seed it belongs to; the last one stays. -/
def setCoinbase (this : SeedWallet) (index : Int64) (range : Range) : SeedWallet :=
  this.addressFile.foldl (fun this v =>
    if v.index = index then
      ({ this with
        seeds := this.seeds.modify this.seedsIndex fun row => { row with coinbase := v } } : SeedWallet).save range
    else this) this

def setSeed (this : SeedWallet) (seed : Seed) : SeedWallet :=
  { this with seeds := this.seeds ++ [{ seed with index := this.seeds.length }] }

/-- Change to a seed; the results here and below are nothing after a panic, or an error with its text. -/
def setSeedIndex (this : SeedWallet) (index : ℕ) (range : Range) : SeedWallet × Option (Except String Unit) :=
  if this.seeds = [] ∨ this.seeds.length < this.seedsIndex then (this, some (.error noSeed))
  else
    let this := { this with seedsIndex := index }
    match this.seeds[index]? with
    | none => (this, none)
    | some seed =>
        let this := if seed.coinbase.pubkey = [] then this.setCoinbase 0 range else this
        let own := this.addressFile.filter fun v => v.seedIndex = (index : ℤ)
        ({ this with
            addrList := own.foldl (fun addrs v => syncAddrMap addrs index v) []
            publicKey := (own.getLast?.map Address.pubkey).getD this.publicKey }, some (.ok ()))

/-- Read the seeds again; the number of them, or nothing when the file cannot be read. -/
def loadSeeds (this : SeedWallet) (readable : Bool) : SeedWallet × Option ℕ :=
  if readable then ({ this with seeds := this.seedFile }, some this.seedFile.length) else (this, none)

/-- The coinbase of the current seed. -/
def getCoinbase (this : SeedWallet) : Option (Except String Address) :=
  match this.seeds[this.seedsIndex]? with
  | none => none
  | some row => if row.coinbase.pubkey ≠ [] then some (.ok row.coinbase) else some (.error noCoinbase)

/-- The file's first address must be the first one that the password leads to. -/
def checkPass (this : SeedWallet) (addr : Option Address) : Option (Except String Unit) :=
  match this.addressFile with
  | [] => some (.ok ())
  | first :: _ =>
      match addr with
      | none => none
      | some addr => if first.hash = addr.hash then some (.ok ()) else some (.error passwordIsWrong)

section Operations

variable (keys : Keys) (rt : Runtime)

/-- Make the address with the index and enter it in memory; no address when it cannot be encrypted. -/
def getAddress (this : SeedWallet) (index : ℕ) (password : Bytes) (chain : KeyChain) :
    SeedWallet × Option Address × KeyChain :=
  let data := (this.seeds[this.seedsIndex]?.map Seed.data).getD []
  let (first, chain) := if chain.prePubKey = [] then firstGenerateSeed keys data password chain else (none, chain)
  let pair := keys.newKeyPair (generateSeed keys index chain)
  let pub := (pair.map Prod.snd).getD []
  let chain := { chain with prePubKey := pub }
  let this := { this with privateKey := (pair.map Prod.fst).or (first.or this.privateKey) }
  match keys.encrypt ((pair.map Prod.fst).getD []) password with
  | none => (this, none, chain)
  | some priKey =>
      let addr : Address :=
        { seedIndex := this.seedsIndex, index := Int64.ofNat index, priKey, pubkey := pub,
          hash := (buildAddrByPubkey rt pub).getD [] }
      ({ this with addrList := syncAddrMap this.addrList this.seedsIndex addr }, some addr, chain)

/-- Make the addresses with the given indices. -/
def getAddresses (password : Bytes) (indices : List ℕ) (made : SeedWallet × Option Address × KeyChain) :
    SeedWallet × Option Address × KeyChain :=
  indices.foldl (fun made i => made.1.getAddress keys rt i password made.2.2) made

/-- The lists in memory are forgotten and those of the seed made again, with one more address. -/
def getNewAddress (this : SeedWallet) (password : Bytes) (range : Range) :
    SeedWallet × Option (Except String (Option Address)) :=
  match this.seeds[this.seedsIndex]? with
  | none => (this, none)
  | some row =>
      let first := ({ this with addrList := [] } : SeedWallet).getAddress keys rt 0 password {}
      match first.1.checkPass first.2.1 with
      | none => (first.1, none)
      | some (.error text) => (first.1, some (.error text))
      | some (.ok _) =>
          let (this, address, _) := getAddresses keys rt password ((List.range row.addrIndex).map (· + 1)) first
          let this := { this with seeds := this.seeds.set this.seedsIndex { row with addrIndex := row.addrIndex + 1 } }
          let this := this.save range
          let this := if row.coinbase.pubkey = [] then this.setCoinbase 0 range else this
          (this, some (.ok address))

/-- Make the addresses of one seed and compare their texts; the password is checked at the first of them. -/
def searchAddresses (address : String) (password : Bytes) :
    List ℕ → SeedWallet → KeyChain → Option (Option Bytes) →
      SeedWallet × Option (Except String (Option (Option Bytes)))
  | [], this, _, prikey => (this, some (.ok prikey))
  | i :: rest, this, chain, prikey =>
      let (this, addr, chain) := this.getAddress keys rt i password chain
      match if i = 0 then this.checkPass addr else some (.ok ()) with
      | none => (this, none)
      | some (.error text) => (this, some (.error text))
      | some (.ok _) =>
          match addr with
          | none => (this, none)
          | some addr =>
              searchAddresses address password rest this chain
                (if contains (keys.b58String addr.hash) address then some this.privateKey else prikey)

/-- Go through the seeds, each with its number. -/
def searchSeeds (address : String) (password : Bytes) :
    List (Seed × ℕ) → SeedWallet → Option (Option Bytes) → SeedWallet × Option (Except String (Option Bytes))
  | [], this, some prikey => (this, some (.ok prikey))
  | [], this, none => (this, some (.error noSuchAddress))
  | (v, k) :: rest, this, prikey =>
      let this := { this with seedsIndex := k }
      match searchAddresses keys rt address password (List.range v.addrIndex) this {} prikey with
      | (this, none) => (this, none)
      | (this, some (.error text)) => (this, some (.error text))
      | (this, some (.ok prikey)) => searchSeeds address password rest this prikey

def getPriKey (this : SeedWallet) (address : String) (password : Bytes) :
    SeedWallet × Option (Except String (Option Bytes)) :=
  searchSeeds keys rt address password this.seeds.zipIdx this none

end Operations

end SeedWallet

/-! ## Sequences of operations -/

inductive Operation where
  | setSeed (seed : Seed)
  | setSeedIndex (index : ℕ)
  | getNewAddress
  | getPriKey (address : String)
deriving DecidableEq, Repr

/-- A wallet in use: the addresses that `GetNewAddress` has returned, and whether the last operation has reported a
wrong password. -/
structure Usage where
  wallet : SeedWallet := {}
  returned : List Address := []
  refused : Bool := false
deriving DecidableEq, Repr

namespace Usage

/-- The result is the error of a wrong password. -/
def isRefused {α : Type} : Option (Except String α) → Bool
  | some (.error text) => text = passwordIsWrong
  | _ => false

/-- The address that was returned, if one was. -/
def addressOf : Option (Except String (Option Address)) → List Address
  | some (.ok address) => address.toList
  | _ => []

/-- One operation with the password, and the order in which it ranges over the lists in memory. -/
def step (keys : Keys) (rt : Runtime) (password : Bytes) (this : Usage) (call : Operation × Range) : Usage :=
  match call.1 with
  | .setSeed seed => { this with wallet := this.wallet.setSeed seed, refused := false }
  | .setSeedIndex index =>
      let done := this.wallet.setSeedIndex index call.2
      { this with wallet := done.1, refused := isRefused done.2 }
  | .getNewAddress =>
      let done := this.wallet.getNewAddress keys rt password call.2
      { wallet := done.1, returned := this.returned ++ addressOf done.2, refused := isRefused done.2 }
  | .getPriKey address =>
      let done := this.wallet.getPriKey keys rt address password
      { this with wallet := done.1, refused := isRefused done.2 }

end Usage

end PolarCloud.Keystore
