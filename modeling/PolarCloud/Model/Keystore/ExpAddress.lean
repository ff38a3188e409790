import PolarCloud.Base.Entries
import PolarCloud.Model.Keystore.Seeds

/-! # Extended addresses

A main address of the address file has a list of extended addresses in memory, and one file holds all of them. The map
in memory takes keys of any type. A list is entered under the Base58 text of its main address; the bytes of that
address stand for the text again. `GetNewExpAddress` looks it up under the pointer it was called with.
-/

namespace PolarCloud.Keystore

inductive ExpKey where
  | text (hash : Bytes)
  | pointer (place : ℕ)
deriving DecidableEq, Repr

/-- The extended addresses in memory. -/
abbrev ExpAddrMap := List (ExpKey × List ExpAddress)

/-- The order in which one call ranges over them. -/
structure ExpRange where
  visit : ExpAddrMap → ExpAddrMap
  perm : ∀ addrs, (visit addrs).Perm addrs

/-- A pointer to an address, with the address it points to. -/
structure AddressPointer where
  place : ℕ
  address : Address
deriving DecidableEq, Repr

/-- The wallet with its extended addresses, the address file and the file of extended addresses. -/
structure ExpWallet where
  addressFile : List Address
  expAddrList : ExpAddrMap := []
  expAddressFile : List ExpAddress := []
deriving DecidableEq, Repr

def buildAddrinfo (rt : Runtime) (pubkey : Bytes) (code : UInt64) : Option Bytes :=
  Utils.encode (rt.hash160 pubkey) code

def syncExpAddrMap (addrs : ExpAddrMap) (key : Address) (addr : ExpAddress) : ExpAddrMap :=
  Entries.change (.text key.hash) (· ++ [addr]) [addr] addrs

namespace ExpWallet

/-- The last address of the file with the same hash. -/
def getAddressInfo (this : ExpWallet) (address : Address) : Option Address :=
  (this.addressFile.filter fun v => v.hash = address.hash).getLast?

def saveExpAddr (this : ExpWallet) (range : ExpRange) : ExpWallet :=
  { this with expAddressFile := (range.visit this.expAddrList).flatMap Prod.snd }

/-- The addresses of the file are added to those in memory. -/
def initExpAddress (this : ExpWallet) : ExpWallet :=
  this.expAddressFile.foldl (fun this v =>
    { this with expAddrList := syncExpAddrMap this.expAddrList v.preAddress v }) this

/-- The extended address with the index, as it is entered in memory. -/
def getExpAddress (this : ExpWallet) (rt : Runtime) (preaddress : Address) (pubkey : Bytes) (index : ℕ) :
    ExpWallet × ExpAddress :=
  let pubKeyHash := rt.hash160 (intToBytes index ++ pubkey)
  let address := (buildAddrinfo rt pubKeyHash expandversion).getD []
  let addr : ExpAddress := { preAddress := preaddress, index := Int64.ofNat index, pubkey, address }
  ({ this with expAddrList := syncExpAddrMap this.expAddrList preaddress addr }, addr)

/-- The index is the length of the list that is found under the pointer. Memory is written to the file in any case. -/
def getNewExpAddress (this : ExpWallet) (rt : Runtime) (preaddress : AddressPointer) (range : ExpRange) :
    ExpWallet × Option ExpAddress :=
  match this.getAddressInfo preaddress.address with
  | none => (this.saveExpAddr range, none)
  | some addr =>
      let expaddr := (this.expAddrList.find? fun one => one.1 = .pointer preaddress.place).map Prod.snd
      let index := (expaddr.map List.length).getD 0
      let done := this.getExpAddress rt preaddress.address addr.pubkey index
      (done.1.saveExpAddr range, some done.2)

end ExpWallet

/-! ## Runs -/

/-- A new process starts with nothing in memory and reads the file. -/
inductive ExpEvent where
  | getNewExpAddress (preaddress : AddressPointer) (range : ExpRange)
  | initExpAddress
  | restart

/-- A wallet with the extended addresses that it has made so far. -/
structure ExpUsage where
  wallet : ExpWallet
  made : List ExpAddress := []
deriving DecidableEq, Repr

def ExpUsage.step (rt : Runtime) (this : ExpUsage) : ExpEvent → ExpUsage
  | .getNewExpAddress preaddress range =>
      let done := this.wallet.getNewExpAddress rt preaddress range
      { wallet := done.1, made := this.made ++ done.2.toList }
  | .initExpAddress => { this with wallet := this.wallet.initExpAddress }
  | .restart => { this with wallet := ({ this.wallet with expAddrList := [] } : ExpWallet).initExpAddress }

end PolarCloud.Keystore
