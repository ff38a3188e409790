import PolarCloud.Model.Utils

/-! # The wallet's addresses

Addresses are compared through their Base58 strings; that encoding is injective, so the byte
strings themselves stand for the keys. The list kept in memory and the list kept in the address
file are separate, as the program reads one to pay and the other to recognise its own outputs.
-/

namespace PolarCloud.Keystore

/-- Version bytes of main and of extended addresses. -/
def version : UInt64 := 0x00
def expandversion : UInt64 := 0x15

structure Address where
  seedIndex : Int
  index : Int64
  priKey : Bytes
  pubkey : Bytes
  hash : Bytes
deriving DecidableEq, Repr

structure ExpAddress where
  preAddress : Address
  index : Int64
  pubkey : Bytes
  address : Bytes
deriving DecidableEq, Repr

/-- What the wallet of the running process holds. -/
structure Wallet where
  /-- `GetAddr`: the address list in memory -/
  addrList : List Address
  /-- `getAddressList`: the address file -/
  addressFile : List Address
  /-- `GetAllExpAddress`: the file of extended addresses -/
  expAddressFile : List ExpAddress
  /-- `GetCoinbase` -/
  coinbase : Option Address

structure Validate where
  isVerify : Bool := false
  isMine : Bool := false
  isType : ℕ := 0
  version : ℕ := 0
deriving DecidableEq, Repr

/-- The version part of a validation. -/
private def verify (code : ℕ) : Validate :=
  if code = expandversion.toNat then { isVerify := true, isType := 2, version := code }
  else if code = version.toNat then { isVerify := true, isType := 1, version := code }
  else {}

/-- Validate the address with the given bytes; an unreadable one is neither valid nor ours. -/
def Wallet.validateByAddress (wallet : Wallet) (address : Bytes) : Validate :=
  match Utils.decode ((Utils.cast address).getD []) with
  | none => {}
  | some dhash =>
      let validate := verify dhash.code
      if !validate.isVerify then validate
      else
        let extended := validate.isType = 2 && wallet.expAddressFile.any (·.address = address)
        { validate with isMine := extended || wallet.addressFile.any (·.hash = address) }

/-- The wallet counts outputs to this address. -/
def Wallet.owns (wallet : Wallet) (address : Bytes) : Bool :=
  let validate := wallet.validateByAddress address
  validate.isVerify && validate.isMine

/-- The main address of a public key. -/
def buildAddrByPubkey (rt : Runtime) (pub : Bytes) : Option Bytes :=
  Utils.encode (rt.hash160 pub) version

theorem buildAddrByPubkey_eq (rt : Runtime) (pub : Bytes) :
    buildAddrByPubkey rt pub = some (Utils.putUvarint version ++
      Utils.putUvarint (UInt64.ofNat (rt.hash160 pub).length) ++ rt.hash160 pub) := rfl

/-- The error text of a wallet without a coinbase. -/
def noCoinbase : String := "no Coinbase address"

def Wallet.getCoinbase (wallet : Wallet) : Except String Address :=
  match wallet.coinbase with
  | some address => .ok address
  | none => .error noCoinbase

end PolarCloud.Keystore
