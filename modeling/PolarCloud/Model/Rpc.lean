import PolarCloud.Base.Binary64
import PolarCloud.Model.Keystore.Seeds
import PolarCloud.Model.Mining.Payment

/-! # The payment request

A request is read without a target type, so that its numbers become binary64; one out of range leaves a null behind, and
the error of the reading is printed. The handler takes a missing parameter for an error, and a parameter of another type
is a panic. It keeps the errors of the address and of the payment in `e` and asks `err`, which nothing has set.
-/

namespace PolarCloud.Rpc

open Keystore Mining

/-- A parameter: in a request a number is its literal, and once read it is a binary64. -/
inductive Param where
  | null
  | bool (value : Bool)
  | number (value : ℚ)
  | string (value : String)
  | array
  | object
deriving DecidableEq, Repr

structure RpcJson where
  method : String
  params : SyncMap String Param

namespace Param

def read : Param → Param
  | number literal => ((Float64.ofRat literal).map number).getD null
  | other => other

end Param

def RpcJson.get (rj : RpcJson) (key : String) : Option Param := rj.params.load key

def parseJson (request : RpcJson) : RpcJson :=
  { request with params := ⟨fun key => (request.params.load key).map Param.read⟩ }

/-! ## Answers -/

def noMethod : ℕ := 4001
def typeWrong : ℕ := 5001
def noField : ℕ := 5002
def normal : ℕ := 5003

def codes : List (ℕ × String) :=
  [(noMethod, "no method"), (typeWrong, "type wrong"), (noField, "no field"), (normal, "")]

inductive Body where
  | code (value : ℕ)
  | result (txpay : Option TxItr)
deriving DecidableEq, Repr

/-- What a handler returns; an error makes the answer an error. -/
structure Answer where
  res : Body
  err : Option String := none
deriving DecidableEq, Repr

def errcode (code : ℕ) (p : String) : Answer :=
  { res := .code code, err := (codes.lookup code).map fun c => p ++ ": " ++ c }

def tojson (txpay : Option TxItr) : Answer := { res := .result txpay }

/-! ## The payment -/

/-- What one request meets outside of the program's state. -/
structure Env where
  rt : Runtime
  /-- `b58.Decode` -/
  b58Decode : String → Option Bytes
  /-- what the machine makes of a number outside of the range of uint64 -/
  outside : ℚ → UInt64
  call : Call

/-- The wallet with its file of extended addresses, and the node. -/
structure State where
  wallet : SeedWallet
  expAddressFile : List ExpAddress := []
  node : Node

/-- The state of the node afterwards, what was multicast, and the result; none after a panic. -/
structure Outcome (α : Type) where
  node : Node
  multicast : List Value := []
  result : Option α

variable (env : Env) (state : State)

def fromB58String (text : String) : Option Bytes := do
  let b ← env.b58Decode text
  Utils.cast b

/-- `mining.SendToAddress`: the payment is multicast before it is read back and checked. Without a current seed the
coinbase is a panic. -/
def payTo (address : Bytes) (amount : UInt64) : Outcome (Except PayError TxItr) :=
  match state.wallet.getCoinbase with
  | none => { node := state.node, result := none }
  | some _ =>
      let wallet := state.wallet.view state.expAddressFile
      match createTxPay env.rt wallet state.node env.call address amount Config.miningGas with
      | .error e => { node := state.node, result := some (.error e) }
      | .ok txpay =>
          let bs := (txpay.buildHash env.rt).json
          match submit env.rt state.node txpay with
          | .error e => { node := state.node, multicast := [bs], result := some (.error e) }
          | .ok node => { node, multicast := [bs], result := some (.ok (txpay.buildHash env.rt)) }

/-- The handler `sendtoaddress`. -/
def sendToAddress (rj : RpcJson) : Outcome Answer :=
  let returns (answer : Answer) : Outcome Answer := { node := state.node, result := some answer }
  let panics : Outcome Answer := { node := state.node, result := none }
  match rj.get "address" with
  | none => returns (errcode noField "address")
  | some (.string addr) =>
      match rj.get "amount" with
      | none => returns (errcode noField "amount")
      | some (.number amountItr) =>
          let amount := Float64.toUInt64 env.outside amountItr
          match rj.get "comment" with
          | none => returns (errcode noField "comment")
          | some (.string _) =>
              -- an address that cannot be read is the empty one, and its error is in `e`
              let dst := (fromB58String env addr).getD []
              let paid := payTo env state dst amount
              -- without a payment the pointer is nil, and it is written as null
              { node := paid.node, multicast := paid.multicast,
                result := paid.result.map fun txpay => tojson txpay.toOption }
          | some _ => panics
      | some _ => panics
  | some _ => panics

end PolarCloud.Rpc
