import PolarCloud.Model.Mining.Chain

/-! # Payments, deposits and the pending transactions

A payment and a deposit collect unspent outputs of the wallet until the running 64-bit sum reaches
what is needed, sign each of them, and return the rest to the wallet. The transaction is read back
from its record and waits in `unpackedTransactions`, from where the next block packs it. Signatures
and the orders in which maps are visited come from outside.
-/

namespace PolarCloud.Mining

open Keystore

/-- `Address.Sign`: the number of the attempt in one call, the key, the text and the password. -/
abbrev Signer := ℕ → Address → Bytes → String → Except String Bytes

/-- What one call meets outside of the program's state. -/
structure Call where
  sign : Signer
  /-- the order in which `Range` visits the items of an address -/
  visits : Bytes → List (Outpoint × TxItem)

/-- The errors that reach the caller: a text, or whatever the decoder says. -/
inductive PayError where
  | text (value : String)
  | decoder
deriving DecidableEq, Repr

namespace PayError

def insufficient : PayError := text "余额不足"
def invalid : PayError := text "交易不合法，则不发送出去"
def noDeposit : PayError := text "交押金失败"

end PayError

/-- The inputs that are collected, their sum, and the attempts that were made. -/
structure Collected where
  vins : List Vin := []
  total : UInt64 := 0
  attempts : ℕ := 0
deriving DecidableEq, Repr

/-- Visit the items of an address until one cannot be spent or the sum is enough. -/
def visitItems (payVin : ℕ → TxItem → Option Vin) (need : UInt64) : List TxItem → Collected → Collected
  | [], collected => collected
  | item :: rest, collected =>
      match payVin collected.attempts item with
      | none => { collected with attempts := collected.attempts + 1 }
      | some vin =>
          let collected : Collected :=
            { vins := collected.vins ++ [vin], total := collected.total + item.value,
              attempts := collected.attempts + 1 }
          if need ≤ collected.total then collected else visitItems payVin need rest collected

/-- Sign the outputs once for every input, with the first key of the wallet that the input names. -/
def signVouts (sign : Signer) (keys : List Address) (bs : Bytes) : ℕ → List Vin → Except String (List Vin)
  | _, [] => .ok []
  | attempts, one :: rest =>
      match keys.find? fun key => key.pubkey = one.puk with
      | none => do
          let rest ← signVouts sign keys bs attempts rest
          .ok (one :: rest)
      | some key => do
          let voutSign ← sign attempts key bs Config.walletPassword
          let rest ← signVouts sign keys bs (attempts + 1) rest
          .ok ({ one with voutSign? := some voutSign } :: rest)

/-- The text of a list of outputs. -/
def voutsText (vouts : List Vout) : Bytes := (Json.arr (vouts.map Vout.toJson)).bytes

section Pay

variable (rt : Runtime) (wallet : Wallet) (node : Node) (call : Call)

/-- The input that spends an item: the signature covers the first output of the spent transaction
that goes to the address of the key. -/
def payVin (key : Address) (attempts : ℕ) (item : TxItem) : Option Vin := do
  let bs ← node.db.find item.txid
  let txItr ← parseTxBase rt bs
  let vout ← txItr.getVout.find? fun vout => vout.address = key.hash
  let sign ← (call.sign attempts key vout.checkJson.bytes Config.walletPassword).toOption
  some { txid? := some item.txid, vout := item.outIndex, puk? := some key.pubkey, sign? := some sign }

/-- The items that are visited for an address: none without a balance. -/
def visited (key : Address) : List TxItem :=
  match node.balanceM.findBalance key.hash with
  | none => []
  | some _ => (call.visits key.hash).map Prod.snd

/-- Collect from every address but the coinbase, then from the coinbase if that is not enough. The
inner loop alone ends when there is enough: every later address still gives up an item. -/
def collectPay (coinBaseKey : Address) (need : UInt64) : Collected :=
  let collected := wallet.addrList.foldl (fun collected one =>
    if one.hash = coinBaseKey.hash then collected
    else visitItems (payVin rt node call one) need (visited node call one) collected) {}
  if collected.total < need then
    visitItems (payVin rt node call coinBaseKey) need (visited node call coinBaseKey) collected
  else collected

/-- The outputs of a payment: the amount, and the rest if there is one. -/
def payVouts (coinBaseKey : Address) (address : Bytes) (amount gas total : UInt64) : List Vout :=
  { value := amount, address? := some address } ::
    if amount + gas < total then [{ value := total - amount - gas, address? := some coinBaseKey.hash }] else []

def createTxPay (address : Bytes) (amount gas : UInt64) : Except PayError TxItr :=
  match wallet.getCoinbase with
  | .error text => .error (.text text)
  | .ok coinBaseKey =>
      let collected := collectPay rt wallet node call coinBaseKey (amount + gas)
      if collected.total < amount + gas then .error .insufficient
      else
        let vout := payVouts coinBaseKey address amount gas collected.total
        match signVouts call.sign wallet.addrList (voutsText vout) collected.attempts collected.vins with
        | .error text => .error (.text text)
        | .ok vin =>
            let base : TxBase :=
              { type := Config.walletTxTypePay, vinTotal := UInt64.ofNat vin.length, vin? := some vin,
                voutTotal := UInt64.ofNat vout.length, vout? := some vout, gas }
            .ok ((TxItr.pay base).buildHash rt)

/-- The outputs of a deposit: the deposit itself and the rest, both to the key that pays. -/
def depositVouts (key : Address) (total : UInt64) : List Vout :=
  { value := Config.miningDeposit, address? := some key.hash } ::
    if Config.miningDeposit < total then [{ value := total - Config.miningDeposit, address? := some key.hash }]
    else []

/-- A deposit; the counts of its inputs and outputs are not those of its lists. -/
def createTxDepositIn (key : Address) : Option TxItr :=
  match node.balanceM.findBalance key.hash with
  | none => none
  | some _ =>
      let collected := visitItems (payVin rt node call key) Config.miningDeposit (visited node call key) {}
      if collected.total < Config.miningDeposit then none
      else
        let vout := depositVouts key collected.total
        match call.sign collected.attempts key (voutsText vout) Config.walletPassword with
        | .error _ => none
        | .ok voutSign =>
            let vin := collected.vins.map fun one => { one with voutSign? := some voutSign }
            let base : TxBase :=
              { type := Config.walletTxTypeDepositIn, vinTotal := 1, vin? := some vin, vout? := some vout }
            some ((TxItr.depositIn base).buildHash rt)

/-- Read a new transaction back from its record, check it and make it pending. -/
def submit (tx : TxItr) : Except PayError Node :=
  match parseTxBase rt (tx.buildHash rt).json with
  | none => .error .decoder
  | some txbase =>
      let txbase := txbase.buildHash rt
      if txbase.check then .ok { node with unpacked := node.unpacked.store txbase.getHash txbase }
      else .error .invalid

def sendToAddress (address : Bytes) (amount : UInt64) : Except PayError (Node × TxItr) := do
  let txpay ← createTxPay rt wallet node call address amount Config.miningGas
  let node ← submit rt node txpay
  .ok (node, txpay.buildHash rt)

def payDeposit : Except PayError Node :=
  match wallet.getCoinbase with
  | .error text => .error (.text text)
  | .ok key =>
      match createTxDepositIn rt node call key with
      | none => .error .noDeposit
      | some deposiIn => submit rt node deposiIn

/-- The content of a transaction broadcast: it becomes pending when it can be read and passes its
check. -/
def multicastTransactionRecv (content : Value) : Node :=
  match parseTxBase rt content with
  | none => node
  | some txbase =>
      let txbase := txbase.buildHash rt
      if !txbase.check then node else { node with unpacked := node.unpacked.store txbase.getHash txbase }

end Pay

/-! ## Packing -/

/-- The pending transactions in the order in which `Range` visits them: what every new block packs
after its rewards and returned deposits. -/
def packPending (order : List (Bytes × TxItr)) : List TxItr := order.map Prod.snd

/-- The transactions of a block that `BuildBlockForPOW` builds. -/
def blockForPOWTxs (rt : Runtime) (wallet : Wallet) (createTime : Int64) (order : List (Bytes × TxItr)) :
    Option (List TxItr) :=
  match wallet.coinbase with
  | none => none
  | some addr =>
      let base : TxBase :=
        { type := Config.walletTxTypeMining, voutTotal := 1,
          vout? := some [{ value := Config.miningReward, address? := some addr.hash }] }
      some ((TxItr.reward base createTime).buildHash rt :: packPending order)

end PolarCloud.Mining
