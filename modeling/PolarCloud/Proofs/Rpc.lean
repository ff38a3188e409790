import PolarCloud.Model.Rpc
import PolarCloud.Proofs.Mining.DoubleSpend

/-! # Which payment requests do what they say

Every other request ends in a panic, or in an answer without an error: a payment that failed is answered with null, one
to an address that cannot be read goes to the empty address, and an amount that binary64 does not keep is another
amount.
-/

namespace PolarCloud.Rpc

open Keystore Mining

variable {env : Env} {state : State} {request : RpcJson}

/-! ## The payment -/

def State.view (state : State) : Keystore.Wallet := state.wallet.view state.expAddressFile

/-- There is a coinbase, enough is collected, and the inputs can be signed. -/
def Fundable (env : Env) (state : State) (address : Bytes) (amount : UInt64) : Prop :=
  ∃ key, state.view.coinbase = some key ∧
    let collected := collectPay env.rt state.view state.node env.call key (amount + Config.miningGas)
    amount + Config.miningGas ≤ collected.total ∧
      ∃ vin, signVouts env.call.sign state.view.addrList
        (voutsText (payVouts key address amount Config.miningGas collected.total)) collected.attempts
        collected.vins = .ok vin

/-- A payment is created exactly when it can be funded. -/
theorem createTxPay_ok_iff {address : Bytes} {amount : UInt64} :
    (∃ tx, createTxPay env.rt state.view state.node env.call address amount Config.miningGas = .ok tx) ↔
      Fundable env state address amount := by
  constructor
  · rintro ⟨tx, made⟩
    unfold createTxPay Wallet.getCoinbase at made
    cases mines : state.view.coinbase with
    | none => simp [mines] at made
    | some key =>
      simp only [mines] at made
      split at made
      · cases made
      · next enough =>
        split at made
        · cases made
        · next vin signed => exact ⟨key, mines, UInt64.not_lt.mp enough, vin, signed⟩
  · rintro ⟨key, mines, enough, vin, signed⟩
    simp only [createTxPay, Wallet.getCoinbase, mines, UInt64.not_lt.mpr enough, if_false, signed]
    exact ⟨_, rfl⟩

theorem getCoinbase_of_view {key : Address} (mines : state.view.coinbase = some key) :
    state.wallet.getCoinbase = some (.ok key) := by
  obtain ⟨found, present⟩ := Option.filter_eq_some_iff.mp mines
  obtain ⟨row, current, rfl⟩ := Option.map_eq_some_iff.mp found
  rw [SeedWallet.getCoinbase, current]
  exact if_pos (of_decide_eq_true present)

/-- The payment is the one without the multicast. -/
theorem payTo_result {seed : Except String Address} (current : state.wallet.getCoinbase = some seed) (address : Bytes)
    (amount : UInt64) : (payTo env state address amount).result.map
      (fun result => result.map fun tx => ((payTo env state address amount).node, tx)) =
        some (Mining.sendToAddress env.rt state.view state.node env.call address amount) := by
  rw [payTo, current, Mining.sendToAddress, State.view]
  dsimp only [bind, Except.bind]
  cases createTxPay env.rt (state.wallet.view state.expAddressFile) state.node env.call address amount
    Config.miningGas with
  | error e => rfl
  | ok txpay =>
    dsimp only
    cases submit env.rt state.node txpay with
    | error e => rfl
    | ok node => rfl

/-- A payment that succeeds is multicast and made pending, and it has the outputs that were asked for. -/
structure Sent (env : Env) (state : State) (address : Bytes) (amount : UInt64) (tx : TxItr)
    (outcome : Outcome (Except PayError TxItr)) : Prop where
  result : outcome.result = some (.ok tx)
  multicast : outcome.multicast = [tx.json]
  pending : outcome.node = { state.node with unpacked := state.node.unpacked.store tx.getHash tx }
  outputs : ∃ key rest, state.view.coinbase = some key ∧ tx.getVout = { value := amount, address? := some address } :: rest ∧
    ∀ vout ∈ rest, vout.address = key.hash

theorem sent_of_fundable {address : Bytes} {amount : UInt64} (fundable : Fundable env state address amount) :
    ∃ tx, Sent env state address amount tx (payTo env state address amount) := by
  obtain ⟨key, mines, -⟩ := id fundable
  obtain ⟨tx, made⟩ := createTxPay_ok_iff.mpr fundable
  obtain ⟨⟨typed, -⟩, coinbase, total, own, -, -, outputs, -⟩ := createTxPay_spends made
  have paid : payTo env state address amount =
      { node := { state.node with unpacked := state.node.unpacked.store (tx.id env.rt) (tx.buildHash env.rt) },
        multicast := [(tx.buildHash env.rt).json], result := some (.ok (tx.buildHash env.rt)) } := by
    rw [State.view] at made
    rw [payTo, getCoinbase_of_view mines]
    dsimp only
    rw [made]
    dsimp only
    rw [submit_eq typed]
  refine ⟨tx.buildHash env.rt, ?_⟩
  rw [paid]
  refine ⟨rfl, rfl, ?_, coinbase, (payVouts coinbase address amount Config.miningGas total).tail, own, ?_, ?_⟩
  · rw [TxItr.getHash_buildHash]
  · rw [TxItr.getVout_buildHash, outputs]
    rfl
  · intro vout member
    rw [payVouts, List.tail_cons] at member
    split at member
    · rw [List.mem_singleton.mp member]
      rfl
    · cases member

theorem fundable_of_ok {address : Bytes} {amount : UInt64} {tx : TxItr}
    (paid : (payTo env state address amount).result = some (.ok tx)) : Fundable env state address amount := by
  rw [payTo] at paid
  split at paid
  · cases paid
  · dsimp only at paid
    split at paid
    · cases paid
    · next made => exact createTxPay_ok_iff.mp ⟨_, made⟩

/-! ## The request -/

/-- What makes a request fail, by what its parameters are and by whether the payment can be made. -/
inductive Failing (env : Env) (state : State) (request : RpcJson) : Prop
  | unreadable (text : String) (given : request.get "address" = some (.string text))
      (invalid : fromB58String env text = none)
  | address (value : Param) (given : request.get "address" = some value) (wrong : ∀ text, value ≠ .string text)
  | amount (value : Param) (given : request.get "amount" = some value)
      (wrong : ∀ n : ℕ, n < 2 ^ 64 → value ≠ .number n)
  | comment (value : Param) (given : request.get "comment" = some value) (wrong : ∀ text, value ≠ .string text)
  | payment (text comment : String) (literal value : ℚ) (address : request.get "address" = some (.string text))
      (amount : request.get "amount" = some (.number literal)) (read : Float64.ofRat literal = some value)
      (commented : request.get "comment" = some (.string comment))
      (fails : ∀ tx, (payTo env state ((fromB58String env text).getD [])
        (Float64.toUInt64 env.outside value)).result ≠ some (.ok tx))

/-- The amount of the request goes to its address, and nothing else to anyone but the wallet. -/
def Paid (env : Env) (state : State) (request : RpcJson) (outcome : Outcome Answer) : Prop :=
  ∃ text dst tx key value rest, ∃ n : ℕ, request.get "address" = some (.string text) ∧
    fromB58String env text = some dst ∧ request.get "amount" = some (.number n) ∧
    outcome.result = some (tojson (some tx)) ∧ outcome.multicast = [tx.json] ∧
    outcome.node = { state.node with unpacked := state.node.unpacked.store tx.getHash tx } ∧
    state.view.coinbase = some key ∧ tx.getVout = { value, address? := some dst } :: rest ∧ value.toNat = n ∧
    ∀ vout ∈ rest, vout.address = key.hash

/-- A request that fails is answered with an error and leaves nothing behind, and one that succeeds pays what it asks
for. -/
structure Sound (env : Env) (state : State) (request : RpcJson) (outcome : Outcome Answer) : Prop where
  refuses : Failing env state request → (∃ res text, outcome.result = some { res, err := some text }) ∧
    outcome.multicast = [] ∧ outcome.node = state.node
  pays : ∀ answer, outcome.result = some answer → answer.err = none → Paid env state request outcome

/-- A parameter is missing, and those that are asked for before it have the right types. -/
def Missing (request : RpcJson) : Prop :=
  request.get "address" = none ∨ (∃ text, request.get "address" = some (.string text)) ∧
    (request.get "amount" = none ∨ request.get "comment" = none ∧
      ∃ literal value, request.get "amount" = some (.number literal) ∧ Float64.ofRat literal = some value)

/-- All parameters have the right types, the address can be read, the amount is a natural number that its reading keeps,
and the payment can be funded. -/
def Payable (env : Env) (state : State) (request : RpcJson) : Prop :=
  ∃ text comment dst, ∃ n : ℕ, request.get "address" = some (.string text) ∧ fromB58String env text = some dst ∧
    request.get "amount" = some (.number n) ∧
    (Float64.toUInt64 env.outside (Float64.nearest n)).toNat = n ∧
    request.get "comment" = some (.string comment) ∧ Fundable env state dst (UInt64.ofNat n)

theorem get_parseJson (request : RpcJson) (key : String) :
    (parseJson request).get key = (request.get key).map Param.read := rfl

theorem read_number {literal value : ℚ} (read : Float64.ofRat literal = some value) :
    Param.read (.number literal) = .number value := by
  rw [Param.read, read]
  rfl

/-- With parameters of the right types the answer is that of the payment. -/
theorem sendToAddress_typed {text comment : String} {literal value : ℚ}
    (address : request.get "address" = some (.string text)) (amount : request.get "amount" = some (.number literal))
    (read : Float64.ofRat literal = some value) (commented : request.get "comment" = some (.string comment)) :
    let paid := payTo env state ((fromB58String env text).getD []) (Float64.toUInt64 env.outside value)
    sendToAddress env state (parseJson request) =
      { node := paid.node, multicast := paid.multicast,
        result := paid.result.map fun txpay => tojson txpay.toOption } := by
  rw [sendToAddress, get_parseJson, get_parseJson, get_parseJson, address, amount, commented]
  simp only [Option.map_some, read_number read]
  rfl

/-- A missing parameter is an error. -/
theorem sendToAddress_missing (missing : Missing request) : ∃ key, sendToAddress env state (parseJson request) =
    { node := state.node, result := some (errcode noField key) } := by
  rw [sendToAddress, get_parseJson, get_parseJson, get_parseJson]
  rcases missing with address | ⟨⟨text, address⟩, amount | ⟨comment, literal, value, amount, read⟩⟩
  · rw [address]
    exact ⟨_, rfl⟩
  · rw [address, amount]
    exact ⟨_, rfl⟩
  · rw [address, amount, comment, Option.map_some, Option.map_some, read_number read]
    exact ⟨_, rfl⟩

/-- A number that is a natural number of 64 bits can be read. -/
theorem amount_wrong {literal : ℚ} (unread : Float64.ofRat literal = none) (n : ℕ) (small : n < 2 ^ 64) :
    Param.number literal ≠ .number n := by
  rintro ⟨⟩
  rw [Float64.ofRat_natCast (small.trans (by norm_num))] at unread
  cases unread

/-- Without a panic a parameter is missing, or all have the right types. -/
theorem sendToAddress_cases (env : Env) (state : State) (request : RpcJson) :
    ((sendToAddress env state (parseJson request)).result = none ∧ Failing env state request) ∨ Missing request ∨
    ∃ text comment literal value, request.get "address" = some (.string text) ∧
      request.get "amount" = some (.number literal) ∧ Float64.ofRat literal = some value ∧
      request.get "comment" = some (.string comment) := by
  rw [sendToAddress, get_parseJson, get_parseJson, get_parseJson]
  cases address : request.get "address" with
  | none => exact .inr (.inl (.inl address))
  | some given =>
    cases given with
    | string text =>
      cases amount : request.get "amount" with
      | none => exact .inr (.inl (.inr ⟨⟨text, address⟩, .inl amount⟩))
      | some given =>
        cases given with
        | number literal =>
          cases read : Float64.ofRat literal with
          | none =>
            refine .inl ⟨?_, .amount _ amount (amount_wrong read)⟩
            simp [Param.read, read]
          | some value =>
            cases comment : request.get "comment" with
            | none => exact .inr (.inl (.inr ⟨⟨text, address⟩, .inr ⟨comment, literal, value, amount, read⟩⟩))
            | some given =>
              cases given with
              | string words => exact .inr (.inr ⟨text, words, literal, value, rfl, rfl, read, rfl⟩)
              | number other =>
                refine .inl ⟨?_, .comment _ comment fun _ => nofun⟩
                cases again : Float64.ofRat other <;> simp [Param.read, read, again]
              | _ =>
                refine .inl ⟨?_, .comment _ comment fun _ => nofun⟩
                simp [Param.read, read]
        | _ => exact .inl ⟨rfl, .amount _ amount fun _ _ => nofun⟩
    | number other =>
      refine .inl ⟨?_, .address _ address fun _ => nofun⟩
      cases again : Float64.ofRat other <;> simp [Param.read, again]
    | _ => exact .inl ⟨rfl, .address _ address fun _ => nofun⟩

/-- A sound request with parameters of the right types can be paid as it is. -/
theorem payable_of_sound {text comment : String} {literal value : ℚ}
    (address : request.get "address" = some (.string text)) (amount : request.get "amount" = some (.number literal))
    (read : Float64.ofRat literal = some value) (commented : request.get "comment" = some (.string comment))
    (sound : Sound env state request (sendToAddress env state (parseJson request))) : Payable env state request := by
  have done := @sendToAddress_typed env state request text comment literal value address amount read commented
  dsimp only at done
  have holds : ¬ Failing env state request := by
    intro failing
    obtain ⟨⟨_, _, answered⟩, -⟩ := sound.refuses failing
    rw [done] at answered
    obtain ⟨_, -, same⟩ := Option.map_eq_some_iff.mp answered
    cases same
  cases decoded : fromB58String env text with
  | none => exact absurd (.unreadable text address decoded) holds
  | some dst =>
    obtain ⟨n, small, rfl⟩ : ∃ n : ℕ, n < 2 ^ 64 ∧ literal = n := by
      by_contra none
      refine holds (.amount _ amount ?_)
      rintro n small ⟨⟩
      exact none ⟨n, small, rfl⟩
    rw [Float64.ofRat_natCast (small.trans (by norm_num))] at read
    cases read
    obtain ⟨tx, paid⟩ : ∃ tx, (payTo env state dst (Float64.toUInt64 env.outside (Float64.nearest n))).result =
        some (.ok tx) := by
      by_contra none
      refine holds (.payment text comment n _ address amount
        (Float64.ofRat_natCast (small.trans (by norm_num))) commented ?_)
      rw [decoded, Option.getD_some]
      exact fun tx paid => none ⟨tx, paid⟩
    have fundable := fundable_of_ok paid
    obtain ⟨tx', sent⟩ := sent_of_fundable fundable
    cases Except.ok.inj (Option.some.inj (paid.symm.trans sent.result))
    rw [decoded, Option.getD_some, sent.result] at done
    obtain ⟨_, _, tx'', _, _, _, n', -, -, asked, answered, -, -, -, outputs, kept, -⟩ :=
      sound.pays (tojson (some tx)) (by rw [done]; rfl) rfl
    have same : tx'' = tx := by
      rw [done] at answered
      cases answered
      rfl
    obtain ⟨_, _, -, own, -⟩ := sent.outputs
    have amounts : n' = n := by
      rw [amount, Option.some_inj, Param.number.injEq, Nat.cast_inj] at asked
      exact asked.symm
    rw [same, own, List.cons.injEq, Vout.mk.injEq] at outputs
    rw [← outputs.1.1, amounts] at kept
    refine ⟨text, comment, dst, n, address, decoded, amount, kept, commented, ?_⟩
    rw [← kept, UInt64.ofNat_toNat]
    exact fundable

/-- A payable request pays what it asks. -/
theorem sound_of_payable (payable : Payable env state request) :
    Sound env state request (sendToAddress env state (parseJson request)) := by
  obtain ⟨text, comment, dst, n, address, decoded, amount, kept, commented, fundable⟩ := payable
  have small : n < 2 ^ 64 := kept ▸ UInt64.toNat_lt _
  have read := @Float64.ofRat_natCast n (small.trans (by norm_num))
  have exact_ : UInt64.ofNat n = Float64.toUInt64 env.outside (Float64.nearest n) := by
    rw [← UInt64.toNat_inj, kept]
    exact UInt64.toNat_ofNat_of_lt' small
  have done := @sendToAddress_typed env state request text comment n _ address amount read commented
  dsimp only at done
  obtain ⟨tx, sent⟩ := sent_of_fundable fundable
  rw [decoded, Option.getD_some, ← exact_, sent.result] at done
  constructor
  · intro failing
    exfalso
    cases failing with
    | unreadable text' given invalid =>
      cases address.symm.trans given
      cases decoded.symm.trans invalid
    | address value given wrong =>
      cases address.symm.trans given
      exact wrong text rfl
    | amount value given wrong =>
      cases amount.symm.trans given
      exact wrong n small rfl
    | comment value given wrong =>
      cases commented.symm.trans given
      exact wrong comment rfl
    | payment text' comment' literal value given given' read' _ fails =>
      cases address.symm.trans given
      cases amount.symm.trans given'
      cases read.symm.trans read'
      rw [decoded, Option.getD_some, ← exact_] at fails
      exact fails tx sent.result
  · intro answer answered _
    obtain ⟨key, rest, mines, outputs, others⟩ := sent.outputs
    rw [done]
    exact ⟨text, dst, tx, key, UInt64.ofNat n, rest, n, address, decoded, amount, rfl, sent.multicast, sent.pending,
      mines, outputs, UInt64.toNat_ofNat_of_lt' small, others⟩

/-- A request does what it says exactly when a parameter is missing, or when it can be paid as it is. -/
theorem sendToAddress_sound_iff (env : Env) (state : State) (request : RpcJson) :
    Sound env state request (sendToAddress env state (parseJson request)) ↔
      Missing request ∨ Payable env state request := by
  constructor
  · intro sound
    rcases sendToAddress_cases env state request with ⟨panics, failing⟩ | missing | typed
    · obtain ⟨⟨_, _, answered⟩, -⟩ := sound.refuses failing
      cases panics.symm.trans answered
    · exact .inl missing
    · obtain ⟨text, comment, literal, value, address, amount, read, commented⟩ := typed
      exact .inr (payable_of_sound address amount read commented sound)
  · rintro (missing | payable)
    · obtain ⟨key, done⟩ := @sendToAddress_missing env state request missing
      rw [done]
      refine ⟨fun _ => ⟨⟨.code noField, key ++ ": " ++ "no field", rfl⟩, rfl, rfl⟩, ?_⟩
      rintro _ ⟨⟩ none
      cases none
    · exact sound_of_payable payable

/-- Nothing can be decoded, signed or found. -/
def emptyEnv : Env where
  rt := Sample.runtime
  b58Decode _ := none
  outside _ := 0
  call := { sign := fun _ _ _ _ => .error "", visits := fun _ => [] }

/-- A seed without an address. -/
def newSeed : State := { wallet := { seeds := [{ data := [] }] }, node := {} }

/-- A payment of 1. -/
def payOne (address : Param) : RpcJson where
  method := "sendtoaddress"
  params := ((SyncMap.empty.store "address" address).store "amount" (.number (1 : ℕ))).store "comment" (.string "")

/-- An address that cannot be read and a payment that fails are answered with null, and an address of another type is a
panic. -/
theorem failure_answered_null :
    (sendToAddress emptyEnv newSeed (parseJson (payOne (.string "0")))).result = some { res := .result none } ∧
    (sendToAddress emptyEnv newSeed (parseJson (payOne .null))).result = none ∧
    ¬ Sound emptyEnv newSeed (payOne (.string "0"))
      (sendToAddress emptyEnv newSeed (parseJson (payOne (.string "0")))) := by
  have read := @Float64.ofRat_natCast 1 (by norm_num)
  have done := @sendToAddress_typed emptyEnv newSeed (payOne (.string "0")) "0" "" _ _ rfl rfl read rfl
  have answered : (sendToAddress emptyEnv newSeed (parseJson (payOne (.string "0")))).result =
      some { res := .result none } := by
    rw [done]
    rfl
  refine ⟨answered, rfl, fun sound => ?_⟩
  obtain ⟨⟨_, _, refused⟩, -⟩ := sound.refuses (.unreadable "0" rfl rfl)
  cases answered.symm.trans refused

end PolarCloud.Rpc
