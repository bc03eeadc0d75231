import Bitcoin.Key.Private
import Bitcoin.Script.Machine
import Bitcoin.Transaction.Wire

/-!
# Spending outputs

The outputs that a transaction spends are in other transactions, which a resolver supplies. The
rules are stated for a resolver in any monad: a function of the id, or a lookup that keeps state
and may answer differently each time.

An input is valid when its own script followed by the script that locks the spent output
succeeds. A transaction is valid when it does not create value and every input is valid. A missing
transaction or output is an error; a script that fails is an answer.
-/

namespace Bitcoin

/-! ## What is spent -/

/-- Supplies the transaction of an id on a network, or fails. -/
abbrev Resolver (m : Type → Type) := Txid → Network → ExceptT Error m Tx

variable {m : Type → Type} [Monad m]

/-- A result that needs no lookup. -/
def Resolver.settle {α : Type} (result : Except Error α) : ExceptT Error m α :=
  ExceptT.mk (pure result)

/-- The output at an outpoint. -/
def Outpoint.output (resolve : Resolver m) (p : Outpoint) (net : Network) :
    ExceptT Error m TxOut := do
  let tx ← resolve p.txid net
  match tx.outputs[p.index.toNat]? with
  | some output => return output
  | none => throw (.malformed (.missingOutput p.txid p.index))

/-- The amount that an input spends. -/
def TxIn.amount (resolve : Resolver m) (input : TxIn) (net : Network) : ExceptT Error m UInt64 := do
  return (← input.spends.output resolve net).amount

/-- The script that locks what an input spends. -/
def TxIn.scriptPubKey (resolve : Resolver m) (input : TxIn) (net : Network) :
    ExceptT Error m Script := do
  return (← input.spends.output resolve net).scriptPubKey

/-- The sum of amounts, which does not wrap around. -/
def totalAmount (amounts : List UInt64) : Int :=
  amounts.foldl (fun total amount => total + amount.toNat) 0

/-- What the inputs spend less what the outputs receive; negative when value would be created. -/
def Tx.fee (resolve : Resolver m) (tx : Tx) : ExceptT Error m Int := do
  let spent ← tx.inputs.mapM fun input => input.amount resolve tx.network
  return totalAmount spent - totalAmount (tx.outputs.map TxOut.amount)

/-! ## What a signature signs

A signature of an input signs the whole transaction with every input script blanked, except that
the signed input carries the script it has to satisfy: the one that locks the spent output, or
the redeem script behind it. The digest of that byte form, with the kind of signature behind it,
is read as a number. -/

/-- The kind of signature that covers every input and every output. -/
def sigHashAll : Nat := 1

namespace Tx

/-- The bytes that a signature of the given input signs, with the script it has to satisfy. -/
def preimage (tx : Tx) (index : Nat) (code : Script) : Except Error Bytes := do
  let inputs ← tx.inputs.zipIdx.mapM fun (input, i) =>
    input.bytesWith (if i = index then code else [])
  return tx.headBytes inputs ++ (← tx.tailBytes) ++ leFixed 4 sigHashAll

/-- The number that a signature of the given input signs. -/
def sigHash [Digests] (resolve : Resolver m) (tx : Tx) (index : Nat) (redeem : Option Script) :
    ExceptT Error m Int := do
  match tx.inputs[index]? with
  | none => throw (.noSuchInput index)
  | some input =>
      let code ← match redeem with
        | some s => pure s
        | none => input.scriptPubKey resolve tx.network
      let bytes ← Resolver.settle (tx.preimage index code)
      return beValue (Digests.hash256 bytes).toBytes

end Tx

/-! ## Checking -/

/-- The script that the last push of an input is made of. -/
def TxIn.redeemScript? (input : TxIn) : Option Script :=
  match input.scriptSig.getLast? with
  | some (.data raw) => (Script.ofRaw raw).toOption
  | _ => none

namespace Tx

variable [Digests]

/-- What the scripts of an input see of the transaction. -/
def spendContext (tx : Tx) (input : TxIn) (z : Int) : SpendContext :=
  ⟨z, tx.lockTime, input.sequence, tx.version⟩

/-- Whether an input unlocks a script, when its signatures sign the given redeem script or, without
    one, the locking script. -/
def unlocks (resolve : Resolver m) (tx : Tx) (index : Nat) (input : TxIn) (lock : Script)
    (redeem : Option Script) : ExceptT Error m Bool := do
  let z ← tx.sigHash resolve index redeem
  return Script.evaluate (tx.spendContext input z) (input.scriptSig ++ lock)

/-- Whether an input is valid. An input that spends a script hash without a readable redeem script
    is not. -/
def verifyInput (resolve : Resolver m) (tx : Tx) (index : Nat) : ExceptT Error m Bool := do
  match tx.inputs[index]? with
  | none => throw (.noSuchInput index)
  | some input =>
      let lock ← input.scriptPubKey resolve tx.network
      match Script.scriptHash? lock, input.redeemScript? with
      | some _, none => return false
      | some _, some redeem => tx.unlocks resolve index input lock (some redeem)
      | none, _ => tx.unlocks resolve index input lock none

/-- Whether the transaction creates no value and all its inputs are valid. -/
def verify (resolve : Resolver m) (tx : Tx) : ExceptT Error m Bool := do
  if (← tx.fee resolve) < 0 then return false
  (List.range tx.inputs.length).allM (tx.verifyInput resolve)

end Tx

/-! ## Signing

Signing puts a signature and the short public key into an input and then checks the input. The
transaction stays as it was when no signature can be made. -/

/-- The script with which a key unlocks an input that spends a key hash, when the given number is
    signed for it. There is no result where the search for a nonce does not end. -/
def PrivateKey.unlockingScript [Digests] (key : PrivateKey) (z : Int) :
    Option (Except Error Script) :=
  (key.sign z).map fun signature => do
    let der ← (← signature).der
    let sec ← key.publicKey.sec true
    return Script.unlockKeyHash (der ++ leFixed 1 sigHashAll) sec

/-- Signs an input and says whether it is valid then, with the transaction as it is left. There is
    no result where the search for a nonce does not end. -/
def Tx.signInput [Digests] (resolve : Resolver m) (tx : Tx) (index : Nat) (key : PrivateKey) :
    m (Option (Except Error Bool × Tx)) := do
  match ← (tx.sigHash resolve index none).run with
  | .error e => return some (.error e, tx)
  | .ok z =>
      match key.unlockingScript z with
      | none => return none
      | some (.error e) => return some (.error e, tx)
      | some (.ok s) =>
          let signed := tx.setScriptSig index s
          return some (← (signed.verifyInput resolve index).run, signed)

end Bitcoin
