import Bitcoin.Bytes.Numeral
import Bitcoin.Network
import Bitcoin.Script.Command

/-!
# Transactions

A transaction spends outputs of earlier transactions and creates new outputs. An input names the
output that it spends and carries the script that unlocks it; an output carries an amount and the
script that locks it.
-/

namespace Bitcoin

/-- An output of an earlier transaction, by its id and its place. -/
@[ext]
structure Outpoint where
  txid : Txid
  index : UInt32
deriving DecidableEq

/-- What is spent, the script that unlocks it, and the sequence number of the input. -/
@[ext]
structure TxIn where
  spends : Outpoint
  scriptSig : Script
  sequence : UInt32
deriving DecidableEq

/-- An amount in the smallest unit and the script that locks it. -/
@[ext]
structure TxOut where
  amount : UInt64
  scriptPubKey : Script
deriving DecidableEq

/-- A transaction of one of the networks. -/
@[ext]
structure Tx where
  version : UInt32
  inputs : List TxIn
  outputs : List TxOut
  lockTime : UInt32
  network : Network
deriving DecidableEq

namespace Tx

/-- The same transaction with another script in one input. -/
def setScriptSig (tx : Tx) (index : Nat) (s : Script) : Tx :=
  { tx with inputs := tx.inputs.modify index fun input => { input with scriptSig := s } }

/-- Whether the transaction creates new coins: its one input spends nothing. -/
def isCoinbase (tx : Tx) : Bool :=
  match tx.inputs with
  | [input] => input.spends = ⟨FixedBytes.zero 32, 0xffffffff⟩
  | _ => false

/-- The height that a coinbase states: the first eight bytes of its first push. -/
def coinbaseHeight? (tx : Tx) : Option Nat :=
  if tx.isCoinbase then
    match tx.inputs with
    | { scriptSig := .data bs :: _, .. } :: _ => some (leValue (bs.take 8))
    | _ => none
  else none

end Tx

end Bitcoin
