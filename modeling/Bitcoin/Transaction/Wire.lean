import Bitcoin.Digest
import Bitcoin.Script.Wire
import Bitcoin.Transaction.Basic

/-!
# The byte form of a transaction

Version, counted inputs, counted outputs, lock time; numbers have the low byte first, and the id
of a spent transaction has its bytes in wire order. The id of a transaction is the digest of its
byte form, in display order.

An explorer serves the bytes of a transaction, which may carry witness data: then a zero marker
and a flag stand where the number of inputs would be, and the witnesses before the lock time.
Marker, flag and witnesses are not part of what the id is a digest of, so they are dropped.
Answers are kept in files that are named for the id.
-/

namespace Bitcoin

/-- The byte form of an outpoint. -/
def Outpoint.bytes (p : Outpoint) : Bytes := p.txid.reverse.toBytes ++ leFixed 4 p.index.toNat

/-- The byte form of an input with some script in the place of its own. -/
def TxIn.bytesWith (input : TxIn) (s : Script) : Except Error Bytes := do
  return input.spends.bytes ++ (← s.bytes) ++ leFixed 4 input.sequence.toNat

/-- The byte form of an input. -/
def TxIn.bytes (input : TxIn) : Except Error Bytes := input.bytesWith input.scriptSig

/-- The byte form of an output. -/
def TxOut.bytes (output : TxOut) : Except Error Bytes := do
  return leFixed 8 output.amount.toNat ++ (← output.scriptPubKey.bytes)

/-- Reads an outpoint. -/
def Outpoint.read : Reader Outpoint := do
  let txid ← Reader.fixed 32
  let index ← Reader.word32
  return ⟨txid.reverse, index⟩

/-- Reads an input. -/
def TxIn.read : Reader TxIn := do
  let spends ← Outpoint.read
  let scriptSig ← Script.read
  let sequence ← Reader.word32
  return ⟨spends, scriptSig, sequence⟩

/-- Reads an output. -/
def TxOut.read : Reader TxOut := do
  let amount ← Reader.word64
  let scriptPubKey ← Script.read
  return ⟨amount, scriptPubKey⟩

namespace Tx

/-- The byte form of version and inputs, from the byte forms of the inputs. -/
def headBytes (tx : Tx) (inputs : List Bytes) : Bytes :=
  leFixed 4 tx.version.toNat ++ CompactSize.encode inputs.length ++ inputs.flatten

/-- The byte form of outputs and lock time. -/
def tailBytes (tx : Tx) : Except Error Bytes := do
  let outputs ← tx.outputs.mapM TxOut.bytes
  return CompactSize.encode outputs.length ++ outputs.flatten ++ leFixed 4 tx.lockTime.toNat

/-- The byte form of a transaction. -/
def bytes (tx : Tx) : Except Error Bytes := do
  let inputs ← tx.inputs.mapM TxIn.bytes
  return tx.headBytes inputs ++ (← tx.tailBytes)

/-- The id of a transaction. -/
def txid [Digests] (tx : Tx) : Except Error Txid := do
  return (Digests.hash256 (← tx.bytes)).reverse

/-- Reads a transaction of the given network. -/
def read (net : Network) : Reader Tx := do
  let version ← Reader.word32
  let inputs ← Reader.replicate TxIn.read (← CompactSize.read)
  let outputs ← Reader.replicate TxOut.read (← CompactSize.read)
  let lockTime ← Reader.word32
  return ⟨version, inputs, outputs, lockTime, net⟩

end Tx

/-! ## Answers of an explorer -/

namespace Tx

/-- The transaction in an explorer's answer. Without witnesses nothing may follow it. -/
def ofExplorer (net : Network) (raw : Bytes) : Except Error Tx :=
  if 5 < raw.length ∧ raw[4]? = some 0 then do
    let (tx, _) ← read net (raw.take 4 ++ raw.drop 6)
    return { tx with lockTime := UInt32.ofNat (leValue (raw.drop (raw.length - 4))) }
  else do
    let (tx, rest) ← read net raw
    if rest ≠ [] then throw (.malformed (.trailingBytes rest.length))
    return tx

/-- The transaction of an id, from the file that is named for it. -/
def ofFile [Digests] (id : Txid) (net : Network) (file : Bytes) : Except Error Tx := do
  let tx ← ofExplorer net file
  let actual ← tx.txid
  if actual ≠ id then throw (.wrongTransaction id actual)
  return tx

end Tx

/-- Where transactions are looked up: an address for each network, the directory of kept answers,
    and how long to wait. -/
structure ExplorerConfig where
  mainUrl : String := "https://blockstream.info"
  testUrl : String := "https://blockstream.info/testnet"
  directory : Option String := some "txdb"
  timeoutSeconds : Nat := 30

/-- The choice that is made when nothing else is said. -/
def ExplorerConfig.default : ExplorerConfig := {}

/-! ## Text

Id, version, the outpoints, amounts and locking scripts on lines of their own, lock time. A
transaction with a push that is too long has no id. -/

/-- The id and the place. -/
def Outpoint.text (p : Outpoint) : String := Hex.encode p.txid.toBytes ++ s!":{p.index.toNat}"

/-- The amount and the locking script. -/
def TxOut.text (output : TxOut) : String :=
  s!"{output.amount.toNat}:" ++ output.scriptPubKey.text

namespace Tx

/-- An indented line for each entry. -/
def entryLines (entries : List String) : String :=
  String.join (entries.map fun entry => "  " ++ entry ++ "\n")

/-- The text of a transaction. -/
def text [Digests] (tx : Tx) : String :=
  let id := match tx.txid with
    | .ok id => Hex.encode id.toBytes
    | .error _ => "<unserializable>"
  "tx: " ++ id ++ "\n" ++
    s!"version: {tx.version.toNat}\n" ++
    "tx_ins:\n" ++ entryLines (tx.inputs.map (·.spends.text)) ++
    "tx_outs:\n" ++ entryLines (tx.outputs.map TxOut.text) ++
    s!"locktime: {tx.lockTime.toNat}"

end Tx

end Bitcoin
