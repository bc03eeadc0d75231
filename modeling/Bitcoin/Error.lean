import Bitcoin.Bytes.Hex

/-!
# What can go wrong, and how it is said

Every operation outside the script machine fails with an `Error`. A constructor names the cause;
the wording is in one place, `Error.message`. Causes that share a family of wordings have a type
of their own: `Malformed` for bytes and text that do not have the expected shape, `DerFault` for
signatures, `KeyFault` for public keys.
-/

namespace Bitcoin

/-- Why bytes or text do not have the shape they should have. -/
inductive Malformed
  | endOfData (wanted : Nat)
  | unknownNetwork (name : String)
  | addressSize (size : Nat)
  | emptyAddress
  | addressHashSize (address : String)
  | addressVersion (version : UInt8)
  | missingOutput (txid : Txid) (index : UInt32)
  | trailingBytes (count : Nat)
deriving DecidableEq

/-- Why bytes are not a DER signature, or a signature has no DER form. -/
inductive DerFault
  | missingMarker
  | invalidMarker
  | missingLength
  | invalidLength
  | missingIntegerMarker
  | invalidIntegerMarker
  | missingIntegerLength
  | integerOverrun
  | lengthMismatch
  | integerOutOfRange
deriving DecidableEq

/-- Why bytes are not a public key, or a point has no byte form. -/
inductive KeyFault
  | atInfinity
  | uncompressedSize
  | compressedSize
  | unknownMarker
  | empty
deriving DecidableEq

/-- Why an operation failed. -/
inductive Error
  | notInField (value modulus : Int)
  | fieldMismatch
  | divisionByZero
  | notOnCurve (x y : Int)
  | curveMismatch
  | badSignature (fault : DerFault)
  | badPublicKey (fault : KeyFault)
  | badPrivateKey
  | pushTooLong (size : Nat)
  | scriptOverrun (consumed length : Nat)
  | badBase58 (byte : UInt8)
  | badChecksum
  | malformed (reason : Malformed)
  | noSuchInput (index : Nat)
  | unknownTransaction (txid : Txid)
  | wrongTransaction (requested actual : Txid)
deriving DecidableEq

/-- A version byte as `0x` and two digits. -/
def Malformed.versionText (version : UInt8) : String := "0x" ++ Hex.encode [version]

/-- The wording of a cause. -/
def Malformed.message : Malformed → String
  | .endOfData n => s!"unexpected end of data reading {n} bytes"
  | .unknownNetwork name => s!"Unknown network: {name}"
  | .addressSize n => s!"address payload is {n} bytes, expected 21"
  | .emptyAddress => "empty address payload"
  | .addressHashSize address => s!"bad hash length in {address}"
  | .addressVersion v => "unknown address prefix " ++ versionText v
  | .missingOutput txid index =>
      Hex.encode txid.toBytes ++ s!":{index.toNat} spends a missing output"
  | .trailingBytes n => s!"{n} trailing bytes after transaction"

/-- The wording of a cause. -/
def DerFault.message : DerFault → String
  | .missingMarker => "missing marker"
  | .invalidMarker => "invalid DER marker"
  | .missingLength => "missing length"
  | .invalidLength => "invalid DER length"
  | .missingIntegerMarker => "missing integer marker"
  | .invalidIntegerMarker => "invalid integer marker"
  | .missingIntegerLength => "missing integer length"
  | .integerOverrun => "integer runs past end"
  | .lengthMismatch => "DER length mismatch"
  | .integerOutOfRange => "integer out of range"

/-- The wording of a cause. -/
def KeyFault.message : KeyFault → String
  | .atInfinity => "point at infinity"
  | .uncompressedSize => "uncompressed key must be 65 bytes"
  | .compressedSize => "compressed key must be 33 bytes"
  | .unknownMarker => "unknown SEC prefix"
  | .empty => "empty public key"

/-- A byte shown as the Latin-1 character of its number, between single quotes. Control
    characters, the no-break space and the soft hyphen are shown by number, or by their short
    escape where they have one. -/
def quotedLatin1 (b : UInt8) : String :=
  let n := b.toNat
  let body :=
    if n = 0 then "\\0"
    else if n = 9 then "\\t"
    else if n = 10 then "\\n"
    else if n = 13 then "\\r"
    else if n = 39 then "\\" ++ String.singleton (Char.ofNat 39)
    else if n = 92 then "\\\\"
    else if n < 32 ∨ (127 ≤ n ∧ n ≤ 160) ∨ n = 173 then "\\u\x7b" ++ Hex.ofNat n ++ "\x7d"
    else String.singleton (Char.ofNat n)
  let quote := String.singleton (Char.ofNat 39)
  quote ++ body ++ quote

/-- The wording of an error. -/
def Error.message : Error → String
  | .notInField value modulus => s!"{value} is not in field range 0 to {modulus} - 1"
  | .fieldMismatch => "Cannot operate on elements of different fields"
  | .divisionByZero => "Division by zero in field"
  | .notOnCurve x y => s!"({x}, {y}) is not on the curve"
  | .curveMismatch => "Points are not on the same curve"
  | .badSignature fault => "Bad signature encoding: " ++ fault.message
  | .badPublicKey fault => "Invalid public key: " ++ fault.message
  | .badPrivateKey => "Private key must be in range 1 to N - 1"
  | .pushTooLong size => s!"Script push of {size} bytes exceeds 520 bytes"
  | .scriptOverrun consumed length =>
      s!"Parsing script failed: consumed {consumed} bytes of a {length} byte script"
  | .badBase58 byte => "Invalid base58 character: " ++ quotedLatin1 byte
  | .badChecksum => "Bad checksum"
  | .malformed reason => "Parse error: " ++ reason.message
  | .noSuchInput index => s!"Input index {index} out of range"
  | .unknownTransaction txid => "Transaction " ++ Hex.encode txid.toBytes ++ " not found"
  | .wrongTransaction requested actual =>
      "Transaction id mismatch: requested " ++ Hex.encode requested.toBytes ++
        ", got " ++ Hex.encode actual.toBytes

end Bitcoin
