import Bitcoin.Bytes.Reader
import Bitcoin.Key.Secp256k1

/-!
# Signatures

A signature is a pair of numbers. It holds for a point and a digest `z` when the first coordinate
of `(z / s) G + (r / s) Q` is `r`, with both numbers from one up to the order. Its byte form is
DER: a marker and a length around two integers, each with a marker and a length of its own.
-/

namespace Bitcoin

/-- A pair of numbers `r` and `s`. -/
@[ext]
structure Signature where
  r : Int
  s : Int
deriving DecidableEq

namespace Signature

/-- The text of a signature. -/
def text (sig : Signature) : String :=
  "Signature(" ++ Hex.ofInt sig.r ++ "," ++ Hex.ofInt sig.s ++ ")"

/-! ## Verification -/

/-- The point `(z / s) G + (r / s) Q` that a valid signature leads back to. -/
def recovered (q : Secp256k1.Point) (z : Int) (sig : Signature) :
    Except Error Secp256k1.Point := do
  let inverse : Int := Secp256k1.scalarInverse sig.s.toNat
  let byGenerator ← Secp256k1.generator.mul (z * inverse)
  let byKey ← q.mul (sig.r * inverse)
  byGenerator.add byKey

/-- Whether both numbers lie between one and the order. -/
def inRange (sig : Signature) : Bool :=
  1 ≤ sig.r ∧ sig.r < Secp256k1.order ∧ 1 ≤ sig.s ∧ sig.s < Secp256k1.order

/-- Whether the signature holds for a point and a digest. -/
def verifies (sig : Signature) (q : Secp256k1.Point) (z : Int) : Bool :=
  sig.inRange &&
    match recovered q z sig with
    | .ok p => p.x? = some sig.r
    | .error _ => false

/-! ## DER -/

/-- The least number with more than 256 bits. -/
def integerLimit : Int := 0x10000000000000000000000000000000000000000000000000000000000000000

/-- The fewest bytes of a number, at least one, with a zero in front of a high first bit. -/
def integerBytes (n : Int) : Except Error Bytes :=
  if n < 0 ∨ integerLimit ≤ n then .error (.badSignature .integerOutOfRange)
  else
    match beMinimal n.toNat with
    | [] => .ok [0x00]
    | b :: bs => .ok (if 0x80 ≤ b then 0x00 :: b :: bs else b :: bs)

/-- A number with its marker and its length. -/
def integerField (n : Int) : Except Error Bytes := do
  let bs ← integerBytes n
  return 0x02 :: UInt8.ofNat bs.length :: bs

/-- The DER form; it exists when both numbers are non-negative and have at most 256 bits. -/
def der (sig : Signature) : Except Error Bytes := do
  let content := (← integerField sig.r) ++ (← integerField sig.s)
  return 0x30 :: UInt8.ofNat content.length :: content

/-- The next byte, or the given fault at the end. -/
def nextByte (fault : DerFault) : Reader UInt8 := fun
  | b :: rest => .ok (b, rest)
  | [] => .error (.badSignature fault)

/-- Reads a number with its marker and its length; the bytes are taken as unsigned. -/
def readInteger : Reader Int := do
  if (← nextByte .missingIntegerMarker) ≠ 0x02 then
    throw (.badSignature .invalidIntegerMarker)
  let length := (← nextByte .missingIntegerLength).toNat
  fun input =>
    if (input.take length).length = length then
      .ok (beValue (input.take length), input.drop length)
    else .error (.badSignature .integerOverrun)

/-- Reads the DER form up to its second number; the length counts everything that follows it. -/
def readDer : Reader Signature := do
  if (← nextByte .missingMarker) ≠ 0x30 then throw (.badSignature .invalidMarker)
  let length := (← nextByte .missingLength).toNat
  if (← get).length ≠ length then throw (.badSignature .invalidLength)
  let r ← readInteger
  let s ← readInteger
  return ⟨r, s⟩

/-- The signature of a DER form, with nothing left over. -/
def ofDer (bs : Bytes) : Except Error Signature := do
  let (sig, rest) ← readDer bs
  if rest ≠ [] then throw (.badSignature .lengthMismatch)
  return sig

end Signature

end Bitcoin
