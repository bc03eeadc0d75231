import Bitcoin.Address.Basic
import Bitcoin.Curve.Basic

/-!
# The curve of the network and its points

Public keys are points of `y² = x³ + 7` over a prime just below `2 ^ 256`. A point of this type
is known to lie over that curve, so sums of two of them never meet a curve mismatch. The group
has prime order, so a scalar may be reduced modulo the order before multiplying.

A finite point has two byte forms: `04` and both coordinates, or a marker for the parity of the
second coordinate and the first coordinate alone, from which the second is recovered as a square
root.
-/

namespace Bitcoin.Secp256k1

/-- The modulus of the coordinates, `2 ^ 256 - 2 ^ 32 - 977`. -/
def fieldPrime : Nat := 0xfffffffffffffffffffffffffffffffffffffffffffffffffffffffefffffc2f

/-- The order of the generator. -/
def order : Nat := 0xfffffffffffffffffffffffffffffffebaaedce6af48a03bbfd25e8cd0364141

/-- A coordinate. -/
def coordinate (n : Int) : Residue := Residue.reduce n fieldPrime

/-- The curve `y² = x³ + 7`. -/
def curve : Curve := ⟨coordinate 0, coordinate 7, rfl⟩

/-- A point over the curve, at infinity or not. -/
@[ext]
structure Point where
  point : Curve.Point
  curve_eq : point.curve = curve
deriving DecidableEq

/-- The generator. -/
def generator : Point where
  point := .affine curve
    (coordinate 0x79be667ef9dcbbac55a06295ce870b07029bfcdb2dce28d959f2815b16f81798)
    (coordinate 0x483ada7726a3c4655da4fbfc0e1108a8fd17b448a68554199c47d08ffb10d4b8)
  curve_eq := rfl

/-- The inverse of a scalar, which is its power with exponent `order - 2`. -/
def scalarInverse (k : Nat) : Nat := powMod order k (order - 2)

namespace Point

/-- The point at infinity. -/
def infinity : Point := ⟨.infinity curve, rfl⟩

/-- A point of any curve that turns out to lie over this one. -/
def ofPoint (p : Curve.Point) : Except Error Point :=
  if h : p.curve = curve then .ok ⟨p, h⟩ else .error .curveMismatch

/-- The point with the given coordinates, when they are in range and on the curve. -/
def ofCoordinates (x y : Int) : Except Error Point := do
  let x ← Residue.ofInt x fieldPrime
  let y ← Residue.ofInt y fieldPrime
  ofPoint (← Curve.Point.ofCoordinates curve x y)

/-- The first coordinate. -/
def x? (p : Point) : Option Int := p.point.x?.map Residue.num

/-- The second coordinate. -/
def y? (p : Point) : Option Int := p.point.y?.map Residue.num

/-- Both coordinates of a finite point. -/
def coordinates (p : Point) : Except Error (Int × Int) :=
  match p.point with
  | .infinity _ => .error (.badPublicKey .atInfinity)
  | .affine _ x y => .ok (x.num, y.num)

/-- The sum. -/
def add (p q : Point) : Except Error Point :=
  match h : p.point.add q.point with
  | .ok r => .ok ⟨r, (Curve.Point.curve_add h).1.trans p.curve_eq⟩
  | .error e => .error e

/-- The multiple with a scalar, which is first reduced modulo the order. -/
def mul (p : Point) (k : Int) : Except Error Point :=
  match h : p.point.scalarMul (k % order).toNat with
  | .ok r => .ok ⟨r, (Curve.Point.curve_scalarMul h).trans p.curve_eq⟩
  | .error e => .error e

/-- The text of a point: both coordinates as sixty-four hexadecimal digits. -/
def text (p : Point) : String :=
  match p.coordinates with
  | .ok (x, y) => "S256Point(" ++ Hex.ofNatPadded 64 x.toNat ++ ", " ++
      Hex.ofNatPadded 64 y.toNat ++ ")"
  | .error _ => "S256Point(infinity)"

/-! ## Byte forms -/

/-- The byte form of a finite point, short or long. -/
def sec (p : Point) (compressed : Bool) : Except Error Bytes := do
  let (x, y) ← p.coordinates
  if compressed then
    return (if y % 2 = 0 then 0x02 else 0x03) :: (scalarBlock x).toBytes
  else
    return 0x04 :: ((scalarBlock x).toBytes ++ (scalarBlock y).toBytes)

/-- The point with the given first coordinate and the given parity of the second. -/
def decompress (even : Bool) (x : Int) : Except Error Point := do
  let x ← Residue.ofInt x fieldPrime
  let root := (← curve.rightSide x).sqrt
  let y ← if root.isEven = even then pure root
    else Residue.ofInt (fieldPrime - root.num) fieldPrime
  ofPoint (← Curve.Point.ofCoordinates curve x y)

/-- The finite point of a byte form. -/
def ofSec : Bytes → Except Error Point
  | [] => throw (.badPublicKey .empty)
  | marker :: body =>
      if marker = 0x04 then
        if body.length = 64 then ofCoordinates (beValue (body.take 32)) (beValue (body.drop 32))
        else throw (.badPublicKey .uncompressedSize)
      else if marker = 0x02 ∨ marker = 0x03 then
        if body.length = 32 then decompress (marker = 0x02) (beValue body)
        else throw (.badPublicKey .compressedSize)
      else throw (.badPublicKey .unknownMarker)

/-- The hash of a byte form. -/
def keyHash [Digests] (p : Point) (compressed : Bool) : Except Error Hash160 := do
  return Digests.hash160 (← p.sec compressed)

/-- The address that pays to the hash of a byte form. -/
def address [Digests] (p : Point) (compressed : Bool) (net : Network) : Except Error String := do
  return (Payee.keyHash (← p.keyHash compressed)).address net

end Point

end Bitcoin.Secp256k1
