import Bitcoin.Bytes.Hex
import Bitcoin.Curve.Residue

/-!
# Short Weierstrass curves

A curve `y² = x³ + a x + b` is a pair of coefficients over one modulus; a point is at infinity or
has two coordinates. A point carries its curve, because sums of points on different curves are
refused. Addition is the chord-and-tangent rule, and multiplication by a number is
double-and-add from the low bit.

* **`Point.curve_add`**, **`Point.curve_scalarMul`**: what arithmetic returns lies over the curve
  it was given.
-/

namespace Bitcoin

/-- The coefficients of `y² = x³ + a x + b` over one modulus. -/
@[ext]
structure Curve where
  a : Residue
  b : Residue
  modulus_eq : a.modulus = b.modulus
deriving DecidableEq

namespace Curve

/-- The curve of two coefficients. -/
def ofCoefficients (a b : Residue) : Except Error Curve :=
  if h : a.modulus = b.modulus then .ok ⟨a, b, h⟩ else .error .fieldMismatch

/-- The modulus of the coefficients. -/
def modulus (c : Curve) : Int := c.a.modulus

/-- The right-hand side `x³ + a x + b` of the equation. -/
def rightSide (c : Curve) (x : Residue) : Except Error Residue := do
  let ax ← c.a.mul x
  let sum ← (x.natPow 3).add ax
  sum.add c.b

/-- Whether a pair of coordinates satisfies the equation. -/
def contains (c : Curve) (x y : Residue) : Except Error Bool := do
  return y.natPow 2 = (← c.rightSide x)

/-- A point at infinity or with two coordinates, and its curve. -/
inductive Point
  | infinity (curve : Curve)
  | affine (curve : Curve) (x y : Residue)
deriving DecidableEq

namespace Point

/-- The curve of a point. -/
def curve : Point → Curve
  | infinity c => c
  | affine c _ _ => c

/-- Whether the point is at infinity. -/
def isInfinity : Point → Bool
  | infinity _ => true
  | affine _ _ _ => false

/-- The first coordinate. -/
def x? : Point → Option Residue
  | infinity _ => none
  | affine _ x _ => some x

/-- The second coordinate. -/
def y? : Point → Option Residue
  | infinity _ => none
  | affine _ _ y => some y

/-- The point with the given coordinates, when they satisfy the equation. -/
def ofCoordinates (c : Curve) (x y : Residue) : Except Error Point := do
  if ← c.contains x y then return affine c x y else throw (.notOnCurve x.num y.num)

/-- The slope `(3 x² + a) / (2 y)` of the tangent. -/
def tangentSlope (c : Curve) (x y : Residue) : Except Error Residue := do
  let numerator ← ((x.natPow 2).scale 3).add c.a
  numerator.div (y.scale 2)

/-- The slope `(y₂ - y₁) / (x₂ - x₁)` of the chord. -/
def chordSlope (x₁ y₁ x₂ y₂ : Residue) : Except Error Residue := do
  let rise ← y₂.sub y₁
  let run ← x₂.sub x₁
  rise.div run

/-- The reflected third point of the line with the given slope through two points. -/
def thirdPoint (c : Curve) (slope x₁ y₁ x₂ : Residue) : Except Error Point := do
  let x₃ ← (← (slope.natPow 2).sub x₁).sub x₂
  let y₃ ← (← slope.mul (← x₁.sub x₃)).sub y₁
  return affine c x₃ y₃

/-- The sum of two points that are not at infinity. Opposite points, and a point whose tangent is
    vertical, sum to infinity. -/
def addAffine (c : Curve) (x₁ y₁ x₂ y₂ : Residue) : Except Error Point :=
  if x₁ = x₂ then
    if y₁ ≠ y₂ ∨ y₁.num = 0 then return infinity c
    else do thirdPoint c (← tangentSlope c x₁ y₁) x₁ y₁ x₂
  else do thirdPoint c (← chordSlope x₁ y₁ x₂ y₂) x₁ y₁ x₂

/-- The sum of two points of one curve. -/
def add (p q : Point) : Except Error Point :=
  if p.curve ≠ q.curve then throw .curveMismatch
  else match p, q with
    | infinity _, q => return q
    | p, infinity _ => return p
    | affine c x₁ y₁, affine _ x₂ y₂ => addAffine c x₁ y₁ x₂ y₂

/-- Adds `k` times `p` to an accumulator, doubling `p` for each bit. -/
def addMultiple (acc p : Point) (k : Nat) : Except Error Point :=
  if k = 0 then return acc
  else do
    let acc ← if k % 2 = 1 then acc.add p else pure acc
    let double ← p.add p
    addMultiple acc double (k / 2)
termination_by k

/-- The sum of `k` copies of a point. -/
def scalarMul (p : Point) (k : Nat) : Except Error Point := addMultiple (infinity p.curve) p k

/-- The text of a point, with all numbers in hexadecimal. -/
def text : Point → String
  | infinity _ => "Point(infinity)"
  | affine c x y =>
      "Point(" ++ Hex.ofInt x.num ++ "," ++ Hex.ofInt y.num ++ ")_" ++ Hex.ofInt c.a.num ++ "_" ++
        Hex.ofInt c.b.num ++ " FieldElement(" ++ Hex.ofInt c.modulus ++ ")"

/-! ## The curve is kept -/

theorem curve_thirdPoint {c : Curve} {slope x₁ y₁ x₂ : Residue} {r : Point}
    (h : thirdPoint c slope x₁ y₁ x₂ = .ok r) : r.curve = c := by
  simp only [thirdPoint, bind, Except.bind] at h
  repeat (split at h; · cases h)
  cases h
  rfl

theorem curve_addAffine {c : Curve} {x₁ y₁ x₂ y₂ : Residue} {r : Point}
    (h : addAffine c x₁ y₁ x₂ y₂ = .ok r) : r.curve = c := by
  rw [addAffine] at h
  split at h
  · split at h
    · cases h; rfl
    · cases hs : tangentSlope c x₁ y₁ with
      | error e => rw [hs] at h; cases h
      | ok s => rw [hs] at h; exact curve_thirdPoint h
  · cases hs : chordSlope x₁ y₁ x₂ y₂ with
    | error e => rw [hs] at h; cases h
    | ok s => rw [hs] at h; exact curve_thirdPoint h

/-- A sum lies over the curve of its terms. -/
theorem curve_add {p q r : Point} (h : p.add q = .ok r) : r.curve = p.curve ∧ p.curve = q.curve := by
  unfold add at h
  split at h
  · cases h
  · next hc =>
      have hpq : p.curve = q.curve := Classical.not_not.mp hc
      refine ⟨?_, hpq⟩
      split at h
      · cases h; exact hpq.symm
      · cases h; rfl
      · exact curve_addAffine h

theorem curve_addMultiple {acc p r : Point} {k : Nat} (hc : acc.curve = p.curve)
    (h : addMultiple acc p k = .ok r) : r.curve = p.curve := by
  induction k using Nat.strongRecOn generalizing acc p with
  | _ k ih =>
      rw [addMultiple] at h
      split at h
      · cases h; exact hc
      · next hk =>
          have hlt : k / 2 < k := Nat.div_lt_self (Nat.pos_of_ne_zero hk) (by decide)
          split at h
          · cases ha : acc.add p with
            | error e => rw [ha] at h; cases h
            | ok acc' =>
                rw [ha] at h
                cases hd : p.add p with
                | error e => simp only [bind, Except.bind, hd] at h; cases h
                | ok p' =>
                    simp only [bind, Except.bind, hd] at h
                    rw [ih _ hlt ((curve_add ha).1.trans (hc.trans (curve_add hd).1.symm)) h]
                    exact (curve_add hd).1
          · cases hd : p.add p with
            | error e => simp only [bind, Except.bind, pure, Except.pure, hd] at h; cases h
            | ok p' =>
                simp only [bind, Except.bind, pure, Except.pure, hd] at h
                rw [ih _ hlt (hc.trans (curve_add hd).1.symm) h]
                exact (curve_add hd).1

/-- A multiple lies over the curve of the point. -/
theorem curve_scalarMul {p r : Point} {k : Nat} (h : p.scalarMul k = .ok r) : r.curve = p.curve :=
  have hc : (infinity p.curve).curve = p.curve := rfl
  curve_addMultiple hc h

end Point

end Curve

end Bitcoin
