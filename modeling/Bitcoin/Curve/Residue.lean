import Bitcoin.Error

/-!
# Residues

A residue is a representative with its modulus: the remainder of floored division, so for a
positive modulus a number from zero up to the modulus. The modulus is part of the value, because
two residues may come from different fields; an operation on such a pair is an error.

* **`Residue.range`**: for a positive modulus the representative lies in range.
-/

namespace Bitcoin

/-- The power `b ^ e` modulo `m`, by squaring. -/
def powMod (m b e : Nat) : Nat :=
  if e = 0 then 1 % m
  else
    let half := powMod m (b * b % m) (e / 2)
    if e % 2 = 1 then b * half % m else half
termination_by e

/-- A number with its modulus, reduced by floored division. -/
@[ext]
structure Residue where
  num : Int
  modulus : Int
  reduced : num.fmod modulus = num
deriving DecidableEq

namespace Residue

/-- The residue of any number. -/
def reduce (n modulus : Int) : Residue := ⟨n.fmod modulus, modulus, Int.fmod_fmod n modulus⟩

/-- A number that is already in range. -/
def ofInt (n modulus : Int) : Except Error Residue :=
  if h : 0 ≤ n ∧ n < modulus then .ok ⟨n, modulus, Int.fmod_eq_of_lt h.1 h.2⟩
  else .error (.notInField n modulus)

/-- For a positive modulus the representative lies in range. -/
theorem range (x : Residue) (h : 0 < x.modulus) : 0 ≤ x.num ∧ x.num < x.modulus := by
  rw [← x.reduced]
  exact ⟨Int.fmod_nonneg_of_pos x.num h, Int.fmod_lt_of_pos x.num h⟩

/-- Whether the residue is zero. -/
def isZero (x : Residue) : Bool := x.num = 0

/-- Whether the representative is even. -/
def isEven (x : Residue) : Bool := x.num % 2 = 0

/-- Two residues can be combined only when they have one modulus. -/
def sameField (x y : Residue) : Except Error Unit :=
  if x.modulus = y.modulus then .ok () else .error .fieldMismatch

/-- The sum. -/
def add (x y : Residue) : Except Error Residue := do
  sameField x y
  return reduce (x.num + y.num) x.modulus

/-- The difference. -/
def sub (x y : Residue) : Except Error Residue := do
  sameField x y
  return reduce (x.num - y.num) x.modulus

/-- The product. -/
def mul (x y : Residue) : Except Error Residue := do
  sameField x y
  return reduce (x.num * y.num) x.modulus

/-- The product with a plain number. -/
def scale (x : Residue) (k : Nat) : Residue := reduce (x.num * k) x.modulus

/-- The power with a natural exponent; the zeroth power is one. -/
def natPow (x : Residue) (k : Nat) : Residue :=
  reduce (powMod x.modulus.toNat x.num.toNat k) x.modulus

/-- The inverse, which is the power with exponent `modulus - 2` in a prime field. -/
def invert (x : Residue) : Except Error Residue :=
  if x.num = 0 then .error .divisionByZero else .ok (x.natPow (x.modulus - 2).toNat)

/-- The quotient. -/
def div (x y : Residue) : Except Error Residue := do
  sameField x y
  let inverse ← y.invert
  return reduce (x.num * inverse.num) x.modulus

/-- The power with any exponent. A negative exponent is first reduced modulo `modulus - 1`, the
    order of the units of a prime field. -/
def pow (x : Residue) (k : Int) : Except Error Residue :=
  if 0 ≤ k then .ok (x.natPow k.toNat)
  else if x.num = 0 then .error .divisionByZero
  else .ok (x.natPow (k.fmod (x.modulus - 1)).toNat)

/-- A root of a square, when the modulus is a prime that leaves remainder 3 on division by 4. -/
def sqrt (x : Residue) : Residue := x.natPow ((x.modulus + 1) / 4).toNat

/-- The text of a residue. -/
def text (x : Residue) : String := s!"FieldElement_{x.modulus}({x.num})"

end Residue

end Bitcoin
