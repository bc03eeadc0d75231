import Bitcoin.Proofs.Curve.Field
import Mathlib.Tactic.NormNum.Prime

/-!
# The laws of a prime field

Over a prime the residues are a field, whatever the prime. Sums, differences and products are those
of `ZMod p`; an inverse and a quotient exist except where the divisor is zero; and a power with a
negative exponent is the inverse of a power, although the exponent is first taken modulo `p - 1`.
That reduction is sound for every base but zero, and for zero it is not made: a positive exponent is
used as it is, and a negative one is refused.

* **`pow_ofZMod`**: the power of a class that is not zero, for every exponent.
* **`fieldLaws_ofZMod`**: the laws for the residues of two classes.
* **`fieldLaws_of_prime`**: the laws for any two residues over a prime.
-/

namespace Bitcoin.Residue

variable {p : ℕ}

/-- Is a residue over `p` with its number in range. -/
def Over (p : ℕ) (x : Residue) : Prop := x.modulus = p ∧ 0 ≤ x.num ∧ x.num < p

/-- What the operations do on two residues over `p`. -/
structure FieldLaws (p : ℕ) (x y : Residue) : Prop where
  add : ∃ r, x.add y = .ok r ∧ Over p r ∧ (r.num : ZMod p) = x.num + y.num
  sub : ∃ r, x.sub y = .ok r ∧ Over p r ∧ (r.num : ZMod p) = x.num - y.num
  mul : ∃ r, x.mul y = .ok r ∧ Over p r ∧ (r.num : ZMod p) = x.num * y.num
  scale : ∀ k : ℕ, Over p (x.scale k) ∧ ((x.scale k).num : ZMod p) = x.num * k
  invert_zero : x.num = 0 → x.invert = .error .divisionByZero
  invert : x.num ≠ 0 → ∃ r, x.invert = .ok r ∧ Over p r ∧ (x.mul r).map num = .ok 1
  div_zero : y.num = 0 → x.div y = .error .divisionByZero
  div : y.num ≠ 0 → ∃ r, x.div y = .ok r ∧ Over p r ∧ r.mul y = .ok x
  sqrt : Over p x.sqrt
  pow : ∀ n r, x.pow n = .ok r → Over p r
  pow_natCast : ∀ n : ℕ, ∃ r, x.pow n = .ok r ∧ Over p r ∧ (r.num : ZMod p) = (x.num : ZMod p) ^ n
  pow_add : x.num ≠ 0 → ∀ m n : ℤ, ∃ a b c, x.pow m = .ok a ∧ x.pow n = .ok b ∧
    x.pow (m + n) = .ok c ∧ Over p c ∧ a.mul b = .ok c
  pow_neg : x.num ≠ 0 → ∀ n : ℤ, ∃ a b, x.pow n = .ok a ∧ x.pow (-n) = .ok b ∧ a.invert = .ok b
  zero_pow : x.num = 0 → (x.pow 0).map num = .ok 1 ∧ (∀ n > 0, (x.pow n).map num = .ok 0) ∧
    ∀ n < 0, x.pow n = .error .divisionByZero
  mismatch : ∀ z : Residue, z.modulus ≠ p → x.add z = .error .fieldMismatch ∧
    x.sub z = .error .fieldMismatch ∧ x.mul z = .error .fieldMismatch ∧
    x.div z = .error .fieldMismatch

/-- Residues with two moduli are refused. -/
theorem sameField_of_ne {x z : Residue} (h : x.modulus ≠ z.modulus) :
    sameField x z = .error .fieldMismatch := if_neg h

/-- Residues over different moduli are not combined, not even to find that one of them is zero. -/
theorem mismatch_of_ne {x z : Residue} (h : x.modulus ≠ z.modulus) :
    x.add z = .error .fieldMismatch ∧ x.sub z = .error .fieldMismatch ∧
      x.mul z = .error .fieldMismatch ∧ x.div z = .error .fieldMismatch := by
  rw [Residue.add, Residue.sub, Residue.mul, Residue.div, sameField_of_ne h]
  exact ⟨rfl, rfl, rfl, rfl⟩

section Field

variable [Fact p.Prime]

/-- The residue of a class lies over the prime. -/
theorem over_ofZMod (a : ZMod p) : Over p (ofZMod a) := by
  have hpos : (0 : ℤ) < (ofZMod a).modulus := Int.natCast_pos.mpr (Fact.out : p.Prime).pos
  exact ⟨rfl, range _ hpos⟩

theorem num_ofZMod_one : (ofZMod (1 : ZMod p)).num = 1 := by
  rw [num_ofZMod, ZMod.val_one, Nat.cast_one]

theorem num_ofZMod_ne_zero {a : ZMod p} (h : (ofZMod a).num ≠ 0) : a ≠ 0 :=
  mt num_ofZMod_eq_zero.mpr h

/-! ## Powers -/

/-- Exponents of a class that is not zero count modulo `p - 1`, by Fermat's little theorem. -/
theorem zpow_emod {a : ZMod p} (ha : a ≠ 0) (n : ℤ) : a ^ (n % (p - 1)) = a ^ n := by
  have hp : (p : ℤ) - 1 = ((p - 1 : ℕ) : ℤ) := by
    have := (Fact.out : p.Prime).one_le
    omega
  have hunit : a ^ ((p : ℤ) - 1) = 1 := by
    rw [hp, zpow_natCast, ZMod.pow_card_sub_one_eq_one ha]
  calc a ^ (n % (p - 1))
      = a ^ (n % (p - 1)) * (a ^ ((p : ℤ) - 1)) ^ (n / (p - 1)) := by
        rw [hunit, one_zpow, mul_one]
    _ = a ^ n := by rw [← zpow_mul, ← zpow_add₀ ha, Int.emod_add_mul_ediv]

/-- A power whose exponent is not negative is that of the class. -/
theorem pow_ofZMod_natCast (a : ZMod p) (n : ℕ) : (ofZMod a).pow n = .ok (ofZMod (a ^ n)) := by
  rw [pow, if_pos (Int.natCast_nonneg n), Int.toNat_natCast, natPow_ofZMod]

/-- The power of a class that is not zero, for every exponent. -/
theorem pow_ofZMod {a : ZMod p} (ha : a ≠ 0) (n : ℤ) : (ofZMod a).pow n = .ok (ofZMod (a ^ n)) := by
  rcases le_or_gt 0 n with hnonneg | hneg
  · obtain ⟨k, rfl⟩ := Int.eq_ofNat_of_zero_le hnonneg
    rw [pow_ofZMod_natCast, zpow_natCast]
  · -- the exponent is reduced first; over the prime 2 this leaves nothing of it
    have hp : (0 : ℤ) < p - 1 := by
      have := (Fact.out : p.Prime).two_le
      omega
    have hexp : ((n.fmod (p - 1)).toNat : ℤ) = n % (p - 1) := by
      rw [Int.fmod_eq_emod_of_nonneg n hp.le]
      exact Int.toNat_of_nonneg (Int.emod_nonneg n hp.ne')
    rw [pow, if_neg hneg.not_ge, if_neg (mt num_ofZMod_eq_zero.mp ha), modulus_ofZMod,
      natPow_ofZMod, ← zpow_natCast, hexp, zpow_emod ha]

/-- Where a power has a value, it lies over the prime. -/
theorem over_of_pow_eq_ok {a : ZMod p} {n : ℤ} {r : Residue} (h : (ofZMod a).pow n = .ok r) :
    Over p r := by
  -- either branch that gives a result is a power with a natural exponent
  obtain ⟨k, rfl⟩ : ∃ k, (ofZMod a).natPow k = r := by
    rw [Residue.pow] at h
    split_ifs at h
    · exact ⟨_, Except.ok.inj h⟩
    · exact ⟨_, Except.ok.inj h⟩
  rw [natPow_ofZMod]
  exact over_ofZMod _

/-- Positive powers of zero are zero. -/
theorem pow_ofZMod_zero {n : ℤ} (hn : 0 < n) :
    (ofZMod (0 : ZMod p)).pow n = .ok (ofZMod (0 : ZMod p)) := by
  obtain ⟨k, rfl⟩ := Int.eq_ofNat_of_zero_le hn.le
  rw [pow_ofZMod_natCast, zero_pow (by omega)]

/-- Negative powers of zero are a division by zero. -/
theorem pow_ofZMod_zero_of_neg {n : ℤ} (hn : n < 0) :
    (ofZMod (0 : ZMod p)).pow n = .error .divisionByZero := by
  rw [pow, if_neg hn.not_ge, if_pos (num_ofZMod_eq_zero.mpr rfl)]

/-! ## The laws -/

/-- Nothing is divided by zero. -/
theorem div_ofZMod_zero (a : ZMod p) :
    (ofZMod a).div (ofZMod (0 : ZMod p)) = .error .divisionByZero := by
  rw [div, sameField_ofZMod, invert_ofZMod_zero]
  rfl

/-- The laws for the residues of two classes, which are those of the field of classes. -/
theorem fieldLaws_ofZMod (a b : ZMod p) : FieldLaws p (ofZMod a) (ofZMod b) := by
  constructor
  case add =>
    refine ⟨_, add_ofZMod a b, over_ofZMod _, ?_⟩
    rw [cast_num_ofZMod, cast_num_ofZMod, cast_num_ofZMod]
  case sub =>
    refine ⟨_, sub_ofZMod a b, over_ofZMod _, ?_⟩
    rw [cast_num_ofZMod, cast_num_ofZMod, cast_num_ofZMod]
  case mul =>
    refine ⟨_, mul_ofZMod a b, over_ofZMod _, ?_⟩
    rw [cast_num_ofZMod, cast_num_ofZMod, cast_num_ofZMod]
  case scale =>
    intro k
    rw [scale_ofZMod, cast_num_ofZMod, cast_num_ofZMod]
    exact ⟨over_ofZMod _, rfl⟩
  case invert_zero =>
    intro h
    obtain rfl := num_ofZMod_eq_zero.mp h
    exact invert_ofZMod_zero
  case invert =>
    intro h
    have ha := num_ofZMod_ne_zero h
    refine ⟨_, invert_ofZMod ha, over_ofZMod _, ?_⟩
    rw [mul_ofZMod, mul_inv_cancel₀ ha]
    exact congrArg Except.ok num_ofZMod_one
  case div_zero =>
    intro h
    obtain rfl := num_ofZMod_eq_zero.mp h
    exact div_ofZMod_zero a
  case div =>
    intro h
    have hb := num_ofZMod_ne_zero h
    refine ⟨_, div_ofZMod a hb, over_ofZMod _, ?_⟩
    rw [mul_ofZMod, div_mul_cancel₀ a hb]
  case sqrt =>
    rw [sqrt, natPow_ofZMod]
    exact over_ofZMod _
  case pow =>
    intro n r h
    exact over_of_pow_eq_ok h
  case pow_natCast =>
    intro n
    refine ⟨_, pow_ofZMod_natCast a n, over_ofZMod _, ?_⟩
    rw [cast_num_ofZMod, cast_num_ofZMod]
  case pow_add =>
    intro h m n
    have ha := num_ofZMod_ne_zero h
    refine ⟨_, _, _, pow_ofZMod ha m, pow_ofZMod ha n, pow_ofZMod ha (m + n), over_ofZMod _, ?_⟩
    rw [mul_ofZMod, zpow_add₀ ha]
  case pow_neg =>
    intro h n
    have ha := num_ofZMod_ne_zero h
    refine ⟨_, _, pow_ofZMod ha n, pow_ofZMod ha (-n), ?_⟩
    rw [invert_ofZMod (zpow_ne_zero n ha), zpow_neg]
  case zero_pow =>
    intro h
    obtain rfl := num_ofZMod_eq_zero.mp h
    refine ⟨?_, ?_, fun n hn => pow_ofZMod_zero_of_neg hn⟩
    · have hone : (ofZMod (0 : ZMod p)).pow 0 = .ok (ofZMod (1 : ZMod p)) := by
        rw [← pow_zero (0 : ZMod p)]
        exact pow_ofZMod_natCast 0 0
      rw [hone]
      exact congrArg Except.ok num_ofZMod_one
    · intro n hn
      rw [pow_ofZMod_zero hn]
      exact congrArg Except.ok (num_ofZMod_eq_zero.mpr rfl)
  case mismatch =>
    intro z hz
    exact mismatch_of_ne hz.symm

end Field

/-- Over a prime, any two residues obey the laws of a field; with a residue over another modulus
    there is no sum, difference, product or quotient. -/
theorem fieldLaws_of_prime (hp : p.Prime) {x y : Residue} (hx : x.modulus = p)
    (hy : y.modulus = p) : FieldLaws p x y := by
  have : Fact p.Prime := ⟨hp⟩
  rw [← ofZMod_cast_num hx, ← ofZMod_cast_num hy]
  exact fieldLaws_ofZMod _ _

/-- The smallest field, with one and zero as the operands. -/
theorem fieldLaws_of_prime_two :
    (Nat.Prime 2 ∧ (reduce 1 2).modulus = (2 : ℕ) ∧ (reduce 0 2).modulus = (2 : ℕ)) ∧
      FieldLaws 2 (reduce 1 2) (reduce 0 2) := by
  have hp : Nat.Prime 2 := by norm_num
  exact ⟨⟨hp, rfl, rfl⟩, fieldLaws_of_prime hp rfl rfl⟩

end Bitcoin.Residue
