import Bitcoin.Proofs.Curve.FieldLaws
import Mathlib.NumberTheory.LegendreSymbol.Basic

/-!
# Roots of squares

For a prime that leaves remainder 3 on division by 4 the power with exponent `(p + 1) / 4` is taken
for a root. Its square is the number times the power with exponent `(p - 1) / 2`, and by Euler's
criterion that factor is 1 where the number is a square and -1 where it is not, unless it is zero.
So the power is a root where there is one, together with its opposite and no other; and where there
is none it is a root of the opposite number, so whoever asks for a root has to check it.

* **`root_mul_root_of_isSquare`**, **`root_mul_root_of_not_isSquare`**: the square of the power.
* **`sqrt_ofZMod_sq`**: a root of a square is found.
* **`rootLaws_of_prime`**: the laws for every residue over such a prime.
-/

namespace Bitcoin.Residue

variable {p : ℕ}

/-- Is the square of a number modulo its modulus. -/
def Square (w : Residue) : Prop := ∃ n : ℤ, n * n ≡ w.num [ZMOD w.modulus]

/-- What the power that is taken for a root is, over `p`. -/
structure RootLaws (p : ℕ) (w : Residue) : Prop where
  range : Over p w.sqrt
  square : w.num = 0 ∨ w.Square → w.sqrt.mul w.sqrt = .ok w
  opposite : ¬ (w.num = 0 ∨ w.Square) → w.sqrt.mul w.sqrt = .ok (reduce (-w.num) p)
  square_iff : w.sqrt.mul w.sqrt = .ok w ↔ ∃ y : Residue, y.mul y = .ok w
  roots : (∃ y : Residue, y.mul y = .ok w) →
    ∀ y : Residue, y.mul y = .ok w ↔ y = w.sqrt ∨ y = reduce (p - w.sqrt.num) p

/-- A root is a residue over the same modulus. -/
theorem modulus_of_mul_self {w y : Residue} (h : y.mul y = .ok w) : y.modulus = w.modulus := by
  rw [mul, sameField, if_pos rfl] at h
  obtain rfl := Except.ok.inj h
  rfl

section Field

variable [Fact p.Prime]

/-- The power of a class that is taken for its root. -/
def root (a : ZMod p) : ZMod p := a ^ ((p + 1) / 4)

/-- The root that is computed is a power of the class. -/
theorem sqrt_ofZMod (a : ZMod p) : (ofZMod a).sqrt = ofZMod (root a) := by
  have he : (((p : ℤ) + 1) / 4).toNat = (p + 1) / 4 := by omega
  rw [sqrt, modulus_ofZMod, he, natPow_ofZMod, root]

/-! ## The square of the power -/

/-- The square of the power is the class times the power that Euler's criterion is about. -/
theorem root_mul_root (hmod : p % 4 = 3) (a : ZMod p) : root a * root a = a ^ (p / 2) * a := by
  have he : (p + 1) / 4 + (p + 1) / 4 = p / 2 + 1 := by omega
  rw [root, ← pow_add, he, pow_succ]

/-- The power of a square is a root of it, because the factor of Euler's criterion is one. -/
theorem root_mul_root_of_isSquare (hmod : p % 4 = 3) {a : ZMod p} (ha : IsSquare a) :
    root a * root a = a := by
  rw [root_mul_root hmod]
  by_cases hzero : a = 0
  · rw [hzero, mul_zero]
  · rw [(ZMod.euler_criterion p hzero).mp ha, one_mul]

/-- For a class that is no square the factor is minus one. -/
theorem root_mul_root_of_not_isSquare (hmod : p % 4 = 3) {a : ZMod p} (ha : ¬ IsSquare a) :
    root a * root a = -a := by
  have hzero : a ≠ 0 := by
    rintro rfl
    exact ha IsSquare.zero
  have hpow : a ^ (p / 2) = -1 :=
    (ZMod.pow_div_two_eq_neg_one_or_one p hzero).resolve_left
      (mt (ZMod.euler_criterion p hzero).mpr ha)
  rw [root_mul_root hmod, hpow, neg_one_mul]

/-- A root of a square is found. -/
theorem sqrt_ofZMod_sq (hmod : p % 4 = 3) (y : ZMod p) :
    (ofZMod (y ^ 2)).sqrt = ofZMod y ∨ (ofZMod (y ^ 2)).sqrt = ofZMod (-y) := by
  have hroot := root_mul_root_of_isSquare hmod (IsSquare.sq y)
  rw [sqrt_ofZMod, ofZMod_inj, ofZMod_inj]
  exact mul_self_eq_mul_self_iff.mp (hroot.trans (sq y))

/-- What is taken for a root is zero for zero only. -/
theorem exists_sqrt_of_ne_zero {a : ZMod p} (ha : a ≠ 0) :
    ∃ t : ZMod p, t ≠ 0 ∧ (ofZMod a).sqrt = ofZMod t :=
  ⟨root a, pow_ne_zero _ ha, sqrt_ofZMod a⟩

/-! ## Squares among the residues -/

/-- A residue squares to another when its class does. -/
theorem mul_self_ofZMod_iff {a b : ZMod p} :
    (ofZMod a).mul (ofZMod a) = .ok (ofZMod b) ↔ a * a = b := by
  rw [mul_ofZMod, Except.ok.injEq, ofZMod_inj]

/-- Squares of integers up to the modulus are squares of classes. -/
theorem square_ofZMod_iff {a : ZMod p} : (ofZMod a).Square ↔ IsSquare a := by
  have hcast : ∀ n : ℤ, n * n ≡ (ofZMod a).num [ZMOD p] ↔ a = n * n := by
    intro n
    rw [← ZMod.intCast_eq_intCast_iff, cast_num_ofZMod, Int.cast_mul, eq_comm]
  constructor
  · rintro ⟨n, hn⟩
    exact ⟨n, (hcast n).mp hn⟩
  · rintro ⟨b, rfl⟩
    refine ⟨b.val, (hcast _).mpr ?_⟩
    rw [Int.cast_natCast, ZMod.natCast_val, ZMod.cast_id]

/-- A residue is the product of one with itself when its class is a square. -/
theorem exists_mul_self_iff {a : ZMod p} :
    (∃ y : Residue, y.mul y = .ok (ofZMod a)) ↔ IsSquare a := by
  constructor
  · rintro ⟨y, hy⟩
    rw [← ofZMod_cast_num (modulus_of_mul_self hy)] at hy
    exact ⟨_, (mul_self_ofZMod_iff.mp hy).symm⟩
  · rintro ⟨b, rfl⟩
    exact ⟨ofZMod b, mul_ofZMod b b⟩

/-- The other root is the modulus less the first. -/
theorem reduce_sub_ofZMod (a : ZMod p) : reduce (p - (ofZMod a).num) p = ofZMod (-a) := by
  refine reduce_cast_eq_ofZMod ?_
  rw [Int.cast_sub, Int.cast_natCast, CharP.cast_eq_zero, cast_num_ofZMod, zero_sub]

/-! ## The laws -/

/-- The laws for the residue of a class, from those of the power. -/
theorem rootLaws_ofZMod (hmod : p % 4 = 3) (a : ZMod p) : RootLaws p (ofZMod a) := by
  have hsquare : (ofZMod a).num = 0 ∨ (ofZMod a).Square ↔ IsSquare a := by
    rw [square_ofZMod_iff, num_ofZMod_eq_zero]
    refine ⟨?_, Or.inr⟩
    rintro (rfl | h)
    · exact IsSquare.zero
    · exact h
  constructor
  case range =>
    rw [sqrt_ofZMod]
    exact over_ofZMod _
  case square =>
    intro h
    rw [sqrt_ofZMod, mul_self_ofZMod_iff]
    exact root_mul_root_of_isSquare hmod (hsquare.mp h)
  case opposite =>
    intro h
    rw [sqrt_ofZMod, mul_ofZMod, root_mul_root_of_not_isSquare hmod (mt hsquare.mpr h)]
    refine congrArg Except.ok (reduce_cast_eq_ofZMod ?_).symm
    rw [Int.cast_neg, cast_num_ofZMod]
  case square_iff =>
    rw [exists_mul_self_iff, sqrt_ofZMod, mul_self_ofZMod_iff]
    exact ⟨fun h => ⟨root a, h.symm⟩, root_mul_root_of_isSquare hmod⟩
  case roots =>
    intro h y
    have hroot := root_mul_root_of_isSquare hmod (exists_mul_self_iff.mp h)
    rw [sqrt_ofZMod, reduce_sub_ofZMod]
    constructor
    · intro hy
      -- a root is a residue over the same modulus, so it is that of a class
      have hclass := ofZMod_cast_num (modulus_of_mul_self hy)
      rw [← hclass, mul_self_ofZMod_iff, ← hroot, mul_self_eq_mul_self_iff] at hy
      rw [← hclass, ofZMod_inj, ofZMod_inj]
      exact hy
    · rintro (rfl | rfl)
      · exact mul_self_ofZMod_iff.mpr hroot
      · exact mul_self_ofZMod_iff.mpr ((neg_mul_neg _ _).trans hroot)

end Field

/-- Over a prime that leaves remainder 3 on division by 4, the power is a root of zero and of every
    square and squares to the opposite of anything else. So it is a root exactly where there is
    one, and then the roots are it and the modulus less it. -/
theorem rootLaws_of_prime (hp : p.Prime) (hmod : p % 4 = 3) {w : Residue} (hw : w.modulus = p) :
    RootLaws p w := by
  have : Fact p.Prime := ⟨hp⟩
  rw [← ofZMod_cast_num hw]
  exact rootLaws_ofZMod hmod _

theorem rootLaws_of_prime_seven :
    (Nat.Prime 7 ∧ 7 % 4 = 3 ∧ (reduce 3 7).modulus = (7 : ℕ)) ∧ RootLaws 7 (reduce 3 7) := by
  have hp : Nat.Prime 7 := by norm_num
  exact ⟨⟨hp, rfl, rfl⟩, rootLaws_of_prime hp rfl rfl⟩

end Bitcoin.Residue
