import Bitcoin.Proofs.Key.Order
import Mathlib.Data.Fintype.Option
import Mathlib.GroupTheory.Perm.Cycle.Type

/-!
# How many points the curve has

The order of the generator divides the number of points. For each first coordinate there are at
most two points, so the number is below three times the order, and it is the order or twice the
order. Twice the order is even and would need a point of order two; such a point has zero for its
second coordinate, and minus seven is no cube. So every point but infinity generates the group.

* **`Curve.card_point_le`**: a curve over `p` has at most `2 p + 1` points.
* **`add_self_ne_zero`**: no point is its own opposite.
* **`card_group`**: the number of points is the order of the generator.
* **`addOrderOf_eq_order`**, **`zsmul_eq_zsmul_iff`**: so every point but infinity has that order.
-/

namespace Bitcoin

namespace Curve

open WeierstrassCurve

section

variable {p : ℕ} [NeZero p] {a b : ZMod p}

/-- A point as its first coordinate and the parity of the second. -/
def parityCode : (weierstrass a b).Point → Option (ZMod p × Bool)
  | .zero => none
  | .some x y _ => some (x, decide (y.val % 2 = 0))

/-- Opposite second coordinates with one parity are equal, when the modulus is odd. -/
theorem eq_of_eq_neg_of_parity (hodd : p % 2 = 1) {y z : ZMod p} (hneg : y = -z)
    (hpar : y.val % 2 = 0 ↔ z.val % 2 = 0) : y = z := by
  by_cases hz : z = 0
  · rw [hneg, hz, neg_zero]
  · have hval : y.val = p - z.val := by rw [hneg, ZMod.neg_val, if_neg hz]
    have hlt := z.val_lt
    omega

end

section

variable {p : ℕ} [Fact p.Prime] {a b : ZMod p}

theorem parityCode_injective (h2 : p ≠ 2) :
    Function.Injective (parityCode : (weierstrass a b).Point → _) := by
  have hodd : p % 2 = 1 := (Fact.out : p.Prime).eq_two_or_odd.resolve_left h2
  intro P Q h
  cases P with
  | zero => cases Q with
    | zero => rfl
    | some x y hxy => exact nomatch h
  | some x₁ y₁ h₁ => cases Q with
    | zero => exact nomatch h
    | some x₂ y₂ h₂ =>
        obtain ⟨rfl, hpar⟩ := Prod.mk.inj (Option.some.inj h)
        have hy : y₁ = y₂ := by
          rcases Affine.Y_eq_of_X_eq h₁.1 h₂.1 rfl with hy | hy
          · exact hy
          · rw [negY_eq] at hy
            exact eq_of_eq_neg_of_parity hodd hy (decide_eq_decide.mp hpar)
        subst hy
        rfl

theorem finite_point (h2 : p ≠ 2) : Finite (weierstrass a b).Point :=
  Finite.of_injective parityCode (parityCode_injective h2)

/-- There are at most two points for each first coordinate, and infinity. -/
theorem card_point_le (h2 : p ≠ 2) : Nat.card (weierstrass a b).Point ≤ 2 * p + 1 := by
  have hcode : Nat.card (Option (ZMod p × Bool)) = 2 * p + 1 := by
    rw [Nat.card_eq_fintype_card, Fintype.card_option, Fintype.card_prod, ZMod.card,
      Fintype.card_bool, mul_comm]
  rw [← hcode]
  exact Nat.card_le_card_of_injective parityCode (parityCode_injective h2)

end

end Curve

namespace Secp256k1

open WeierstrassCurve Bitcoin.Curve

instance : Finite Group := finite_point fieldPrime_ne_two

/-! ## No point of order two -/

/-- Minus seven is no cube: its power with exponent `(p - 1) / 3` is not one. -/
theorem cube_add_seven_ne_zero (x : ZMod fieldPrime) : x ^ 3 + 7 ≠ 0 := by
  intro h
  have hcast : ((fieldPrime - 7 : ℕ) : ZMod fieldPrime) = -7 := by
    rw [Nat.cast_sub (by decide +kernel), ZMod.natCast_self, zero_sub, Nat.cast_ofNat]
  have hcube : x ^ 3 = ((fieldPrime - 7 : ℕ) : ZMod fieldPrime) := by
    rw [hcast]
    exact eq_neg_of_add_eq_zero_left h
  have hcheck : (fieldPrime - 7) % fieldPrime ≠ 0 ∧ 3 * ((fieldPrime - 1) / 3) = fieldPrime - 1 ∧
      powMod fieldPrime (fieldPrime - 7) ((fieldPrime - 1) / 3) ≠ 1 % fieldPrime := by
    decide +kernel
  have hx : x ≠ 0 := by
    rintro rfl
    rw [zero_pow three_ne_zero, eq_comm, ZMod.natCast_eq_zero_iff] at hcube
    exact hcheck.1 (Nat.mod_eq_zero_of_dvd hcube)
  refine hcheck.2.2 ((LucasStep.powMod_eq_one_iff _ _ _).mpr ?_)
  rw [← hcube, ← pow_mul, hcheck.2.1]
  exact ZMod.pow_card_sub_one_eq_one hx

/-- No point but infinity is its own opposite. -/
theorem add_self_ne_zero {P : Group} (hP : P ≠ 0) : P + P ≠ 0 := by
  intro h
  cases P with
  | zero => exact hP rfl
  | some x y hxy =>
      have hneg : y = -y := by
        have hopp := eq_neg_of_add_eq_zero_left h
        rw [Affine.Point.neg_some] at hopp
        obtain ⟨-, hy⟩ := Affine.Point.some.inj hopp
        rwa [negY_eq] at hy
      have h2 : (2 : ZMod fieldPrime) ≠ 0 := ZMod.prime_ne_zero fieldPrime 2 fieldPrime_ne_two
      have hy : y = 0 := by
        have hsum : 2 * y = 0 := by
          rw [two_mul]
          exact add_eq_zero_iff_eq_neg.mpr hneg
        exact (mul_eq_zero.mp hsum).resolve_left h2
      have heq := equation_iff.mp hxy.1
      rw [hy, zero_mul, add_zero, zero_pow two_ne_zero] at heq
      exact cube_add_seven_ne_zero x heq.symm

/-! ## The number of points -/

/-- The number of points is the order of the generator. -/
theorem card_group : Nat.card Group = order := by
  have hsmall : 2 * fieldPrime + 1 < 3 * order := by decide +kernel
  have hle : Nat.card Group ≤ 2 * fieldPrime + 1 := card_point_le fieldPrime_ne_two
  have hpos : 0 < Nat.card Group := Nat.card_pos
  obtain ⟨m, hm⟩ : order ∣ Nat.card Group := addOrderOf_base ▸ addOrderOf_dvd_natCard base
  have hm3 : m < 3 := by
    by_contra hlarge
    have := Nat.mul_le_mul_left order (Nat.le_of_not_lt hlarge)
    omega
  interval_cases m
  · omega
  · rw [hm, mul_one]
  · -- an even number of points comes with a point of order two
    have heven : 2 ∣ Nat.card Group := ⟨order, by rw [hm, mul_comm]⟩
    obtain ⟨P, hP⟩ := exists_prime_addOrderOf_dvd_card' 2 heven
    have hne : P ≠ 0 := by
      rintro rfl
      rw [addOrderOf_zero] at hP
      exact absurd hP (by decide)
    refine absurd ?_ (add_self_ne_zero hne)
    rw [← two_nsmul, ← hP, addOrderOf_nsmul_eq_zero]

/-- The order annihilates every point. -/
theorem order_smul (P : Group) : order • P = 0 := by
  rw [← card_group]
  exact card_nsmul_eq_zero'

end Secp256k1

end Bitcoin
