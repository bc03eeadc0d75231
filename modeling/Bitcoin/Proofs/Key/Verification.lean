import Bitcoin.Proofs.Key.Reached
import Bitcoin.Proofs.Key.Signing

/-!
# What verification accepts

A signature is accepted for its numbers being in range and for the point `(z / s) G + (r / s) Q`,
where the quotients are those modulo the order. The point must be finite and have `r` for its first
coordinate. Both are compared as integers: `r` stays below the order, while a coordinate goes up to
the larger field prime. So a point whose first coordinate is congruent to `r` but not below the
order is refused, and such points exist.

* **`map_recovered`**: the point that verification computes, with exact quotients.
* **`verifies_iff_combination`**: when a signature is accepted.
* **`verifies_wrapped_eq_false`**: a signature that is refused, with a congruent first coordinate.
-/

namespace Bitcoin

open Secp256k1

namespace Secp256k1.Point

/-- Attaching the curve to a computed point does not change the point. -/
theorem map_point_attach (result : Except Error Curve.Point)
    (hcurve : ∀ r, result = .ok r → r.curve = curve) :
    (match hr : result with
      | .ok r => (.ok ⟨r, hcurve r hr⟩ : Except Error Point)
      | .error e => .error e).map Point.point = result := by
  cases result with
  | error e => rfl
  | ok r => rfl

/-- Points of the keys are added as points of the curve. -/
theorem map_point_add (p q : Point) : (p.add q).map Point.point = p.point.add q.point :=
  map_point_attach _ _

/-- The scalar that is left after the reduction is the representative of its class. -/
theorem toNat_emod_order (k : ℤ) : (k % order).toNat = (k : ZMod order).val := by
  rw [← ZMod.val_intCast, Int.toNat_natCast]

theorem map_point_mul (q : Point) (k : ℤ) :
    (q.mul k).map Point.point = q.point.scalarMul (k : ZMod order).val := by
  rw [← toNat_emod_order]
  exact map_point_attach _ _

end Secp256k1.Point

namespace Signature

/-- The point `u G + v Q`. -/
def combination (q : Secp256k1.Point) (u v : ZMod order) : Except Error Curve.Point := do
  let byGenerator ← generator.point.scalarMul u.val
  let byKey ← q.point.scalarMul v.val
  byGenerator.add byKey

/-- Over the points of the group it is the combination in the group. -/
theorem combination_ofGroup (P : Group) (u v : ZMod order) :
    combination (Point.ofGroup P) u v
      = .ok (Curve.Point.ofGroup (u.val • base + v.val • P)) := by
  have hbase : generator.point.scalarMul u.val = .ok (Curve.Point.ofGroup (u.val • base)) := by
    rw [generator_eq]
    exact Curve.Point.scalarMul_ofGroup fieldPrime_ne_two base u.val
  have hkey : (Point.ofGroup P).point.scalarMul v.val
      = .ok (Curve.Point.ofGroup (v.val • P)) :=
    Curve.Point.scalarMul_ofGroup fieldPrime_ne_two P v.val
  rw [combination, hbase, hkey]
  exact Curve.Point.add_ofGroup fieldPrime_ne_two _ _

/-- Verification computes the combination with the quotients modulo the order. -/
theorem map_recovered (q : Secp256k1.Point) (z : ℤ) {sig : Signature} (hs : 0 ≤ sig.s) :
    (recovered q z sig).map Point.point = combination q (z / sig.s) (sig.r / sig.s) := by
  have hquotient : ∀ n : ℤ, ((n * sig.inverse : ℤ) : ZMod order) = n / sig.s := by
    intro n
    rw [Int.cast_mul, cast_inverse hs, div_eq_mul_inv]
  rw [combination, ← hquotient, ← hquotient, ← Point.map_point_mul, ← Point.map_point_mul]
  show (generator.mul (z * sig.inverse) >>= fun byGenerator =>
    q.mul (sig.r * sig.inverse) >>= fun byKey => byGenerator.add byKey).map Point.point = _
  cases generator.mul (z * sig.inverse) with
  | error e => rfl
  | ok byGenerator =>
      cases q.mul (sig.r * sig.inverse) with
      | error e => rfl
      | ok byKey => exact Point.map_point_add byGenerator byKey

/-- A signature holds when its numbers are in range and the recovered point has the coordinate `r`.
    -/
theorem verifies_eq_true_iff {q : Secp256k1.Point} {z : ℤ} {sig : Signature} :
    sig.verifies q z = true ↔ sig.inRange = true ∧
      ∃ R, (recovered q z sig).map Point.point = .ok R ∧ R.x?.map Residue.num = some sig.r := by
  rw [verifies, Bool.and_eq_true]
  refine and_congr_right fun _ => ?_
  cases recovered q z sig with
  | error e =>
      constructor
      · intro h
        cases h
      · rintro ⟨R, hR, -⟩
        cases hR
  | ok p =>
      constructor
      · intro h
        exact ⟨p.point, rfl, of_decide_eq_true h⟩
      · rintro ⟨R, hR, hx⟩
        obtain rfl := Except.ok.inj hR
        exact decide_eq_true hx

theorem isInfinity_of_x? {R : Curve.Point} {n : ℤ} (h : R.x?.map Residue.num = some n) :
    R.isInfinity = false := by
  cases R with
  | infinity c => exact nomatch h
  | affine c x y => rfl

/-- A signature is accepted exactly when both numbers lie between one and the order and the point
    `(z / s) G + (r / s) Q` is not infinity and has the first coordinate `r`. For the public points
    that are reached it is that point of the group. -/
theorem verifies_iff_combination (q : Secp256k1.Point) (z : ℤ) (sig : Signature) :
    (sig.verifies q z = true ↔ (1 ≤ sig.r ∧ sig.r < order) ∧ (1 ≤ sig.s ∧ sig.s < order) ∧
        ∃ R, combination q (z / sig.s) (sig.r / sig.s) = .ok R ∧ R.isInfinity = false ∧
          R.x?.map Residue.num = some sig.r) ∧
      (q.Reached → ∃ P : Group, q = Point.ofGroup P ∧
        combination q (z / sig.s) (sig.r / sig.s)
          = .ok (Curve.Point.ofGroup ((z / sig.s : ZMod order).val • base
              + (sig.r / sig.s : ZMod order).val • P))) := by
  constructor
  · rw [verifies_eq_true_iff, inRange_iff, and_assoc]
    refine and_congr_right fun _ => and_congr_right fun hs => ?_
    rw [map_recovered q z (by omega)]
    constructor
    · rintro ⟨R, hR, hx⟩
      exact ⟨R, hR, isInfinity_of_x? hx, hx⟩
    · rintro ⟨R, hR, -, hx⟩
      exact ⟨R, hR, hx⟩
  · intro hq
    obtain ⟨P, rfl⟩ := Point.reached_iff.mp hq
    exact ⟨P, rfl, combination_ofGroup P _ _⟩

/-- At the generator, with all three numbers one. -/
theorem verifies_iff_combination_generator :
    generator.Reached ∧
      ((⟨1, 1⟩ : Signature).verifies generator 1 = true ↔
        ((1 : ℤ) ≤ 1 ∧ (1 : ℤ) < order) ∧ ((1 : ℤ) ≤ 1 ∧ (1 : ℤ) < order) ∧
          ∃ R, combination generator ((1 : ℤ) / (1 : ℤ)) ((1 : ℤ) / (1 : ℤ)) = .ok R ∧
            R.isInfinity = false ∧ R.x?.map Residue.num = some 1) ∧
      ∃ P : Group, generator = Point.ofGroup P ∧
        combination generator ((1 : ℤ) / (1 : ℤ)) ((1 : ℤ) / (1 : ℤ))
          = .ok (Curve.Point.ofGroup
              (((1 : ℤ) / (1 : ℤ) : ZMod order).val • base
                + ((1 : ℤ) / (1 : ℤ) : ZMod order).val • P)) := by
  have h := verifies_iff_combination generator 1 ⟨1, 1⟩
  exact ⟨.generator, h.1, h.2 .generator⟩

/-! ## A first coordinate that is not below the order -/

/-- A point whose first coordinate is the order and two. -/
def wrappedPoint : Secp256k1.Point where
  point := .affine curve (coordinate (order + 2))
    (coordinate 0x36b1aa62eb77c1973025cbcbea9740eed8eacdab8772268b395064453269d1d3)
  curve_eq := rfl

theorem reached_wrappedPoint : wrappedPoint.Reached := by
  have hcontains : curve.contains (coordinate (order + 2))
      (coordinate 0x36b1aa62eb77c1973025cbcbea9740eed8eacdab8772268b395064453269d1d3)
        = .ok true := by decide +kernel
  have hpoint : Curve.Point.Reached wrappedPoint.point.curve wrappedPoint.point :=
    .ofCoordinates (Curve.Point.ofCoordinates_eq_ok_iff.mpr ⟨hcontains, rfl⟩)
  exact .ofPoint hpoint (Point.ofPoint_eq_ok_iff.mpr rfl)

/-- With the quotients zero and one the combination is the public point. -/
theorem combination_wrappedPoint :
    combination wrappedPoint ((0 : ℤ) / (2 : ℤ)) ((2 : ℤ) / (2 : ℤ)) = .ok wrappedPoint.point := by
  have h2 : ((2 : ℤ) : ZMod order) ≠ 0 := by
    rw [Ne, ZMod.intCast_zmod_eq_zero_iff_dvd]
    decide +kernel
  obtain ⟨W, hW⟩ := Point.reached_iff.mp reached_wrappedPoint
  have : Fact (1 < order) := ⟨prime_order.one_lt⟩
  rw [← hW, combination_ofGroup, Int.cast_zero, zero_div, div_self h2, ZMod.val_zero, ZMod.val_one,
    zero_nsmul, one_nsmul, zero_add]
  rfl

/-- The signature of zero with both numbers two under that point is refused, although the first
    coordinate of its combination is congruent to two. -/
theorem verifies_wrapped_eq_false :
    (⟨2, 2⟩ : Signature).verifies wrappedPoint 0 = false ∧
      wrappedPoint.Reached ∧ wrappedPoint.point.isInfinity = false ∧
      ((1 : ℤ) ≤ 2 ∧ (2 : ℤ) < order) ∧
      ∃ R x, combination wrappedPoint ((0 : ℤ) / (2 : ℤ)) ((2 : ℤ) / (2 : ℤ)) = .ok R ∧
        R.isInfinity = false ∧ R.x?.map Residue.num = some x ∧ x ≡ 2 [ZMOD order] := by
  have hrange : (1 : ℤ) ≤ 2 ∧ (2 : ℤ) < order := by decide +kernel
  have hx : wrappedPoint.point.x?.map Residue.num = some (order + 2 : ℤ) := by decide +kernel
  refine ⟨?_, reached_wrappedPoint, rfl, hrange, _, _, combination_wrappedPoint, rfl, hx, ?_⟩
  · rw [Bool.eq_false_iff]
    intro h
    obtain ⟨-, R, hR, hxR⟩ := verifies_eq_true_iff.mp h
    rw [map_recovered wrappedPoint 0 (by decide)] at hR
    obtain rfl := Except.ok.inj (combination_wrappedPoint.symm.trans hR)
    have hsame : (order + 2 : ℤ) = 2 := Option.some.inj (hx.symm.trans hxR)
    have hpos := prime_order.pos
    omega
  · exact Int.add_modEq_left

end Signature

end Bitcoin
