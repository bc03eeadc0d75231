import Bitcoin.Proofs.Key.Order

/-!
# Public points as points of the group

`Point.ofGroup` writes a point of the group of `y² = x³ + 7` as a public point. Sums are those of
the group, and so are multiples of a point that the order annihilates, for which it does not
matter that the scalar is reduced first.

* **`add_ofGroup`**, **`mul_ofGroup`**: arithmetic on public points is that of the group.
* **`x?_ofGroup_neg`**: opposite points share their first coordinate.
-/

namespace Bitcoin.Secp256k1

open WeierstrassCurve Bitcoin.Curve

/-- The inverse of a scalar is its inverse modulo the order, and zero for zero. -/
theorem cast_scalarInverse (k : ℕ) : (scalarInverse k : ZMod order) = (k : ZMod order)⁻¹ := by
  have hpos : order - 2 ≠ 0 := by decide +kernel
  rw [scalarInverse, Residue.cast_powMod]
  by_cases hk : (k : ZMod order) = 0
  · rw [hk, zero_pow hpos, inv_zero]
  · exact Residue.pow_sub_two_eq_inv hk

namespace Point

/-- A point of the group as a public point. -/
def ofGroup (P : Group) : Point where
  point := Curve.Point.ofGroup P
  curve_eq := (Curve.Point.curve_ofGroup P).trans curve_eq_ofZMod.symm

theorem ofGroup_base : ofGroup base = generator := Point.ext generator_eq.symm

/-- A computed point of the group is a public point, whatever shows that it is over the curve. -/
theorem attach_eq_ok {result : Except Error Curve.Point} {P : Group}
    (hcurve : ∀ r, result = .ok r → r.curve = curve)
    (h : result = .ok (Curve.Point.ofGroup P)) :
    (match hr : result with
      | .ok r => (.ok ⟨r, hcurve r hr⟩ : Except Error Point)
      | .error e => .error e) = .ok (ofGroup P) := by
  subst h
  rfl

/-- The sum of public points is that of the group. -/
theorem add_ofGroup (P Q : Group) : (ofGroup P).add (ofGroup Q) = .ok (ofGroup (P + Q)) := by
  have hsum : (ofGroup P).point.add (ofGroup Q).point = .ok (Curve.Point.ofGroup (P + Q)) :=
    Curve.Point.add_ofGroup fieldPrime_ne_two P Q
  exact attach_eq_ok (fun r h => (Curve.Point.curve_add h).1.trans (ofGroup P).curve_eq) hsum

/-- The multiple of a public point is that of the group, when the order annihilates the point. -/
theorem mul_ofGroup {P : Group} (hP : order • P = 0) (k : ℤ) :
    (ofGroup P).mul k = .ok (ofGroup (k • P)) := by
  have hpos : (order : ℤ) ≠ 0 := by decide +kernel
  have hreduce : (k % order).toNat • P = k • P := by
    rw [← natCast_zsmul, Int.toNat_of_nonneg (Int.emod_nonneg k hpos)]
    exact zsmul_congr hP (ZMod.intCast_mod k order)
  have hmul : (ofGroup P).point.scalarMul (k % order).toNat
      = .ok (Curve.Point.ofGroup (k • P)) := by
    rw [← hreduce]
    exact Curve.Point.scalarMul_ofGroup fieldPrime_ne_two P _
  exact attach_eq_ok (fun r h => (Curve.Point.curve_scalarMul h).trans (ofGroup P).curve_eq) hmul

theorem mul_generator (k : ℤ) : generator.mul k = .ok (ofGroup (k • base)) := by
  rw [← ofGroup_base]
  exact mul_ofGroup order_smul_base k

/-- A point of the group has no first coordinate exactly when it is zero. -/
theorem x?_ofGroup_eq_none_iff {P : Group} : (ofGroup P).x? = none ↔ P = 0 := by
  constructor
  · intro h
    cases P with
    | zero => rfl
    | some x y hxy => cases h
  · rintro rfl
    rfl

/-- Opposite points share their first coordinate. -/
theorem x?_ofGroup_neg (P : Group) : (ofGroup (-P)).x? = (ofGroup P).x? := by
  cases P <;> rfl

end Point

end Bitcoin.Secp256k1
