import Bitcoin.Curve.Basic
import Bitcoin.Proofs.Curve.Field
import Mathlib.AlgebraicGeometry.EllipticCurve.Affine.Point

/-!
# Points over a prime form the group of the Weierstrass curve

The nonsingular points of `y² = x³ + a x + b` over `ZMod p` are an abelian group. Each of them is
written as a point of the library by `Point.ofGroup`, and for an odd prime the chord-and-tangent
rule and double-and-add compute the sum and the multiples in that group. So whatever is reached
from points of the curve by arithmetic is on the curve, and never an error.

* **`add_ofGroup`**: the chord-and-tangent rule is the addition of the group.
* **`scalarMul_ofGroup`**: double-and-add is the multiple in the group.
* **`contains_ofZMod`**, **`exists_ofGroup`**: coordinates that pass the check belong to a point
  of the group.
-/

namespace Bitcoin.Curve

open WeierstrassCurve

variable {p : ℕ}

/-- The curve with the given coefficients. -/
def ofZMod (a b : ZMod p) : Curve := ⟨Residue.ofZMod a, Residue.ofZMod b, rfl⟩

/-- The curve `y² = x³ + a x + b` as a Weierstrass curve. -/
def weierstrass (a b : ZMod p) : WeierstrassCurve.Affine (ZMod p) := ⟨0, 0, 0, a, b⟩

variable {a b : ZMod p}

/-- The equation of the curve with two coefficients left. -/
theorem equation_iff {x y : ZMod p} :
    (weierstrass a b).Equation x y ↔ y ^ 2 = x ^ 3 + a * x + b := by
  rw [Affine.equation_iff]
  show y ^ 2 + 0 * x * y + 0 * y = x ^ 3 + 0 * x ^ 2 + a * x + b ↔ _
  rw [zero_mul, zero_mul, zero_mul, add_zero, add_zero, add_zero]

theorem negY_eq (x y : ZMod p) : (weierstrass a b).negY x y = -y := by
  show -y - 0 * x - 0 = -y
  rw [zero_mul, sub_zero, sub_zero]

theorem Δ_eq : (weierstrass a b).Δ = -16 * (4 * a ^ 3 + 27 * b ^ 2) := by
  simp only [weierstrass, WeierstrassCurve.Δ, WeierstrassCurve.b₂, WeierstrassCurve.b₄,
    WeierstrassCurve.b₆, WeierstrassCurve.b₈]
  ring

/-! ## Sums in the group -/

section Formulas

variable [Fact p.Prime]

/-- The slope of a chord. -/
theorem slope_chord {x₁ y₁ x₂ y₂ : ZMod p} (hx : x₁ ≠ x₂) :
    (weierstrass a b).slope x₁ x₂ y₁ y₂ = (y₂ - y₁) / (x₂ - x₁) := by
  rw [Affine.slope_of_X_ne hx, ← neg_sub y₂, ← neg_sub x₂, neg_div_neg_eq]

/-- A point whose second coordinate is not half of zero is not its own opposite. -/
theorem ne_negY {x y : ZMod p} (hy : 2 * y ≠ 0) : y ≠ (weierstrass a b).negY x y := by
  rw [negY_eq]
  intro h
  refine hy ?_
  rw [two_mul]
  exact eq_neg_iff_add_eq_zero.mp h

/-- The slope of a tangent. -/
theorem slope_tangent {x y : ZMod p} (hy : 2 * y ≠ 0) :
    (weierstrass a b).slope x x y y = (3 * x ^ 2 + a) / (2 * y) := by
  rw [Affine.slope_of_Y_ne rfl (ne_negY hy), negY_eq]
  show (3 * x ^ 2 + 2 * 0 * x + a - 0 * y) / (y - -y) = _
  congr 1 <;> ring

/-- The sum of two points that are not opposite is the reflected third point of their line. -/
theorem some_add_some {x₁ y₁ x₂ y₂ s : ZMod p} (h₁ : (weierstrass a b).Nonsingular x₁ y₁)
    (h₂ : (weierstrass a b).Nonsingular x₂ y₂)
    (hxy : ¬(x₁ = x₂ ∧ y₁ = (weierstrass a b).negY x₂ y₂))
    (hs : (weierstrass a b).slope x₁ x₂ y₁ y₂ = s) :
    ∃ h, Affine.Point.some x₁ y₁ h₁ + Affine.Point.some x₂ y₂ h₂
      = Affine.Point.some (s ^ 2 - x₁ - x₂) (s * (x₁ - (s ^ 2 - x₁ - x₂)) - y₁) h := by
  have hX : (weierstrass a b).addX x₁ x₂ s = s ^ 2 - x₁ - x₂ := by
    show s ^ 2 + 0 * s - 0 - x₁ - x₂ = _
    ring
  have hY : (weierstrass a b).addY x₁ x₂ y₁ s = s * (x₁ - (s ^ 2 - x₁ - x₂)) - y₁ := by
    rw [Affine.addY, Affine.negAddY, hX, negY_eq]
    ring
  have hadd := Affine.nonsingular_add h₁ h₂ hxy
  rw [hs, hX, hY] at hadd
  refine ⟨hadd, ?_⟩
  rw [Affine.Point.add_some hxy]
  simp only [hs, hX, hY]

end Formulas

/-! ## Arithmetic on residues -/

section Ring

variable [NeZero p]

/-- The right side of the equation is computed in the field. -/
@[simp]
theorem rightSide_ofZMod (x : ZMod p) :
    (ofZMod a b).rightSide (Residue.ofZMod x) = .ok (Residue.ofZMod (x ^ 3 + a * x + b)) := by
  show (((Residue.ofZMod a).mul (Residue.ofZMod x)) >>= fun ax =>
    (((Residue.ofZMod x).natPow 3).add ax) >>= fun sum => sum.add (Residue.ofZMod b)) = _
  rw [Residue.mul_ofZMod, Residue.natPow_ofZMod]
  show ((Residue.ofZMod (x ^ 3)).add (Residue.ofZMod (a * x)) >>= fun sum =>
    sum.add (Residue.ofZMod b)) = _
  rw [Residue.add_ofZMod]
  exact Residue.add_ofZMod _ _

/-- The check of a pair of coordinates decides the equation. -/
theorem contains_ofZMod (x y : ZMod p) :
    (ofZMod a b).contains (Residue.ofZMod x) (Residue.ofZMod y)
      = .ok (decide (y ^ 2 = x ^ 3 + a * x + b)) := by
  rw [contains, rightSide_ofZMod, Residue.natPow_ofZMod]
  exact congrArg Except.ok (decide_eq_decide.mpr Residue.ofZMod_inj)

end Ring

namespace Point

/-- A point of the group. -/
def ofGroup : (weierstrass a b).Point → Point
  | .zero => infinity (ofZMod a b)
  | .some x y _ => affine (ofZMod a b) (Residue.ofZMod x) (Residue.ofZMod y)

@[simp]
theorem curve_ofGroup (P : (weierstrass a b).Point) : (ofGroup P).curve = ofZMod a b := by
  cases P <;> rfl

@[simp]
theorem ofGroup_zero : ofGroup (0 : (weierstrass a b).Point) = infinity (ofZMod a b) := rfl

/-- Coordinates that satisfy the equation belong to a point of the group, as long as the curve has
    no singular point. -/
theorem exists_ofGroup [Fact p.Prime] (hp : p ≠ 2) (hΔ : 4 * a ^ 3 + 27 * b ^ 2 ≠ 0)
    {x y : ZMod p} (h : y ^ 2 = x ^ 3 + a * x + b) :
    ∃ hxy : (weierstrass a b).Nonsingular x y,
      ofGroup (.some x y hxy) = affine (ofZMod a b) (Residue.ofZMod x) (Residue.ofZMod y) := by
  -- away from characteristic two the discriminant vanishes with `4 a³ + 27 b²` only
  have h2 : (2 : ZMod p) ≠ 0 := ZMod.prime_ne_zero p 2 hp
  have h16 : (-16 : ZMod p) ≠ 0 := by
    rw [show (-16 : ZMod p) = -(2 ^ 4) by norm_num]
    exact neg_ne_zero.mpr (pow_ne_zero 4 h2)
  have hne : (weierstrass a b).Δ ≠ 0 := by
    rw [Δ_eq]
    exact mul_ne_zero h16 hΔ
  exact ⟨(Affine.equation_iff_nonsingular_of_Δ_ne_zero hne).mp (equation_iff.mpr h), rfl⟩

section Addition

variable [Fact p.Prime]

/-- The third point of a line through two points, turned over. -/
theorem thirdPoint_ofZMod (c : Curve) (s x₁ y₁ x₂ : ZMod p) :
    thirdPoint c (Residue.ofZMod s) (Residue.ofZMod x₁) (Residue.ofZMod y₁) (Residue.ofZMod x₂)
      = .ok (affine c (Residue.ofZMod (s ^ 2 - x₁ - x₂))
          (Residue.ofZMod (s * (x₁ - (s ^ 2 - x₁ - x₂)) - y₁))) := by
  simp only [thirdPoint, Residue.natPow_ofZMod, Residue.sub_ofZMod, Residue.mul_ofZMod, bind,
    Except.bind]
  rfl

/-- The slope of a tangent that is not vertical. -/
theorem tangentSlope_ofZMod {x y : ZMod p} (hy : 2 * y ≠ 0) :
    tangentSlope (ofZMod a b) (Residue.ofZMod x) (Residue.ofZMod y)
      = .ok (Residue.ofZMod ((3 * x ^ 2 + a) / (2 * y))) := by
  have h3 : x ^ 2 * ((3 : ℕ) : ZMod p) = 3 * x ^ 2 := by rw [mul_comm, Nat.cast_ofNat]
  have h2 : y * ((2 : ℕ) : ZMod p) = 2 * y := by rw [mul_comm, Nat.cast_ofNat]
  show ((((Residue.ofZMod x).natPow 2).scale 3).add (Residue.ofZMod a) >>= fun numerator =>
    numerator.div ((Residue.ofZMod y).scale 2)) = _
  rw [Residue.natPow_ofZMod, Residue.scale_ofZMod, Residue.scale_ofZMod, Residue.add_ofZMod, h3, h2]
  exact Residue.div_ofZMod _ hy

/-- The slope of a chord that is not vertical. -/
theorem chordSlope_ofZMod {x₁ y₁ x₂ y₂ : ZMod p} (hx : x₁ ≠ x₂) :
    chordSlope (Residue.ofZMod x₁) (Residue.ofZMod y₁) (Residue.ofZMod x₂) (Residue.ofZMod y₂)
      = .ok (Residue.ofZMod ((y₂ - y₁) / (x₂ - x₁))) := by
  simp only [chordSlope, Residue.sub_ofZMod, bind, Except.bind]
  exact Residue.div_ofZMod _ (sub_ne_zero.mpr hx.symm)

/-- Two points are added as the elements of the group are: on a vertical line, on a tangent or on a
    chord. -/
theorem addAffine_ofZMod (hp : p ≠ 2) {x₁ y₁ x₂ y₂ : ZMod p}
    (h₁ : (weierstrass a b).Nonsingular x₁ y₁) (h₂ : (weierstrass a b).Nonsingular x₂ y₂) :
    addAffine (ofZMod a b) (Residue.ofZMod x₁) (Residue.ofZMod y₁) (Residue.ofZMod x₂)
        (Residue.ofZMod y₂)
      = .ok (ofGroup (Affine.Point.some x₁ y₁ h₁ + Affine.Point.some x₂ y₂ h₂)) := by
  by_cases hx : x₁ = x₂
  · subst hx
    rw [addAffine, if_pos rfl]
    by_cases hy : Residue.ofZMod y₁ ≠ Residue.ofZMod y₂ ∨ (Residue.ofZMod y₁).num = 0
    · -- the two points are opposite
      have hneg : y₁ = (weierstrass a b).negY x₁ y₂ := by
        rcases hy with hne | hzero
        · have hne' : y₁ ≠ y₂ := fun h => hne (congrArg Residue.ofZMod h)
          exact (Affine.Y_eq_of_X_eq h₁.1 h₂.1 rfl).resolve_left hne'
        · have hy₁ : y₁ = 0 := Residue.num_ofZMod_eq_zero.mp hzero
          rcases Affine.Y_eq_of_X_eq h₁.1 h₂.1 rfl with h | h
          · rw [negY_eq, ← h, hy₁, neg_zero]
          · exact h
      rw [if_pos hy, Affine.Point.add_of_Y_eq rfl hneg]
      rfl
    · -- the two points are the same one, with a tangent that is not vertical
      rw [not_or, not_not] at hy
      obtain rfl := Residue.ofZMod_inj.mp hy.1
      have hy₁ : y₁ ≠ 0 := fun h => hy.2 (Residue.num_ofZMod_eq_zero.mpr h)
      have h2y : 2 * y₁ ≠ 0 := mul_ne_zero (ZMod.prime_ne_zero p 2 hp) hy₁
      obtain ⟨h, hadd⟩ := some_add_some h₁ h₂ (fun h => ne_negY h2y h.2)
        (slope_tangent h2y)
      rw [if_neg (not_or.mpr ⟨not_not.mpr rfl, hy.2⟩), tangentSlope_ofZMod h2y, hadd]
      exact thirdPoint_ofZMod _ _ _ _ _
  · obtain ⟨h, hadd⟩ := some_add_some h₁ h₂ (fun h => hx h.1) (slope_chord hx)
    rw [addAffine, if_neg (mt Residue.ofZMod_inj.mp hx), chordSlope_ofZMod hx, hadd]
    exact thirdPoint_ofZMod _ _ _ _ _

/-- The chord-and-tangent rule is the addition of the group. -/
theorem add_ofGroup (hp : p ≠ 2) (P Q : (weierstrass a b).Point) :
    (ofGroup P).add (ofGroup Q) = .ok (ofGroup (P + Q)) := by
  have hc : ¬(ofGroup P).curve ≠ (ofGroup Q).curve := by
    rw [curve_ofGroup, curve_ofGroup]
    exact not_not.mpr rfl
  rw [add.eq_def, if_neg hc]
  cases P with
  | zero =>
      rw [← Affine.Point.zero_def, zero_add]
      rfl
  | some x₁ y₁ h₁ => cases Q with
    | zero =>
        rw [← Affine.Point.zero_def, add_zero]
        rfl
    | some x₂ y₂ h₂ => exact addAffine_ofZMod hp h₁ h₂

/-- One step of double-and-add takes the lowest bit of the multiple and doubles the point. -/
theorem addMultiple_step (hp : p ≠ 2) (A P : (weierstrass a b).Point) {k : ℕ} (hk : k ≠ 0) :
    addMultiple (ofGroup A) (ofGroup P) k
      = addMultiple (ofGroup (A + (k % 2) • P)) (ofGroup (P + P)) (k / 2) := by
  rw [addMultiple, if_neg hk]
  by_cases hodd : k % 2 = 1
  · rw [if_pos hodd, hodd, one_nsmul]
    simp only [add_ofGroup hp, bind, Except.bind]
  · have hzero : k % 2 = 0 := by omega
    rw [if_neg hodd, hzero, zero_nsmul, add_zero]
    simp only [add_ofGroup hp, bind, Except.bind, pure, Except.pure]

/-- Double-and-add adds a multiple of the group to the accumulator. -/
theorem addMultiple_ofGroup (hp : p ≠ 2) (A P : (weierstrass a b).Point) (k : ℕ) :
    addMultiple (ofGroup A) (ofGroup P) k = .ok (ofGroup (A + k • P)) := by
  -- the accumulator takes the low bit, and twice the point takes the other half of the scalar
  induction k using Nat.strongRecOn generalizing A P with
  | _ k ih =>
      by_cases hk : k = 0
      · rw [addMultiple, if_pos hk, hk, zero_nsmul, add_zero]
        rfl
      · have hlt : k / 2 < k := Nat.div_lt_self (Nat.pos_of_ne_zero hk) (by decide)
        rw [addMultiple_step hp A P hk, ih _ hlt, add_assoc, ← two_nsmul, ← mul_nsmul,
          ← add_nsmul, Nat.mod_add_div]

/-- Double-and-add is the multiple in the group. -/
theorem scalarMul_ofGroup (hp : p ≠ 2) (P : (weierstrass a b).Point) (k : ℕ) :
    (ofGroup P).scalarMul k = .ok (ofGroup (k • P)) := by
  rw [scalarMul, curve_ofGroup, ← ofGroup_zero, addMultiple_ofGroup hp, zero_add]

end Addition

end Point

end Bitcoin.Curve
