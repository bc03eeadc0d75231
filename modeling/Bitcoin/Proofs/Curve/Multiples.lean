import Bitcoin.Proofs.Curve.Reached

/-!
# Multiples of a point

Double-and-add keeps a partial sum and a point that is doubled once for every bit, the last
doubling for nothing. On a curve without singular points over an odd prime it never fails and gives
the point added to infinity as many times as the scalar says, whatever the order of the point.

* **`addRepeatedly_ofGroup`**: repeated addition is the multiple in the group.
* **`multipleLaws_of_reached`**: double-and-add is repeated addition; multiples of a sum and of a
  product.
-/

namespace Bitcoin.Curve.Point

variable {p : ℕ}

/-- Infinity with the point added `k` times. -/
def addRepeatedly (P : Point) : ℕ → Except Error Point
  | 0 => .ok (infinity P.curve)
  | k + 1 => do
      let sum ← P.addRepeatedly k
      sum.add P

/-- What double-and-add gives for the scalars of a point. -/
structure MultipleLaws (P : Point) : Prop where
  repeated : ∀ k, ∃ R, P.scalarMul k = .ok R ∧ P.addRepeatedly k = .ok R
  add : ∀ j k, ∃ R S T, P.scalarMul j = .ok R ∧ P.scalarMul k = .ok S ∧
    P.scalarMul (j + k) = .ok T ∧ R.add S = .ok T
  mul : ∀ j k, ∃ R T, P.scalarMul k = .ok R ∧ P.scalarMul (j * k) = .ok T ∧ R.scalarMul j = .ok T

section Group

variable [Fact p.Prime] {a b : ZMod p} (hp : p ≠ 2) (g : (weierstrass a b).Point)

include hp

/-- Repeated addition is the multiple in the group. -/
theorem addRepeatedly_ofGroup (k : ℕ) : (ofGroup g).addRepeatedly k = .ok (ofGroup (k • g)) := by
  induction k with
  | zero => rw [addRepeatedly, curve_ofGroup, zero_nsmul, ofGroup_zero]
  | succ k ih =>
      rw [addRepeatedly, ih, succ_nsmul]
      exact add_ofGroup hp (k • g) g

theorem multipleLaws_ofGroup : MultipleLaws (ofGroup g) := by
  have hmul := scalarMul_ofGroup (a := a) (b := b) hp
  constructor
  case repeated =>
    intro k
    exact ⟨ofGroup (k • g), hmul g k, addRepeatedly_ofGroup hp g k⟩
  case add =>
    intro j k
    refine ⟨ofGroup (j • g), ofGroup (k • g), ofGroup ((j + k) • g), hmul g j, hmul g k,
      hmul g (j + k), ?_⟩
    rw [add_ofGroup hp, add_nsmul]
  case mul =>
    intro j k
    refine ⟨ofGroup (k • g), ofGroup ((j * k) • g), hmul g k, hmul g (j * k), ?_⟩
    rw [hmul, ← mul_nsmul, mul_comm]

end Group

/-- Over an odd prime and without singular points, double-and-add is repeated addition for every
    point that is reached and every scalar. -/
theorem multipleLaws_of_reached (hp : p.Prime) (h2 : p ≠ 2) {c : Curve} (hc : c.modulus = p)
    (hΔ : ¬(p : ℤ) ∣ 4 * c.a.num ^ 3 + 27 * c.b.num ^ 2) {P : Point} (hP : Reached c P) :
    MultipleLaws P := by
  have : Fact p.Prime := ⟨hp⟩
  obtain ⟨a, b, rfl, hab⟩ := exists_coefficients hc hΔ
  obtain ⟨g, rfl⟩ := (reached_ofZMod_iff h2 hab).mp hP
  exact multipleLaws_ofGroup h2 g

/-- A point with `y = 0` is its own opposite: every doubling of it is at infinity. -/
theorem multipleLaws_of_reached_small :
    (Nat.Prime 223 ∧ 223 ≠ 2 ∧ smallCurve.modulus = (223 : ℕ) ∧
      ¬((223 : ℕ) : ℤ) ∣ 4 * smallCurve.a.num ^ 3 + 27 * smallCurve.b.num ^ 2 ∧
      Reached smallCurve (smallPoint 6 0)) ∧
    MultipleLaws (smallPoint 6 0) := by
  have hp : Nat.Prime 223 := by norm_num
  have hΔ : ¬((223 : ℕ) : ℤ) ∣ 4 * smallCurve.a.num ^ 3 + 27 * smallCurve.b.num ^ 2 := by decide
  have hP : ofCoordinates smallCurve (Residue.reduce 6 223) (Residue.reduce 0 223)
      = .ok (smallPoint 6 0) := by decide +kernel
  exact ⟨⟨hp, by decide, rfl, hΔ, .ofCoordinates hP⟩,
    multipleLaws_of_reached hp (by decide) rfl hΔ (.ofCoordinates hP)⟩

end Bitcoin.Curve.Point
