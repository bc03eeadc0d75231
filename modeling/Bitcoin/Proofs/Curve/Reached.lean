import Bitcoin.Proofs.Bind
import Bitcoin.Proofs.Curve.Group
import Mathlib.Tactic.NormNum.Prime

/-!
# What is reached on a curve

A point is reached over a curve when it is made from coordinates that pass the check, is at
infinity, or comes out of sums and multiples of such points. Sums do not check the equation again.
Over an odd prime, and for a curve without singular points, they need not: the points that are
reached are exactly the points of the group, so a sum of them is never an error, is on the curve
again, and obeys the laws of an abelian group.

* **`contains_eq_ok_true_iff`**: which coordinates pass the check.
* **`reached_ofZMod_iff`**, **`reached_iff_onCurve`**: what is reached is what is on the curve.
* **`addLaws_of_reached`**: the laws of addition.
-/

namespace Bitcoin.Curve

open WeierstrassCurve

variable {p : ℕ}

/-- A curve over `p` has its coefficients in `ZMod p`. -/
theorem ofZMod_cast_coefficients [NeZero p] {c : Curve} (hc : c.modulus = p) :
    ofZMod (c.a.num : ZMod p) (c.b.num : ZMod p) = c := by
  have ha : c.a.modulus = p := hc
  have hb : c.b.modulus = p := c.modulus_eq.symm.trans hc
  exact Curve.ext (Residue.ofZMod_cast_num ha) (Residue.ofZMod_cast_num hb)

theorem sameField_eq_ok_iff {x y : Residue} :
    Residue.sameField x y = .ok () ↔ x.modulus = y.modulus := by
  rw [Residue.sameField]
  by_cases h : x.modulus = y.modulus
  · rw [if_pos h]
    exact ⟨fun _ => h, fun _ => rfl⟩
  · rw [if_neg h]
    exact ⟨fun h' => (nomatch h'), fun h' => absurd h' h⟩

section Ring

variable [NeZero p] {a b : ZMod p}

/-- Coordinates pass the check when they lie in the field of the curve and satisfy its equation. -/
theorem contains_eq_ok_true_iff {x y : Residue} :
    (ofZMod a b).contains x y = .ok true ↔ ∃ u v : ZMod p,
      Residue.ofZMod u = x ∧ Residue.ofZMod v = y ∧ v ^ 2 = u ^ 3 + a * u + b := by
  constructor
  · intro h
    obtain ⟨right, hright, heq⟩ := Except.bind_eq_ok_iff.mp h
    have hpow : y.natPow 2 = right := of_decide_eq_true (Except.ok.inj heq)
    -- the first product already compares the field of `x` with that of the curve
    obtain ⟨ax, hax, -⟩ := Except.bind_eq_ok_iff.mp hright
    obtain ⟨_, hfield, -⟩ := Except.bind_eq_ok_iff.mp hax
    have hx : x.modulus = p := (sameField_eq_ok_iff.mp hfield).symm
    have hxz := Residue.ofZMod_cast_num hx
    rw [← hxz, rightSide_ofZMod] at hright
    have hy : y.modulus = p := by
      show (y.natPow 2).modulus = p
      rw [hpow, ← Except.ok.inj hright, Residue.modulus_ofZMod]
    have hyz := Residue.ofZMod_cast_num hy
    rw [← hxz, ← hyz, contains_ofZMod] at h
    exact ⟨_, _, hxz, hyz, of_decide_eq_true (Except.ok.inj h)⟩
  · rintro ⟨u, v, rfl, rfl, huv⟩
    rw [contains_ofZMod, decide_eq_true huv]

end Ring

namespace Point

/-- Is at infinity, or passes the check of its coordinates. -/
def OnCurve (c : Curve) : Point → Prop
  | infinity d => d = c
  | affine d x y => d = c ∧ c.contains x y = .ok true

/-- Comes out of constructors and arithmetic over a curve. -/
inductive Reached (c : Curve) : Point → Prop
  | infinity : Reached c (.infinity c)
  | ofCoordinates {x y : Residue} {P : Point} (h : ofCoordinates c x y = .ok P) : Reached c P
  | add {P Q R : Point} (hP : Reached c P) (hQ : Reached c Q) (h : P.add Q = .ok R) : Reached c R
  | scalarMul {P R : Point} {k : ℕ} (hP : Reached c P) (h : P.scalarMul k = .ok R) : Reached c R

/-- Coordinates are accepted when they satisfy the equation. -/
theorem ofCoordinates_eq_ok_iff {c : Curve} {x y : Residue} {P : Point} :
    ofCoordinates c x y = .ok P ↔ c.contains x y = .ok true ∧ P = affine c x y := by
  constructor
  · intro h
    obtain ⟨holds, hcontains, h⟩ := Except.bind_eq_ok_iff.mp h
    cases holds with
    | false => exact nomatch h
    | true => exact ⟨hcontains, (Except.ok.inj h).symm⟩
  · rintro ⟨hcontains, rfl⟩
    exact Except.bind_eq_ok_iff.mpr ⟨true, hcontains, rfl⟩

/-- The reflection of a point in the first axis. -/
def opposite : Point → Point
  | infinity c => infinity c
  | affine c x y => affine c x (Residue.reduce (-y.num) y.modulus)

section Group

variable [Fact p.Prime] {a b : ZMod p}

theorem opposite_ofGroup (g : (weierstrass a b).Point) : (ofGroup g).opposite = ofGroup (-g) := by
  cases g with
  | zero => rfl
  | some x y h =>
      have hneg : Residue.reduce (-(Residue.ofZMod y).num) p = Residue.ofZMod (-y) := by
        refine Residue.reduce_cast_eq_ofZMod ?_
        rw [Int.cast_neg, Residue.cast_num_ofZMod]
      rw [Affine.Point.neg_some]
      simp only [ofGroup, opposite, Residue.modulus_ofZMod, hneg, negY_eq]

variable (hp : p ≠ 2) (hΔ : 4 * a ^ 3 + 27 * b ^ 2 ≠ 0)

include hΔ hp

/-- The points on the curve are those of the group. -/
theorem onCurve_ofZMod_iff {P : Point} :
    OnCurve (Curve.ofZMod a b) P ↔ ∃ g : (weierstrass a b).Point, ofGroup g = P := by
  constructor
  · intro h
    cases P with
    | infinity d =>
        obtain rfl : d = Curve.ofZMod a b := h
        exact ⟨0, rfl⟩
    | affine d x y =>
        obtain ⟨rfl, hcontains⟩ := h
        obtain ⟨u, v, rfl, rfl, huv⟩ := contains_eq_ok_true_iff.mp hcontains
        obtain ⟨hns, hg⟩ := exists_ofGroup hp hΔ huv
        exact ⟨_, hg⟩
  · rintro ⟨g, rfl⟩
    cases g with
    | zero => rfl
    | some x y h =>
        exact ⟨rfl, contains_eq_ok_true_iff.mpr ⟨x, y, rfl, rfl, equation_iff.mp h.1⟩⟩

/-- Nothing but points of the group is reached. -/
theorem reached_ofZMod_iff {P : Point} :
    Reached (Curve.ofZMod a b) P ↔ ∃ g : (weierstrass a b).Point, ofGroup g = P := by
  constructor
  · intro h
    induction h with
    | infinity => exact ⟨0, rfl⟩
    | ofCoordinates h =>
        obtain ⟨hcontains, rfl⟩ := ofCoordinates_eq_ok_iff.mp h
        exact (onCurve_ofZMod_iff hp hΔ).mp ⟨rfl, hcontains⟩
    | add _ _ h ihP ihQ =>
        obtain ⟨g, rfl⟩ := ihP
        obtain ⟨g', rfl⟩ := ihQ
        rw [add_ofGroup hp] at h
        exact ⟨g + g', Except.ok.inj h⟩
    | @scalarMul _ _ k _ h ih =>
        obtain ⟨g, rfl⟩ := ih
        rw [scalarMul_ofGroup hp] at h
        exact ⟨k • g, Except.ok.inj h⟩
  · intro h
    have hon := (onCurve_ofZMod_iff hp hΔ).mpr h
    cases P with
    | infinity d =>
        obtain rfl : d = Curve.ofZMod a b := hon
        exact .infinity
    | affine d x y =>
        obtain ⟨rfl, hcontains⟩ := hon
        exact .ofCoordinates (ofCoordinates_eq_ok_iff.mpr ⟨hcontains, rfl⟩)

end Group

/-! ## The laws of addition -/

variable {c : Curve}

/-- A curve over a prime is given by two classes, and its discriminant is not zero when the prime
    does not divide it. -/
theorem exists_coefficients [NeZero p] (hc : c.modulus = p)
    (hΔ : ¬(p : ℤ) ∣ 4 * c.a.num ^ 3 + 27 * c.b.num ^ 2) :
    ∃ a b : ZMod p, c = Curve.ofZMod a b ∧ 4 * a ^ 3 + 27 * b ^ 2 ≠ 0 := by
  refine ⟨_, _, (ofZMod_cast_coefficients hc).symm, ?_⟩
  rw [← ZMod.intCast_zmod_eq_zero_iff_dvd] at hΔ
  push_cast at hΔ
  exact hΔ

/-- What is reached is what is on the curve. -/
theorem reached_iff_onCurve (hp : p.Prime) (h2 : p ≠ 2) (hc : c.modulus = p)
    (hΔ : ¬(p : ℤ) ∣ 4 * c.a.num ^ 3 + 27 * c.b.num ^ 2) {P : Point} :
    Reached c P ↔ OnCurve c P := by
  have : Fact p.Prime := ⟨hp⟩
  obtain ⟨a, b, rfl, hab⟩ := exists_coefficients hc hΔ
  rw [reached_ofZMod_iff h2 hab, onCurve_ofZMod_iff h2 hab]

/-- The laws of an abelian group at three points of a curve, with a sum that is no error. -/
structure AddLaws (c : Curve) (P Q R : Point) : Prop where
  closed : ∃ S, P.add Q = .ok S ∧ Reached c S ∧ OnCurve c S
  comm : P.add Q = Q.add P
  assoc : ∃ S T U, P.add Q = .ok S ∧ Q.add R = .ok T ∧ S.add R = .ok U ∧ P.add T = .ok U
  identity : (infinity c).add P = .ok P ∧ P.add (infinity c) = .ok P
  inverse : Reached c P.opposite ∧ P.add P.opposite = .ok (infinity c) ∧
    P.opposite.add P = .ok (infinity c)

/-- Over an odd prime and without singular points, the points that are reached obey the laws of an
    abelian group. -/
theorem addLaws_of_reached (hp : p.Prime) (h2 : p ≠ 2) (hc : c.modulus = p)
    (hΔ : ¬(p : ℤ) ∣ 4 * c.a.num ^ 3 + 27 * c.b.num ^ 2) {P Q R : Point}
    (hP : Reached c P) (hQ : Reached c Q) (hR : Reached c R) : AddLaws c P Q R := by
  have : Fact p.Prime := ⟨hp⟩
  obtain ⟨a, b, rfl, hab⟩ := exists_coefficients hc hΔ
  have hreached := fun {P : Point} => reached_ofZMod_iff (P := P) h2 hab
  obtain ⟨f, rfl⟩ := hreached.mp hP
  obtain ⟨g, rfl⟩ := hreached.mp hQ
  obtain ⟨h, rfl⟩ := hreached.mp hR
  -- each law is that of the group, read through `ofGroup`
  constructor
  case closed =>
    exact ⟨ofGroup (f + g), add_ofGroup h2 f g, hreached.mpr ⟨_, rfl⟩,
      (onCurve_ofZMod_iff h2 hab).mpr ⟨_, rfl⟩⟩
  case comm => rw [add_ofGroup h2, add_ofGroup h2, add_comm]
  case assoc =>
    refine ⟨ofGroup (f + g), ofGroup (g + h), ofGroup (f + g + h), ?_, ?_, ?_, ?_⟩
    · exact add_ofGroup h2 f g
    · exact add_ofGroup h2 g h
    · exact add_ofGroup h2 (f + g) h
    · rw [add_ofGroup h2, add_assoc]
  case identity =>
    rw [← ofGroup_zero, add_ofGroup h2, add_ofGroup h2, zero_add, add_zero]
    exact ⟨rfl, rfl⟩
  case inverse =>
    rw [opposite_ofGroup, add_ofGroup h2, add_ofGroup h2, add_neg_cancel, neg_add_cancel]
    exact ⟨hreached.mpr ⟨_, rfl⟩, rfl, rfl⟩

/-- The curve `y² = x³ + 7` over a small prime. -/
def smallCurve : Curve := ⟨Residue.reduce 0 223, Residue.reduce 7 223, rfl⟩

/-- The point of that curve with the given coordinates. -/
def smallPoint (x y : ℤ) : Point :=
  affine smallCurve (Residue.reduce x 223) (Residue.reduce y 223)

/-- Three points of a curve over a small prime. -/
theorem addLaws_of_reached_small :
    (Nat.Prime 223 ∧ 223 ≠ 2 ∧ smallCurve.modulus = (223 : ℕ) ∧
      ¬((223 : ℕ) : ℤ) ∣ 4 * smallCurve.a.num ^ 3 + 27 * smallCurve.b.num ^ 2 ∧
      Reached smallCurve (smallPoint 192 105) ∧ Reached smallCurve (smallPoint 17 56) ∧
      Reached smallCurve (smallPoint 47 71)) ∧
    AddLaws smallCurve (smallPoint 192 105) (smallPoint 17 56) (smallPoint 47 71) := by
  have hp : Nat.Prime 223 := by norm_num
  have hΔ : ¬((223 : ℕ) : ℤ) ∣ 4 * smallCurve.a.num ^ 3 + 27 * smallCurve.b.num ^ 2 := by decide
  have hreached : ∀ {x y : ℤ}, ofCoordinates smallCurve (Residue.reduce x 223)
      (Residue.reduce y 223) = .ok (smallPoint x y) → Reached smallCurve (smallPoint x y) :=
    fun h => .ofCoordinates h
  have hP : Reached smallCurve (smallPoint 192 105) := hreached (by decide +kernel)
  have hQ : Reached smallCurve (smallPoint 17 56) := hreached (by decide +kernel)
  have hR : Reached smallCurve (smallPoint 47 71) := hreached (by decide +kernel)
  exact ⟨⟨hp, by decide, rfl, hΔ, hP, hQ, hR⟩, addLaws_of_reached hp (by decide) rfl hΔ hP hQ hR⟩

end Point

end Bitcoin.Curve
