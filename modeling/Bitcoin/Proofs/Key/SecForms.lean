import Bitcoin.Proofs.Key.Sec

/-!
# Which byte strings are public points

A finite point of the curve has two byte forms, and a byte string is read exactly when it is one of
them. What is read can be written again because nothing is lost on the way: a coordinate is below
the modulus and fills its block, the marker of the short form is the parity of the second coordinate
that was chosen, and the opposite of a root has the other parity. A power stands for the root also
where there is none, but the coordinates are checked afterwards.

* **`sec_of_ofSec`**: what is read is written as it was.
* **`exists_decompress_iff`**, **`decompress_of_not_isSquare`**: which first coordinates belong to a
  point, and how the others are refused.
* **`FiniteOnCurve.exists_sec`**: a finite point of the curve is read back from either form.
* **`ofSec_eq_ok_iff`**: the byte strings that are read, and the forms that give them back.
-/

namespace Bitcoin

/-- A block of 32 bytes is written again from the number that it denotes. -/
theorem scalarBlock_beValue {bs : Bytes} (h : bs.length = 32) :
    (scalarBlock (beValue bs)).toBytes = bs := by
  show beFixed 32 (beValue bs) = bs
  rw [← h, beFixed_beValue]

namespace Secp256k1.Point

open WeierstrassCurve Bitcoin.Curve

/-! ## What is read is written as it was -/

/-- The long form of a finite point. -/
theorem sec_long {q : Point} {x y : Residue} (h : q.point = .affine curve x y) :
    q.sec false = .ok (0x04 :: ((scalarBlock x.num).toBytes ++ (scalarBlock y.num).toBytes)) := by
  rw [sec, coordinates, h]
  rfl

/-- A long form that is read is written as it was. -/
theorem sec_of_ofCoordinates {body : Bytes} {q : Point} (hlength : body.length = 64)
    (h : ofCoordinates (beValue (body.take 32)) (beValue (body.drop 32)) = .ok q) :
    q.sec false = .ok (0x04 :: body) := by
  obtain ⟨x, y, -, hpoint, hx, hy⟩ := exists_coordinates_of_ofCoordinates h
  have htake : (body.take 32).length = 32 := by
    rw [List.length_take]
    omega
  have hdrop : (body.drop 32).length = 32 := by
    rw [List.length_drop]
    omega
  rw [sec_long hpoint, hx, hy, scalarBlock_beValue htake, scalarBlock_beValue hdrop,
    List.take_append_drop]

/-- A short form that is read is written as it was. -/
theorem sec_of_decompress {even : Bool} {body : Bytes} {q : Point} (hlength : body.length = 32)
    (h : decompress even (beValue body) = .ok q) :
    q.sec true = .ok ((if even then 0x02 else 0x03) :: body) := by
  obtain ⟨x, y, -, hpoint, hx, hy⟩ := exists_coordinates_of_decompress h
  rw [sec_short hpoint, hx, hy, scalarBlock_beValue hlength]

/-- What is read is written as it was, in the short form when it has the length of that. -/
theorem sec_of_ofSec {bs : Bytes} {q : Point} (h : ofSec bs = .ok q) :
    q.sec (decide (bs.length = 33)) = .ok bs := by
  rcases exists_body_of_ofSec h with ⟨body, rfl, hlength, hread⟩ | ⟨even, body, rfl, hlength, hread⟩
  · rw [List.length_cons, hlength]
    exact sec_of_ofCoordinates hlength hread
  · rw [List.length_cons, hlength]
    exact sec_of_decompress hlength hread

/-! ## Points of the curve are read back -/

theorem ofCoordinates_val {x y : ZMod fieldPrime}
    (h : (weierstrass (0 : ZMod fieldPrime) 7).Nonsingular x y) :
    ofCoordinates x.val y.val = .ok (ofGroup (.some x y h)) := by
  rw [ofCoordinates, Residue.ofInt_val, Residue.ofInt_val]
  exact ofCoordinates_bind_ofPoint h

theorem ofSec_long (x y : FixedBytes 32) :
    ofSec (0x04 :: (x.toBytes ++ y.toBytes)) = ofCoordinates (beValue x.toBytes) (beValue y.toBytes) := by
  have hlength : (x.toBytes ++ y.toBytes).length = 64 := by
    rw [List.length_append, x.length_toBytes, y.length_toBytes]
  rw [ofSec, if_pos rfl, if_pos hlength, List.take_left' x.length_toBytes,
    List.drop_left' x.length_toBytes]

/-- A finite point of the group is read back from its long form. -/
theorem exists_sec_long {P : Group} (hP : P ≠ 0) :
    ∃ bs, (ofGroup P).sec false = .ok bs ∧ ofSec bs = .ok (ofGroup P) := by
  cases P with
  | zero => exact absurd rfl hP
  | some x y h =>
      refine ⟨_, sec_long (point_ofGroup_some h), ?_⟩
      rw [ofSec_long, Residue.num_ofZMod, Residue.num_ofZMod, beValue_coordinate,
        beValue_coordinate]
      exact ofCoordinates_val h

/-! ## First coordinates without a point -/

/-- Where the right side is not a square no second coordinate passes the check. -/
theorem ofCoordinates_of_not_isSquare {x : ZMod fieldPrime} (h : ¬ IsSquare (x ^ 3 + 7))
    (y : ZMod fieldPrime) :
    Curve.Point.ofCoordinates curve (Residue.ofZMod x) (Residue.ofZMod y)
      = .error (.notOnCurve x.val y.val) := by
  have hne : ¬ y ^ 2 = x ^ 3 + 0 * x + 7 := by
    intro heq
    rw [zero_mul, add_zero] at heq
    exact h ⟨y, by rw [← heq, sq]⟩
  rw [Curve.Point.ofCoordinates, curve_eq_ofZMod, contains_ofZMod, decide_eq_false hne,
    Residue.num_ofZMod, Residue.num_ofZMod]
  rfl

/-- A first coordinate without a point is refused by the equation: what is taken for a root, and the
    modulus less it, are numbers in range. -/
theorem decompress_of_not_isSquare {x : ZMod fieldPrime} (h : ¬ IsSquare (x ^ 3 + 7))
    (even : Bool) : ∃ y, decompress even x.val = .error (.notOnCurve x.val y) := by
  obtain ⟨t, ht, hroot⟩ := Residue.exists_sqrt_of_ne_zero (cube_add_seven_ne_zero x)
  refine ⟨(if decide (t.val % 2 = 0) = even then t else -t).val, ?_⟩
  rw [decompress_of_sqrt ht hroot, ofCoordinates_of_not_isSquare h]
  rfl

/-- A second coordinate of either parity is recovered exactly where the right side is a square. -/
theorem exists_decompress_iff {x : ZMod fieldPrime} (even : Bool) :
    (∃ q, decompress even x.val = .ok q) ↔ IsSquare (x ^ 3 + 7) := by
  constructor
  · rintro ⟨q, hq⟩
    by_contra h
    obtain ⟨y, hy⟩ := decompress_of_not_isSquare h even
    exact nomatch hy.symm.trans hq
  · rintro ⟨y, hy⟩
    have heq : y ^ 2 = x ^ 3 + 7 := by rw [hy, sq]
    have hneg := val_neg (second_ne_zero heq)
    -- one of the two roots has the parity that is asked for
    obtain ⟨z, hz, hparity⟩ : ∃ z : ZMod fieldPrime, z ^ 2 = x ^ 3 + 0 * x + 7 ∧
        decide (z.val % 2 = 0) = even := by
      rw [zero_mul, add_zero]
      by_cases hy : decide (y.val % 2 = 0) = even
      · exact ⟨y, heq, hy⟩
      · refine ⟨-y, by rw [neg_sq, heq], ?_⟩
        rw [decide_eq_decide.mpr hneg.2, decide_not]
        exact Bool.not_eq.mpr hy
    obtain ⟨hxz, -⟩ :=
      Curve.Point.exists_ofGroup fieldPrime_ne_two discriminant_ne_zero hz
    exact ⟨_, hparity ▸ decompress_val hxz⟩

/-! ## The byte strings that are read -/

/-- Lies on the curve and is not infinity. -/
def FiniteOnCurve (q : Point) : Prop :=
  q.point.isInfinity = false ∧ Curve.Point.OnCurve curve q.point

/-- The finite points of the curve are those of the group but infinity. -/
theorem finiteOnCurve_iff {q : Point} : q.FiniteOnCurve ↔ ∃ P : Group, P ≠ 0 ∧ ofGroup P = q := by
  rw [FiniteOnCurve, curve_eq_ofZMod, Curve.Point.onCurve_ofZMod_iff fieldPrime_ne_two
    discriminant_ne_zero]
  constructor
  · rintro ⟨hfinite, P, hP⟩
    obtain rfl : ofGroup P = q := Point.ext hP
    exact ⟨P, isInfinity_ofGroup.mp hfinite, rfl⟩
  · rintro ⟨P, hP, rfl⟩
    exact ⟨isInfinity_ofGroup.mpr hP, P, rfl⟩

/-- A finite point of the curve is read back from either form. -/
theorem FiniteOnCurve.exists_sec {q : Point} (hq : q.FiniteOnCurve) (compressed : Bool) :
    ∃ bs, q.sec compressed = .ok bs ∧ ofSec bs = .ok q := by
  obtain ⟨P, hP, rfl⟩ := finiteOnCurve_iff.mp hq
  cases compressed with
  | true => exact Point.exists_sec hP
  | false => exact exists_sec_long hP

/-- What is read is a finite point of the curve. -/
theorem finiteOnCurve_of_ofSec {bs : Bytes} {q : Point} (h : ofSec bs = .ok q) :
    q.FiniteOnCurve := by
  obtain ⟨P, rfl⟩ := reached_point_iff.mp (reached_point_of_ofSec h)
  refine finiteOnCurve_iff.mpr ⟨P, ?_, rfl⟩
  -- infinity has no byte form, and what is read has one
  rintro rfl
  exact nomatch sec_of_ofSec h

/-- A byte string is read as a point exactly when the point is a finite one of the curve and the
    string is its short form or its long one. So both forms of a finite point are read back, and
    what is read is given back by the form that has its length. -/
theorem ofSec_eq_ok_iff (bs : Bytes) (q : Point) :
    (ofSec bs = .ok q ↔ q.FiniteOnCurve ∧ (q.sec true = .ok bs ∨ q.sec false = .ok bs)) ∧
      (q.FiniteOnCurve → ∀ compressed, ∃ form, q.sec compressed = .ok form ∧ ofSec form = .ok q) ∧
      (ofSec bs = .ok q → q.sec (decide (bs.length = 33)) = .ok bs) := by
  refine ⟨⟨fun h => ⟨finiteOnCurve_of_ofSec h, ?_⟩, ?_⟩, fun hq => hq.exists_sec, sec_of_ofSec⟩
  · have hform := sec_of_ofSec h
    cases hshort : decide (bs.length = 33) with
    | true => exact .inl (hshort ▸ hform)
    | false => exact .inr (hshort ▸ hform)
  · rintro ⟨hq, hform⟩
    -- the form of a point is one byte string
    have hread : ∀ {compressed : Bool}, q.sec compressed = .ok bs → ofSec bs = .ok q := by
      intro compressed h
      obtain ⟨form, hsec, hofSec⟩ := hq.exists_sec compressed
      obtain rfl := Except.ok.inj (hsec.symm.trans h)
      exact hofSec
    exact hform.elim hread hread

theorem ofSec_eq_ok_iff_generator :
    generator.FiniteOnCurve ∧ ∃ form, generator.sec false = .ok form ∧ ofSec form = .ok generator ∧
      generator.sec (decide (form.length = 33)) = .ok form := by
  have hfinite : generator.FiniteOnCurve := finiteOnCurve_iff.mpr ⟨base, base_ne_zero, ofGroup_base⟩
  obtain ⟨form, hsec, hread⟩ := (ofSec_eq_ok_iff [] generator).2.1 hfinite false
  exact ⟨hfinite, form, hsec, hread, (ofSec_eq_ok_iff form generator).2.2 hread⟩

end Secp256k1.Point

end Bitcoin
