import Bitcoin.Proofs.Bind
import Bitcoin.Proofs.Bytes.Numeral
import Bitcoin.Proofs.Curve.Roots
import Bitcoin.Proofs.Key.Reached

/-!
# The short byte form of a public point

The short form keeps the first coordinate and the parity of the second. Of the two roots of
`x³ + 7` one is even and one is odd, because their sum is the odd modulus and neither is zero; so
the parity gives the second coordinate back.

* **`length_of_sec`**: the short form has 33 bytes.
* **`decompress_val`**: the second coordinate is recovered.
* **`exists_sec`**: a finite point is read back from its short form.
-/

namespace Bitcoin

/-- A number of at most 256 bits is read back from the block in which it is stored. -/
theorem beValue_scalarBlock {n : ℕ} (h : n < 256 ^ 32) : beValue (scalarBlock n).toBytes = n := by
  show leValue (leFixed 32 n).reverse.reverse = n
  rw [List.reverse_reverse, leValue_leFixed, Nat.mod_eq_of_lt h]

namespace Secp256k1

open WeierstrassCurve Bitcoin.Curve

/-- A coordinate fits into its block. -/
theorem beValue_coordinate (x : ZMod fieldPrime) : beValue (scalarBlock x.val).toBytes = x.val := by
  have hsize : fieldPrime < 256 ^ 32 := by decide +kernel
  exact beValue_scalarBlock (x.val_lt.trans hsize)

/-- The equation of the curve. -/
theorem equation_seven {x y : ZMod fieldPrime}
    (h : (weierstrass (0 : ZMod fieldPrime) 7).Nonsingular x y) : y ^ 2 = x ^ 3 + 7 := by
  have heq := equation_iff.mp h.1
  rwa [zero_mul, add_zero] at heq

/-- No point has zero for its second coordinate. -/
theorem second_ne_zero {x y : ZMod fieldPrime} (h : y ^ 2 = x ^ 3 + 7) : y ≠ 0 := by
  rintro rfl
  rw [zero_pow two_ne_zero] at h
  exact cube_add_seven_ne_zero x h.symm

/-- Of a number and its opposite one is even and one is odd. -/
theorem val_neg {y : ZMod fieldPrime} (hy : y ≠ 0) :
    (-y).val + y.val = fieldPrime ∧ ((-y).val % 2 = 0 ↔ ¬ y.val % 2 = 0) := by
  have hmod := fieldPrime_mod_four
  have hlt := y.val_lt
  rw [ZMod.neg_val, if_neg hy]
  omega

namespace Point

/-- The short form has 33 bytes. -/
theorem length_of_sec {p : Point} {bs : Bytes} (h : p.sec true = .ok bs) : bs.length = 33 := by
  obtain ⟨⟨x, y⟩, -, hbs⟩ := Except.bind_eq_ok_iff.mp h
  obtain rfl := Except.ok.inj hbs
  exact congrArg Nat.succ (scalarBlock x).length_toBytes

theorem point_ofGroup_some {x y : ZMod fieldPrime}
    (h : (weierstrass (0 : ZMod fieldPrime) 7).Nonsingular x y) :
    (ofGroup (.some x y h)).point = .affine curve (Residue.ofZMod x) (Residue.ofZMod y) := by
  rw [curve_eq_ofZMod]
  rfl

/-- Coordinates of a point of the group pass the check. -/
theorem ofCoordinates_bind_ofPoint {x y : ZMod fieldPrime}
    (h : (weierstrass (0 : ZMod fieldPrime) 7).Nonsingular x y) :
    (Curve.Point.ofCoordinates curve (Residue.ofZMod x) (Residue.ofZMod y)).bind ofPoint
      = .ok (ofGroup (.some x y h)) := by
  have hcontains : curve.contains (Residue.ofZMod x) (Residue.ofZMod y) = .ok true := by
    rw [curve_eq_ofZMod, contains_ofZMod, decide_eq_true (equation_iff.mp h.1)]
  exact ofCoordinates_bind_ofPoint_eq_ok_iff.mpr ⟨hcontains, point_ofGroup_some h⟩

/-- The right side of the equation. -/
theorem rightSide_val (x : ZMod fieldPrime) :
    curve.rightSide (Residue.ofZMod x) = .ok (Residue.ofZMod (x ^ 3 + 7)) := by
  rw [curve_eq_ofZMod, rightSide_ofZMod, zero_mul, add_zero]

/-- What is taken for a root, or the modulus less it, is checked as the second coordinate. -/
theorem decompress_of_sqrt {x t : ZMod fieldPrime} (ht : t ≠ 0)
    (hroot : (Residue.ofZMod (x ^ 3 + 7)).sqrt = Residue.ofZMod t) (even : Bool) :
    decompress even x.val = (Curve.Point.ofCoordinates curve (Residue.ofZMod x)
      (Residue.ofZMod (if decide (t.val % 2 = 0) = even then t else -t))).bind ofPoint := by
  rw [decompress, Residue.ofInt_val]
  dsimp only [bind, Except.bind]
  rw [rightSide_val]
  dsimp only
  rw [hroot, Residue.isEven_ofZMod]
  by_cases hparity : decide (t.val % 2 = 0) = even
  · rw [if_pos hparity, if_pos hparity]
    rfl
  · have hnum : (fieldPrime : ℤ) - t.val = (-t).val := by
      have hneg := (val_neg ht).1
      omega
    rw [if_neg hparity, if_neg hparity, Residue.num_ofZMod, hnum, Residue.ofInt_val]

/-- The second coordinate is recovered from the first and its parity. -/
theorem decompress_val {x y : ZMod fieldPrime}
    (h : (weierstrass (0 : ZMod fieldPrime) 7).Nonsingular x y) :
    decompress (decide (y.val % 2 = 0)) x.val = .ok (ofGroup (.some x y h)) := by
  have heq := equation_seven h
  have hy := second_ne_zero heq
  have hsqrt := Residue.sqrt_ofZMod_sq fieldPrime_mod_four y
  rw [heq] at hsqrt
  -- the root that is found may be either of the two
  rcases hsqrt with hroot | hroot
  · rw [decompress_of_sqrt hy hroot, if_pos rfl]
    exact ofCoordinates_bind_ofPoint h
  · have hparity : ¬ decide ((-y).val % 2 = 0) = decide (y.val % 2 = 0) := by
      rw [decide_eq_decide, (val_neg hy).2]
      exact not_iff_self
    rw [decompress_of_sqrt (neg_ne_zero.mpr hy) hroot, if_neg hparity, neg_neg]
    exact ofCoordinates_bind_ofPoint h

/-- The short form of a finite point. -/
theorem sec_short {q : Point} {x y : Residue} (h : q.point = .affine curve x y) :
    q.sec true = .ok ((if y.isEven then 0x02 else 0x03) :: (scalarBlock x.num).toBytes) := by
  rw [sec, coordinates, h, Residue.isEven]
  simp only [decide_eq_true_eq]
  rfl

/-- A short form is read by its marker and its number. -/
theorem ofSec_short (even : Bool) (block : FixedBytes 32) :
    ofSec ((if even then 0x02 else 0x03) :: block.toBytes)
      = decompress even (beValue block.toBytes) := by
  cases even with
  | true =>
      rw [if_pos rfl, ofSec, if_neg (by decide), if_pos (.inl rfl), if_pos block.length_toBytes]
      rfl
  | false =>
      rw [if_neg Bool.false_ne_true, ofSec, if_neg (by decide), if_pos (.inr rfl),
        if_pos block.length_toBytes]
      rfl

/-- A finite point is read back from its short form. -/
theorem exists_sec {P : Group} (hP : P ≠ 0) :
    ∃ bs, (ofGroup P).sec true = .ok bs ∧ ofSec bs = .ok (ofGroup P) := by
  cases P with
  | zero => exact absurd rfl hP
  | some x y h =>
      refine ⟨_, sec_short (point_ofGroup_some h), ?_⟩
      rw [ofSec_short, Residue.isEven_ofZMod, Residue.num_ofZMod, beValue_coordinate]
      exact decompress_val h

end Point

end Secp256k1

end Bitcoin
