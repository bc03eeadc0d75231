import Bitcoin.Proofs.Curve.Group
import Bitcoin.Proofs.Key.Primes
import Mathlib.GroupTheory.OrderOfElement

/-!
# The order of the generator

The generator is a point of the group of `y² = x³ + 7`, and `order` times the generator is zero.
The multiple is computed in coordinates `(x, y, z)` that stand for the point `(x / z², y / z³)`,
so that no step divides. A step leads to a wrong point only where two points with one first
coordinate meet, and there it leaves `z = 0`, which no later step repairs; so it is enough to look
at `z` once, at the end.

* **`Jacobian.represents_multiple`**: coordinates that end with `z ≠ 0` stand for the multiple.
* **`order_smul_base`**, **`addOrderOf_base`**: the order of the generator.
* **`zsmul_congr`**: multiples depend on the scalar modulo the order.
-/

namespace Bitcoin.Secp256k1

open WeierstrassCurve Bitcoin.Curve

/-- The points of `y² = x³ + 7`. -/
abbrev Group := (weierstrass (0 : ZMod fieldPrime) 7).Point

/-- The first coordinate of the generator. -/
def generatorX : ℤ := generator.x?.getD 0

/-- The second coordinate of the generator. -/
def generatorY : ℤ := generator.y?.getD 0

/-- The curve of the keys, with its coefficients as classes. -/
theorem curve_eq_ofZMod : curve = Curve.ofZMod (0 : ZMod fieldPrime) 7 := by
  have hzero : coordinate 0 = Residue.ofZMod (0 : ZMod fieldPrime) :=
    Residue.reduce_cast_eq_ofZMod Int.cast_zero
  have hseven : coordinate 7 = Residue.ofZMod (7 : ZMod fieldPrime) :=
    Residue.reduce_cast_eq_ofZMod (Int.cast_ofNat 7)
  exact Curve.ext hzero hseven

theorem fieldPrime_ne_two : fieldPrime ≠ 2 := by decide +kernel

/-- The remainder with which a power of a square is a root of it. -/
theorem fieldPrime_mod_four : fieldPrime % 4 = 3 := by decide +kernel

/-- The curve is not singular. -/
theorem discriminant_ne_zero : 4 * (0 : ZMod fieldPrime) ^ 3 + 27 * 7 ^ 2 ≠ 0 := by
  have hnat : ((1323 : ℕ) : ZMod fieldPrime) ≠ 0 := by
    rw [Ne, ZMod.natCast_eq_zero_iff]
    decide +kernel
  have heq : 4 * (0 : ZMod fieldPrime) ^ 3 + 27 * 7 ^ 2 = ((1323 : ℕ) : ZMod fieldPrime) := by
    push_cast
    norm_num
  rw [heq]
  exact hnat

theorem generator_equation :
    (generatorY : ZMod fieldPrime) ^ 2
      = (generatorX : ZMod fieldPrime) ^ 3 + 0 * (generatorX : ZMod fieldPrime) + 7 := by
  have hdvd : (fieldPrime : ℤ) ∣ generatorY ^ 2 - (generatorX ^ 3 + 0 * generatorX + 7) := by
    decide +kernel
  have hcast := (ZMod.intCast_zmod_eq_zero_iff_dvd _ fieldPrime).mpr hdvd
  push_cast at hcast
  exact sub_eq_zero.mp hcast

/-- The generator is a nonsingular point, which makes it an element of the group. -/
theorem nonsingular_generator : (weierstrass (0 : ZMod fieldPrime) 7).Nonsingular
    (generatorX : ZMod fieldPrime) (generatorY : ZMod fieldPrime) :=
  (Curve.Point.exists_ofGroup fieldPrime_ne_two discriminant_ne_zero generator_equation).1

/-- The generator as a point of the group. -/
def base : Group := .some _ _ nonsingular_generator

/-- The generator of the program is that element of the group. -/
theorem generator_eq : generator.point = Curve.Point.ofGroup base := by
  have hX : Residue.ofZMod (generatorX : ZMod fieldPrime) = coordinate generatorX :=
    (Residue.reduce_eq_ofZMod generatorX).symm
  have hY : Residue.ofZMod (generatorY : ZMod fieldPrime) = coordinate generatorY :=
    (Residue.reduce_eq_ofZMod generatorY).symm
  show generator.point
    = .affine (Curve.ofZMod 0 7) (Residue.ofZMod (generatorX : ZMod fieldPrime))
        (Residue.ofZMod (generatorY : ZMod fieldPrime))
  rw [hX, hY, ← curve_eq_ofZMod]
  decide +kernel

/-! ## Multiples of the generator without division -/

/-- Coordinates that stand for the point `(x / z², y / z³)`. -/
structure Jacobian where
  x : ℤ
  y : ℤ
  z : ℤ

namespace Jacobian

/-- Coordinates of twice the point. -/
def double (q : Jacobian) : Jacobian :=
  let m := 3 * q.x * q.x
  let s := 4 * q.x * q.y * q.y
  let x := (m * m - 2 * s) % fieldPrime
  ⟨x, (m * (s - x) - 8 * q.y * q.y * q.y * q.y) % fieldPrime, 2 * q.y * q.z % fieldPrime⟩

/-- Coordinates of the sum with the generator. -/
def addGenerator (q : Jacobian) : Jacobian :=
  let h := generatorX * q.z * q.z - q.x
  let r := generatorY * q.z * q.z * q.z - q.y
  let x := (r * r - h * h * h - 2 * q.x * h * h) % fieldPrime
  ⟨x, (r * (q.x * h * h - x) - q.y * h * h * h) % fieldPrime, q.z * h % fieldPrime⟩

/-- Coordinates of a multiple of the generator, from the high bit of the scalar. -/
def multiple (k : ℕ) : Jacobian :=
  if k ≤ 1 then ⟨generatorX, generatorY, 1⟩
  else
    let twice := (multiple (k / 2)).double
    if k % 2 = 1 then twice.addGenerator else twice
termination_by k

/-- The point that coordinates with `z ≠ 0` stand for. -/
def Represents (q : Jacobian) (P : Group) : Prop :=
  ∃ x y h, P = .some x y h ∧ (q.z : ZMod fieldPrime) ≠ 0 ∧
    (q.x : ZMod fieldPrime) = x * (q.z : ZMod fieldPrime) ^ 2 ∧
    (q.y : ZMod fieldPrime) = y * (q.z : ZMod fieldPrime) ^ 3

/-- The third coordinate of a double, as a class. -/
theorem cast_z_double (q : Jacobian) :
    (q.double.z : ZMod fieldPrime) = 2 * (q.y : ZMod fieldPrime) * (q.z : ZMod fieldPrime) := by
  show ((2 * q.y * q.z % fieldPrime : ℤ) : ZMod fieldPrime) = _
  rw [ZMod.intCast_mod]
  push_cast
  ring

/-- Doubling the coordinates doubles the point, as long as the third coordinate does not vanish. -/
theorem represents_double {q : Jacobian} {P : Group} (h : q.Represents P)
    (hz : (q.double.z : ZMod fieldPrime) ≠ 0) : q.double.Represents (P + P) := by
  obtain ⟨x, y, hxy, rfl, hqz, hx, hy⟩ := h
  have hq := cast_z_double q
  -- a vertical tangent would have left `z = 0`
  have h2y : 2 * y ≠ 0 := by
    intro h0
    refine hz ?_
    rw [hq, hy, ← mul_assoc, h0, zero_mul, zero_mul]
  obtain ⟨hsum, hadd⟩ := some_add_some hxy hxy (fun h => ne_negY h2y h.2) (slope_tangent h2y)
  have hX : (q.double.x : ZMod fieldPrime)
      = (3 * (q.x : ZMod fieldPrime) ^ 2) ^ 2 - 8 * (q.x : ZMod fieldPrime) * q.y ^ 2 := by
    simp only [double, ZMod.intCast_mod]
    push_cast
    ring
  have hY : (q.double.y : ZMod fieldPrime)
      = 3 * (q.x : ZMod fieldPrime) ^ 2
          * (4 * (q.x : ZMod fieldPrime) * q.y ^ 2 - q.double.x) - 8 * (q.y : ZMod fieldPrime) ^ 4 := by
    simp only [double, ZMod.intCast_mod]
    push_cast
    ring
  have h2 : (2 : ZMod fieldPrime) ≠ 0 := left_ne_zero_of_mul h2y
  have hy0 : y ≠ 0 := right_ne_zero_of_mul h2y
  refine ⟨_, _, hsum, hadd, hz, ?_, ?_⟩
  · rw [hX, hq, hx, hy]
    field_simp
    ring
  · rw [hY, hX, hq, hx, hy]
    field_simp
    ring

/-- The third coordinate of a sum with the generator, as a class. -/
theorem cast_z_addGenerator (q : Jacobian) :
    (q.addGenerator.z : ZMod fieldPrime)
      = q.z * ((generatorX : ZMod fieldPrime) * (q.z : ZMod fieldPrime) ^ 2 - q.x) := by
  simp only [addGenerator, ZMod.intCast_mod]
  push_cast
  ring

/-- Adding the generator to the coordinates adds it to the point, as long as the third coordinate
    does not vanish. -/
theorem represents_addGenerator {q : Jacobian} {P : Group} (h : q.Represents P)
    (hz : (q.addGenerator.z : ZMod fieldPrime) ≠ 0) : q.addGenerator.Represents (P + base) := by
  obtain ⟨x, y, hxy, rfl, hqz, hx, hy⟩ := h
  have hq := cast_z_addGenerator q
  -- so would a meeting with the generator or its opposite
  have hne : (generatorX : ZMod fieldPrime) - x ≠ 0 := by
    intro h0
    refine hz ?_
    rw [hq, hx, ← sub_mul, h0, zero_mul, mul_zero]
  have hx0 : x ≠ (generatorX : ZMod fieldPrime) := fun h0 => hne (sub_eq_zero.mpr h0.symm)
  obtain ⟨hsum, hadd⟩ := some_add_some hxy nonsingular_generator (fun h => hx0 h.1)
    (slope_chord hx0)
  have hX : (q.addGenerator.x : ZMod fieldPrime)
      = (generatorY * (q.z : ZMod fieldPrime) ^ 3 - q.y) ^ 2
        - (generatorX * (q.z : ZMod fieldPrime) ^ 2 - q.x) ^ 3
        - 2 * q.x * (generatorX * (q.z : ZMod fieldPrime) ^ 2 - q.x) ^ 2 := by
    simp only [addGenerator, ZMod.intCast_mod]
    push_cast
    ring
  have hY : (q.addGenerator.y : ZMod fieldPrime)
      = (generatorY * (q.z : ZMod fieldPrime) ^ 3 - q.y)
          * (q.x * (generatorX * (q.z : ZMod fieldPrime) ^ 2 - q.x) ^ 2 - q.addGenerator.x)
        - q.y * (generatorX * (q.z : ZMod fieldPrime) ^ 2 - q.x) ^ 3 := by
    simp only [addGenerator, ZMod.intCast_mod]
    push_cast
    ring
  refine ⟨_, _, hsum, hadd, hz, ?_, ?_⟩
  · rw [hX, hq, hx, hy]
    field_simp
    ring
  · rw [hY, hX, hq, hx, hy]
    field_simp
    ring

/-- Coordinates that end with `z ≠ 0` stand for the multiple: `z` only ever gains factors. -/
theorem represents_multiple {k : ℕ} (hk : 1 ≤ k)
    (hz : ((multiple k).z : ZMod fieldPrime) ≠ 0) : (multiple k).Represents (k • base) := by
  induction k using Nat.strongRecOn with
  | _ k ih =>
      by_cases h1 : k ≤ 1
      · have hone : k = 1 := Nat.le_antisymm h1 hk
        rw [multiple, if_pos h1, hone, one_nsmul]
        refine ⟨_, _, nonsingular_generator, rfl, ?_, ?_, ?_⟩
        · rw [Int.cast_one]
          exact one_ne_zero
        · rw [Int.cast_one, one_pow, mul_one]
        · rw [Int.cast_one, one_pow, mul_one]
      · have hlt : k / 2 < k := Nat.div_lt_self hk (by decide)
        have hhalf : 1 ≤ k / 2 := by omega
        -- a last `z` that is not zero was not zero on the way
        have hstep : ((multiple (k / 2)).double.z : ZMod fieldPrime) ≠ 0 →
            (multiple (k / 2)).double.Represents ((2 * (k / 2)) • base) := by
          intro hd
          have hprev : ((multiple (k / 2)).z : ZMod fieldPrime) ≠ 0 := by
            rw [cast_z_double] at hd
            exact right_ne_zero_of_mul hd
          rw [two_mul, add_nsmul]
          exact represents_double (ih _ hlt hhalf hprev) hd
        rw [multiple, if_neg h1] at hz ⊢
        by_cases hodd : k % 2 = 1
        · have hsum : k • base = (2 * (k / 2)) • base + base := by
            rw [← succ_nsmul]
            congr 1
            omega
          simp only [if_pos hodd] at hz ⊢
          rw [hsum]
          refine represents_addGenerator (hstep ?_) hz
          rw [cast_z_addGenerator] at hz
          exact left_ne_zero_of_mul hz
        · have heven : 2 * (k / 2) = k := by omega
          simp only [if_neg hodd] at hz ⊢
          have htwice := hstep hz
          rwa [heven] at htwice

end Jacobian

/-! ## The order -/

/-- The multiple just below the order is the opposite of the generator. -/
theorem pred_order_smul_base : (order - 1) • base = -base := by
  let q := Jacobian.multiple (order - 1)
  -- the one evaluation, of 256 doublings; the point is only read off where `z` is known
  have hcheck : q.z % fieldPrime ≠ 0 ∧ (q.x - generatorX * q.z ^ 2) % fieldPrime = 0 ∧
      (q.y + generatorY * q.z ^ 3) % fieldPrime = 0 := by decide +kernel
  have hcast : ∀ n : ℤ, (n : ZMod fieldPrime) = 0 ↔ n % fieldPrime = 0 := by
    intro n
    rw [ZMod.intCast_zmod_eq_zero_iff_dvd, Int.dvd_iff_emod_eq_zero]
  have hz : (q.z : ZMod fieldPrime) ≠ 0 := mt (hcast q.z).mp hcheck.1
  have hx := (hcast _).mpr hcheck.2.1
  have hy := (hcast _).mpr hcheck.2.2
  push_cast at hx hy
  obtain ⟨x, y, hxy, hP, -, hqx, hqy⟩ := Jacobian.represents_multiple (by decide +kernel) hz
  have hX : x = (generatorX : ZMod fieldPrime) := by
    refine mul_right_cancel₀ (pow_ne_zero 2 hz) ?_
    rw [← hqx]
    exact sub_eq_zero.mp hx
  have hY : y = -(generatorY : ZMod fieldPrime) := by
    refine mul_right_cancel₀ (pow_ne_zero 3 hz) ?_
    rw [← hqy, neg_mul]
    exact eq_neg_of_add_eq_zero_left hy
  subst hX hY
  rw [hP, base, Affine.Point.neg_some]
  simp only [negY_eq]

/-- The order annihilates the generator. -/
theorem order_smul_base : order • base = 0 := by
  have hpos : order - 1 + 1 = order := by decide +kernel
  rw [← hpos, succ_nsmul, pred_order_smul_base, neg_add_cancel]

/-- The order annihilates every multiple of the generator. -/
theorem order_smul_zsmul_base (n : ℤ) : order • n • base = 0 := by
  rw [smul_comm, order_smul_base, zsmul_zero]

theorem base_ne_zero : base ≠ 0 := Affine.Point.some_ne_zero _

/-- The order is a prime that annihilates a generator other than infinity, so it is its order. -/
theorem addOrderOf_base : addOrderOf base = order :=
  addOrderOf_eq_prime order_smul_base base_ne_zero

/-- Multiples of a point that the order annihilates depend on the scalar modulo the order. -/
theorem zsmul_congr {P : Group} (hP : order • P = 0) {m n : ℤ}
    (h : (m : ZMod order) = (n : ZMod order)) : m • P = n • P := by
  obtain ⟨c, hc⟩ := (ZMod.intCast_eq_intCast_iff_dvd_sub m n order).mp h
  have hn : n = m + order * c := by omega
  rw [hn, add_zsmul, mul_zsmul', natCast_zsmul, hP, zsmul_zero, add_zero]

/-- A multiple of the generator is zero exactly when the scalar is a multiple of the order. -/
theorem zsmul_base_eq_zero_iff {n : ℤ} : n • base = 0 ↔ (n : ZMod order) = 0 := by
  rw [← addOrderOf_dvd_iff_zsmul_eq_zero, addOrderOf_base, ZMod.intCast_zmod_eq_zero_iff_dvd]

end Bitcoin.Secp256k1
