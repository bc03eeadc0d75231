import Bitcoin.Curve.Residue
import Mathlib.FieldTheory.Finite.Basic

/-!
# Residues over a prime form the field of that prime

`Residue.ofZMod` writes a class of `ZMod p` as a residue, and every residue over `p` is written in
that way by exactly one class. Under this reading the operations on residues are the operations of
the ring, and over a prime those of the field, so an operation on two residues over `p` never
fails unless it divides by zero.

* **`powMod_eq`**: square-and-multiply computes the power.
* **`reduce_eq_ofZMod`**: reducing an integer gives the residue of its class.
* **`add_ofZMod`**, **`mul_ofZMod`**, **`div_ofZMod`** and their kin: the operations agree.
-/

namespace Bitcoin

/-- Square-and-multiply computes the power. -/
theorem powMod_eq (m b e : Nat) : powMod m b e = b ^ e % m := by
  induction e using Nat.strongRecOn generalizing b with
  | _ e ih =>
      rw [powMod]
      split
      · next h => rw [h, Nat.pow_zero]
      · next h =>
          have hlt : e / 2 < e := Nat.div_lt_self (Nat.pos_of_ne_zero h) (by decide)
          have hhalf : powMod m (b * b % m) (e / 2) = b ^ (2 * (e / 2)) % m := by
            rw [ih _ hlt, ← Nat.pow_mod, ← Nat.pow_two, ← Nat.pow_mul]
          split
          · next hodd =>
              have he : 2 * (e / 2) + 1 = e := by omega
              rw [hhalf, Nat.mul_mod_mod, ← Nat.pow_succ', Nat.succ_eq_add_one, he]
          · next heven =>
              have he : 2 * (e / 2) = e := by omega
              rw [hhalf, he]

namespace Residue

variable {p : ℕ}

/-- The residue of a class. -/
def ofZMod (a : ZMod p) : Residue := reduce a.val p

@[simp]
theorem modulus_ofZMod (a : ZMod p) : (ofZMod a).modulus = p := rfl

/-- Two classes of one prime have one modulus. -/
theorem sameField_ofZMod (a b : ZMod p) : sameField (ofZMod a) (ofZMod b) = .ok () := if_pos rfl

/-- Square-and-multiply computes the power of a class. -/
theorem cast_powMod (m b e : ℕ) : (powMod m b e : ZMod m) = (b : ZMod m) ^ e := by
  rw [powMod_eq, ZMod.natCast_mod, Nat.cast_pow]

section Ring

variable [NeZero p]

/-- The number of a class is its smallest representative. -/
@[simp]
theorem num_ofZMod (a : ZMod p) : (ofZMod a).num = a.val :=
  Int.fmod_eq_of_lt (Int.natCast_nonneg _) (Int.ofNat_lt.mpr a.val_lt)

/-- Reducing an integer gives the residue of its class. -/
theorem reduce_eq_ofZMod (n : ℤ) : reduce n p = ofZMod (n : ZMod p) := by
  refine Residue.ext ?_ rfl
  rw [num_ofZMod, ZMod.val_intCast]
  exact Int.fmod_eq_emod_of_nonneg n (Int.natCast_nonneg p)

/-- The representative of a class is in range. -/
theorem ofInt_val (a : ZMod p) : ofInt a.val p = .ok (ofZMod a) := by
  rw [ofInt, dif_pos ⟨Int.natCast_nonneg _, Int.ofNat_lt.mpr a.val_lt⟩]
  exact congrArg Except.ok (Residue.ext (num_ofZMod a).symm rfl)

/-- A number that is accepted as a residue is the residue's number. -/
theorem num_of_ofInt {n modulus : ℤ} {x : Residue} (h : ofInt n modulus = .ok x) : x.num = n := by
  rw [ofInt] at h
  by_cases hrange : 0 ≤ n ∧ n < modulus
  · rw [dif_pos hrange] at h
    exact (congrArg num (Except.ok.inj h)).symm
  · rw [dif_neg hrange] at h
    cases h

/-- The opposite of a number below an odd modulus has the other parity. -/
theorem isEven_ofInt_sub {modulus : ℤ} {x y : Residue} (hodd : modulus % 2 = 1)
    (h : ofInt (modulus - x.num) modulus = .ok y) : y.isEven = !x.isEven := by
  rw [isEven, isEven, num_of_ofInt h, ← decide_not]
  exact decide_eq_decide.mpr (by omega)

/-- A residue is even when the smallest representative of its class is. -/
theorem isEven_ofZMod (a : ZMod p) : (ofZMod a).isEven = decide (a.val % 2 = 0) := by
  rw [isEven, num_ofZMod]
  exact decide_eq_decide.mpr (by omega)

/-- Any number of a class is reduced to its residue. -/
theorem reduce_cast_eq_ofZMod {n : ℤ} {a : ZMod p} (h : (n : ZMod p) = a) :
    reduce n p = ofZMod a := by
  rw [reduce_eq_ofZMod, h]

/-- The number of a class is in the class. -/
@[simp]
theorem cast_num_ofZMod (a : ZMod p) : ((ofZMod a).num : ZMod p) = a := by
  rw [num_ofZMod, Int.cast_natCast, ZMod.natCast_val, ZMod.cast_id]

/-- Every residue over `p` is the residue of its class. -/
theorem ofZMod_cast_num {x : Residue} (h : x.modulus = p) : ofZMod (x.num : ZMod p) = x := by
  rw [← reduce_eq_ofZMod]
  refine Residue.ext ?_ h.symm
  rw [← h]
  exact x.reduced

/-- Classes are known from their residues. -/
@[simp]
theorem ofZMod_inj {a b : ZMod p} : ofZMod a = ofZMod b ↔ a = b := by
  constructor
  · intro h
    rw [← cast_num_ofZMod a, h, cast_num_ofZMod]
  · exact congrArg ofZMod

/-- Only the class of zero has the number zero. -/
@[simp]
theorem num_ofZMod_eq_zero {a : ZMod p} : (ofZMod a).num = 0 ↔ a = 0 := by
  rw [num_ofZMod, Int.natCast_eq_zero, ZMod.val_eq_zero]

/-- Residues are added as their classes are. -/
@[simp]
theorem add_ofZMod (a b : ZMod p) : (ofZMod a).add (ofZMod b) = .ok (ofZMod (a + b)) := by
  rw [add, sameField_ofZMod]
  refine congrArg Except.ok (reduce_cast_eq_ofZMod ?_)
  rw [Int.cast_add, cast_num_ofZMod, cast_num_ofZMod]

@[simp]
theorem sub_ofZMod (a b : ZMod p) : (ofZMod a).sub (ofZMod b) = .ok (ofZMod (a - b)) := by
  rw [sub, sameField_ofZMod]
  refine congrArg Except.ok (reduce_cast_eq_ofZMod ?_)
  rw [Int.cast_sub, cast_num_ofZMod, cast_num_ofZMod]

@[simp]
theorem mul_ofZMod (a b : ZMod p) : (ofZMod a).mul (ofZMod b) = .ok (ofZMod (a * b)) := by
  rw [mul, sameField_ofZMod]
  refine congrArg Except.ok (reduce_cast_eq_ofZMod ?_)
  rw [Int.cast_mul, cast_num_ofZMod, cast_num_ofZMod]

@[simp]
theorem scale_ofZMod (a : ZMod p) (k : ℕ) : (ofZMod a).scale k = ofZMod (a * (k : ZMod p)) := by
  refine reduce_cast_eq_ofZMod ?_
  rw [Int.cast_mul, cast_num_ofZMod, Int.cast_natCast]

/-- A power of a residue is that of its class: squaring and multiplying does what the recursion on
    the exponent does. -/
@[simp]
theorem natPow_ofZMod (a : ZMod p) (k : ℕ) : (ofZMod a).natPow k = ofZMod (a ^ k) := by
  refine reduce_cast_eq_ofZMod ?_
  rw [num_ofZMod, modulus_ofZMod, Int.toNat_natCast, Int.toNat_natCast, Int.cast_natCast,
    cast_powMod, ZMod.natCast_val, ZMod.cast_id]

end Ring

section Field

variable [Fact p.Prime]

/-- The power with exponent `p - 2` is the inverse, by Fermat's little theorem. -/
theorem pow_sub_two_eq_inv {a : ZMod p} (ha : a ≠ 0) : a ^ (p - 2) = a⁻¹ := by
  have hp : p - 2 + 1 = p - 1 := by have := (Fact.out : p.Prime).two_le; omega
  refine eq_inv_of_mul_eq_one_left ?_
  rw [← pow_succ, hp, ZMod.pow_card_sub_one_eq_one ha]

@[simp]
theorem invert_ofZMod_zero : (ofZMod (0 : ZMod p)).invert = .error .divisionByZero :=
  if_pos (num_ofZMod_eq_zero.mpr rfl)

/-- The power with exponent `p - 2` is the inverse. -/
theorem invert_ofZMod {a : ZMod p} (ha : a ≠ 0) : (ofZMod a).invert = .ok (ofZMod a⁻¹) := by
  have he : ((p : ℤ) - 2).toNat = p - 2 := by omega
  rw [invert, if_neg (mt num_ofZMod_eq_zero.mp ha), modulus_ofZMod, he, natPow_ofZMod,
    pow_sub_two_eq_inv ha]

theorem div_ofZMod (a : ZMod p) {b : ZMod p} (hb : b ≠ 0) :
    (ofZMod a).div (ofZMod b) = .ok (ofZMod (a / b)) := by
  rw [div, sameField_ofZMod]
  show ((ofZMod b).invert >>= fun i => Except.ok (reduce ((ofZMod a).num * i.num) p)) = _
  rw [invert_ofZMod hb]
  refine congrArg Except.ok (reduce_cast_eq_ofZMod ?_)
  rw [Int.cast_mul, cast_num_ofZMod, cast_num_ofZMod, div_eq_mul_inv]

end Field

end Residue

end Bitcoin
