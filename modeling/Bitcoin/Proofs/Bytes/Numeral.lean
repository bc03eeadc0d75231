import Bitcoin.Bytes.Numeral
import Mathlib.Algebra.Order.Ring.Nat

/-!
# Numbers as bytes

A number is written with a given count of bytes, low byte first, and what does not fit is dropped;
or with the fewest bytes that it needs.

* **`leValue_leFixed`**, **`leFixed_eq_iff`**: a number written with `w` bytes is read back modulo
  `256 ^ w`.
* **`length_leMinimal_le`**: how many bytes a number needs.
* **`leMinimal_leValue_iff`**, **`beMinimal_beValue_iff`**: which byte strings are the shortest form of
  what they denote.
* **`beValue_zero_cons`**: a zero in front changes nothing.
-/

namespace Bitcoin

/-- A number written with `w` bytes is read back modulo `256 ^ w`. -/
theorem leValue_leFixed (w n : Nat) : leValue (leFixed w n) = n % 256 ^ w := by
  induction w generalizing n with
  | zero => rw [leFixed, leValue, Nat.pow_zero, Nat.mod_one]
  | succ w ih =>
      rw [leFixed, leValue, ih, toNat_ofNat_mod, Nat.pow_succ', Nat.mod_mul]

/-- Numbers that agree modulo `256 ^ w` are written alike with `w` bytes, and no others. -/
theorem leFixed_eq_iff {w m n : Nat} : leFixed w m = leFixed w n ↔ m % 256 ^ w = n % 256 ^ w := by
  have hmod : ∀ k, leFixed w (k % 256 ^ w) = leFixed w k := by
    intro k
    have h := leFixed_leValue (leFixed w k)
    rwa [length_leFixed, leValue_leFixed] at h
  constructor
  · intro h
    rw [← leValue_leFixed, h, leValue_leFixed]
  · intro h
    rw [← hmod m, h, hmod]

/-- Bytes are written again from the number that they denote and their count. -/
theorem beFixed_beValue (bs : Bytes) : beFixed bs.length (beValue bs) = bs := by
  rw [beFixed, beValue, ← List.length_reverse, leFixed_leValue, List.reverse_reverse]

theorem leValue_append (a b : Bytes) :
    leValue (a ++ b) = leValue a + 256 ^ a.length * leValue b := by
  induction a with
  | nil => rw [List.nil_append, leValue, List.length_nil, Nat.pow_zero, Nat.one_mul, Nat.zero_add]
  | cons c a ih =>
      rw [List.cons_append, leValue, ih, leValue, List.length_cons, Nat.pow_succ', Nat.mul_add,
        Nat.mul_assoc, Nat.add_assoc]

/-- A number below `256 ^ w` needs at most `w` bytes. -/
theorem length_leMinimal_le {w n : Nat} (h : n < 256 ^ w) : (leMinimal n).length ≤ w := by
  induction w generalizing n with
  | zero =>
      obtain rfl : n = 0 := Nat.lt_one_iff.mp h
      rw [leMinimal, if_pos rfl, List.length_nil]
  | succ w ih =>
      rw [leMinimal]
      by_cases hn : n = 0
      · rw [if_pos hn]
        exact Nat.zero_le _
      · have hdiv : n / 256 < 256 ^ w := Nat.div_lt_of_lt_mul (Nat.pow_succ' ▸ h)
        rw [if_neg hn, List.length_cons]
        exact Nat.succ_le_succ (ih hdiv)

theorem beValue_beMinimal (n : Nat) : beValue (beMinimal n) = n := by
  rw [beValue, beMinimal, List.reverse_reverse, leValue_leMinimal]

/-- The shortest form does not end in a zero. -/
theorem getLast?_leMinimal_ne (n : Nat) : (leMinimal n).getLast? ≠ some 0 := by
  induction n using Nat.strongRecOn with
  | _ n ih =>
      rw [leMinimal]
      by_cases hn : n = 0
      · rw [if_pos hn, List.getLast?_nil]
        exact (Option.some_ne_none 0).symm
      · rw [if_neg hn, List.getLast?_cons]
        cases hlast : (leMinimal (n / 256)).getLast? with
        | some b =>
            have hdiv := ih (n / 256) (Nat.div_lt_self (Nat.pos_of_ne_zero hn) (by decide))
            rw [hlast] at hdiv
            exact hdiv
        | none =>
            -- nothing is left of the number, so its only byte is not zero
            have hvalue := leValue_leMinimal (n / 256)
            rw [List.getLast?_eq_none_iff.mp hlast, leValue] at hvalue
            intro hzero
            have hbyte := congrArg UInt8.toNat (Option.some.inj hzero)
            rw [Option.getD_none, toNat_ofNat_mod, UInt8.toNat_zero] at hbyte
            omega

/-- Bytes are the shortest form of the number that they denote unless they end in a zero. -/
theorem leMinimal_leValue_iff {bs : Bytes} :
    leMinimal (leValue bs) = bs ↔ bs.getLast? ≠ some 0 := by
  constructor
  · intro h
    rw [← h]
    exact getLast?_leMinimal_ne _
  · intro h
    induction bs with
    | nil => rw [leValue, leMinimal, if_pos rfl]
    | cons b bs ih =>
        have hb := b.toNat_lt
        have htail : bs.getLast? ≠ some 0 := by
          intro hzero
          rw [List.getLast?_cons, hzero] at h
          exact h rfl
        have hne : b.toNat + 256 * leValue bs ≠ 0 := by
          intro hzero
          -- then the byte is zero and nothing is behind it
          have hbs := ih htail
          rw [show leValue bs = 0 by omega, leMinimal, if_pos rfl] at hbs
          have hbyte : b = 0 := by
            apply UInt8.toNat_inj.mp
            rw [UInt8.toNat_zero]
            omega
          rw [← hbs, List.getLast?_singleton, hbyte] at h
          exact h rfl
        rw [leValue, leMinimal, if_neg hne, Nat.add_mul_mod_self_left, Nat.mod_eq_of_lt hb,
          Nat.add_mul_div_left _ _ (by decide), Nat.div_eq_of_lt hb, Nat.zero_add, ih htail,
          UInt8.ofNat_toNat]

/-- Bytes are the shortest form of the number that they denote unless there is a zero in front. -/
theorem beMinimal_beValue_iff {bs : Bytes} : beMinimal (beValue bs) = bs ↔ bs.head? ≠ some 0 := by
  rw [beMinimal, beValue, List.reverse_eq_iff, leMinimal_leValue_iff, List.getLast?_reverse]

/-- The shortest form has no zero in front. -/
theorem head?_beMinimal_ne (n : Nat) : (beMinimal n).head? ≠ some 0 :=
  beMinimal_beValue_iff.mp (congrArg beMinimal (beValue_beMinimal n))

/-- A zero in front changes nothing. -/
theorem beValue_zero_cons (bs : Bytes) : beValue (0 :: bs) = beValue bs := by
  have hzero : leValue [0] = 0 := rfl
  rw [beValue, List.reverse_cons, leValue_append, hzero, Nat.mul_zero, Nat.add_zero, beValue]

end Bitcoin
