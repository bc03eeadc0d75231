import Bitcoin.Bytes.Basic

/-!
# Bytes as numerals

A byte string denotes a natural number in base 256, with the low byte first (`leValue`) or the
high byte first (`beValue`). Written back, a number takes a given width (`leFixed`, which drops
what does not fit) or as few bytes as it needs (`leMinimal`, empty for zero).

* **`leFixed_leValue`**: a byte string is the fixed-width form of its own value.
* **`leValue_leMinimal`**: the shortest form loses nothing.
-/

namespace Bitcoin

/-- The number that the bytes denote, low byte first. -/
def leValue : Bytes → Nat
  | [] => 0
  | b :: bs => b.toNat + 256 * leValue bs

/-- The number that the bytes denote, high byte first. -/
def beValue (bs : Bytes) : Nat := leValue bs.reverse

/-- The low `w` bytes of a number, low byte first. -/
def leFixed : Nat → Nat → Bytes
  | 0, _ => []
  | w + 1, n => UInt8.ofNat (n % 256) :: leFixed w (n / 256)

/-- The low `w` bytes of a number, high byte first. -/
def beFixed (w n : Nat) : Bytes := (leFixed w n).reverse

/-- The fewest bytes that denote a number, low byte first. -/
def leMinimal (n : Nat) : Bytes :=
  if n = 0 then [] else UInt8.ofNat (n % 256) :: leMinimal (n / 256)
termination_by n

/-- The fewest bytes that denote a number, high byte first. -/
def beMinimal (n : Nat) : Bytes := (leMinimal n).reverse

@[simp]
theorem length_leFixed (w n : Nat) : (leFixed w n).length = w := by
  induction w generalizing n with
  | zero => rfl
  | succ w ih => rw [leFixed, List.length_cons, ih]

@[simp]
theorem length_beFixed (w n : Nat) : (beFixed w n).length = w := by
  rw [beFixed, List.length_reverse, length_leFixed]

theorem toNat_ofNat_mod (n : Nat) : (UInt8.ofNat (n % 256)).toNat = n % 256 := by
  rw [UInt8.toNat_ofNat']; exact Nat.mod_mod_of_dvd n (Nat.dvd_refl 256)

/-- A byte string is the fixed-width form of its own value. -/
theorem leFixed_leValue (bs : Bytes) : leFixed bs.length (leValue bs) = bs := by
  induction bs with
  | nil => rfl
  | cons b bs ih =>
      have hb : b.toNat < 256 := b.toNat_lt
      rw [List.length_cons, leValue, leFixed, Nat.add_mul_mod_self_left, Nat.mod_eq_of_lt hb,
        Nat.add_mul_div_left _ _ (by decide), Nat.div_eq_of_lt hb, Nat.zero_add, ih,
        UInt8.ofNat_toNat]

/-- The shortest form loses nothing. -/
theorem leValue_leMinimal (n : Nat) : leValue (leMinimal n) = n := by
  induction n using Nat.strongRecOn with
  | _ n ih =>
      rw [leMinimal]
      split
      · next h => rw [h]; rfl
      · next h =>
          rw [leValue, ih _ (Nat.div_lt_self (Nat.pos_of_ne_zero h) (by decide)),
            toNat_ofNat_mod, Nat.mod_add_div]

/-- The low 32 bytes of a magnitude, high byte first: the form in which scalars are stored. -/
def scalarBlock (n : Int) : FixedBytes 32 := ⟨beFixed 32 n.natAbs, length_beFixed 32 _⟩

end Bitcoin
