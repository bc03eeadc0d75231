import Bitcoin.Proofs.Bytes.Numeral
import Bitcoin.Script.Stack
import Mathlib.Data.List.Basic
import Mathlib.Data.Nat.Bitwise

/-!
# Numbers on the stack, there and back

The bytes of a number are a sign and a magnitude, with the low byte first. The sign is the highest
bit of the last byte, so a magnitude that needs this bit itself is followed by one more byte. Many
byte strings denote one number: the last byte may hold nothing but the sign where the byte before it
has room for that, and zero may have a sign. What is written for a number is the one string without
such a byte, and every other one is longer.

* **`decode_withSign`**: a magnitude and its sign are read back.
* **`minimal_encode`**, **`encode_decode_of_minimal`**: the strings that are written are the minimal
  ones.
* **`exists_shorter`**: a string that is not minimal has a shorter one for the same number.
* **`encode_unique_shortest`**: what is written for a number, among all strings that denote it.
-/

namespace Bitcoin.ScriptNumber

/-! ## The bit of the sign -/

/-- The mask of the magnitude keeps the lower seven bits. -/
theorem toNat_and_low (b : UInt8) : (b &&& 0x7f).toNat = b.toNat % 128 := by
  have hmask : (0x7f : UInt8).toNat = 2 ^ 7 - 1 := rfl
  rw [UInt8.toNat_and, hmask, Nat.and_two_pow_sub_one_eq_mod]

theorem and_low_lt (b : UInt8) : b &&& 0x7f < 0x80 := by
  rw [UInt8.lt_iff_toNat_lt, toNat_and_low]
  exact Nat.mod_lt _ (by decide)

/-- A byte has no magnitude when it is zero or nothing but the sign. -/
theorem and_low_eq_zero_iff {b : UInt8} : b &&& 0x7f = 0 ↔ b = 0 ∨ b = 0x80 := by
  have hb := b.toNat_lt
  simp only [← UInt8.toNat_inj, toNat_and_low, UInt8.reduceToNat]
  omega

/-- The bit of the sign is set in the upper half of the bytes. -/
theorem and_high_ne_zero_iff {b : UInt8} : b &&& 0x80 ≠ 0 ↔ 0x80 ≤ b := by
  have hb := b.toNat_lt
  have hflag : (0x80 : UInt8).toNat = 2 ^ 7 := rfl
  have htest : b.toNat.testBit 7 = decide (2 ^ 7 ≤ b.toNat) := by
    rw [Nat.testBit_eq_decide_div_mod_eq, decide_eq_decide]
    omega
  rw [ne_eq, ← UInt8.toNat_inj, UInt8.toNat_and, UInt8.le_iff_toNat_le, hflag, Nat.and_two_pow,
    htest]
  simp

/-- The sign goes on top of seven bits. -/
theorem toNat_or_high {b : UInt8} (h : b < 0x80) : (b ||| 0x80).toNat = b.toNat + 128 := by
  have hlow : b.toNat < 2 ^ 7 := UInt8.lt_iff_toNat_lt.mp h
  have hor := Nat.two_pow_add_eq_or_of_lt hlow 1
  rw [UInt8.toNat_or, Nat.or_comm]
  exact hor.symm.trans (Nat.add_comm _ _)

/-- The high bit can be put onto a byte that does not have it. -/
theorem le_or_high {b : UInt8} (h : b < 0x80) : 0x80 ≤ b ||| 0x80 := by
  rw [UInt8.le_iff_toNat_le, toNat_or_high h]
  exact Nat.le_add_left _ _

/-- A sign that is put on a byte is taken off again. -/
theorem or_high_and_low {b : UInt8} (h : b < 0x80) : (b ||| 0x80) &&& 0x7f = b := by
  have hlow : b.toNat < 128 := UInt8.lt_iff_toNat_lt.mp h
  rw [← UInt8.toNat_inj, toNat_and_low, toNat_or_high h]
  omega

theorem and_low_of_lt {b : UInt8} (h : b < 0x80) : b &&& 0x7f = b := by
  have hlow : b.toNat < 128 := UInt8.lt_iff_toNat_lt.mp h
  rw [← UInt8.toNat_inj, toNat_and_low]
  omega

/-- A sign that is taken off a byte is put on again. -/
theorem and_low_or_high {b : UInt8} (h : 0x80 ≤ b) : (b &&& 0x7f) ||| 0x80 = b := by
  have hhigh : 128 ≤ b.toNat := UInt8.le_iff_toNat_le.mp h
  have hb := b.toNat_lt
  rw [← UInt8.toNat_inj, toNat_or_high (and_low_lt b), toNat_and_low]
  omega

/-! ## A magnitude and its sign -/

/-- A magnitude with a sign. -/
def signed (negative : Bool) (magnitude : Nat) : Int := if negative then -magnitude else magnitude

/-- The sign does not change the magnitude. -/
theorem natAbs_signed (negative : Bool) (magnitude : Nat) :
    (signed negative magnitude).natAbs = magnitude := by
  cases negative with
  | true => exact Int.natAbs_neg _
  | false => rfl

/-- A magnitude whose last byte is not zero is found again from a number, and so is its sign. -/
theorem encode_signed_leValue {front : Bytes} {last : UInt8} (h : last ≠ 0) (negative : Bool) :
    encode (signed negative (leValue (front ++ [last]))) = withSign negative (front ++ [last]) := by
  have hshortest : leMinimal (leValue (front ++ [last])) = front ++ [last] := by
    rw [leMinimal_leValue_iff, List.getLast?_concat]
    exact fun hzero => h (Option.some.inj hzero)
  have hpositive : leValue (front ++ [last]) ≠ 0 := by
    intro hzero
    rw [hzero, leMinimal, if_pos rfl] at hshortest
    exact List.append_ne_nil_of_right_ne_nil _ (List.cons_ne_nil _ _) hshortest.symm
  have hsign : decide (signed negative (leValue (front ++ [last])) < 0) = negative := by
    cases negative with
    | true =>
        rw [decide_eq_true_iff, signed, if_pos rfl]
        omega
    | false =>
        rw [decide_eq_false_iff_not, signed, if_neg Bool.false_ne_true]
        omega
  rw [encode, hsign, natAbs_signed, hshortest]

/-- A number is its magnitude with its sign. -/
theorem signed_natAbs (n : Int) : signed (n < 0) n.natAbs = n := by
  rw [signed]
  by_cases hn : n < 0
  · rw [if_pos (decide_eq_true hn)]
    omega
  · rw [if_neg (by rwa [decide_eq_true_iff])]
    omega

/-- The last byte holds the sign and the top of the magnitude. -/
theorem decode_concat (front : Bytes) (last : UInt8) :
    decode (front ++ [last]) = signed (0x80 ≤ last) (leValue (front ++ [last &&& 0x7f])) := by
  rw [decode, List.getLast?_concat, List.dropLast_concat, signed]
  simp only [decide_eq_true_eq]

/-- The sign takes a byte of its own where the last byte of the magnitude has no room for it. -/
theorem withSign_concat_of_high {last : UInt8} (h : 0x80 ≤ last) (negative : Bool)
    (front : Bytes) : withSign negative (front ++ [last])
      = front ++ [last] ++ [if negative then 0x80 else 0x00] := by
  rw [withSign, List.getLast?_concat]
  exact if_pos h

/-- Where the last byte of the magnitude has room, the sign is put there. -/
theorem withSign_concat_of_low {last : UInt8} (h : last < 0x80) (negative : Bool) (front : Bytes) :
    withSign negative (front ++ [last])
      = front ++ [if negative then last ||| 0x80 else last] := by
  rw [withSign, List.getLast?_concat, List.dropLast_concat]
  dsimp only
  rw [if_neg (UInt8.not_le.mpr h)]
  cases negative with
  | true => rfl
  | false => rfl

/-- A zero at the end adds nothing. -/
theorem leValue_concat_zero (bs : Bytes) : leValue (bs ++ [0]) = leValue bs := by
  have hzero : leValue [0] = 0 := rfl
  rw [leValue_append, hzero, Nat.mul_zero, Nat.add_zero]

/-- A last byte with nothing but the sign adds nothing to the magnitude. -/
theorem decode_concat_of_and_low {last : UInt8} (h : last &&& 0x7f = 0) (front : Bytes) :
    decode (front ++ [last]) = signed (0x80 ≤ last) (leValue front) := by
  rw [decode_concat, h, leValue_concat_zero]

/-- A magnitude and its sign are read back. -/
theorem decode_withSign (negative : Bool) (bs : Bytes) :
    decode (withSign negative bs) = signed negative (leValue bs) := by
  rcases List.eq_nil_or_concat' bs with rfl | ⟨front, last, rfl⟩
  · cases negative with
    | true => rfl
    | false => rfl
  · by_cases hlast : 0x80 ≤ last
    · rw [withSign_concat_of_high hlast]
      cases negative with
      | true => exact decode_concat_of_and_low (by decide) _
      | false => exact decode_concat_of_and_low (by decide) _
    · have hlow : last < 0x80 := UInt8.not_le.mp hlast
      rw [withSign_concat_of_low hlow, decode_concat]
      cases negative with
      | true =>
          rw [if_pos rfl, or_high_and_low hlow, decide_eq_true (le_or_high hlow)]
      | false =>
          rw [if_neg Bool.false_ne_true, and_low_of_lt hlow, decide_eq_false hlast]

/-- A number is read back as it was written. -/
theorem decode_encode (n : Int) : decode (encode n) = n := by
  rw [encode, decode_withSign, leValue_leMinimal, signed_natAbs]

/-! ## Strings without a byte that could be spared -/

/-- The last byte holds a part of the magnitude, or else the byte before it has no room for the
    sign. -/
def Minimal (bs : Bytes) : Prop :=
  bs = [] ∨ (∃ last, bs.getLast? = some last ∧ last &&& 0x7f ≠ 0) ∨
    ∃ next, bs.dropLast.getLast? = some next ∧ next &&& 0x80 ≠ 0

/-- The last byte cannot be spared when it holds a part of the magnitude, or when the byte before it
    is full. -/
theorem minimal_concat_iff {front : Bytes} {last : UInt8} : Minimal (front ++ [last]) ↔
    last &&& 0x7f ≠ 0 ∨ ∃ next, front.getLast? = some next ∧ 0x80 ≤ next := by
  simp [Minimal, and_high_ne_zero_iff]

/-- A number is written without a byte that could be spared. -/
theorem minimal_encode (n : Int) : Minimal (encode n) := by
  have hlast := getLast?_leMinimal_ne n.natAbs
  rw [encode]
  rcases List.eq_nil_or_concat' (leMinimal n.natAbs) with hnil | ⟨front, last, hconcat⟩
  · rw [hnil]
    exact .inl rfl
  · rw [hconcat, List.getLast?_concat] at hlast
    rw [hconcat]
    by_cases hhigh : 0x80 ≤ last
    · rw [withSign_concat_of_high hhigh, minimal_concat_iff]
      exact .inr ⟨last, List.getLast?_concat, hhigh⟩
    · have hlow : last < 0x80 := UInt8.not_le.mp hhigh
      have hne : last ≠ 0 := fun hzero => hlast (congrArg some hzero)
      rw [withSign_concat_of_low hlow, minimal_concat_iff]
      refine .inl ?_
      cases decide (n < 0) with
      | true => rwa [if_pos rfl, or_high_and_low hlow]
      | false => rwa [if_neg Bool.false_ne_true, and_low_of_lt hlow]

/-- A string without a byte that could be spared is written for the number that it denotes. -/
theorem encode_decode_of_minimal {bs : Bytes} (h : Minimal bs) : encode (decode bs) = bs := by
  rcases List.eq_nil_or_concat' bs with rfl | ⟨front, last, rfl⟩
  · decide +kernel
  · by_cases hlast : last &&& 0x7f = 0
    · -- the byte is there for the sign only, so the magnitude ends in front of it
      obtain hmore | ⟨next, hnext, hhigh⟩ := minimal_concat_iff.mp h
      · exact absurd hlast hmore
      obtain ⟨before, rfl⟩ := List.getLast?_eq_some_iff.mp hnext
      have hne : next ≠ 0 := fun hzero => absurd (hzero ▸ hhigh) (by decide)
      rw [decode_concat_of_and_low hlast, encode_signed_leValue hne,
        withSign_concat_of_high hhigh]
      rcases and_low_eq_zero_iff.mp hlast with rfl | rfl
      · rfl
      · rfl
    · rw [decode_concat, encode_signed_leValue hlast, withSign_concat_of_low (and_low_lt last)]
      by_cases hhigh : 0x80 ≤ last
      · rw [if_pos (decide_eq_true hhigh), and_low_or_high hhigh]
      · rw [if_neg (by rwa [decide_eq_true_iff]), and_low_of_lt (UInt8.not_le.mp hhigh)]

/-- Without a byte that could be spared a string is what is written for its number, and no other
    string is. -/
theorem encode_decode_iff {bs : Bytes} : encode (decode bs) = bs ↔ Minimal bs := by
  constructor
  · intro h
    rw [← h]
    exact minimal_encode _
  · exact encode_decode_of_minimal

/-! ## Other strings are longer -/

/-- When a byte can be spared there is a shorter string for the same number. -/
theorem exists_shorter {bs : Bytes} (h : ¬ Minimal bs) :
    ∃ shorter : Bytes, shorter.length < bs.length ∧ decode shorter = decode bs := by
  rcases List.eq_nil_or_concat' bs with rfl | ⟨front, last, rfl⟩
  · exact absurd (.inl rfl) h
  · rw [minimal_concat_iff, not_or, not_not] at h
    obtain ⟨hlast, hnext⟩ := h
    -- the sign goes to the byte before, which has room for it, or is dropped from a zero
    refine ⟨withSign (0x80 ≤ last) front, ?_, ?_⟩
    · rw [List.length_append, List.length_singleton, Nat.lt_succ_iff]
      rcases List.eq_nil_or_concat' front with rfl | ⟨before, next, rfl⟩
      · exact Nat.le_refl 0
      · have hlow : next < 0x80 := by
          rw [← UInt8.not_le]
          exact fun hhigh => hnext ⟨next, List.getLast?_concat, hhigh⟩
        rw [withSign_concat_of_low hlow, List.length_append, List.length_append]
        exact Nat.le_refl _
    · rw [decode_withSign, decode_concat_of_and_low hlast]

/-- Every string is what is written for its number, or is longer than that. -/
theorem eq_encode_or_length_lt (bs : Bytes) :
    bs = encode (decode bs) ∨ (encode (decode bs)).length < bs.length := by
  induction hlength : bs.length using Nat.strongRecOn generalizing bs with
  | _ length ih =>
      subst hlength
      by_cases hminimal : Minimal bs
      · exact .inl (encode_decode_of_minimal hminimal).symm
      · obtain ⟨shorter, hlt, hsame⟩ := exists_shorter hminimal
        refine .inr ?_
        rw [← hsame]
        rcases ih shorter.length hlt shorter rfl with heq | hlt'
        · rwa [← heq]
        · exact hlt'.trans hlt

/-- A number is read back as it was written. A string is written again as it was exactly when no
    byte of it could be spared. So what is written for a number is the only such string that denotes
    it, and any other string that denotes it is longer. -/
theorem encode_unique_shortest :
    (∀ n, decode (encode n) = n) ∧
      (∀ bs, encode (decode bs) = bs ↔ Minimal bs) ∧
      (∀ n bs, Minimal bs ∧ decode bs = n ↔ bs = encode n) ∧
      ∀ bs, bs = encode (decode bs) ∨ (encode (decode bs)).length < bs.length := by
  refine ⟨decode_encode, fun bs => encode_decode_iff, fun n bs => ?_, eq_encode_or_length_lt⟩
  constructor
  · rintro ⟨hminimal, rfl⟩
    exact (encode_decode_of_minimal hminimal).symm
  · rintro rfl
    exact ⟨minimal_encode n, decode_encode n⟩

/-- A magnitude that needs the bit of the sign itself is followed by one more byte. -/
example : encode (-255) = [0xff, 0x80] ∧ decode [0xff, 0x80] = -255 := by
  decide +kernel

end Bitcoin.ScriptNumber
