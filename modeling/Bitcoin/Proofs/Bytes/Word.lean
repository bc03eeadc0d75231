import Bitcoin.Proofs.Bytes.Numeral

/-!
# Numbers as words of 64 bits

A register takes a number in by shifting each byte to its place and joining the places with "or",
and gives it out by shifting each place down and cutting off what is above a byte. No place reaches
into another and eight of them fill the register, so both loops are those of the numerals.

* **`toNat_leWord`**: what is taken in is the number that the first eight bytes denote.
* **`leBytes_eq`**: what is given out is the number written with that many bytes.
-/

namespace Bitcoin

/-- Joins a byte to a word at the place that is given with it. -/
def putByte (word : UInt64) (placed : UInt8 × Nat) : UInt64 :=
  word ||| placed.1.toUInt64 <<< UInt64.ofNat (8 * placed.2)

/-- The word of the first eight bytes, low byte first. -/
def leWord (bs : Bytes) : UInt64 := (bs.take 8).zipIdx.foldl putByte 0

/-- `w` bytes of a word, low byte first; there are only zeros behind the eighth. -/
def leBytes (w : Nat) (word : UInt64) : Bytes :=
  (List.range w).map fun i => if i < 8 then (word >>> UInt64.ofNat (8 * i)).toUInt8 else 0

theorem pow_256 (i : Nat) : 256 ^ i = 2 ^ (8 * i) := (Nat.pow_mul 2 8 i).symm

/-- The distance of a place is below the size of a word, so a shift by it is not reduced. -/
theorem toNat_shift {i : Nat} (hi : i < 8) : (UInt64.ofNat (8 * i)).toNat % 64 = 8 * i := by
  have hlt : 8 * i < UInt64.size := Nat.lt_trans (by omega : 8 * i < 64) (by decide)
  rw [UInt64.toNat_ofNat_of_lt' hlt]
  omega

/-! ## Taking a number in -/

/-- A byte that is joined above what is there is added in its place. -/
theorem toNat_putByte {word : UInt64} {b : UInt8} {i : Nat} (hi : i < 8)
    (hword : word.toNat < 256 ^ i) :
    (putByte word (b, i)).toNat = word.toNat + 256 ^ i * b.toNat := by
  have hfits : b.toNat * 256 ^ i < 2 ^ 64 := by
    calc b.toNat * 256 ^ i
        < 256 * 256 ^ i := Nat.mul_lt_mul_of_pos_right b.toNat_lt (Nat.pow_pos (by decide))
      _ = 256 ^ (i + 1) := (Nat.pow_succ' ..).symm
      _ ≤ 256 ^ 8 := Nat.pow_le_pow_right (by decide) hi
  rw [pow_256] at hword
  rw [putByte, UInt64.toNat_or, UInt64.toNat_shiftLeft, toNat_shift hi, UInt8.toNat_toUInt64,
    Nat.shiftLeft_eq, ← pow_256, Nat.mod_eq_of_lt hfits, Nat.mul_comm, pow_256, Nat.or_comm,
    ← Nat.two_pow_add_eq_or_of_lt hword, Nat.add_comm]

/-- Bytes that are joined one above the other are added as the number that they denote. -/
theorem toNat_foldl_putByte (bs : Bytes) {word : UInt64} {i : Nat} (hi : i + bs.length ≤ 8)
    (hword : word.toNat < 256 ^ i) :
    ((bs.zipIdx i).foldl putByte word).toNat = word.toNat + 256 ^ i * leValue bs := by
  induction bs generalizing word i with
  | nil => rw [leValue, Nat.mul_zero, Nat.add_zero, List.zipIdx_nil, List.foldl_nil]
  | cons b bs ih =>
      rw [List.length_cons] at hi
      have hput : (putByte word (b, i)).toNat = word.toNat + 256 ^ i * b.toNat :=
        toNat_putByte (by omega) hword
      -- the word stays below the place of the next byte
      have hnext : (putByte word (b, i)).toNat < 256 ^ (i + 1) := by
        have hb : b.toNat + 1 ≤ 256 := b.toNat_lt
        calc (putByte word (b, i)).toNat
            = word.toNat + 256 ^ i * b.toNat := hput
          _ < 256 ^ i + 256 ^ i * b.toNat := Nat.add_lt_add_right hword _
          _ = 256 ^ i * (b.toNat + 1) := by rw [Nat.mul_succ, Nat.add_comm]
          _ ≤ 256 ^ i * 256 := Nat.mul_le_mul_left _ hb
          _ = 256 ^ (i + 1) := (Nat.pow_succ ..).symm
      rw [List.zipIdx_cons, List.foldl_cons, ih (by omega) hnext, hput, leValue, Nat.mul_add,
        Nat.pow_succ, Nat.mul_assoc, Nat.add_assoc]

/-- The word of bytes is the number that the first eight denote. -/
theorem toNat_leWord (bs : Bytes) : (leWord bs).toNat = leValue (bs.take 8) := by
  have hlength : 0 + (bs.take 8).length ≤ 8 := by
    rw [Nat.zero_add]
    exact List.length_take_le 8 bs
  rw [leWord, toNat_foldl_putByte _ hlength (by decide), UInt64.toNat_zero, Nat.zero_add,
    Nat.pow_zero, Nat.one_mul]

/-! ## Giving a number out -/

/-- Each byte of a number is the quotient by its place, without what is above. -/
theorem leFixed_eq_map (w n : Nat) :
    leFixed w n = (List.range w).map fun i => UInt8.ofNat (n / 256 ^ i % 256) := by
  induction w generalizing n with
  | zero => rfl
  | succ w ih =>
      rw [leFixed, ih, List.range_succ_eq_map, List.map_cons, List.map_map, Nat.pow_zero,
        Nat.div_one]
      refine congrArg (List.cons _) (List.map_congr_left fun i _ => ?_)
      rw [Function.comp_apply, Nat.pow_succ', Nat.div_div_eq_div_mul]

/-- The bytes of a word are those of its number. -/
theorem leBytes_eq (w : Nat) (word : UInt64) : leBytes w word = leFixed w word.toNat := by
  rw [leFixed_eq_map, leBytes]
  refine List.map_congr_left fun i _ => UInt8.toNat_inj.mp ?_
  rw [toNat_ofNat_mod]
  by_cases hi : i < 8
  · rw [if_pos hi, UInt64.toNat_toUInt8, UInt64.toNat_shiftRight, toNat_shift hi,
      Nat.shiftRight_eq_div_pow, pow_256]
  · have hzero : word.toNat / 256 ^ i = 0 := by
      refine Nat.div_eq_of_lt (Nat.lt_of_lt_of_le word.toNat_lt ?_)
      exact Nat.pow_le_pow_right (by decide : 0 < 256) (Nat.not_lt.mp hi)
    rw [if_neg hi, hzero]
    rfl

end Bitcoin
