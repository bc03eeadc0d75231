import Bitcoin.Bytes.Basic

/-!
# Hexadecimal text

Bytes are shown as two lowercase digits each, integers with the fewest digits and a leading
minus sign where they are negative.

* **`decode?_encode`**: reading back what was written returns the bytes.
-/

namespace Bitcoin.Hex

/-- The sixteen digits in order. -/
def digits : List Char := "0123456789abcdef".toList

/-- The digit of a number below sixteen. -/
def digit (n : Nat) : Char := digits.getD n '0'

/-- The value of a digit of either case. -/
def digitValue? (c : Char) : Option Nat := digits.findIdx? (· == c.toLower)

/-- Two digits a byte, high half first. -/
def encodeChars : Bytes → List Char
  | [] => []
  | b :: bs => digit (b.toNat / 16) :: digit (b.toNat % 16) :: encodeChars bs

/-- Reads pairs of digits; an odd count or another character is refused. -/
def decodeChars? : List Char → Option Bytes
  | [] => some []
  | [_] => none
  | hi :: lo :: rest => do
      let h ← digitValue? hi
      let l ← digitValue? lo
      let bs ← decodeChars? rest
      return UInt8.ofNat (16 * h + l) :: bs

/-- The text of a byte string. -/
def encode (bs : Bytes) : String := String.ofList (encodeChars bs)

/-- The byte string of a text. -/
def decode? (s : String) : Option Bytes := decodeChars? s.toList

/-- The fewest digits of a natural number. -/
def ofNat (n : Nat) : String := String.ofList (Nat.toDigits 16 n)

/-- The digits of the magnitude after the sign. -/
def ofInt : Int → String
  | .ofNat n => ofNat n
  | .negSucc n => "-" ++ ofNat (n + 1)

/-- At least `width` digits, filled up with zeros on the left. -/
def ofNatPadded (width n : Nat) : String :=
  String.ofList ((Nat.toDigits 16 n).leftpad width '0')

theorem digitValue?_digit : ∀ n ∈ List.range 16, digitValue? (digit n) = some n := by decide

theorem decodeChars?_encodeChars (bs : Bytes) : decodeChars? (encodeChars bs) = some bs := by
  induction bs with
  | nil => rfl
  | cons b bs ih =>
      have hb : b.toNat < 256 := b.toNat_lt
      rw [encodeChars, decodeChars?,
        digitValue?_digit _ (List.mem_range.mpr (by omega)),
        digitValue?_digit _ (List.mem_range.mpr (by omega)), ih]
      show some (UInt8.ofNat (16 * (b.toNat / 16) + b.toNat % 16) :: bs) = some (b :: bs)
      rw [Nat.div_add_mod, UInt8.ofNat_toNat]

/-- Reading back what was written returns the bytes. -/
theorem decode?_encode (bs : Bytes) : decode? (encode bs) = some bs := by
  rw [decode?, encode, String.toList_ofList, decodeChars?_encodeChars]

end Bitcoin.Hex
