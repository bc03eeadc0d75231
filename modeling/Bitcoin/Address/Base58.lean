import Bitcoin.Bytes.Numeral
import Bitcoin.Digest
import Bitcoin.Error

/-!
# Base58, with and without a checksum

A byte string is written as its big-endian number in base 58, over letters and digits without the
four that are easily confused. Leading zero bytes do not count in the number, so each of them is
written as one leading `1`. The checked form appends four bytes of a digest before writing.

* **`ofDigits_lowDigits`**: a number is the value of its digits.
-/

namespace Bitcoin.Base58

/-- The fifty-eight digits in order. -/
def alphabet : List Char := "123456789ABCDEFGHJKLMNPQRSTUVWXYZabcdefghijkmnopqrstuvwxyz".toList

/-- The digit of a number below fifty-eight. -/
def digit (n : Nat) : Char := alphabet.getD n '1'

/-- The value of a digit; an error names the first byte of the character's UTF-8 form. -/
def digitValue (c : Char) : Except Error Nat :=
  match alphabet.findIdx? (· == c) with
  | some n => .ok n
  | none => .error (.badBase58 ((String.utf8EncodeChar c).headD 0))

/-- The fewest digits of a number, the low one first. -/
def lowDigits (n : Nat) : List Nat :=
  if n = 0 then [] else n % 58 :: lowDigits (n / 58)
termination_by n

/-- The number of digits given with the high one first. -/
def ofDigits (ds : List Nat) : Nat := ds.foldl (fun n d => 58 * n + d) 0

/-- The text of a byte string. -/
def encode (bs : Bytes) : String :=
  String.ofList (List.replicate (bs.takeWhile (· = 0)).length '1' ++
    (lowDigits (beValue bs)).reverse.map digit)

/-- The byte string of a text over the alphabet. -/
def decode (s : String) : Except Error Bytes := do
  let ds ← s.toList.mapM digitValue
  return List.replicate (s.toList.takeWhile (· = '1')).length 0 ++ beMinimal (ofDigits ds)

/-- The four bytes that protect a payload. -/
def checksum [Digests] (payload : Bytes) : Bytes := (Digests.hash256 payload).toBytes.take 4

/-- The text of a payload and its checksum. -/
def encodeChecked [Digests] (payload : Bytes) : String := encode (payload ++ checksum payload)

/-- The payload of a text whose last four bytes are the right checksum. -/
def decodeChecked [Digests] (s : String) : Except Error Bytes := do
  let bs ← decode s
  let payload := bs.take (bs.length - 4)
  if bs.length < 4 ∨ checksum payload ≠ bs.drop (bs.length - 4) then throw .badChecksum
  return payload

/-- A number is the value of its digits. -/
theorem ofDigits_lowDigits (n : Nat) : ofDigits (lowDigits n).reverse = n := by
  induction n using Nat.strongRecOn with
  | _ n ih =>
      rw [lowDigits]
      split
      · next h => rw [h]; rfl
      · next h =>
          have hlt : n / 58 < n := Nat.div_lt_self (Nat.pos_of_ne_zero h) (by decide)
          rw [ofDigits, List.reverse_cons, List.foldl_append]
          show 58 * ofDigits (lowDigits (n / 58)).reverse + n % 58 = n
          rw [ih _ hlt, Nat.div_add_mod]

end Bitcoin.Base58
