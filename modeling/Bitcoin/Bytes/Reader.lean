import Bitcoin.Bytes.Numeral
import Bitcoin.Error

/-!
# Reading from the front of a byte string

A reader takes what it needs from the front and hands on the rest; it fails when too little is
left. All wire formats are written in it, so their laws can be stated with any bytes that follow.
The first such format is that of counts and lengths, which take one byte or a marker and more.

* **`bytes_append`**: reading as many bytes as were written returns them and leaves the rest.
* **`length_of_bytes`**: what was read and what is left add up to what was there.
* **`bind_eq_ok_iff`**: a sequence of readers succeeds when each does on what the one before left.
-/

namespace Bitcoin

/-- Takes bytes from the front, or fails. -/
abbrev Reader := StateT Bytes (Except Error)

namespace Reader

/-- The next `n` bytes. -/
def bytes (n : Nat) : Reader Bytes := fun input =>
  if (input.take n).length = n then .ok (input.take n, input.drop n)
  else .error (.malformed (.endOfData n))

/-- The next byte. -/
def byte : Reader UInt8 := fun
  | b :: rest => .ok (b, rest)
  | [] => .error (.malformed (.endOfData 1))

/-- The next `n` bytes, which have a fixed size. -/
def fixed (n : Nat) : Reader (FixedBytes n) := fun input =>
  if h : (input.take n).length = n then .ok (⟨input.take n, h⟩, input.drop n)
  else .error (.malformed (.endOfData n))

/-- The number that the next `w` bytes denote, low byte first. -/
def number (w : Nat) : Reader Nat := do return leValue (← bytes w)

/-- A field of `w` bytes, as the word of their number. -/
def word {α : Type} (w : Nat) (ofNat : Nat → α) : Reader α := do return ofNat (← number w)

/-- A 32-bit field. -/
def word32 : Reader UInt32 := word 4 UInt32.ofNat

/-- A 64-bit field. -/
def word64 : Reader UInt64 := word 8 UInt64.ofNat

/-- `count` items one after the other. -/
def replicate {α : Type} (item : Reader α) : Nat → Reader (List α)
  | 0 => return []
  | count + 1 => do
      let first ← item
      let others ← replicate item count
      return first :: others

/-- A sequence of readers succeeds when each does on what the one before left. -/
theorem bind_eq_ok_iff {α β : Type} {r : Reader α} {f : α → Reader β} {input rest : Bytes} {b : β} :
    (r >>= f) input = .ok (b, rest) ↔
      ∃ a middle, r input = .ok (a, middle) ∧ f a middle = .ok (b, rest) := by
  show (StateT.bind r f) input = _ ↔ _
  simp only [StateT.bind, bind, Except.bind]
  constructor
  · intro h
    cases hr : r input with
    | error e => rw [hr] at h; cases h
    | ok p => rw [hr] at h; exact ⟨p.1, p.2, rfl, h⟩
  · rintro ⟨a, middle, hr, h⟩
    rw [hr]
    exact h

theorem pure_eq_ok_iff {α : Type} {a b : α} {input rest : Bytes} :
    (pure a : Reader α) input = .ok (b, rest) ↔ a = b ∧ input = rest := by
  show Except.ok (a, input) = _ ↔ _
  rw [Except.ok.injEq, Prod.mk.injEq]

/-- Reading as many bytes as were written returns them and leaves the rest. -/
theorem bytes_append (front rest : Bytes) :
    bytes front.length (front ++ rest) = .ok (front, rest) := by
  rw [bytes, List.take_left', List.drop_left']
  · exact if_pos rfl
  · rfl
  · rfl

/-- What was read and what is left add up to what was there. -/
theorem length_of_bytes {n : Nat} {input front rest : Bytes}
    (h : bytes n input = .ok (front, rest)) : front.length = n ∧ input = front ++ rest := by
  rw [bytes] at h
  split at h
  · next hn => cases h; exact ⟨hn, (List.take_append_drop n input).symm⟩
  · cases h

/-- A number takes as many bytes as its width. -/
theorem length_of_number {w n : Nat} {input rest : Bytes}
    (h : number w input = .ok (n, rest)) : rest.length + w = input.length := by
  obtain ⟨bs, middle, hb, hp⟩ := bind_eq_ok_iff.mp h
  obtain ⟨hlen, hin⟩ := length_of_bytes hb
  obtain ⟨-, rfl⟩ := pure_eq_ok_iff.mp hp
  rw [hin, List.length_append, hlen, Nat.add_comm]

end Reader

/-! ## Compact sizes

A count or a length takes one byte below `0xfd`, else a marker and two, four or eight bytes with
the low byte first. Writing picks the shortest form; reading accepts every form. -/

namespace CompactSize

/-- The shortest form of a count below `2 ^ 64`. -/
def encode (n : Nat) : Bytes :=
  if n < 0xfd then leFixed 1 n
  else if n < 0x10000 then 0xfd :: leFixed 2 n
  else if n < 0x100000000 then 0xfe :: leFixed 4 n
  else 0xff :: leFixed 8 n

/-- Reads a count in any form. -/
def read : Reader Nat := do
  let marker ← Reader.byte
  if marker = 0xfd then Reader.number 2
  else if marker = 0xfe then Reader.number 4
  else if marker = 0xff then Reader.number 8
  else return marker.toNat

end CompactSize

end Bitcoin
