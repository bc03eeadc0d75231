/-!
# Byte strings, and byte strings of a known length

Everything on the wire is a list of bytes. Digests, transaction ids and scalars have a fixed
size, and `FixedBytes n` carries that size in its type, so that no later rule has to check it.

* **`FixedBytes.ofBytes?`** accepts exactly the byte strings of the right length.
* **`FixedBytes.reverse`** is the passage between the wire order of an id and its display order;
  `reverse_reverse` says that it is its own inverse.
-/

namespace Bitcoin

/-- A byte string. -/
abbrev Bytes := List UInt8

/-- A byte string of exactly `n` bytes. -/
structure FixedBytes (n : Nat) where
  toBytes : Bytes
  length_toBytes : toBytes.length = n
deriving DecidableEq

namespace FixedBytes

variable {n : Nat}

instance : Hashable (FixedBytes n) where
  hash b := hash b.toBytes

attribute [simp] length_toBytes

@[ext]
theorem ext {a b : FixedBytes n} (h : a.toBytes = b.toBytes) : a = b := by
  cases a; cases b; cases h; rfl

/-- The byte string itself, when it has the right length. -/
def ofBytes? (n : Nat) (bs : Bytes) : Option (FixedBytes n) :=
  if h : bs.length = n then some ⟨bs, h⟩ else none

/-- A byte string is accepted exactly when it is the content of a fixed one. -/
theorem ofBytes?_eq_some_iff {bs : Bytes} {b : FixedBytes n} :
    ofBytes? n bs = some b ↔ bs = b.toBytes := by
  constructor
  · intro h
    by_cases hn : bs.length = n
    · rw [ofBytes?, dif_pos hn, Option.some.injEq] at h; rw [← h]
    · rw [ofBytes?, dif_neg hn] at h; exact absurd h (by simp)
  · rintro rfl
    rw [ofBytes?, dif_pos b.length_toBytes]

/-- `n` zero bytes. -/
def zero (n : Nat) : FixedBytes n := ⟨List.replicate n 0, List.length_replicate⟩

/-- The bytes in the opposite order. -/
def reverse (b : FixedBytes n) : FixedBytes n :=
  ⟨b.toBytes.reverse, by rw [List.length_reverse, b.length_toBytes]⟩

@[simp]
theorem toBytes_reverse (b : FixedBytes n) : b.reverse.toBytes = b.toBytes.reverse := rfl

@[simp]
theorem reverse_reverse (b : FixedBytes n) : b.reverse.reverse = b :=
  ext (List.reverse_reverse _)

end FixedBytes

/-- A transaction id, in the order in which it is displayed. -/
abbrev Txid := FixedBytes 32

/-- The digest that an address commits to. -/
abbrev Hash160 := FixedBytes 20

end Bitcoin
