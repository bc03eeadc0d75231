import Bitcoin.Key.Secp256k1

/-!
# Deterministic nonces

The nonce of a signature is drawn from a keyed digest that is seeded with the secret and the
message, so the same message under the same secret always gets the same nonce. Candidates that are
zero or not below the order are passed over. Nothing bounds the search: for a digest that never
yields a usable candidate it does not end, and only then it has no result.

* **`search_range`**: what the search yields is a usable nonce.
-/

namespace Bitcoin.Nonce

/-- The key and the value of the generator. -/
structure Generator where
  key : Bytes
  value : Bytes

/-- The secret and the message as blocks of 32 bytes. A message that is not below the order has
    the order taken off once. -/
def seed (secret z : Int) : Bytes :=
  (scalarBlock secret).toBytes ++
    (scalarBlock (if Secp256k1.order ≤ z then z - Secp256k1.order else z)).toBytes

/-- A new key for the given input, and a new value under that key. -/
def Generator.rekey [Digests] (g : Generator) (input : Bytes) (value : Bytes) : Generator :=
  let key := (Digests.hmacSha256 g.key input).toBytes
  ⟨key, (Digests.hmacSha256 key value).toBytes⟩

/-- The generator after it has taken in the seed under the two tags. -/
def Generator.ofSeed [Digests] (seed : Bytes) : Generator :=
  let g : Generator := ⟨List.replicate 32 0x00, List.replicate 32 0x01⟩
  let g := g.rekey (g.value ++ 0x00 :: seed) g.value
  g.rekey (g.value ++ 0x01 :: seed) g.value

/-- The value that follows. -/
def Generator.nextValue [Digests] (g : Generator) : Bytes :=
  (Digests.hmacSha256 g.key g.value).toBytes

/-- The number that the next value denotes. -/
def Generator.candidate [Digests] (g : Generator) : Nat := beValue g.nextValue

/-- The generator after a candidate that is not usable. -/
def Generator.retry [Digests] (g : Generator) : Generator :=
  g.rekey (g.nextValue ++ [0x00]) g.nextValue

/-- The first usable candidate. -/
def Generator.search [Digests] (g : Generator) : Option Nat :=
  if 1 ≤ g.candidate ∧ g.candidate < Secp256k1.order then some g.candidate
  else g.retry |>.search
partial_fixpoint

/-- The nonce for a secret and a message. -/
def find? [Digests] (secret z : Int) : Option Nat := (Generator.ofSeed (seed secret z)).search

/-- What the search yields is a usable nonce. -/
theorem search_range [Digests] {g : Generator} {k : Nat} (h : g.search = some k) :
    1 ≤ k ∧ k < Secp256k1.order := by
  refine Generator.search.partial_correctness
    (motive := fun _ k => 1 ≤ k ∧ k < Secp256k1.order) ?_ g k h
  intro search ih g k hk
  split at hk
  · next hc => exact Option.some.inj hk ▸ hc
  · exact ih _ _ hk

end Bitcoin.Nonce
