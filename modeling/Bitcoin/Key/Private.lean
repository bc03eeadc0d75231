import Bitcoin.Key.Nonce
import Bitcoin.Key.Signature

/-!
# Private keys

A private key is a scalar from one up to the order, together with the public point that belongs
to it; both facts are part of the type. Signing takes a deterministic nonce and always gives the
smaller of the two values of `s` that would be valid.
-/

namespace Bitcoin

/-- A secret scalar and its public point. -/
structure PrivateKey where
  secret : Int
  publicKey : Secp256k1.Point
  secret_range : 1 ≤ secret ∧ secret < Secp256k1.order
  publicKey_eq : Secp256k1.generator.mul secret = .ok publicKey

namespace PrivateKey

/-- The key of a scalar in range. -/
def ofSecret (secret : Int) : Except Error PrivateKey :=
  if h : 1 ≤ secret ∧ secret < Secp256k1.order then
    match hp : Secp256k1.generator.mul secret with
    | .ok p => .ok ⟨secret, p, h, hp⟩
    | .error e => .error e
  else .error .badPrivateKey

/-- The key whose scalar is the digest of a text, reduced modulo the order. -/
def ofPassphrase [Digests] (text : String) : Except Error PrivateKey :=
  ofSecret (beValue (Digests.hash256 text.toUTF8.toList).toBytes % Secp256k1.order : Nat)

/-- The secret as sixty-four hexadecimal digits. -/
def text (key : PrivateKey) : String := Hex.ofNatPadded 64 key.secret.toNat

/-- The exported form of the secret; a last byte `01` says that the short public key is meant. -/
def walletImport [Digests] (key : PrivateKey) (compressed : Bool) (net : Network) : String :=
  Base58.encodeChecked (net.secretVersion :: (scalarBlock key.secret).toBytes ++
    if compressed then [0x01] else [])

/-- The smaller of `s` and its negative modulo the order. -/
def lowS (s : Int) : Int := if Secp256k1.order / 2 < s then Secp256k1.order - s else s

/-- The signature of a digest under a secret with a given nonce: `r` is the first coordinate of
    the nonce point, and `s` is `(z + r d) / k`. -/
def signWith (secret : Int) (nonce : Nat) (z : Int) : Except Error Signature := do
  match (← Secp256k1.generator.mul nonce).x? with
  | none => throw .badPrivateKey
  | some r =>
      let s := (z + r * secret) * Secp256k1.scalarInverse nonce % Secp256k1.order
      return ⟨r, lowS s⟩

/-- The signature of a digest. There is no result, not even an error, where the search for a nonce
    does not end. -/
def sign [Digests] (key : PrivateKey) (z : Int) : Option (Except Error Signature) :=
  (Nonce.find? key.secret z).map fun nonce => signWith key.secret nonce z

/-- The signature of the digest of a message. -/
def signMessage [Digests] (key : PrivateKey) (message : Bytes) :
    Option (Except Error Signature) :=
  key.sign (beValue (Digests.hash256 message).toBytes)

end PrivateKey

end Bitcoin
