import Bitcoin.Address.Base58
import Bitcoin.Network

/-!
# Addresses

An address is the checked Base58 form of a version byte and a 20-byte hash: of a public key, or
of a script.
-/

namespace Bitcoin

/-- What an address pays to. -/
inductive Payee
  | keyHash (hash : Hash160)
  | scriptHash (hash : Hash160)
deriving DecidableEq

namespace Payee

/-- The hash in the payload of an address. -/
def hash : Payee → Hash160
  | .keyHash h => h
  | .scriptHash h => h

/-- The version byte in front of the hash. -/
def version (net : Network) : Payee → UInt8
  | .keyHash _ => net.keyHashVersion
  | .scriptHash _ => net.scriptHashVersion

/-- The address on a network. -/
def address [Digests] (payee : Payee) (net : Network) : String :=
  Base58.encodeChecked (payee.version net :: payee.hash.toBytes)

/-- What an address pays to, on whichever network its version byte names. -/
def ofAddress [Digests] (address : String) : Except Error Payee := do
  match ← Base58.decodeChecked address with
  | [] => throw (.malformed .emptyAddress)
  | version :: rest =>
      match FixedBytes.ofBytes? 20 rest with
      | none => throw (.malformed (.addressHashSize address))
      | some hash =>
          if Network.all.any (·.keyHashVersion = version) then return .keyHash hash
          else if Network.all.any (·.scriptHashVersion = version) then return .scriptHash hash
          else throw (.malformed (.addressVersion version))

end Payee

/-- The hash in an address of any version. -/
def addressHash [Digests] (address : String) : Except Error Hash160 := do
  let payload ← Base58.decodeChecked address
  match FixedBytes.ofBytes? 20 (payload.drop 1) with
  | some hash => return hash
  | none => throw (.malformed (.addressSize payload.length))

end Bitcoin
