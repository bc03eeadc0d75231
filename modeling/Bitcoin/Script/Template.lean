import Bitcoin.Address.Basic
import Bitcoin.Script.Command

/-!
# Standard scripts

A coin is usually locked to the hash of a public key or of a script, by a script of fixed shape.
`Payee.script` writes that script and `Script.payee?` recognises it; an address is another form of
the same payee.

* **`payee?_eq_some_iff`**: a script is recognised exactly when it is the script of the payee.
-/

namespace Bitcoin

/-- The script that locks a coin to a payee. -/
def Payee.script : Payee → Script
  | .keyHash h =>
      [.op Opcode.dup, .op Opcode.hash160, .data h.toBytes, .op Opcode.equalVerify,
        .op Opcode.checkSig]
  | .scriptHash h => [.op Opcode.hash160, .data h.toBytes, .op Opcode.equal]

namespace Script

/-- The hash of a public key that a script locks to, when it has that shape. -/
def keyHash? : Script → Option Hash160
  | [.op Opcode.dup, .op Opcode.hash160, .data bs, .op Opcode.equalVerify, .op Opcode.checkSig] =>
      FixedBytes.ofBytes? 20 bs
  | _ => none

/-- The hash of a script that a script locks to, when it has that shape. -/
def scriptHash? : Script → Option Hash160
  | [.op Opcode.hash160, .data bs, .op Opcode.equal] => FixedBytes.ofBytes? 20 bs
  | _ => none

/-- What a script locks a coin to, when it has a standard shape. -/
def payee? (s : Script) : Option Payee :=
  match keyHash? s with
  | some h => some (.keyHash h)
  | none => (scriptHash? s).map .scriptHash

/-- The address of a script of standard shape. -/
def address? [Digests] (s : Script) (net : Network) : Option String :=
  (payee? s).map (·.address net)

/-- The script that locks a coin to an address. -/
def ofAddress [Digests] (address : String) : Except Error Script := do
  return (← Payee.ofAddress address).script

/-- The script that unlocks a coin locked to a key hash: a signature and a public key. -/
def unlockKeyHash (signature sec : Bytes) : Script := [.data signature, .data sec]

theorem keyHash?_eq_some_iff {s : Script} {h : Hash160} :
    keyHash? s = some h ↔ s = (Payee.keyHash h).script := by
  constructor
  · intro hs
    unfold keyHash? at hs
    split at hs
    · rw [FixedBytes.ofBytes?_eq_some_iff.mp hs]; rfl
    · cases hs
  · rintro rfl
    exact FixedBytes.ofBytes?_eq_some_iff.mpr rfl

theorem scriptHash?_eq_some_iff {s : Script} {h : Hash160} :
    scriptHash? s = some h ↔ s = (Payee.scriptHash h).script := by
  constructor
  · intro hs
    unfold scriptHash? at hs
    split at hs
    · rw [FixedBytes.ofBytes?_eq_some_iff.mp hs]; rfl
    · cases hs
  · rintro rfl
    exact FixedBytes.ofBytes?_eq_some_iff.mpr rfl

/-- Only a digest can stand at the front of a script that locks to a script hash. -/
theorem scriptHash?_op_cons {code : UInt8} (h : code ≠ Opcode.hash160) (rest : Script) :
    scriptHash? (.op code :: rest) = none := by
  rw [Option.eq_none_iff_forall_ne_some]
  intro hash hsome
  have hlock := scriptHash?_eq_some_iff.mp hsome
  exact h (Command.op.inj (List.cons.inj hlock).1)

/-- A script is recognised exactly when it is the script of the payee. -/
theorem payee?_eq_some_iff {s : Script} {p : Payee} : payee? s = some p ↔ s = p.script := by
  constructor
  · intro hp
    unfold payee? at hp
    split at hp
    · next h hk => cases hp; exact keyHash?_eq_some_iff.mp hk
    · obtain ⟨h, hs, rfl⟩ := Option.map_eq_some_iff.mp hp
      exact scriptHash?_eq_some_iff.mp hs
  · rintro rfl
    unfold payee?
    cases p with
    | keyHash h => rw [keyHash?_eq_some_iff.mpr rfl]
    | scriptHash h =>
        rw [scriptHash?_eq_some_iff.mpr rfl]
        rfl

end Script

end Bitcoin
