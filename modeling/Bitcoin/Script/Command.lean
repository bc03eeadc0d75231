import Bitcoin.Script.Opcode

/-!
# Scripts as lists of commands

A script is a list of commands; a command is an opcode or a byte string to push. The weight of a
script counts one for each command and one for each byte pushed. It bounds how long a script can
run.
-/

namespace Bitcoin

/-- An opcode, or bytes to push. -/
inductive Command
  | op (code : UInt8)
  | data (bytes : Bytes)
deriving DecidableEq

/-- A list of commands. -/
abbrev Script := List Command

/-- One, and one more for each byte pushed. -/
def Command.weight : Command → Nat
  | .op _ => 1
  | .data bs => 1 + bs.length

/-- The name of an opcode, or its number where it has none; the digits of the bytes to push. -/
def Command.text : Command → String
  | .op code =>
      match Opcode.name? code with
      | some name => name
      | none => s!"OP_[{code.toNat}]"
  | .data bs => Hex.encode bs

namespace Script

/-- The weight of all commands together. -/
def weight : Script → Nat
  | [] => 0
  | c :: cs => c.weight + weight cs

/-- The commands with a blank between them. -/
def text (s : Script) : String := " ".intercalate (s.map Command.text)

end Script

theorem Command.one_le_weight (c : Command) : 1 ≤ c.weight := by
  cases c with
  | op code => exact Nat.le_refl 1
  | data bs => exact Nat.le_add_right 1 bs.length

end Bitcoin
