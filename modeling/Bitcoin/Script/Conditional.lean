import Bitcoin.Script.Command
import Bitcoin.Script.Stack

/-!
# Conditionals

The opcode that opens a conditional takes a truth value and cuts down the commands that follow: of
those up to the matching end it keeps the first part or the part after the first separator, and
drops the delimiters. Conditionals nested inside are kept whole, to be opened when they are
reached. A further separator at the same level is dropped and changes nothing.

* **`weight_selectPart`**: what is kept weighs less than what was there.
-/

namespace Bitcoin

namespace Command

/-- Whether the command opens a conditional. -/
def opens (c : Command) : Bool := c = .op Opcode.ifTrue ∨ c = .op Opcode.ifFalse

/-- Whether the command separates the parts of a conditional. -/
def separates (c : Command) : Bool := c = .op Opcode.orElse

/-- Whether the command closes a conditional. -/
def closes (c : Command) : Bool := c = .op Opcode.endIf

end Command

namespace Script

/-- Puts a command in front when it is to be kept. -/
def consWhen (keep : Bool) (c : Command) (rest : Script) : Script :=
  if keep then c :: rest else rest

/-- The commands that remain when a conditional is cut down to one of its parts. `keep` says
    whether the part being read is the chosen one, `alternative` whether the part after the next
    separator is, and `depth` counts the open conditionals inside. There are none when the end is
    missing. -/
def selectPart (keep alternative : Bool) : Nat → Script → Option Script
  | _, [] => none
  | depth, c :: rest =>
      if c.opens then (selectPart keep alternative (depth + 1) rest).map (consWhen keep c)
      else if c.separates && depth = 0 then selectPart alternative alternative 0 rest
      else if c.closes then
        match depth with
        | 0 => some rest
        | inner + 1 => (selectPart keep alternative inner rest).map (consWhen keep c)
      else (selectPart keep alternative depth rest).map (consWhen keep c)

/-- The commands that remain after a conditional whose first part runs when `first` holds. -/
def branch (first : Bool) (s : Script) : Option Script := selectPart first (!first) 0 s

theorem weight_consWhen (keep : Bool) (c : Command) (s : Script) :
    weight (consWhen keep c s) ≤ c.weight + weight s := by
  rw [consWhen]
  split
  · exact Nat.le_refl _
  · exact Nat.le_add_left _ _

/-- What is kept weighs less than what was there. -/
theorem weight_selectPart {keep alternative : Bool} {depth : Nat} {s t : Script}
    (h : selectPart keep alternative depth s = some t) : weight t < weight s := by
  induction s generalizing keep depth t with
  | nil => cases h
  | cons c rest ih =>
      have hc := c.one_le_weight
      have hkept : ∀ {d : Nat},
          (selectPart keep alternative d rest).map (consWhen keep c) = some t →
            weight t < weight (c :: rest) := by
        intro d hk
        obtain ⟨u, hu, rfl⟩ := Option.map_eq_some_iff.mp hk
        exact Nat.lt_of_le_of_lt (weight_consWhen keep c u) (Nat.add_lt_add_left (ih hu) _)
      rw [selectPart.eq_def] at h
      dsimp only at h
      split at h
      · exact hkept h
      · split at h
        · exact Nat.lt_of_lt_of_le (ih h) (Nat.le_add_left _ _)
        · split at h
          · split at h
            · cases h
              exact Nat.lt_add_of_pos_left hc
            · exact hkept h
          · exact hkept h

end Script

/-- The operations that open a conditional. -/
inductive FlowOp
  | ifTrue
  | ifFalse
deriving DecidableEq

/-- Whether the first part runs on the given condition. -/
def FlowOp.takesFirst : FlowOp → Bool → Bool
  | .ifTrue, condition => condition
  | .ifFalse, condition => !condition

/-- Takes the condition and cuts the commands down to the chosen part. Without a matching end no
    command is left and the condition stays. -/
def FlowOp.apply (op : FlowOp) : Stack × Script → Attempt (Stack × Script)
  | ([], cmds) => .error ([], cmds)
  | (top :: s, cmds) =>
      match Script.branch (op.takesFirst (ScriptNumber.isTrue top)) cmds with
      | some rest => .ok (s, rest)
      | none => .error (top :: s, [])

theorem FlowOp.weight_apply {op : FlowOp} {s t : Stack} {cmds rest : Script}
    (h : op.apply (s, cmds) = .ok (t, rest)) : Script.weight rest < Script.weight cmds := by
  cases s with
  | nil => cases h
  | cons top s =>
      rw [FlowOp.apply] at h
      split at h
      · next hb => cases h; exact Script.weight_selectPart hb
      · cases h

end Bitcoin
