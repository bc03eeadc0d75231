import Bitcoin.Script.Operation
import Bitcoin.Script.Template
import Bitcoin.Script.Wire

/-!
# Running a script

The machine takes one command after the other. Pushing bytes can trigger redemption: when exactly
a hash, a digest opcode before it and a comparison behind it remain, the pushed bytes must have
that hash, and the commands that they are made of take the place of what remains. A run succeeds
when no command is left and the top element is true.

* **`weight_step`**: a step takes weight from the remaining commands, so every run ends.
* **`run_cons`**: a run takes the first command and goes on with what it leaves.
-/

namespace Bitcoin

/-- Why a script did not succeed. -/
inductive Script.Failure
  | opFailed (code : UInt8)
  | unknownOpcode (code : UInt8)
  | unsupported (code : UInt8)
  | redeemMismatch
  | badRedeemScript
  | emptyStack
  | falseResult
deriving DecidableEq

/-- The wording of a failure. -/
def Script.Failure.message : Script.Failure → String
  | .opFailed code => Opcode.name code ++ " failed"
  | .unknownOpcode code => s!"Unknown opcode {code.toNat}"
  | .unsupported code => Opcode.name code ++ " is not supported"
  | .redeemMismatch => "Redeem script does not match the P2SH hash"
  | .badRedeemScript => "Redeem script could not be parsed"
  | .emptyStack => "Stack is empty after evaluation"
  | .falseResult => "Top stack element is false"

/-- Whether pushed bytes can stand for a script, or are only bytes. -/
inductive Redemption
  | on
  | off
deriving DecidableEq

namespace Machine

/-- The machine before the first command of a script. -/
def start (s : Script) : Machine := ⟨[], [], s⟩

/-- Performs an opcode on a machine from which it has been taken. -/
def perform [Digests] (ctx : SpendContext) (code : UInt8) (m : Machine) :
    Except Script.Failure Machine :=
  match Operation.ofCode? code with
  | none =>
      if code = Opcode.orElse ∨ code = Opcode.endIf then .error (.opFailed code)
      else .error (.unknownOpcode code)
  | some .unsupported => .error (.unsupported code)
  | some op =>
      match op.apply ctx m with
      | .ok t => .ok t
      | .error _ => .error (.opFailed code)

/-- Replaces the remaining commands with those that the bytes are made of, when the bytes have the
    hash. -/
def redeem [Digests] (hash : Hash160) (bs : Bytes) (m : Machine) : Except Script.Failure Machine :=
  if Digests.hash160 bs = hash then
    match Script.ofRaw bs with
    | .ok cmds => .ok { m with cmds := cmds }
    | .error _ => .error .badRedeemScript
  else .error .redeemMismatch

/-- Takes in bytes on a machine from which they have been taken. -/
def push [Digests] (mode : Redemption) (bs : Bytes) (m : Machine) : Except Script.Failure Machine :=
  match mode, Script.scriptHash? m.cmds with
  | .on, some hash => m.redeem hash bs
  | _, _ => .ok { m with stack := bs :: m.stack }

/-- Takes one command. -/
def step [Digests] (mode : Redemption) (ctx : SpendContext) (m : Machine) (c : Command) :
    Except Script.Failure Machine :=
  match c with
  | .op code => m.perform ctx code
  | .data bs => m.push mode bs

theorem weight_perform [Digests] {ctx : SpendContext} {code : UInt8} {m t : Machine}
    (h : m.perform ctx code = .ok t) : Script.weight t.cmds ≤ Script.weight m.cmds := by
  unfold perform at h
  split at h
  · split at h <;> cases h
  · cases h
  · split at h
    · next ha => cases h; exact Operation.weight_apply ha
    · cases h

theorem weight_push [Digests] {mode : Redemption} {bs : Bytes} {m t : Machine}
    (h : m.push mode bs = .ok t) :
    Script.weight t.cmds ≤ bs.length + Script.weight m.cmds := by
  unfold push at h
  split at h
  · unfold redeem at h
    split at h
    · split at h
      · next hr =>
          cases h
          exact Nat.le_trans (Script.weight_ofRaw hr) (Nat.le_add_right _ _)
      · cases h
    · cases h
  · cases h
    exact Nat.le_add_left _ _

/-- A step takes weight from the remaining commands. -/
theorem weight_step [Digests] {mode : Redemption} {ctx : SpendContext} {m t : Machine}
    {c : Command} {rest : Script} (h : step mode ctx { m with cmds := rest } c = .ok t) :
    Script.weight t.cmds < Script.weight (c :: rest) := by
  cases c with
  | op code =>
      exact Nat.lt_of_le_of_lt (weight_perform h) (Nat.lt_add_of_pos_left Nat.one_pos)
  | data bs =>
      refine Nat.lt_of_le_of_lt (weight_push h) ?_
      show bs.length + Script.weight rest < 1 + bs.length + Script.weight rest
      omega

/-- Takes commands until none is left. -/
def run [Digests] (mode : Redemption) (ctx : SpendContext) (m : Machine) :
    Except Script.Failure Machine :=
  match hc : m.cmds with
  | [] => .ok m
  | c :: rest =>
      match hs : step mode ctx { m with cmds := rest } c with
      | .error e => .error e
      | .ok t =>
          have : Script.weight t.cmds < Script.weight m.cmds := hc ▸ weight_step hs
          run mode ctx t
termination_by Script.weight m.cmds

theorem run_nil [Digests] (mode : Redemption) (ctx : SpendContext) (s alt : Stack) :
    run mode ctx ⟨s, alt, []⟩ = .ok ⟨s, alt, []⟩ := by
  rw [run]

/-- A run takes the first command and goes on with what it leaves. -/
theorem run_cons [Digests] (mode : Redemption) (ctx : SpendContext) (s alt : Stack) (c : Command)
    (rest : Script) :
    run mode ctx ⟨s, alt, c :: rest⟩ = (step mode ctx ⟨s, alt, rest⟩ c).bind (run mode ctx) := by
  rw [run]
  split
  · next h => cases h
  · next h =>
      cases h
      split
      · next e hs =>
          have he : step mode ctx ⟨s, alt, rest⟩ c = .error e := hs
          rw [he]; rfl
      · next t hs =>
          have ht : step mode ctx ⟨s, alt, rest⟩ c = .ok t := hs
          show run mode ctx t = _
          rw [ht]; rfl

/-- Whether the machine ends with a true element on top. -/
def verdict (m : Machine) : Except Script.Failure Unit :=
  match m.stack with
  | [] => .error .emptyStack
  | top :: _ => if ScriptNumber.isTrue top then .ok () else .error .falseResult

end Machine

namespace Script

/-- Runs a script from empty stacks and asks for the verdict. -/
def execute [Digests] (ctx : SpendContext) (s : Script) : Except Failure Unit := do
  (← (Machine.start s).run .on ctx).verdict

/-- Whether a script succeeds. -/
def evaluate [Digests] (ctx : SpendContext) (s : Script) : Bool := (s.execute ctx).isOk

end Script

end Bitcoin
