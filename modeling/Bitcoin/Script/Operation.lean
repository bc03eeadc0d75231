import Bitcoin.Key.Signature
import Bitcoin.Script.Conditional

/-!
# What an opcode does

An opcode pushes a small number, works on the stack, moves between the stacks, opens a
conditional, checks a signature, or checks a lock time. `Operation.ofCode?` is the table. Codes
without an operation are unknown; two codes are known and refused.

Signatures and lock times are checked against the transaction that spends the coin, of which a
script sees a `SpendContext`.

* **`weight_apply`**: no operation makes the remaining commands heavier.
-/

namespace Bitcoin

/-! ## Signature checks

A check takes a public key and a signature with one byte behind it, which is dropped, and leaves
whether the signature holds for the digest of the spending transaction. Bytes that are no public
key or no signature make it fail; a signature that does not hold does not. -/

/-- The two forms of a check: leave the answer, or fail unless it is true. -/
inductive SigOp
  | check
  | checkVerify
deriving DecidableEq

/-- Whether a signature with its extra byte holds for a public key and a digest. -/
def signatureHolds (sec signature : Bytes) (z : Int) : Except Error Bool := do
  let key ← Secp256k1.Point.ofSec sec
  let sig ← Signature.ofDer signature.dropLast
  return sig.verifies key z

/-- Replaces a public key and a signature with whether the signature holds. -/
def Stack.checkSig (z : Int) : Stack → Attempt Stack
  | sec :: signature :: s =>
      match signatureHolds sec signature z with
      | .ok holds => .ok (ScriptNumber.ofBool holds :: s)
      | .error _ => .error s
  | s => .error s

/-- What a check does to the stack. -/
def SigOp.apply (op : SigOp) (z : Int) (s : Stack) : Attempt Stack :=
  match op with
  | .check => s.checkSig z
  | .checkVerify => (s.checkSig z).andThen Stack.verify

/-! ## Lock times

A script can demand that the transaction which spends it is locked until a height or a time, or
that the spending input has waited for long enough. Both demands are read from the top of the
stack and compared with fields of the spending transaction; the stack is not changed. -/

/-- What a script sees of the transaction that spends it: the digest that signatures are checked
    against, the lock time, the sequence of the spending input, and the version. -/
structure SpendContext where
  z : Int
  lockTime : UInt32
  sequence : UInt32
  version : UInt32
deriving DecidableEq

namespace SpendContext

/-- The context of a final transaction of version 1. -/
def final (z : Int) : SpendContext := ⟨z, 0, 0xffffffff, 1⟩

/-- Lock times below this number are heights, the others are times. -/
def heightLimit : Nat := 500000000

/-- Whether the lock time has reached `required`: both are heights or both are times, and the input
    is not final. -/
def reachedLockTime (ctx : SpendContext) (required : Int) : Bool :=
  let lockTime := ctx.lockTime.toNat
  ctx.sequence ≠ 0xffffffff &&
    0 ≤ required && required < 0x10000000000000000 &&
    decide (required < heightLimit) == decide (lockTime < heightLimit) &&
    required ≤ lockTime

/-- Switches a relative lock off. -/
def disableFlag : UInt32 := 0x80000000

/-- Tells a lock by time from a lock by height. -/
def typeFlag : UInt32 := 0x00400000

/-- The bits that hold the length of a relative lock. -/
def valueMask : UInt32 := 0x0000ffff

/-- Whether the input has waited for `required`, of which only the low 32 bits count. The version
    is compared as a signed number. -/
def reachedRelativeLock (ctx : SpendContext) (required : Int) : Bool :=
  let low := UInt32.ofNat (required % 0x100000000).toNat
  0 ≤ required &&
    (low &&& disableFlag ≠ 0 ||
      (2 ≤ ctx.version.toInt32 && ctx.sequence &&& disableFlag = 0 &&
        low &&& typeFlag = ctx.sequence &&& typeFlag &&
        low &&& valueMask ≤ ctx.sequence &&& valueMask))

end SpendContext

/-- The two demands on lock times. -/
inductive LockOp
  | lockTime
  | relative
deriving DecidableEq

/-- Fails unless the demand on top of the stack is met; the stack stays as it is. -/
def LockOp.apply (op : LockOp) (ctx : SpendContext) : Stack → Attempt Stack
  | [] => .error []
  | top :: s =>
      let required := ScriptNumber.decode top
      let met := match op with
        | .lockTime => ctx.reachedLockTime required
        | .relative => ctx.reachedRelativeLock required
      if met then .ok (top :: s) else .error (top :: s)

/-! ## The table of opcodes -/

/-- What an opcode does. -/
inductive Operation
  | push (n : Int)
  | stack (op : StackOp)
  | alt (op : AltOp)
  | flow (op : FlowOp)
  | sig (op : SigOp)
  | lock (op : LockOp)
  | unsupported
deriving DecidableEq

/-- The operation of a stack opcode. -/
def StackOp.ofCode? (code : UInt8) : Option StackOp :=
  match code with
  | Opcode.nop => some .nop
  | Opcode.verify => some .verify
  | Opcode.fail => some .fail
  | Opcode.drop2 => some .drop2
  | Opcode.dup2 => some .dup2
  | Opcode.dup3 => some .dup3
  | Opcode.over2 => some .over2
  | Opcode.rot2 => some .rot2
  | Opcode.swap2 => some .swap2
  | Opcode.ifDup => some .ifDup
  | Opcode.depth => some .depth
  | Opcode.drop => some .drop
  | Opcode.dup => some .dup
  | Opcode.nip => some .nip
  | Opcode.copySecond => some .over
  | Opcode.pick => some .pick
  | Opcode.roll => some .roll
  | Opcode.rot => some .rot
  | Opcode.swap => some .swap
  | Opcode.tuck => some .tuck
  | Opcode.size => some .size
  | Opcode.equal => some .equal
  | Opcode.equalVerify => some .equalVerify
  | Opcode.increment => some (.unary .increment)
  | Opcode.decrement => some (.unary .decrement)
  | Opcode.negate => some (.unary .negate)
  | Opcode.abs => some (.unary .abs)
  | Opcode.not => some (.unary .not)
  | Opcode.isNonZero => some (.unary .isNonZero)
  | Opcode.add => some (.binary .add)
  | Opcode.sub => some (.binary .sub)
  | Opcode.mul => some (.binary .mul)
  | Opcode.both => some (.compare .both)
  | Opcode.either => some (.compare .either)
  | Opcode.numEqual => some (.compare .equal)
  | Opcode.numEqualVerify => some .numEqualVerify
  | Opcode.numNotEqual => some (.compare .notEqual)
  | Opcode.less => some (.compare .less)
  | Opcode.greater => some (.compare .greater)
  | Opcode.lessOrEqual => some (.compare .lessOrEqual)
  | Opcode.greaterOrEqual => some (.compare .greaterOrEqual)
  | Opcode.min => some (.binary .min)
  | Opcode.max => some (.binary .max)
  | Opcode.within => some .within
  | Opcode.ripemd160 => some (.hash .ripemd160)
  | Opcode.sha1 => some (.hash .sha1)
  | Opcode.sha256 => some (.hash .sha256)
  | Opcode.hash160 => some (.hash .hash160)
  | Opcode.hash256 => some (.hash .hash256)
  | Opcode.codeSeparator => some .nop
  | Opcode.nop1 => some .nop
  | Opcode.nop4 => some .nop
  | Opcode.nop5 => some .nop
  | Opcode.nop6 => some .nop
  | Opcode.nop7 => some .nop
  | Opcode.nop8 => some .nop
  | Opcode.nop9 => some .nop
  | Opcode.nop10 => some .nop
  | _ => none

/-- The operation of a code, where it has one. -/
def Operation.ofCode? (code : UInt8) : Option Operation :=
  if Opcode.push 1 ≤ code ∧ code ≤ Opcode.push 16 then
    some (.push (code.toNat - (Opcode.push 0).toNat))
  else match code with
    | Opcode.pushEmpty => some (.push 0)
    | Opcode.pushMinusOne => some (.push (-1))
    | Opcode.ifTrue => some (.flow .ifTrue)
    | Opcode.ifFalse => some (.flow .ifFalse)
    | Opcode.toAlt => some (.alt .toAlt)
    | Opcode.fromAlt => some (.alt .fromAlt)
    | Opcode.checkSig => some (.sig .check)
    | Opcode.checkSigVerify => some (.sig .checkVerify)
    | Opcode.checkMultiSig => some .unsupported
    | Opcode.checkMultiSigVerify => some .unsupported
    | Opcode.checkLockTime => some (.lock .lockTime)
    | Opcode.checkSequence => some (.lock .relative)
    | code => (StackOp.ofCode? code).map .stack

/-- The two stacks and the commands that remain. -/
structure Machine where
  stack : Stack
  alt : Stack
  cmds : Script
deriving DecidableEq

namespace Machine

/-- An attempt on the main stack, as one on the machine. -/
def withStack (m : Machine) (attempt : Attempt Stack) : Attempt Machine :=
  match attempt with
  | .ok s => .ok { m with stack := s }
  | .error s => .error { m with stack := s }

/-- An attempt on both stacks, as one on the machine. -/
def withStacks (m : Machine) (attempt : Attempt (Stack × Stack)) : Attempt Machine :=
  match attempt with
  | .ok (s, alt) => .ok { m with stack := s, alt := alt }
  | .error (s, alt) => .error { m with stack := s, alt := alt }

/-- An attempt on the main stack and the commands, as one on the machine. -/
def withCommands (m : Machine) (attempt : Attempt (Stack × Script)) : Attempt Machine :=
  match attempt with
  | .ok (s, cmds) => .ok { m with stack := s, cmds := cmds }
  | .error (s, cmds) => .error { m with stack := s, cmds := cmds }

variable {m t : Machine}

theorem withStack_eq_ok_iff {attempt : Attempt Stack} :
    m.withStack attempt = .ok t ↔ ∃ s, attempt = .ok s ∧ { m with stack := s } = t := by
  cases attempt <;> simp [withStack]

theorem withStacks_eq_ok_iff {attempt : Attempt (Stack × Stack)} :
    m.withStacks attempt = .ok t ↔
      ∃ s alt, attempt = .ok (s, alt) ∧ { m with stack := s, alt := alt } = t := by
  rcases attempt with ⟨s, alt⟩ | ⟨s, alt⟩ <;> simp [withStacks, and_assoc]

theorem withCommands_eq_ok_iff {attempt : Attempt (Stack × Script)} :
    m.withCommands attempt = .ok t ↔
      ∃ s cmds, attempt = .ok (s, cmds) ∧ { m with stack := s, cmds := cmds } = t := by
  rcases attempt with ⟨s, cmds⟩ | ⟨s, cmds⟩ <;> simp [withCommands, and_assoc]

end Machine

namespace Operation

/-- What an operation does to the machine. -/
def apply [Digests] (op : Operation) (ctx : SpendContext) (m : Machine) : Attempt Machine :=
  match op with
  | .push n => .ok { m with stack := ScriptNumber.encode n :: m.stack }
  | .stack op => m.withStack (op.apply m.stack)
  | .alt op => m.withStacks (op.apply (m.stack, m.alt))
  | .flow op => m.withCommands (op.apply (m.stack, m.cmds))
  | .sig op => m.withStack (op.apply ctx.z m.stack)
  | .lock op => m.withStack (op.apply ctx m.stack)
  | .unsupported => .error m

theorem cmds_of_withStack {m t : Machine} {attempt : Attempt Stack}
    (h : m.withStack attempt = .ok t) : t.cmds = m.cmds := by
  obtain ⟨s, -, rfl⟩ := Machine.withStack_eq_ok_iff.mp h
  rfl

/-- No operation makes the remaining commands heavier. -/
theorem weight_apply [Digests] {op : Operation} {ctx : SpendContext} {m t : Machine}
    (h : op.apply ctx m = .ok t) : Script.weight t.cmds ≤ Script.weight m.cmds := by
  unfold apply at h
  split at h
  · cases h; exact Nat.le_refl _
  · exact Nat.le_of_eq (congrArg _ (cmds_of_withStack h))
  · obtain ⟨s, alt, -, rfl⟩ := Machine.withStacks_eq_ok_iff.mp h
    exact Nat.le_refl _
  · obtain ⟨s, cmds, hf, rfl⟩ := Machine.withCommands_eq_ok_iff.mp h
    exact Nat.le_of_lt (FlowOp.weight_apply hf)
  · exact Nat.le_of_eq (congrArg _ (cmds_of_withStack h))
  · exact Nat.le_of_eq (congrArg _ (cmds_of_withStack h))
  · cases h

end Operation

end Bitcoin
