import Bitcoin.Digest

/-!
# What opcodes do to the stack

The stack is a list of byte strings with the top at the head. An operation either succeeds or
fails, and in both cases leaves a stack behind: a failing comparison has already taken its
operands, while an operation that finds too few elements leaves them alone. So an operation
returns an `Attempt`, which holds the stack after success or after failure.

A number is written with its low byte first, the fewest bytes for its magnitude, and the sign in
the highest bit of the last byte; where that bit is taken, a further byte carries the sign. Zero
is the empty string. Reading accepts any byte string of any length.

* **`StackOp.apply`** is the whole table: moving elements, arithmetic, comparison, digests.
* A copy or a move names its elements by pattern; `pick` and `roll` take the index from the stack.
-/

/-! ## Numbers on the stack -/

namespace Bitcoin.ScriptNumber

/-- The bytes of a magnitude with the sign put into the last one. -/
def withSign (negative : Bool) (magnitude : Bytes) : Bytes :=
  match magnitude.getLast? with
  | none => []
  | some last =>
      if 0x80 ≤ last then magnitude ++ [if negative then 0x80 else 0x00]
      else if negative then magnitude.dropLast ++ [last ||| 0x80]
      else magnitude

/-- The bytes of a number. -/
def encode (n : Int) : Bytes := withSign (n < 0) (leMinimal n.natAbs)

/-- The number of any bytes. -/
def decode (bs : Bytes) : Int :=
  match bs.getLast? with
  | none => 0
  | some last =>
      let magnitude : Int := leValue (bs.dropLast ++ [last &&& 0x7f])
      if 0x80 ≤ last then -magnitude else magnitude

/-- The bytes of a truth value. -/
def ofBool (b : Bool) : Bytes := encode (if b then 1 else 0)

/-- Whether the bytes denote a number other than zero. -/
def isTrue (bs : Bytes) : Bool := decode bs ≠ 0

end Bitcoin.ScriptNumber

/-! ## Operations -/

namespace Bitcoin

/-- Byte strings with the top at the head. -/
abbrev Stack := List Bytes

/-- The state after success, or the state that a failure left behind. -/
abbrev Attempt (σ : Type) := Except σ σ

/-- Goes on from the state after success; a failure stays as it is. -/
def Attempt.andThen {σ : Type} (first : Attempt σ) (next : σ → Attempt σ) : Attempt σ :=
  match first with
  | .ok s => next s
  | .error s => .error s

/-- Functions of one number. -/
inductive UnaryOp
  | increment
  | decrement
  | negate
  | abs
  | not
  | isNonZero
deriving DecidableEq

/-- The value of a function of one number. -/
def UnaryOp.eval : UnaryOp → Int → Int
  | .increment, n => n + 1
  | .decrement, n => n - 1
  | .negate, n => -n
  | .abs, n => n.natAbs
  | .not, n => if n = 0 then 1 else 0
  | .isNonZero, n => if n = 0 then 0 else 1

/-- Functions of two numbers with a number as value. -/
inductive BinaryOp
  | add
  | sub
  | mul
  | min
  | max
deriving DecidableEq

/-- The value of a function of two numbers. -/
def BinaryOp.eval : BinaryOp → Int → Int → Int
  | .add, a, b => a + b
  | .sub, a, b => a - b
  | .mul, a, b => a * b
  | .min, a, b => if a ≤ b then a else b
  | .max, a, b => if a ≤ b then b else a

/-- Relations between two numbers. -/
inductive CompareOp
  | both
  | either
  | equal
  | notEqual
  | less
  | greater
  | lessOrEqual
  | greaterOrEqual
deriving DecidableEq

/-- Whether a relation holds. -/
def CompareOp.holds : CompareOp → Int → Int → Bool
  | .both, a, b => a ≠ 0 && b ≠ 0
  | .either, a, b => a ≠ 0 || b ≠ 0
  | .equal, a, b => a = b
  | .notEqual, a, b => a ≠ b
  | .less, a, b => a < b
  | .greater, a, b => b < a
  | .lessOrEqual, a, b => a ≤ b
  | .greaterOrEqual, a, b => b ≤ a

/-- The digests that an opcode can ask for. -/
inductive HashOp
  | ripemd160
  | sha1
  | sha256
  | hash160
  | hash256
deriving DecidableEq

/-- The digest of a byte string. -/
def HashOp.digest [Digests] : HashOp → Bytes → Bytes
  | .ripemd160, bs => (Digests.ripemd160 bs).toBytes
  | .sha1, bs => (Digests.sha1 bs).toBytes
  | .sha256, bs => (Digests.sha256 bs).toBytes
  | .hash160, bs => (Digests.hash160 bs).toBytes
  | .hash256, bs => (Digests.hash256 bs).toBytes

/-- The operations that need the stack and nothing else. -/
inductive StackOp
  | nop
  | verify
  | fail
  | drop2
  | dup2
  | dup3
  | over2
  | rot2
  | swap2
  | ifDup
  | depth
  | drop
  | dup
  | nip
  | over
  | pick
  | roll
  | rot
  | swap
  | tuck
  | size
  | equal
  | equalVerify
  | unary (op : UnaryOp)
  | binary (op : BinaryOp)
  | compare (op : CompareOp)
  | numEqualVerify
  | within
  | hash (op : HashOp)
deriving DecidableEq

namespace Stack

/-- Takes the top element and fails unless it is true. -/
def verify : Stack → Attempt Stack
  | [] => .error []
  | top :: s => if ScriptNumber.isTrue top then .ok s else .error s

/-- Replaces two elements with whether they are equal. -/
def equal : Stack → Attempt Stack
  | b :: a :: s => .ok (ScriptNumber.ofBool (a = b) :: s)
  | s => .error s

/-- Replaces a number with a function of it. -/
def unary (f : Int → Int) : Stack → Attempt Stack
  | a :: s => .ok (ScriptNumber.encode (f (ScriptNumber.decode a)) :: s)
  | [] => .error []

/-- Replaces two numbers with a function of them; the upper one is the second argument. -/
def binary (f : Int → Int → Int) : Stack → Attempt Stack
  | b :: a :: s =>
      .ok (ScriptNumber.encode (f (ScriptNumber.decode a) (ScriptNumber.decode b)) :: s)
  | s => .error s

/-- Replaces two numbers with whether they are related. -/
def compare (r : Int → Int → Bool) : Stack → Attempt Stack
  | b :: a :: s =>
      .ok (ScriptNumber.ofBool (r (ScriptNumber.decode a) (ScriptNumber.decode b)) :: s)
  | s => .error s

/-- Replaces a number and two bounds with whether it is at least the lower and below the upper. -/
def within : Stack → Attempt Stack
  | hi :: lo :: x :: s =>
      let n := ScriptNumber.decode x
      .ok (ScriptNumber.ofBool (ScriptNumber.decode lo ≤ n && n < ScriptNumber.decode hi) :: s)
  | s => .error s

/-- Takes a number and gives the index that it denotes in the remaining stack, with the element
    there. -/
def popIndex : Stack → Except Stack (Nat × Bytes × Stack)
  | [] => .error []
  | top :: s =>
      let n := ScriptNumber.decode top
      if n < 0 then .error s
      else match s[n.toNat]? with
        | some x => .ok (n.toNat, x, s)
        | none => .error s

/-- Copies the element at an index to the top. -/
def pick (s : Stack) : Attempt Stack :=
  match popIndex s with
  | .ok (_, x, rest) => .ok (x :: rest)
  | .error rest => .error rest

/-- Moves the element at an index to the top. -/
def roll (s : Stack) : Attempt Stack :=
  match popIndex s with
  | .ok (i, x, rest) => .ok (x :: rest.eraseIdx i)
  | .error rest => .error rest

end Stack

/-- What an operation does to the stack. -/
def StackOp.apply [Digests] : StackOp → Stack → Attempt Stack
  | .nop, s => .ok s
  | .verify, s => s.verify
  | .fail, s => .error s
  | .drop2, _ :: _ :: s => .ok s
  | .dup2, b :: a :: s => .ok (b :: a :: b :: a :: s)
  | .dup3, c :: b :: a :: s => .ok (c :: b :: a :: c :: b :: a :: s)
  | .over2, d :: c :: b :: a :: s => .ok (b :: a :: d :: c :: b :: a :: s)
  | .rot2, f :: e :: d :: c :: b :: a :: s => .ok (b :: a :: f :: e :: d :: c :: s)
  | .swap2, d :: c :: b :: a :: s => .ok (b :: a :: d :: c :: s)
  | .ifDup, a :: s => .ok (if ScriptNumber.isTrue a then a :: a :: s else a :: s)
  | .depth, s => .ok (ScriptNumber.encode s.length :: s)
  | .drop, _ :: s => .ok s
  | .dup, a :: s => .ok (a :: a :: s)
  | .nip, b :: _ :: s => .ok (b :: s)
  | .over, b :: a :: s => .ok (a :: b :: a :: s)
  | .pick, s => s.pick
  | .roll, s => s.roll
  | .rot, c :: b :: a :: s => .ok (a :: c :: b :: s)
  | .swap, b :: a :: s => .ok (a :: b :: s)
  | .tuck, b :: a :: s => .ok (b :: a :: b :: s)
  | .size, a :: s => .ok (ScriptNumber.encode a.length :: a :: s)
  | .equal, s => s.equal
  | .equalVerify, s => s.equal.andThen Stack.verify
  | .unary op, s => s.unary op.eval
  | .binary op, s => s.binary op.eval
  | .compare op, s => s.compare op.holds
  | .numEqualVerify, s => (s.compare CompareOp.equal.holds).andThen Stack.verify
  | .within, s => s.within
  | .hash op, a :: s => .ok (op.digest a :: s)
  | _, s => .error s

/-- The operations that move an element between the main stack and the other one. -/
inductive AltOp
  | toAlt
  | fromAlt
deriving DecidableEq

/-- What a move does to the main stack and the other one. -/
def AltOp.apply : AltOp → Stack × Stack → Attempt (Stack × Stack)
  | .toAlt, (a :: s, alt) => .ok (s, a :: alt)
  | .fromAlt, (s, a :: alt) => .ok (a :: s, alt)
  | _, both => .error both

end Bitcoin
