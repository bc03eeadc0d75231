import Bitcoin.Proofs.Script.Number
import Bitcoin.Proofs.Script.Run
import Mathlib.Algebra.Order.Group.Unbundled.Int

/-!
# Scripts that compute

An expression over the integers is written as a script in the usual way for a stack: the scripts of
the operands one after the other, each constant as a push of its bytes, and the opcode of the
operator behind them. The numbers have no bound, and what an opcode leaves is what is written for
its value, so nothing is lost between two opcodes, whatever the stacks hold below.

* **`Arithmetic.value`**: what an expression denotes.
* **`run_script_append`**: the script of an expression in front of any other.
* **`run_script`**: the script of an expression leaves its value, and nothing else.
-/

namespace Bitcoin

/-! ## The opcodes of the operators -/

def UnaryOp.code : UnaryOp → UInt8
  | .increment => Opcode.increment
  | .decrement => Opcode.decrement
  | .negate => Opcode.negate
  | .abs => Opcode.abs
  | .not => Opcode.not
  | .isNonZero => Opcode.isNonZero

def BinaryOp.code : BinaryOp → UInt8
  | .add => Opcode.add
  | .sub => Opcode.sub
  | .mul => Opcode.mul
  | .min => Opcode.min
  | .max => Opcode.max

def CompareOp.code : CompareOp → UInt8
  | .both => Opcode.both
  | .either => Opcode.either
  | .equal => Opcode.numEqual
  | .notEqual => Opcode.numNotEqual
  | .less => Opcode.less
  | .greater => Opcode.greater
  | .lessOrEqual => Opcode.lessOrEqual
  | .greaterOrEqual => Opcode.greaterOrEqual

/-- The opcode of a function of one number is read as that function. -/
theorem UnaryOp.ofCode?_code (op : UnaryOp) :
    Operation.ofCode? op.code = some (.stack (.unary op)) := by
  cases op <;> decide

theorem BinaryOp.ofCode?_code (op : BinaryOp) :
    Operation.ofCode? op.code = some (.stack (.binary op)) := by
  cases op <;> decide

theorem CompareOp.ofCode?_code (op : CompareOp) :
    Operation.ofCode? op.code = some (.stack (.compare op)) := by
  cases op <;> decide

/-! ## Expressions -/

/-- An expression over the integers. -/
inductive Arithmetic
  | constant (n : Int)
  | unary (op : UnaryOp) (a : Arithmetic)
  | binary (op : BinaryOp) (a b : Arithmetic)
  | compare (op : CompareOp) (a b : Arithmetic)
  | within (x low high : Arithmetic)

namespace Arithmetic

/-- One for what holds, zero for what does not. -/
def truth (p : Prop) [Decidable p] : Int := if p then 1 else 0

/-- The integer that an expression denotes. -/
def value : Arithmetic → Int
  | constant n => n
  | unary .increment a => a.value + 1
  | unary .decrement a => a.value - 1
  | unary .negate a => -a.value
  | unary .abs a => |a.value|
  | unary .not a => truth (a.value = 0)
  | unary .isNonZero a => truth (a.value ≠ 0)
  | binary .add a b => a.value + b.value
  | binary .sub a b => a.value - b.value
  | binary .mul a b => a.value * b.value
  | binary .min a b => min a.value b.value
  | binary .max a b => max a.value b.value
  | compare .both a b => truth (a.value ≠ 0 ∧ b.value ≠ 0)
  | compare .either a b => truth (a.value ≠ 0 ∨ b.value ≠ 0)
  | compare .equal a b => truth (a.value = b.value)
  | compare .notEqual a b => truth (a.value ≠ b.value)
  | compare .less a b => truth (a.value < b.value)
  | compare .greater a b => truth (a.value > b.value)
  | compare .lessOrEqual a b => truth (a.value ≤ b.value)
  | compare .greaterOrEqual a b => truth (a.value ≥ b.value)
  | within x low high => truth (low.value ≤ x.value ∧ x.value < high.value)

/-- The script of an expression: the operands in order, and then the operator. -/
def script : Arithmetic → Script
  | constant n => [.data (ScriptNumber.encode n)]
  | unary op a => a.script ++ [.op op.code]
  | binary op a b => a.script ++ b.script ++ [.op op.code]
  | compare op a b => a.script ++ b.script ++ [.op op.code]
  | within x low high => x.script ++ low.script ++ high.script ++ [.op Opcode.within]

/-! ## What the operators do to numbers -/

/-- What the opcode computes from the value of the operand is the value of the expression. -/
theorem unary_eval (op : UnaryOp) (a : Arithmetic) : op.eval a.value = (unary op a).value := by
  cases op with
  | abs => exact Int.natCast_natAbs _
  | isNonZero => exact (ite_not _ _ _).symm
  | increment | decrement | negate | not => rfl

/-- The same for two operands; the smaller and the larger of two numbers are found by a comparison.
    -/
theorem binary_eval (op : BinaryOp) (a b : Arithmetic) :
    op.eval a.value b.value = (binary op a b).value := by
  cases op with
  | min => exact (min_def _ _).symm
  | max => exact (max_def _ _).symm
  | add | sub | mul => rfl

/-- An answer is put on the stack as the number that stands for its truth. -/
theorem ofBool_eq_encode_truth {b : Bool} {p : Prop} [Decidable p] (h : b = true ↔ p) :
    ScriptNumber.ofBool b = ScriptNumber.encode (truth p) :=
  congrArg ScriptNumber.encode (if_congr h rfl rfl)

/-- The answer to a comparison of two values is the value of the comparison. -/
theorem ofBool_holds (op : CompareOp) (a b : Arithmetic) :
    ScriptNumber.ofBool (op.holds a.value b.value)
      = ScriptNumber.encode (compare op a b).value := by
  cases op <;> refine ofBool_eq_encode_truth ?_ <;> simp [CompareOp.holds]

/-! ## The script of an expression -/

/-- The script of an expression starts with a constant. -/
theorem exists_script_eq_cons (e : Arithmetic) : ∃ bs tail, e.script = .data bs :: tail := by
  induction e with
  | constant n => exact ⟨_, _, rfl⟩
  | unary op a ih =>
      obtain ⟨bs, tail, ha⟩ := ih
      exact ⟨bs, tail ++ [.op op.code], by rw [script, ha, List.cons_append]⟩
  | binary op a b iha ihb =>
      obtain ⟨bs, tail, ha⟩ := iha
      exact ⟨bs, tail ++ b.script ++ [.op op.code], by simp only [script, ha, List.cons_append]⟩
  | compare op a b iha ihb =>
      obtain ⟨bs, tail, ha⟩ := iha
      exact ⟨bs, tail ++ b.script ++ [.op op.code], by simp only [script, ha, List.cons_append]⟩
  | within x low high ihx ihlow ihhigh =>
      obtain ⟨bs, tail, hx⟩ := ihx
      exact ⟨bs, tail ++ low.script ++ high.script ++ [.op Opcode.within],
        by simp only [script, hx, List.cons_append]⟩

/-- A script that locks to a script hash starts with an opcode, and an expression with its constant.
    -/
theorem scriptHash?_script_append (e : Arithmetic) (rest : Script) :
    Script.scriptHash? (e.script ++ rest) = none := by
  obtain ⟨bs, tail, he⟩ := e.exists_script_eq_cons
  rw [he]
  rfl

variable [Digests] {mode : Redemption} {ctx : SpendContext}

/-- The script of an expression in front of another puts its value on the stack. What follows is not
    to be taken for a script that locks to a script hash, which the constant in front of it would
    have to redeem. -/
theorem run_script_append (e : Arithmetic) {s alt : Stack} {rest : Script}
    (h : Script.scriptHash? rest = none) : Machine.run mode ctx ⟨s, alt, e.script ++ rest⟩
      = Machine.run mode ctx ⟨ScriptNumber.encode e.value :: s, alt, rest⟩ := by
  -- for any script behind it, since the script of an operand has that of the next one behind it
  induction e generalizing s rest with
  | constant n => exact Machine.run_data h
  | unary op a ih =>
      have hop : Script.scriptHash? (.op op.code :: rest) = none :=
        Script.scriptHash?_op_cons (by cases op <;> decide) rest
      have happly : StackOp.apply (.unary op) (ScriptNumber.encode a.value :: s)
          = .ok (ScriptNumber.encode (unary op a).value :: s) := by
        rw [StackOp.apply, Stack.unary, ScriptNumber.decode_encode, unary_eval]
      rw [script, List.append_assoc, List.singleton_append, ih hop,
        Machine.run_stackOp op.ofCode?_code happly]
  | binary op a b iha ihb =>
      have hop : Script.scriptHash? (.op op.code :: rest) = none :=
        Script.scriptHash?_op_cons (by cases op <;> decide) rest
      have happly : StackOp.apply (.binary op)
          (ScriptNumber.encode b.value :: ScriptNumber.encode a.value :: s)
            = .ok (ScriptNumber.encode (binary op a b).value :: s) := by
        rw [StackOp.apply, Stack.binary, ScriptNumber.decode_encode, ScriptNumber.decode_encode,
          binary_eval]
      rw [script, List.append_assoc, List.append_assoc, List.singleton_append,
        iha (b.scriptHash?_script_append _), ihb hop,
        Machine.run_stackOp op.ofCode?_code happly]
  | compare op a b iha ihb =>
      have hop : Script.scriptHash? (.op op.code :: rest) = none :=
        Script.scriptHash?_op_cons (by cases op <;> decide) rest
      have happly : StackOp.apply (.compare op)
          (ScriptNumber.encode b.value :: ScriptNumber.encode a.value :: s)
            = .ok (ScriptNumber.encode (compare op a b).value :: s) := by
        rw [StackOp.apply, Stack.compare, ScriptNumber.decode_encode, ScriptNumber.decode_encode,
          ofBool_holds]
      rw [script, List.append_assoc, List.append_assoc, List.singleton_append,
        iha (b.scriptHash?_script_append _), ihb hop,
        Machine.run_stackOp op.ofCode?_code happly]
  | within x low high ihx ihlow ihhigh =>
      have hop : Operation.ofCode? Opcode.within = some (.stack .within) := by decide
      have happly : StackOp.apply .within (ScriptNumber.encode high.value ::
          ScriptNumber.encode low.value :: ScriptNumber.encode x.value :: s)
            = .ok (ScriptNumber.encode (within x low high).value :: s) := by
        simp only [StackOp.apply, Stack.within, ScriptNumber.decode_encode]
        rw [ofBool_eq_encode_truth (p := low.value ≤ x.value ∧ x.value < high.value) (by simp)]
        rfl
      simp only [script, List.append_assoc, List.singleton_append]
      rw [ihx (low.scriptHash?_script_append _), ihlow (high.scriptHash?_script_append _),
        ihhigh (Script.scriptHash?_op_cons (by decide) rest), Machine.run_stackOp hop happly]

/-- The script of an expression runs to its end from any stacks, whether or not pushed bytes can
    stand for a script. It puts what is written for the value of the expression on top, and changes
    nothing else. -/
theorem run_script (mode : Redemption) (ctx : SpendContext) (e : Arithmetic) (s alt : Stack) :
    Machine.run mode ctx ⟨s, alt, e.script⟩
      = .ok ⟨ScriptNumber.encode e.value :: s, alt, []⟩ := by
  have hrun := @run_script_append _ mode ctx e s alt [] rfl
  rw [List.append_nil] at hrun
  rw [hrun, Machine.run_nil]

/-- The upper one of two operands is the second. -/
example : (binary .sub (constant 2) (constant 5)).script = [.data [2], .data [5], .op Opcode.sub] ∧
    (binary .sub (constant 2) (constant 5)).value = -3 := by
  decide +kernel

end Arithmetic

end Bitcoin
