import Bitcoin.Proofs.Script.Number
import Bitcoin.Proofs.Script.Run
import Mathlib.Data.List.Rotate

/-!
# Moving elements of the stack

Most opcodes that copy, move or drop elements do so at fixed depths. Two others take the depth from
the stack: the one copies the element at that depth to the top, the other moves it there. With these
two, and with the opcodes that work on the top two elements, the rest can be written as scripts. The
scripts fail on the same stacks, whatever their depth, and leave the same elements on the others.

* **`ActsAs`**: what a script does to the main stack, in front of any other commands.
* **`actsAs_pickAt`**, **`actsAs_rollAt`**: copying and moving from a given depth.
* **`Shuffle.actsAs_script`**: the script of an opcode does what the opcode does.
* **`shuffle_by_depth`**: the opcodes and their scripts, and moving as often as there are elements.
-/

namespace Bitcoin

namespace Script

/-- Copies the element at a depth to the top. -/
def pickAt (n : Nat) : Script := [.data (ScriptNumber.encode n), .op Opcode.pick]

/-- Moves the element at a depth to the top. -/
def rollAt (n : Nat) : Script := [.data (ScriptNumber.encode n), .op Opcode.roll]

end Script

open Script

/-- The opcodes that copy, move or drop elements at fixed depths. -/
inductive Shuffle
  | dup
  | over
  | dup2
  | dup3
  | over2
  | swap
  | rot
  | swap2
  | rot2
  | nip
  | tuck
  | drop2

namespace Shuffle

def op : Shuffle → StackOp
  | .dup => .dup
  | .over => .over
  | .dup2 => .dup2
  | .dup3 => .dup3
  | .over2 => .over2
  | .swap => .swap
  | .rot => .rot
  | .swap2 => .swap2
  | .rot2 => .rot2
  | .nip => .nip
  | .tuck => .tuck
  | .drop2 => .drop2

def code : Shuffle → UInt8
  | .dup => Opcode.dup
  | .over => Opcode.copySecond
  | .dup2 => Opcode.dup2
  | .dup3 => Opcode.dup3
  | .over2 => Opcode.over2
  | .swap => Opcode.swap
  | .rot => Opcode.rot
  | .swap2 => Opcode.swap2
  | .rot2 => Opcode.rot2
  | .nip => Opcode.nip
  | .tuck => Opcode.tuck
  | .drop2 => Opcode.drop2

theorem ofCode?_code (a : Shuffle) : Operation.ofCode? a.code = some (.stack a.op) := by
  cases a <;> rfl

/-- The same by depths, or by simpler opcodes one after the other. -/
def script : Shuffle → Script
  | .dup => pickAt 0
  | .over => pickAt 1
  | .dup2 => pickAt 1 ++ pickAt 1
  | .dup3 => pickAt 2 ++ pickAt 2 ++ pickAt 2
  | .over2 => pickAt 3 ++ pickAt 3
  | .swap => rollAt 1
  | .rot => rollAt 2
  | .swap2 => rollAt 3 ++ rollAt 3
  | .rot2 => rollAt 5 ++ rollAt 5
  | .nip => [.op Opcode.swap] ++ [.op Opcode.drop]
  | .tuck => [.op Opcode.swap] ++ [.op Opcode.copySecond]
  | .drop2 => [.op Opcode.drop] ++ [.op Opcode.drop]

end Shuffle

namespace Machine

variable [Digests]

/-- The machine that a run ends in, when it does not fail. -/
def outcome? (mode : Redemption) (ctx : SpendContext) (m : Machine) : Option Machine :=
  (m.run mode ctx).toOption

/-- In front of any other commands, does to the main stack what `f` does, and fails where `f` gives
    nothing. -/
def ActsAs (mode : Redemption) (ctx : SpendContext) (a : Script) (f : Stack → Option Stack) : Prop :=
  ∀ s alt rest, outcome? mode ctx ⟨s, alt, a ++ rest⟩
    = (f s).bind fun u => outcome? mode ctx ⟨u, alt, rest⟩

variable {mode : Redemption} {ctx : SpendContext} {a b : Script} {f g : Stack → Option Stack}

/-- One script behind the other does one thing after the other. -/
theorem ActsAs.append (ha : ActsAs mode ctx a f) (hb : ActsAs mode ctx b g) :
    ActsAs mode ctx (a ++ b) fun s => (f s).bind g := by
  intro s alt rest
  rw [List.append_assoc, ha, Option.bind_assoc]
  congr 1
  funext u
  exact hb u alt rest

theorem ActsAs.congr (ha : ActsAs mode ctx a f) (h : ∀ s, f s = g s) : ActsAs mode ctx a g := by
  intro s alt rest
  rw [← h]
  exact ha s alt rest

/-- An opcode does what its operation does. -/
theorem actsAs_stackOp {code : UInt8} {op : StackOp}
    (hop : Operation.ofCode? code = some (.stack op)) :
    ActsAs mode ctx [.op code] fun s => (op.apply s).toOption := by
  intro s alt rest
  show outcome? mode ctx ⟨s, alt, .op code :: rest⟩
    = (op.apply s).toOption.bind fun u => outcome? mode ctx ⟨u, alt, rest⟩
  cases hs : op.apply s with
  | ok u =>
      rw [outcome?, run_stackOp hop hs]
      rfl
  | error u =>
      have hstep : step mode ctx ⟨s, alt, rest⟩ (.op code) = .error (failure (.stack op) code) := by
        refine (perform_of_ofCode?_eq_some hop _).trans ?_
        rw [Operation.apply, hs]
        rfl
      rw [outcome?, run_cons, hstep]
      rfl

/-! ## Depths that are taken from the stack -/

omit [Digests] in
/-- A depth is found again as it was pushed. -/
theorem popIndex_encode (n : Nat) (s : Stack) :
    Stack.popIndex (ScriptNumber.encode n :: s)
      = s[n]?.elim (.error s) fun x => .ok (n, x, s) := by
  rw [Stack.popIndex, ScriptNumber.decode_encode, if_neg (Int.natCast_nonneg n).not_gt,
    Int.toNat_natCast]
  cases s[n]? with
  | none => rfl
  | some x => rfl

/-- A depth in front of an opcode is on top when the opcode is reached. -/
theorem actsAs_depth {code : UInt8} {op : StackOp}
    (hop : Operation.ofCode? code = some (.stack op)) (hcode : code ≠ Opcode.hash160) (n : Nat) :
    ActsAs mode ctx [.data (ScriptNumber.encode n), .op code]
      fun s => (op.apply (ScriptNumber.encode n :: s)).toOption := by
  intro s alt rest
  show outcome? mode ctx ⟨s, alt, .data (ScriptNumber.encode n) :: .op code :: rest⟩ = _
  rw [outcome?, run_data (Script.scriptHash?_op_cons hcode rest)]
  exact actsAs_stackOp hop _ alt rest

/-- A pushed depth and `PICK` copy the element at that depth. -/
theorem actsAs_pickAt (n : Nat) :
    ActsAs mode ctx (pickAt n) fun s => s[n]?.map fun x => x :: s := by
  have hop : Operation.ofCode? Opcode.pick = some (.stack .pick) := rfl
  refine (actsAs_depth hop (by decide) n).congr ?_
  intro s
  rw [StackOp.apply, Stack.pick, popIndex_encode]
  cases s[n]? with
  | none => rfl
  | some x => rfl

/-- A pushed depth and `ROLL` move the element at that depth to the top. -/
theorem actsAs_rollAt (n : Nat) :
    ActsAs mode ctx (rollAt n) fun s => s[n]?.map fun x => x :: s.eraseIdx n := by
  have hop : Operation.ofCode? Opcode.roll = some (.stack .roll) := rfl
  refine (actsAs_depth hop (by decide) n).congr ?_
  intro s
  rw [StackOp.apply, Stack.roll, popIndex_encode]
  cases s[n]? with
  | none => rfl
  | some x => rfl

/-! ## Fixed depths -/

/-- The script of an opcode fails on the stacks that are too short for the opcode, and leaves the
    same elements on the others. -/
theorem actsAs_script (a : Shuffle) :
    ActsAs mode ctx a.script fun s => (a.op.apply s).toOption := by
  have hdrop : ActsAs mode ctx [.op Opcode.drop] fun s => (StackOp.drop.apply s).toOption :=
    actsAs_stackOp rfl
  have hover : ActsAs mode ctx [.op Opcode.copySecond] fun s => (StackOp.over.apply s).toOption :=
    actsAs_stackOp rfl
  have hswap : ActsAs mode ctx [.op Opcode.swap] fun s => (StackOp.swap.apply s).toOption :=
    actsAs_stackOp rfl
  -- for each opcode, the stacks that are too short for it one by one, and the others
  match a with
  | .dup =>
      refine (actsAs_pickAt 0).congr fun s => ?_
      rcases s with _ | ⟨a, s⟩ <;> rfl
  | .over =>
      refine (actsAs_pickAt 1).congr fun s => ?_
      rcases s with _ | ⟨b, _ | ⟨a, s⟩⟩ <;> rfl
  | .dup2 =>
      refine ((actsAs_pickAt 1).append (actsAs_pickAt 1)).congr fun s => ?_
      rcases s with _ | ⟨b, _ | ⟨a, s⟩⟩ <;> rfl
  | .dup3 =>
      refine (((actsAs_pickAt 2).append (actsAs_pickAt 2)).append (actsAs_pickAt 2)).congr
        fun s => ?_
      rcases s with _ | ⟨c, _ | ⟨b, _ | ⟨a, s⟩⟩⟩ <;> rfl
  | .over2 =>
      refine ((actsAs_pickAt 3).append (actsAs_pickAt 3)).congr fun s => ?_
      rcases s with _ | ⟨d, _ | ⟨c, _ | ⟨b, _ | ⟨a, s⟩⟩⟩⟩ <;> rfl
  | .swap =>
      refine (actsAs_rollAt 1).congr fun s => ?_
      rcases s with _ | ⟨b, _ | ⟨a, s⟩⟩ <;> rfl
  | .rot =>
      refine (actsAs_rollAt 2).congr fun s => ?_
      rcases s with _ | ⟨c, _ | ⟨b, _ | ⟨a, s⟩⟩⟩ <;> rfl
  | .swap2 =>
      refine ((actsAs_rollAt 3).append (actsAs_rollAt 3)).congr fun s => ?_
      rcases s with _ | ⟨d, _ | ⟨c, _ | ⟨b, _ | ⟨a, s⟩⟩⟩⟩ <;> rfl
  | .rot2 =>
      refine ((actsAs_rollAt 5).append (actsAs_rollAt 5)).congr fun s => ?_
      rcases s with _ | ⟨f, _ | ⟨e, _ | ⟨d, _ | ⟨c, _ | ⟨b, _ | ⟨a, s⟩⟩⟩⟩⟩⟩ <;> rfl
  | .nip =>
      refine (hswap.append hdrop).congr fun s => ?_
      rcases s with _ | ⟨b, _ | ⟨a, s⟩⟩ <;> rfl
  | .tuck =>
      refine (hswap.append hover).congr fun s => ?_
      rcases s with _ | ⟨b, _ | ⟨a, s⟩⟩ <;> rfl
  | .drop2 =>
      refine (hdrop.append hdrop).congr fun s => ?_
      rcases s with _ | ⟨b, _ | ⟨a, s⟩⟩ <;> rfl

/-! ## Moving from one depth again and again -/

omit [Digests] in
/-- Moving from a depth turns the elements down to that depth round by one place. -/
theorem roll_eq_rotate {front back : Stack} {n : Nat} (h : front.length = n + 1) :
    ((front ++ back)[n]?.map fun x => x :: (front ++ back).eraseIdx n)
      = some (front.rotate n ++ back) := by
  obtain rfl | ⟨init, x, rfl⟩ := List.eq_nil_or_concat' front
  · exact nomatch h
  · obtain rfl : init.length = n := by simpa using h
    rw [List.rotate_append_length_eq, List.append_assoc,
      List.getElem?_append_right (Nat.le_refl _), List.eraseIdx_append_of_length_le (Nat.le_refl _),
      Nat.sub_self]
    rfl

omit [Digests] in
/-- A list that is turned by a multiple of its length is back where it was. -/
theorem rotate_full {front : Stack} {n : Nat} (h : front.length = n + 1) :
    front.rotate (n * (n + 1)) = front := by
  rw [← h, Nat.mul_comm, List.rotate_length_mul]

/-- Moving from a depth a number of times turns the elements round by as many places. -/
theorem outcome?_rolls (n count : Nat) {front : Stack} (h : front.length = n + 1) (back alt : Stack)
    (rest : Script) :
    outcome? mode ctx ⟨front ++ back, alt, (List.replicate count (rollAt n)).flatten ++ rest⟩
      = outcome? mode ctx ⟨front.rotate (n * count) ++ back, alt, rest⟩ := by
  induction count generalizing front with
  | zero =>
      rw [Nat.mul_zero, List.rotate_zero]
      rfl
  | succ count ih =>
      have hlength : (front.rotate n).length = n + 1 := (List.length_rotate front n).trans h
      have hcount : n + n * count = n * (count + 1) := by rw [Nat.mul_succ, Nat.add_comm]
      rw [List.replicate_succ, List.flatten_cons, List.append_assoc, actsAs_rollAt]
      simp only [roll_eq_rotate h, Option.bind_some]
      rw [ih hlength, List.rotate_rotate, hcount]

/-- Each opcode that moves elements at fixed depths and its script, in front of any commands, both
    fail or both go on with the same stacks. Moving from a depth as often as there are elements down
    to that depth changes nothing. -/
theorem shuffle_by_depth (mode : Redemption) (ctx : SpendContext) (s alt : Stack) (rest : Script) :
    (∀ a : Shuffle, outcome? mode ctx ⟨s, alt, .op a.code :: rest⟩
      = outcome? mode ctx ⟨s, alt, a.script ++ rest⟩) ∧
    ∀ n < s.length,
      outcome? mode ctx ⟨s, alt, (List.replicate (n + 1) (rollAt n)).flatten ++ rest⟩
        = outcome? mode ctx ⟨s, alt, rest⟩ := by
  constructor
  · intro a
    exact (actsAs_stackOp a.ofCode?_code s alt rest).trans (actsAs_script a s alt rest).symm
  · intro n hn
    have hlength : (s.take (n + 1)).length = n + 1 := by
      rw [List.length_take]
      omega
    have hrolls := @outcome?_rolls _ mode ctx n (n + 1) _ hlength (s.drop (n + 1)) alt rest
    rw [rotate_full hlength, List.take_append_drop] at hrolls
    exact hrolls

omit [Digests] in
/-- Four elements on top of a fifth are back in place after four moves from depth three. -/
theorem shuffle_by_depth_rolls :
    3 < ([[1], [2], [3], [4], [5]] : Stack).length ∧
      @outcome? Digests.standard .on (.final 0)
          ⟨[[1], [2], [3], [4], [5]], [], (List.replicate 4 (rollAt 3)).flatten⟩
        = some ⟨[[1], [2], [3], [4], [5]], [], []⟩ := by
  let _ : Digests := Digests.standard
  have hlength : 3 < ([[1], [2], [3], [4], [5]] : Stack).length := by decide
  have hrolls := (shuffle_by_depth .on (.final 0) _ [] []).2 3 hlength
  rw [List.append_nil] at hrolls
  refine ⟨hlength, hrolls.trans ?_⟩
  rw [outcome?, run_nil]
  rfl

end Machine

end Bitcoin
