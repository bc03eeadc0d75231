import Bitcoin.Proofs.Script.Run

/-!
# How long a script runs

A run goes on as long as commands remain, and the commands are not fixed when it starts: a
conditional puts back those of its chosen part, and a redemption puts the commands of pushed bytes
in the place of what remains, where bytes that are pushed may be redeemed again. `runWithin` is the
loop with a limit on the number of commands that are taken, so that it needs no reason to end. The
weight of the script is always limit enough: what a conditional puts back was there before, and
pushed bytes are made into no more commands than they are bytes.

* **`Machine.exists_runWithin_eq`**: a run takes a definite number of commands, within the weight.
* **`Script.exists_executeWithin_eq`**: so does the run of a script, up to its verdict.
-/

namespace Bitcoin

namespace Machine

variable [Digests] {mode : Redemption} {ctx : SpendContext}

/-- Takes commands until none is left, one fails, or as many have been taken as the limit allows.
    There is no result while commands remain. -/
def runWithin (mode : Redemption) (ctx : SpendContext) :
    Nat → Machine → Option (Except Script.Failure Machine)
  | _, ⟨s, alt, []⟩ => some (.ok ⟨s, alt, []⟩)
  | 0, ⟨_, _, _ :: _⟩ => none
  | limit + 1, ⟨s, alt, c :: rest⟩ =>
      match step mode ctx ⟨s, alt, rest⟩ c with
      | .error e => some (.error e)
      | .ok t => runWithin mode ctx limit t

theorem runWithin_nil (limit : Nat) (s alt : Stack) :
    runWithin mode ctx limit ⟨s, alt, []⟩ = some (.ok ⟨s, alt, []⟩) := by
  cases limit with
  | zero => rfl
  | succ limit => rfl

/-- A command that fails ends the loop. -/
theorem runWithin_of_step_error {s alt : Stack} {c : Command} {rest : Script} {e : Script.Failure}
    (h : step mode ctx ⟨s, alt, rest⟩ c = .error e) (limit : Nat) :
    runWithin mode ctx (limit + 1) ⟨s, alt, c :: rest⟩ = some (.error e) := by
  rw [runWithin, h]

/-- A command that succeeds is counted, and the loop goes on from what it leaves. -/
theorem runWithin_of_step_ok {s alt : Stack} {c : Command} {rest : Script} {t : Machine}
    (h : step mode ctx ⟨s, alt, rest⟩ c = .ok t) (limit : Nat) :
    runWithin mode ctx (limit + 1) ⟨s, alt, c :: rest⟩ = runWithin mode ctx limit t := by
  rw [runWithin, h]

/-- A run takes a definite number of commands, which is at most the weight of what remains: with a
    lower limit the loop has no result, and from there on it has that of the run. -/
theorem exists_runWithin_eq (m : Machine) : ∃ taken ≤ Script.weight m.cmds, ∀ limit,
    runWithin mode ctx limit m = if taken ≤ limit then some (run mode ctx m) else none := by
  induction m using run_induction mode ctx with
  | nil s alt =>
      refine ⟨0, Nat.zero_le _, fun limit => ?_⟩
      rw [if_pos (Nat.zero_le limit), runWithin_nil, run_nil]
  | cons s alt c rest ih =>
      rw [run_cons]
      cases hstep : step mode ctx ⟨s, alt, rest⟩ c with
      | error e =>
          refine ⟨1, Nat.le_trans c.one_le_weight (Nat.le_add_right _ _), fun limit => ?_⟩
          cases limit with
          | zero => rfl
          | succ limit => exact runWithin_of_step_error hstep limit
      | ok t =>
          have hweight : Script.weight t.cmds < Script.weight (c :: rest) :=
            weight_step (m := ⟨s, alt, rest⟩) hstep
          obtain ⟨taken, hle, htaken⟩ := ih t hstep
          refine ⟨taken + 1, Nat.lt_of_le_of_lt hle hweight, fun limit => ?_⟩
          cases limit with
          | zero => rfl
          | succ limit =>
              rw [runWithin_of_step_ok hstep, htaken]
              simp only [Nat.add_le_add_iff_right]
              rfl

end Machine

namespace Script

variable [Digests]

/-- Runs a script from empty stacks with a limit on the number of commands, and asks for the verdict
    when the loop has ended. -/
def executeWithin (ctx : SpendContext) (limit : Nat) (s : Script) : Option (Except Failure Unit) :=
  (Machine.runWithin .on ctx limit (.start s)).map fun result => result >>= Machine.verdict

/-- The run of a script takes a definite number of commands, at most one for each command of the
    script and one for each byte that it pushes, whatever the digests and the spending it is run
    for: with a lower limit the loop is still going on, and from there on it has ended. -/
theorem exists_executeWithin_eq (ctx : SpendContext) (s : Script) : ∃ taken ≤ weight s, ∀ limit,
    s.executeWithin ctx limit = if taken ≤ limit then some (s.execute ctx) else none := by
  obtain ⟨taken, hle, htaken⟩ := @Machine.exists_runWithin_eq _ .on ctx (.start s)
  refine ⟨taken, hle, fun limit => ?_⟩
  rw [executeWithin, htaken]
  by_cases hlimit : taken ≤ limit
  · rw [if_pos hlimit, if_pos hlimit]
    rfl
  · rw [if_neg hlimit, if_neg hlimit]
    rfl

end Script

end Bitcoin
