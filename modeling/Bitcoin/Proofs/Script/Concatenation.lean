import Bitcoin.Proofs.Script.Balanced
import Bitcoin.Proofs.Script.Run

/-!
# Scripts one after the other

A script that unlocks a coin runs in front of the script that locks it. Two things in the machine
look past the command at hand: a conditional scans what follows for its end, and a push compares
what follows with the script that locks to a script hash. Neither sees a balanced locking script
that is no end of such a script. So the first script runs as if it were alone, and what it leaves
on the stacks is all that the second gets from it.

* **`step_append`**: a step does not look at what is behind the commands.
* **`run_append`**: the commands in front are run alone, those behind them from where that ends.
* **`execute_append_iff`**: when one script after the other succeeds.
-/

namespace Bitcoin

namespace Machine

/-- The machine with more commands behind its own. -/
def append (m : Machine) (b : Script) : Machine := { m with cmds := m.cmds ++ b }

variable {b : Script}

/-- Commands that do not end in what is behind them are no script that locks to a script hash. -/
theorem scriptHash?_append (hp : ∀ h : Hash160, ¬ b <:+ (Payee.scriptHash h).script)
    (cmds : Script) : Script.scriptHash? (cmds ++ b) = none := by
  cases hs : Script.scriptHash? (cmds ++ b) with
  | none => rfl
  | some h => exact absurd ⟨cmds, Script.scriptHash?_eq_some_iff.mp hs⟩ (hp h)

theorem withStack_append {ε : Type} (m : Machine) (attempt : Attempt Stack) (e : ε) :
    ((m.append b).withStack attempt).mapError (fun _ => e)
      = ((m.withStack attempt).mapError fun _ => e).map (·.append b) := by
  cases attempt with
  | ok t => rfl
  | error t => rfl

variable [Digests]

/-- Only the operations that open a conditional look at the commands. -/
theorem apply_append_of_ne_flow {ε : Type} {op : Operation} (hop : ∀ flow, op ≠ .flow flow)
    (ctx : SpendContext) (m : Machine) (e : ε) :
    (op.apply ctx (m.append b)).mapError (fun _ => e)
      = ((op.apply ctx m).mapError fun _ => e).map (·.append b) := by
  obtain ⟨s, alt, cmds⟩ := m
  cases op with
  | push n => rfl
  | stack op => exact withStack_append ⟨s, alt, cmds⟩ (op.apply s) e
  | alt op =>
      show (withStacks _ (op.apply (s, alt))).mapError _
        = ((withStacks _ (op.apply (s, alt))).mapError _).map _
      cases op.apply (s, alt) with
      | ok t => rfl
      | error t => rfl
  | flow op => exact absurd rfl (hop op)
  | sig op => exact withStack_append ⟨s, alt, cmds⟩ (op.apply ctx.z s) e
  | lock op => exact withStack_append ⟨s, alt, cmds⟩ (op.apply ctx s) e
  | unsupported => rfl

/-- An operation does not look at a balanced script behind the commands. -/
theorem apply_append {ε : Type} (hb : b.Balanced) (op : Operation) (ctx : SpendContext)
    (m : Machine) (e : ε) :
    (op.apply ctx (m.append b)).mapError (fun _ => e)
      = ((op.apply ctx m).mapError fun _ => e).map (·.append b) := by
  by_cases hop : ∃ flow, op = .flow flow
  · obtain ⟨op, rfl⟩ := hop
    obtain ⟨s, alt, cmds⟩ := m
    -- the commands are dropped when the operation fails
    show (withCommands _ (op.apply (s, cmds ++ b))).mapError _
      = ((withCommands _ (op.apply (s, cmds))).mapError _).map _
    cases s with
    | nil => rfl
    | cons top s =>
        rw [FlowOp.apply, FlowOp.apply, Script.branch_append hb]
        cases Script.branch (op.takesFirst (ScriptNumber.isTrue top)) cmds with
        | some rest => rfl
        | none => rfl
  · exact apply_append_of_ne_flow (fun flow h => hop ⟨flow, h⟩) ctx m e

theorem perform_append (hb : b.Balanced) (ctx : SpendContext) (code : UInt8) (m : Machine) :
    (m.append b).perform ctx code = (m.perform ctx code).map (·.append b) := by
  cases hop : Operation.ofCode? code with
  | none =>
      obtain ⟨e, he⟩ := perform_of_ofCode?_eq_none hop
      rw [he, he]
      rfl
  | some op =>
      rw [perform_of_ofCode?_eq_some hop, perform_of_ofCode?_eq_some hop]
      exact apply_append hb op ctx m _

/-- A step does not look at what is behind the commands, and with that behind them no push is taken
    for a script. -/
theorem step_append (hb : b.Balanced) (hp : ∀ h : Hash160, ¬ b <:+ (Payee.scriptHash h).script)
    (ctx : SpendContext) (m : Machine) (c : Command) :
    step .on ctx (m.append b) c = (step .off ctx m c).map (·.append b) := by
  cases c with
  | op code => exact perform_append hb ctx code m
  | data bs =>
      show (m.append b).push .on bs = (m.push .off bs).map (·.append b)
      rw [push_off, push_of_scriptHash?_eq_none (scriptHash?_append hp m.cmds)]
      rfl

/-- The commands in front are run alone, and those behind them from where that ends. -/
theorem run_append (hb : b.Balanced) (hp : ∀ h : Hash160, ¬ b <:+ (Payee.scriptHash h).script)
    (ctx : SpendContext) (m : Machine) :
    (m.append b).run .on ctx
      = (m.run .off ctx).bind fun t => run .on ctx ⟨t.stack, t.alt, b⟩ := by
  -- along the run of the commands in front, which may rewrite what is left of them
  induction m using run_induction .off ctx with
  | nil s alt =>
      rw [run_nil]
      rfl
  | cons s alt c rest ih =>
      show run .on ctx ⟨s, alt, c :: (rest ++ b)⟩ = _
      have hstep : step .on ctx ⟨s, alt, rest ++ b⟩ c
          = (step .off ctx ⟨s, alt, rest⟩ c).map (·.append b) :=
        step_append hb hp ctx ⟨s, alt, rest⟩ c
      rw [run_cons, run_cons, hstep]
      cases hu : step .off ctx ⟨s, alt, rest⟩ c with
      | error e => rfl
      | ok u => exact ih u hu

/-- When one script after the other succeeds from given stacks. -/
theorem execute_append_eq_ok_iff (hb : b.Balanced)
    (hp : ∀ h : Hash160, ¬ b <:+ (Payee.scriptHash h).script) (ctx : SpendContext) (m : Machine) :
    (m.append b).execute ctx = .ok () ↔
      ∃ s alt, m.run .off ctx = .ok ⟨s, alt, []⟩ ∧ execute ctx ⟨s, alt, b⟩ = .ok () := by
  have hrun : (m.append b).execute ctx
      = (m.run .off ctx).bind fun t => execute ctx ⟨t.stack, t.alt, b⟩ := by
    rw [execute, run_append hb hp]
    cases m.run .off ctx with
    | error e => rfl
    | ok t => rfl
  rw [hrun, Except.bind_eq_ok_iff]
  constructor
  · rintro ⟨t, ht, hexec⟩
    have hcmds := cmds_run ht
    obtain ⟨s, alt, cmds⟩ := t
    obtain rfl : cmds = [] := hcmds
    exact ⟨s, alt, ht, hexec⟩
  · rintro ⟨s, alt, ht, hexec⟩
    exact ⟨_, ht, hexec⟩

end Machine

namespace Script

/-- A script longer than one that locks to a script hash is no end of one. -/
theorem not_suffix_scriptHash {b : Script} (hlong : 3 < b.length) (h : Hash160) :
    ¬ b <:+ (Payee.scriptHash h).script := by
  intro hsuffix
  have hlength : b.length ≤ 3 := hsuffix.length_le
  omega

/-- One script after the other succeeds exactly when the first runs alone to its end, with no push
    taken for a script, and the second succeeds from the stacks that are left. The second script is
    balanced and no end of a script that locks to a script hash, so in particular not empty. -/
theorem execute_append_iff [Digests] (ctx : SpendContext) (a : Script) {b : Script}
    (hb : b.Balanced) (hp : ∀ h : Hash160, ¬ b <:+ (Payee.scriptHash h).script) :
    (a ++ b).execute ctx = .ok () ↔
      ∃ s alt, (Machine.start a).run .off ctx = .ok ⟨s, alt, []⟩ ∧
        Machine.execute ctx ⟨s, alt, b⟩ = .ok () :=
  Machine.execute_append_eq_ok_iff hb hp ctx (Machine.start a)

/-- A conditional in the locking script, with an unlocking script that pushes one. -/
theorem execute_append_iff_conditional :
    Balanced [.op Opcode.ifTrue, .op Opcode.pushOne, .op Opcode.endIf] ∧
      (∀ h : Hash160, ¬ [.op Opcode.ifTrue, .op Opcode.pushOne, .op Opcode.endIf] <:+
        (Payee.scriptHash h).script) ∧
      (@execute Digests.standard (.final 0)
          ([.op Opcode.pushOne] ++ [.op Opcode.ifTrue, .op Opcode.pushOne, .op Opcode.endIf])
          = .ok () ↔
        ∃ s alt, @Machine.run Digests.standard .off (.final 0) (Machine.start [.op Opcode.pushOne])
            = .ok ⟨s, alt, []⟩ ∧
          @Machine.execute Digests.standard (.final 0)
            ⟨s, alt, [.op Opcode.ifTrue, .op Opcode.pushOne, .op Opcode.endIf]⟩ = .ok ()) := by
  have hb : Balanced [.op Opcode.ifTrue, .op Opcode.pushOne, .op Opcode.endIf] := by decide
  have hp : ∀ h : Hash160, ¬ [.op Opcode.ifTrue, .op Opcode.pushOne, .op Opcode.endIf] <:+
      (Payee.scriptHash h).script := by
    rintro h ⟨cmds, hcmds⟩
    have hlast := congrArg List.getLast? hcmds
    rw [List.getLast?_append] at hlast
    have hend : Command.op Opcode.endIf = .op Opcode.equal := Option.some.inj hlast
    exact absurd hend (by decide)
  exact ⟨hb, hp, @execute_append_iff Digests.standard (.final 0) [.op Opcode.pushOne] _ hb hp⟩

end Script

end Bitcoin
